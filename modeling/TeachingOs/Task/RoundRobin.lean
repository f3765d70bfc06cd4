import Mathlib.Data.List.Rotate
import TeachingOs.Task.Queue

/-!
# TeachingOs.Task.RoundRobin

Successive calls of `task_yield`.  On the queue a yield is one rotation of
the running task in front of the ready ones (`Queue.rotate_yield`); a ready
task may have been suspended by `task_start`, by `mi_switch`, or by the
`mi_switch` of an interrupt, which is one statement further from its own
code.  `roundRobin` reads off where each task is after any number of yields.
-/

namespace TeachingOs

variable {T : Type}

/-! ## Rotating the queue -/

/-- The running task in front of the ready ones. -/
def Queue.line (q : Queue T) : List T := q.current :: q.ready

/-- Every yield of the queue is a rotation. -/
theorem Queue.rotate_yield (q : Queue T) : ∃ q', q.after .yield = some q' ∧
    q'.line = q.line.rotate 1 ∧ q'.zombie = q.zombie := by
  obtain ⟨c, ready, zombie⟩ := q
  cases ready with
  | nil => exact ⟨_, rfl, by simp [line], rfl⟩
  | cons n rest => exact ⟨_, rfl, by simp [line], rfl⟩

/-- The line and the zombies are the queue. -/
theorem Queue.eq_of_line {q : Queue T} {c : T} {ready zombie : List T}
    (hline : q.line = c :: ready) (hzombie : q.zombie = zombie) : q = ⟨c, ready, zombie⟩ := by
  obtain ⟨_, _, _⟩ := q
  cases hline
  cases hzombie
  rfl

/-! ## Whole yields -/

/-- How a task waits: for its first statement, in `mi_switch`, or in the
`mi_switch` of an interrupt. -/
inductive Switched : List (Activation T) → Prop where
  | startup (fn userdata : Word) : Switched [.startup fn userdata]
  | yielded (spl : Int) : Switched [.switched spl]
  | preempted (spl oldspl : Int) : Switched [.switched spl, .trap oldspl]

/-- The kernel is between operations and shows the queue, and every ready
task waits for the CPU. -/
abbrev Settled (k : Kernel T) (q : Queue T) : Prop := Resting Switched k q

variable {k : Kernel T} {q : Queue T} {c : T} {ready zombie : List T}

/-- Without interrupts every ready task waits so. -/
theorem Idle.settled (h : Idle k q) : Settled k q := by
  refine ⟨h.current, h.user, h.lists, h.off, h.next, h.prev, fun t ht => ?_⟩
  obtain ⟨s, hs, hrank⟩ := h.saved t ht
  refine ⟨s, hs, ?_⟩
  obtain ⟨a, rfl, -⟩ := of_rank_one hrank
  cases a with
  | startup fn userdata => exact .startup fn userdata
  | switched spl => exact .yielded spl
  | _ => cases hrank

variable [DecidableEq T]

/-- `task_yield`, and the return from the interrupt if one suspended the task
that is switched to. -/
def yieldToUser (k : Kernel T) : Except Panic (Kernel T) := do
  let k ← taskYield k
  step k

/-- `n` calls of `task_yield`, by whichever task runs. -/
def yields : Nat → Kernel T → Except Panic (Kernel T)
  | 0, k => .ok k
  | n + 1, k => do
    let k ← yields n k
    yieldToUser k

/-- The statement that sets the level leaves the rest of the control stack. -/
theorem Resting.step_level {P : List (Activation T) → Prop} {w : Kernel T}
    (hw : Resting P { w with stack := [] } q) {a : Activation T} {s : List (Activation T)}
    (hs : w.stack = a :: s) (ha : a.setsLevel = true) :
    ∃ w', step w = .ok w' ∧ w'.stack = s ∧ Resting P { w' with stack := [] } q := by
  obtain ⟨v, m, hrun⟩ := TeachingOs.step_level hs ha
  exact ⟨_, hrun, rfl, hw.setSpl w.curtask v v m⟩

/-- In its own code a task executes nothing of the kernel. -/
theorem Resting.step_user {P : List (Activation T) → Prop} {w : Kernel T}
    (hw : Resting P { w with stack := [] } q) (hs : w.stack = []) :
    step w = .ok w ∧ Resting P w q := by
  obtain ⟨heap, curtask, curspl, masked, _⟩ := w
  cases hs
  exact ⟨rfl, hw⟩

/-- A task that was switched to gets back to its own code. -/
theorem Switched.resume {w : Kernel T} (h : Switched w.stack)
    (hw : Settled { w with stack := [] } q) : ∃ k', steps 2 w = .ok k' ∧ Settled k' q := by
  have hone : ∀ {a}, w.stack = [a] → a.setsLevel = true →
      ∃ k', steps 2 w = .ok k' ∧ Settled k' q := by
    intro a hs ha
    obtain ⟨w₁, h₁, hs₁, hw₁⟩ := hw.step_level hs ha
    obtain ⟨h₂, hw₂⟩ := hw₁.step_user hs₁
    exact ⟨w₁, by simp only [steps, h₁, h₂, ok_bind], hw₂⟩
  generalize hstack : w.stack = s at h
  cases h with
  | startup fn userdata => exact hone hstack rfl
  | yielded spl => exact hone hstack rfl
  | preempted spl oldspl =>
      obtain ⟨w₁, h₁, hs₁, hw₁⟩ := hw.step_level hstack rfl
      obtain ⟨w₂, h₂, hs₂, hw₂⟩ := hw₁.step_level hs₁ rfl
      exact ⟨w₂, by simp only [steps, h₁, h₂, ok_bind], (hw₂.step_user hs₂).2⟩

/-- A switch, its six statements and one more. -/
theorem miSwitch_step (into : TaskState) (k : Kernel T) :
    (do
      let k ← miSwitch into k
      step k) = (do
      let w ← steps 5 (callSwitch into k)
      steps 2 w) := by
  have hone : ∀ k : Kernel T, steps 1 k = step k := fun k => bind_pure (step k)
  rw [← steps_add 5 2, steps_add 6 1]
  simp only [miSwitch, hone]

/-- A switch between ready tasks, given what it does to the list. -/
theorem Settled.switch {n : T} {R : List T} (h : Settled k ⟨c, ready, zombie⟩)
    (hn : ready.head?.getD c = n) (hmem : n ∈ ready ++ [c]) (hR : R = (ready ++ [c]).erase n) :
    ∃ k', yieldToUser k = .ok k' ∧ Settled k' ⟨n, R, zombie⟩ := by
  have hlist : taskStateToList .ready = .ok .tasksReady := rfl
  obtain ⟨w, hw, hswitched, hresting, -⟩ :=
    h.dispatch Switched.yielded hlist hn queues_update_ready hmem
  obtain ⟨k', hrun, hk'⟩ := hswitched.resume hresting
  exact ⟨k', by rw [yieldToUser, taskYield, miSwitch_step, hw, ok_bind, hrun], hR ▸ hk'⟩

/-- **Refinement.** A call of `task_yield` is a yield of the queue. -/
theorem Settled.yield (h : Settled k q) :
    ∃ k' q', yieldToUser k = .ok k' ∧ q.after .yield = some q' ∧ Settled k' q' := by
  obtain ⟨c, ready, zombie⟩ := q
  cases ready with
  | nil =>
      obtain ⟨k', hrun, hk'⟩ := h.switch (R := []) rfl (by simp) (by simp)
      exact ⟨k', _, hrun, rfl, hk'⟩
  | cons n rest =>
      obtain ⟨k', hrun, hk'⟩ := h.switch (R := rest ++ [c]) rfl (by simp) (by simp)
      exact ⟨k', _, hrun, rfl, hk'⟩

/-- After any number of yields the line has been rotated as often. -/
theorem Settled.yields (h : Settled k q) (j : Nat) : ∃ k' q', yields j k = .ok k' ∧
    Settled k' q' ∧ q'.line = q.line.rotate j ∧ q'.zombie = q.zombie := by
  induction j with
  | zero => exact ⟨k, q, rfl, h, (List.rotate_zero _).symm, rfl⟩
  | succ j ih =>
      obtain ⟨k₁, q₁, h₁, hk₁, hline₁, hzombie₁⟩ := ih
      obtain ⟨k₂, q₂, h₂, hafter, hk₂⟩ := hk₁.yield
      obtain ⟨q', hq', hline, hzombie⟩ := q₁.rotate_yield
      cases hafter.symm.trans hq'
      refine ⟨k₂, q₂, by rw [TeachingOs.yields, h₁, ok_bind, h₂], hk₂, ?_, hzombie.trans hzombie₁⟩
      rw [hline, hline₁, List.rotate_rotate]

/-- **Round robin.** Yield `i + 1` makes ready task `i` current, one more than
there are ready tasks restores the queue, and every yield on the way takes
the head of the ready queue and appends the task that was running. -/
theorem roundRobin (h : Settled k ⟨c, ready, zombie⟩) :
    (∀ i (hi : i < ready.length), ∃ k', yields (i + 1) k = .ok k' ∧
      Settled k' ⟨ready[i], ready.drop (i + 1) ++ c :: ready.take i, zombie⟩) ∧
    (∃ k', yields (ready.length + 1) k = .ok k' ∧ Settled k' ⟨c, ready, zombie⟩) ∧
    ∀ j, ∃ k' q' k'' q'', yields j k = .ok k' ∧ Settled k' q' ∧
      yields (j + 1) k = .ok k'' ∧ Settled k'' q'' ∧ q'.after .yield = some q'' := by
  refine ⟨fun i hi => ?_, ?_, fun j => ?_⟩
  · obtain ⟨k', q', hrun, hk', hline, hzombie⟩ := h.yields (i + 1)
    refine ⟨k', hrun, Queue.eq_of_line (hline.trans ?_) hzombie ▸ hk'⟩
    rw [Queue.line, List.rotate_eq_drop_append_take (Nat.succ_le_succ (Nat.le_of_lt hi)),
      List.drop_succ_cons, List.take_succ_cons, List.drop_eq_getElem_cons hi, List.cons_append]
  · obtain ⟨k', q', hrun, hk', hline, hzombie⟩ := h.yields (ready.length + 1)
    refine ⟨k', hrun, Queue.eq_of_line (hline.trans ?_) hzombie ▸ hk'⟩
    exact List.rotate_length (c :: ready)
  · obtain ⟨k', q', hrun, hk', -, -⟩ := h.yields j
    obtain ⟨k'', q'', hrun', hafter, hk''⟩ := hk'.yield
    exact ⟨k', q', k'', q'', hrun, hk', by rw [TeachingOs.yields, hrun, ok_bind, hrun'], hk'',
      hafter⟩

/-- `main` has started a task, and both yield. -/
theorem roundRobin_started :
    ∃ k : Kernel Bool, Settled k ⟨false, [true], []⟩ ∧
      ∃ k', yields 2 k = .ok k' ∧ Settled k' ⟨false, [true], []⟩ := by
  have hboot := scheduled_boot false fun _ => ⟨none, none, none, .ready, 0⟩
  have hnew := hboot.new (t := true) (by decide)
  obtain ⟨k, -, hstart⟩ := hnew.start (t := true) List.mem_cons_self 0 0
  exact ⟨k, hstart.idle.settled, (roundRobin hstart.idle.settled).2.1⟩

end TeachingOs
