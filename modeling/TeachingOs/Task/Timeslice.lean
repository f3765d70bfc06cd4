import TeachingOs.Task.RoundRobin

/-!
# TeachingOs.Task.Timeslice

Time slices.  A timer interrupt that arrives while a task executes its own
code suspends it below `aarch64_trapentry`; the handler's `mi_switch` ends in
the next task's own code, with interrupts on again.  To the queue it is a
yield (`Sliced.timerInterrupt`), and so a task that has started gets the CPU
again and again without a call of its own.

`Sliced` is what makes the next interrupt possible: every task that waits
turns interrupts on when it continues.  It holds once `main` has started its
tasks (`sliced_startAll`), and interrupts keep it.  The statements of
`task_exit` lead back to it, unless an interrupt comes in between
(`Sliced.callExit`).
-/

namespace TeachingOs

variable {T : Type}

/-! ## Between interrupts -/

/-- A task that waits like this is at level 0 when it is back in its own code. -/
inductive Unmasks : List (Activation T) → Prop where
  | startup (fn userdata : Word) : Unmasks [.startup fn userdata]
  | yielded : Unmasks [.switched 0]
  | preempted (spl : Int) : Unmasks [.switched spl, .trap 0]

/-- The running task executes its own code at level 0, and so will every ready
task. -/
structure Sliced (k : Kernel T) (q : Queue T) : Prop where
  resting : Resting Unmasks k q
  unmasked : k.masked = false
  curspl : k.curspl = 0
  spl : (k.heap.task q.current).spl = 0

variable {k : Kernel T} {q : Queue T}

theorem Idle.sliced (h : Idle k q) (hmasked : k.masked = false) (hcurspl : k.curspl = 0)
    (hspl : (k.heap.task q.current).spl = 0)
    (hsaved : ∀ t ∈ q.ready, ∃ s, (k.heap.task t).pcb = some s ∧ Unmasks s) : Sliced k q :=
  ⟨⟨h.current, h.user, h.lists, h.off, h.next, h.prev, hsaved⟩, hmasked, hcurspl, hspl⟩

variable [DecidableEq T]

/-! ## Back to user code -/

/-- The last statement before a task's own code sets level 0. -/
theorem Resting.step_last {w : Kernel T} {a : Activation T}
    (hw : Resting Unmasks { w with stack := [] } q) (hs : w.stack = [a])
    (ha : Unmasks [a] ∨ a = .trap 0) :
    ∃ k', step w = .ok k' ∧ k'.stack = [] ∧ Sliced k' q := by
  have hcur : w.curtask = some q.current := hw.current
  have hstep : step w = .ok { w with
      heap := w.heap.setSpl w.curtask 0, curspl := 0, masked := false, stack := [] } := by
    rcases ha with ha | rfl
    · cases ha with
      | startup fn userdata => simp [step, hs, spl0]
      | yielded => simp [step, hs, splx, spl0]
    · simp [step, hs]
  refine ⟨_, hstep, rfl, hw.setSpl w.curtask 0 0 false, rfl, rfl, ?_⟩
  rw [hcur]
  exact TaskHeap.spl_setSpl_self ..

/-- A task that was switched to gets back to its own code. -/
theorem Unmasks.resume {w : Kernel T} (h : Unmasks w.stack)
    (hw : Resting Unmasks { w with stack := [] } q) : ∃ k', steps 2 w = .ok k' ∧ Sliced k' q := by
  have hone : ∀ {a}, w.stack = [a] → Unmasks [a] → ∃ k', steps 2 w = .ok k' ∧ Sliced k' q := by
    intro a hs ha
    obtain ⟨k', hrun, hstack, hk'⟩ := hw.step_last hs (.inl ha)
    have hstay : step k' = .ok k' := by rw [step, hstack]
    exact ⟨k', by simp only [steps, hrun, hstay, ok_bind], hk'⟩
  generalize hstack : w.stack = s at h
  cases h with
  | startup fn userdata => exact hone hstack (.startup fn userdata)
  | yielded => exact hone hstack .yielded
  | preempted spl =>
      obtain ⟨w₁, h₁, hs₁, hw₁⟩ := hw.step_level hstack rfl
      obtain ⟨w₂, h₂, -, hw₂⟩ := hw₁.step_last hs₁ (.inr rfl)
      exact ⟨w₂, by simp only [steps, h₁, h₂, ok_bind], hw₂⟩

/-- A switch from a call of the running task, or from an interrupt of it. -/
theorem Resting.switch_user {into : TaskState} {l : ListName} {n : T} {R Z : List T}
    {s : List (Activation T)} (h : Resting Unmasks { k with stack := [] } q) (hs : k.stack = s)
    (hunmasks : Unmasks (.switched k.curspl :: s)) (hl : taskStateToList into = .ok l)
    (hn : q.ready.head?.getD q.current = n)
    (hf : Function.update (queues q.ready q.zombie) l (queues q.ready q.zombie l ++ [q.current]) =
      queues R Z) (hmem : n ∈ R) :
    ∃ k', (do
        let w ← steps 5 (callSwitch into k)
        steps 2 w) = .ok k' ∧ Sliced k' ⟨n, R.erase n, Z⟩ := by
  obtain ⟨w, hw, hunmasks, hresting, -⟩ := h.dispatch_stack hs hunmasks hl hn hf hmem
  obtain ⟨k', hrun, hk'⟩ := hunmasks.resume hresting
  exact ⟨k', by rw [hw, ok_bind, hrun], hk'⟩

/-! ## Interrupts and exits -/

/-- A timer interrupt up to the next task's own code: `mi_switch` up to
`md_switch`, and the statements that the next task has left. -/
def timerInterrupt (k : Kernel T) : Except Panic (Kernel T) := do
  let k ← steps 5 (irq k)
  steps 2 k

/-- `aarch64_trapentry` up to the interrupt handler. -/
def trapEntry (k : Kernel T) : Kernel T :=
  let oldspl := (k.curtask.map fun t => (k.heap.task t).spl).getD 0
  { k with
    heap := k.heap.setSpl k.curtask 1, curspl := 1, masked := true,
    stack := .trap oldspl :: k.stack }

/-- `preempt_fire` up to the next task's own code. -/
def preemptFire (k : Kernel T) : Except Panic (Kernel T) := do
  let k ← steps 5 (callSwitch .ready k)
  steps 2 k

/-- An interrupt is the entry and the preemption, with the handler between them. -/
theorem timerInterrupt_eq (k : Kernel T) : timerInterrupt k = preemptFire (trapEntry k) := rfl

/-- **Refinement.** A timer interrupt is a yield of the queue. -/
theorem Sliced.timerInterrupt (h : Sliced k q) : ∃ k' q', TeachingOs.timerInterrupt k = .ok k' ∧
    q.after .yield = some q' ∧ Sliced k' q' := by
  -- `aarch64_trapentry` has noted level 0
  have hirq : irq k = callSwitch .ready { k with
      heap := k.heap.setSpl k.curtask 1, curspl := 1, masked := true, stack := [.trap 0] } := by
    rw [irq, h.resting.current, h.resting.user, Option.map_some, Option.getD_some, h.spl]
  have htrapped : Resting Unmasks
      { k with heap := k.heap.setSpl k.curtask 1, curspl := 1, masked := true, stack := [] } q := by
    obtain ⟨hcur, -, hlists, hoff, hnext, hprev, hsaved⟩ := h.resting.setSpl k.curtask 1 1 true
    exact ⟨hcur, rfl, hlists, hoff, hnext, hprev, hsaved⟩
  have hlist : taskStateToList .ready = .ok .tasksReady := rfl
  have hmem : q.ready.head?.getD q.current ∈ q.ready ++ [q.current] := by
    cases q.ready <;> simp
  obtain ⟨k', hrun, hk'⟩ := Resting.switch_user (k := { k with
    heap := k.heap.setSpl k.curtask 1, curspl := 1, masked := true, stack := [.trap 0] })
    htrapped rfl (.preempted 1) hlist rfl queues_update_ready hmem
  refine ⟨k', _, by rw [TeachingOs.timerInterrupt, hirq, hrun], ?_, hk'⟩
  obtain ⟨c, ready, zombie⟩ := q
  cases ready <;> simp [Queue.after, queues]

/-- Up to `n` statements lead to a task's own code. -/
def Leads (n : Nat) (k : Kernel T) (q : Queue T) : Prop := ∃ k', steps n k = .ok k' ∧ Sliced k' q

theorem step_of_user (h : k.stack = []) : step k = .ok k := by
  rw [step, h]

theorem steps_of_user (h : k.stack = []) (n : Nat) : steps n k = .ok k := by
  induction n with
  | zero => rfl
  | succ n ih => rw [steps, step_of_user h, ok_bind, ih]

theorem Sliced.leads (h : Sliced k q) (n : Nat) : Leads n k q :=
  ⟨k, steps_of_user h.resting.user n, h⟩

/-- In a task's own code there is nothing left. -/
theorem Leads.sliced {n : Nat} (h : Leads n k q) (huser : k.stack = []) : Sliced k q := by
  obtain ⟨k', hrun, hk'⟩ := h
  rw [steps_of_user huser] at hrun
  rwa [Except.ok.inj hrun]

theorem Leads.mono {n m : Nat} (h : Leads n k q) (hnm : n ≤ m) : Leads m k q := by
  obtain ⟨k', hrun, hk'⟩ := h
  refine ⟨k', ?_, hk'⟩
  rw [← Nat.add_sub_cancel' hnm, steps_add, hrun, ok_bind, steps_of_user hk'.resting.user]

/-- One statement of a call in progress. -/
theorem Leads.step {n : Nat} (h : Leads n k q) (hcall : k.stack ≠ []) :
    ∃ k', TeachingOs.step k = .ok k' ∧ 0 < n ∧ Leads (n - 1) k' q := by
  obtain ⟨k', hrun, hk'⟩ := h
  cases n with
  | zero =>
      cases hrun
      exact absurd hk'.resting.user hcall
  | succ n =>
      rw [steps, bind_eq_ok] at hrun
      obtain ⟨k₁, hstep, hrun⟩ := hrun
      exact ⟨k₁, hstep, Nat.succ_pos n, k', hrun, hk'⟩

/-- **Refinement.** When another task is ready, the call of `task_exit` is an exit
of the queue: left alone, its seven statements at most lead to that task's own
code. -/
theorem Sliced.callExit {q' : Queue T} (h : Sliced k q) (ha : q.after .exit = some q') :
    Leads 7 (callSwitch .zombie k) q' := by
  have hlist : taskStateToList .zombie = .ok .tasksZombie := rfl
  have hresting : Resting Unmasks { k with stack := [] } q := by
    obtain ⟨hcur, -, hlists, hoff, hnext, hprev, hsaved⟩ := h.resting
    exact ⟨hcur, rfl, hlists, hoff, hnext, hprev, hsaved⟩
  have hunmasks : Unmasks (T := T) [.switched k.curspl] := by
    rw [h.curspl]
    exact .yielded
  obtain ⟨c, ready, zombie⟩ := q
  cases ready with
  | nil => cases ha
  | cons n rest =>
      cases ha
      obtain ⟨k', hrun, hk'⟩ := hresting.switch_user h.resting.user hunmasks hlist rfl
        queues_update_zombie List.mem_cons_self
      refine ⟨k', by rw [steps_add 5 2, hrun], ?_⟩
      simpa [queues] using hk'

/-! ## Starting tasks -/

/-- `task_new` and `task_start` for every entry, by the running task. -/
def Sys.startAll : List (T × Word × Word) → Sys T → Except Panic (Sys T)
  | [], g => .ok g
  | (t, fn, userdata) :: tasks, g => do
    let g ← g.perform (.new t)
    let g ← g.perform (.start t fn userdata)
    startAll tasks g

/-- `task_start` sets no level. -/
theorem taskStart_levels {t : T} {fn userdata : Word} {k' : Kernel T}
    (h : taskStart t fn userdata k = .ok k') :
    k'.masked = k.masked ∧ k'.curspl = k.curspl ∧
      ∀ u, (k'.heap.task u).spl = (k.heap.task u).spl := by
  simp only [taskStart, bind_eq_ok, pure_eq_ok, Except.ok.injEq] at h
  obtain ⟨heap, hmove, rfl⟩ := h
  refine ⟨rfl, rfl, fun u => ?_⟩
  rw [TaskHeap.spl_setPcb]
  exact spl_of_info (info_taskListMoveHead hmove) u

variable {g : Sys T}

/-- `task_new` and `task_start`, one task. -/
theorem Sliced.start {t : T} (hg : Scheduled g q) (h : Sliced g.kernel q) (hnil : g.created = [])
    (ht : t ∉ g.bootstrap :: g.started) (fn userdata : Word) :
    ∃ g', (do
        let g ← g.perform (.new t)
        g.perform (.start t fn userdata)) = .ok g' ∧
      Scheduled g' { q with ready := t :: q.ready } ∧
      Sliced g'.kernel { q with ready := t :: q.ready } ∧ g'.created = [] ∧
      g'.bootstrap = g.bootstrap ∧ g'.started = t :: g.started := by
  have hnew := hg.new (t := t) (by rwa [hnil, List.append_nil])
  obtain ⟨k', hrun, hstart⟩ := hnew.start (t := t) List.mem_cons_self fn userdata
  obtain ⟨hmasked, hcurspl, hspl⟩ := taskStart_levels hrun
  obtain ⟨-, hpcb, hothers⟩ := taskStart_frame hrun
  have hother : ∀ u ∈ q.tasks, u ≠ t ∧ (taskNew t g.kernel).heap.task u = g.kernel.heap.task u := by
    intro u hu
    have hne : u ≠ t := by
      rintro rfl
      exact ht (hg.known u hu)
    exact ⟨hne, task_taskNew_of_ne hne⟩
  refine ⟨_, ?_, hstart, ?_, ?_, rfl, rfl⟩
  · rw [Sys.perform, ok_bind, Sys.perform, hrun]
    rfl
  · refine hstart.idle.sliced (hmasked.trans h.unmasked) (hcurspl.trans h.curspl) ?_ ?_
    · obtain ⟨-, htask⟩ := hother q.current (by simp [Queue.tasks])
      rw [hspl, htask]
      exact h.spl
    · rw [List.forall_mem_cons]
      refine ⟨⟨_, hpcb, .startup fn userdata⟩, fun u hu => ?_⟩
      obtain ⟨hne, htask⟩ := hother u (by simp [Queue.tasks, hu])
      obtain ⟨s, hs, hunmasks⟩ := h.resting.saved u hu
      exact ⟨s, by rw [hothers u hne, htask, hs], hunmasks⟩
  · simp [hnil]

/-- When `main` has started its tasks, the last one started is the first to
run. -/
theorem Sliced.startAll {tasks : List (T × Word × Word)} (hg : Scheduled g q)
    (h : Sliced g.kernel q) (hnil : g.created = [])
    (hfresh : (tasks.map Prod.fst).Nodup)
    (hnew : ∀ t ∈ tasks.map Prod.fst, t ∉ g.bootstrap :: g.started) :
    ∃ g', Sys.startAll tasks g = .ok g' ∧ g'.bootstrap = g.bootstrap ∧
      Sliced g'.kernel { q with ready := (tasks.map Prod.fst).reverse ++ q.ready } := by
  induction tasks generalizing g q with
  | nil => exact ⟨g, rfl, rfl, h⟩
  | cons p tasks ih =>
      obtain ⟨t, fn, userdata⟩ := p
      rw [List.map_cons, List.nodup_cons] at hfresh
      rw [List.map_cons, List.forall_mem_cons] at hnew
      obtain ⟨g₁, hrun, hg₁, h₁, hnil₁, hboot, hstarted⟩ := h.start hg hnil hnew.1 fn userdata
      have hnew₁ : ∀ u ∈ tasks.map Prod.fst, u ∉ g₁.bootstrap :: g₁.started := by
        intro u hu
        have hne : u ≠ t := ne_of_mem_of_not_mem hu hfresh.1
        have hold := hnew.2 u hu
        rw [hboot, hstarted]
        simp only [List.mem_cons, not_or] at hold ⊢
        exact ⟨hold.1, hne, hold.2⟩
      obtain ⟨g', hrest, hboot', h'⟩ := ih hg₁ h₁ hnil₁ hfresh.2 hnew₁
      refine ⟨g', ?_, hboot'.trans hboot, by simpa using h'⟩
      rw [Sys.startAll, ← bind_assoc, hrun, ok_bind, hrest]

theorem sliced_boot (kmain : T) (task : T → Task T) :
    Sliced (bootSys kmain task).kernel ⟨kmain, [], []⟩ := by
  refine (scheduled_boot kmain task).idle.sliced rfl rfl ?_ (by simp)
  simp [bootSys, taskBootstrap]

/-- **Boot**: `main` creates and starts its tasks, and then the kernel is ready
for the timer. -/
theorem sliced_startAll {kmain : T} (task : T → Task T) {tasks : List (T × Word × Word)}
    (hfresh : (kmain :: tasks.map Prod.fst).Nodup) :
    ∃ g, Sys.startAll tasks (bootSys kmain task) = .ok g ∧ g.bootstrap = kmain ∧
      Sliced g.kernel ⟨kmain, (tasks.map Prod.fst).reverse, []⟩ := by
  rw [List.nodup_cons] at hfresh
  have hnew : ∀ t ∈ tasks.map Prod.fst,
      t ∉ (bootSys kmain task).bootstrap :: (bootSys kmain task).started := by
    intro t ht hm
    have hboot : t = kmain := List.mem_singleton.mp hm
    exact hfresh.1 (hboot ▸ ht)
  obtain ⟨g, hrun, hboot, h⟩ :=
    (sliced_boot kmain task).startAll (scheduled_boot kmain task) rfl hfresh.2 hnew
  exact ⟨g, hrun, hboot, by simpa using h⟩

end TeachingOs
