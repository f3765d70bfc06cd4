import TeachingOs.Task.Preempt

/-!
# TeachingOs.Task.Run

Runs of whole operations: the running task creates, starts, yields and
exits, and no interrupt arrives inside an operation.  Each call of
`mi_switch` is then six statements that end in some task's own code
(`Inv.steps_undisturbed`), and after every operation `tasks_ready`,
`tasks_zombie` and `curtask` share out the tasks (`Reached.partitioned`).
-/

namespace TeachingOs

open DList

variable {T : Type} [DecidableEq T]

/-! ## Operations -/

/-- A complete operation of the running task. -/
inductive Op (T : Type) where
  | new (t : T)
  | start (t : T) (fn userdata : Word)
  | yield
  | exit

/-- A fresh block for `task_new`, one start for each task, and no exit of
the bootstrap task. -/
def Op.Enabled (g : Sys T) : Op T → Prop
  | .new t => t ∉ g.bootstrap :: g.started ++ g.created
  | .start t _ _ => t ∈ g.created
  | .yield => True
  | .exit => g.kernel.curtask ≠ some g.bootstrap

/-- The state after an operation. -/
def Sys.perform (g : Sys T) : Op T → Except Panic (Sys T)
  | .new t => .ok { g with kernel := taskNew t g.kernel, created := t :: g.created }
  | .start t fn userdata => do
    let kernel ← taskStart t fn userdata g.kernel
    return { g with kernel, created := g.created.erase t, started := t :: g.started }
  | .yield => do
    let kernel ← taskYield g.kernel
    return { g with kernel }
  | .exit => do
    let kernel ← taskExit g.kernel
    return { g with kernel }

/-- The states between operations. -/
inductive Reached (kmain : T) (task : T → Task T) : Sys T → Prop where
  | boot : Reached kmain task (bootSys kmain task)
  | op {g g' : Sys T} {o : Op T} (hr : Reached kmain task g) (hen : o.Enabled g)
      (ho : g.perform o = .ok g') : Reached kmain task g'

/-! ## Control stacks without interrupts -/

/-- The number of statements until the task is back in its own code. -/
def rank : List (Activation T) → Nat
  | [.entry _] => 6
  | [.chosen _ _] => 5
  | [.enqueued _] => 4
  | [.masked _ _] => 3
  | [.dispatched _ _] => 2
  | [.switched _] => 1
  | [.startup _ _] => 1
  | _ => 0

/-- No interrupt handler is on any control stack. -/
structure Undisturbed (g : Sys T) : Prop where
  here : g.kernel.stack = [] ∨ 0 < rank g.kernel.stack
  saved : ∀ t ∈ g.bootstrap :: g.started, ∀ s, (g.kernel.heap.task t).pcb = some s → rank s = 1

omit [DecidableEq T] in
theorem Undisturbed.not_staleNext {g : Sys T} (h : Undisturbed g) (c : T) : ¬ StaleNext g c := by
  rintro ⟨t, ht, s, into, hpcb, hm⟩
  have hrank := h.saved t ht s hpcb
  match s with
  | [] | _ :: _ :: _ => simp [rank] at hrank
  | [a] =>
      obtain rfl := List.mem_singleton.mp hm
      simp [rank] at hrank

omit [DecidableEq T] in
/-- Only single calls have a rank. -/
theorem eq_nil_of_rank_pos {a : Activation T} {s : List (Activation T)} (h : 0 < rank (a :: s)) :
    s = [] := by
  cases s with
  | nil => rfl
  | cons b s => cases a <;> simp [rank] at h

/-- A statement of an undisturbed call leads to the next one and stores to
no pcb, or it is the context switch. -/
theorem step_rank {k k' : Kernel T} (h : step k = .ok k') (hr : 0 < rank k.stack) :
    (rank k'.stack + 1 = rank k.stack ∧ (k'.stack = [] ∨ 0 < rank k'.stack) ∧
        ∀ t, (k'.heap.task t).pcb = (k.heap.task t).pcb) ∨
      ∃ prev spl, k.stack = [.dispatched prev spl] ∧
        k' = mdSwitch prev k.curtask { k with stack := [.switched spl] } := by
  unfold step at h
  split at h
  · next hs => rw [hs] at hr; cases hr
  · next into s hs =>
    rw [hs] at hr ⊢
    obtain rfl := eq_nil_of_rank_pos hr
    cases h
    exact Or.inl ⟨rfl, Or.inr (by simp [rank]), fun t => rfl⟩
  · next into next s hs =>
    rw [hs] at hr ⊢
    obtain rfl := eq_nil_of_rank_pos hr
    simp only [bind_eq_ok, pure_eq_ok, Except.ok.injEq] at h
    obtain ⟨-, -, list, -, heap, hmove, rfl⟩ := h
    exact Or.inl ⟨rfl, Or.inr (by simp [rank]),
      fun t => pcb_of_info (info_taskListMoveTail hmove) t⟩
  · next next s hs =>
    rw [hs] at hr ⊢
    obtain rfl := eq_nil_of_rank_pos hr
    cases h
    exact Or.inl ⟨rfl, Or.inr (by simp [rank]), fun t => by simp⟩
  · next next spl s hs =>
    rw [hs] at hr ⊢
    obtain rfl := eq_nil_of_rank_pos hr
    simp only [bind_eq_ok, pure_eq_ok, Except.ok.injEq] at h
    obtain ⟨heap, hunlink, rfl⟩ := h
    exact Or.inl ⟨rfl, Or.inr (by simp [rank]),
      fun t => pcb_of_info (info_taskUnlinkFrom hunlink) t⟩
  · next prev spl s hs =>
    rw [hs] at hr ⊢
    obtain rfl := eq_nil_of_rank_pos hr
    cases h
    exact Or.inr ⟨prev, spl, rfl, rfl⟩
  · next spl s hs =>
    rw [hs] at hr ⊢
    obtain rfl := eq_nil_of_rank_pos hr
    cases h
    refine Or.inl ⟨rfl, Or.inl rfl, fun t => ?_⟩
    simp only [splx]
    split <;> simp [splhigh, spl0]
  · next fn userdata s hs =>
    rw [hs] at hr ⊢
    obtain rfl := eq_nil_of_rank_pos hr
    cases h
    exact Or.inl ⟨rfl, Or.inl rfl, fun t => by simp [spl0]⟩
  · next oldspl s hs =>
    rw [hs] at hr
    obtain rfl := eq_nil_of_rank_pos hr
    cases hr
  · next s hs =>
    rw [hs] at hr
    obtain rfl := eq_nil_of_rank_pos hr
    cases hr

/-- The next statement of an undisturbed call. -/
theorem Inv.step_undisturbed {g : Sys T} {R Z : List T} {c : T} {out : List T}
    (h : Inv g R Z c out) (hu : Undisturbed g) (hr : 0 < rank g.kernel.stack) :
    ∃ k R' Z' c' out', TeachingOs.step g.kernel = .ok k ∧ Inv { g with kernel := k } R' Z' c' out' ∧
      Undisturbed { g with kernel := k } ∧ rank k.stack + 1 = rank g.kernel.stack := by
  have hne : g.kernel.stack ≠ [] := fun hs => by rw [hs] at hr; cases hr
  obtain ⟨k, R', Z', c', out', hk, hinv⟩ := h.step hne fun c _ _ _ _ => hu.not_staleNext c
  refine ⟨k, R', Z', c', out', hk, hinv, ?_⟩
  rcases step_rank hk hr with ⟨hrank, hstack, hpcb⟩ | ⟨prev, spl, hs, rfl⟩
  · exact ⟨⟨hstack, fun t ht s hs => hu.saved t ht s ((hpcb t).symm.trans hs)⟩, hrank⟩
  have hhere := h.here
  rw [hs] at hhere
  cases hhere with
  | @dispatched n _ _ hcur _ _ hn =>
      have hstart : n ∈ g.bootstrap :: g.started := h.core.mem_iff.mpr (by simp)
      -- the context loaded is the one just saved, or one that was saved before
      have hrank : rank ((g.kernel.heap.setPcb (some c) [.switched spl]).context (some n)) = 1 := by
        by_cases hnc : n = c
        · subst hnc
          simp [TaskHeap.context, rank]
        · obtain ⟨s', hpcb, -⟩ := hn hnc
          simp only [TaskHeap.context, Option.bind_some, TaskHeap.pcb_setPcb_of_ne _ _ hnc, hpcb,
            Option.getD_some]
          exact hu.saved n hstart s' hpcb
      have hstack : (mdSwitch (some c) g.kernel.curtask
          { g.kernel with stack := [.switched spl] }).stack =
          (g.kernel.heap.setPcb (some c) [.switched spl]).context (some n) := by
        simp only [mdSwitch, hcur]
      refine ⟨⟨Or.inr ?_, fun t ht s hpcb => ?_⟩, ?_⟩
      · rw [hstack, hrank]
        decide
      · by_cases htc : t = c
        · subst htc
          have hself : some [Activation.switched spl] = some s := by
            rw [← hpcb]
            simp [mdSwitch]
          rw [← Option.some.inj hself]
          rfl
        · refine hu.saved t ht s ?_
          rw [← hpcb]
          exact (TaskHeap.pcb_setPcb_of_ne _ _ htc).symm
      · rw [hstack, hrank, hs]
        rfl

/-- An undisturbed call ends in some task's own code. -/
theorem Inv.steps_undisturbed (n : Nat) {g : Sys T} {R Z : List T} {c : T} {out : List T}
    (h : Inv g R Z c out) (hu : Undisturbed g) (hn : rank g.kernel.stack = n) :
    ∃ k R' Z' c' out', steps n g.kernel = .ok k ∧ Inv { g with kernel := k } R' Z' c' out' ∧
      Undisturbed { g with kernel := k } ∧ k.stack = [] := by
  induction n generalizing g R Z c out with
  | zero =>
      refine ⟨g.kernel, R, Z, c, out, rfl, h, hu, ?_⟩
      rcases hu.here with hs | hpos
      · exact hs
      · omega
  | succ n ih =>
      obtain ⟨k, R', Z', c', out', hk, hinv, hu', hrank⟩ := h.step_undisturbed hu (by omega)
      obtain ⟨k', R'', Z'', c'', out'', hk', hinv', hu'', hs⟩ := ih hinv hu' (by simp only; omega)
      exact ⟨k', R'', Z'', c'', out'', by simp only [steps, hk, ok_bind]; exact hk', hinv', hu'',
        hs⟩

/-- A whole `mi_switch`. -/
theorem Inv.miSwitch {g : Sys T} {R Z : List T} {c : T} {out : List T} (h : Inv g R Z c out)
    (hu : Undisturbed g) (hs : g.kernel.stack = []) {into : TaskState}
    (hi : Leaves g.bootstrap c into) :
    ∃ k R' Z' c' out', TeachingOs.miSwitch into g.kernel = .ok k ∧
      Inv { g with kernel := k } R' Z' c' out' ∧ Undisturbed { g with kernel := k } ∧
      k.stack = [] := by
  have hcall : (TeachingOs.callSwitch into g.kernel).stack = [.entry into] := by
    simp [TeachingOs.callSwitch, hs]
  refine Inv.steps_undisturbed 6 (h.callSwitch hs hi) ⟨Or.inr ?_, hu.saved⟩ ?_
  · show 0 < rank (TeachingOs.callSwitch into g.kernel).stack
    rw [hcall]
    simp [rank]
  · show rank (TeachingOs.callSwitch into g.kernel).stack = 6
    rw [hcall]
    rfl

/-! ## Whole runs -/

/-- `tasks_ready` and `tasks_zombie` are well formed, the current task is
outside of them without links, and together they hold every started task
and the bootstrap task exactly once. -/
def Partitioned (g : Sys T) : Prop :=
  ∃ R Z c, g.kernel.curtask = some c ∧ Lists g.kernel.heap (queues R Z) ∧
    g.kernel.heap.next c = none ∧ g.kernel.heap.prev c = none ∧ (R ++ Z ++ [c]).Nodup ∧
    ∀ t, t ∈ R ++ Z ++ [c] ↔ t ∈ g.bootstrap :: g.started

omit [DecidableEq T] in
theorem Inv.partition {g : Sys T} {R Z : List T} {c : T} {out : List T} (h : Inv g R Z c out)
    (hs : g.kernel.stack = []) : Partitioned g := by
  obtain ⟨hcur, -, rfl⟩ := h.user hs
  obtain ⟨hnext, hprev⟩ := h.core.links c (by simp)
  exact ⟨R, Z, c, hcur, h.core.lists, hnext, hprev, h.core.nodup, fun t => h.core.partition.mem_iff⟩

/-- What holds between operations. -/
structure Between (g : Sys T) : Prop where
  inv : ∃ R Z c out, Inv g R Z c out
  undisturbed : Undisturbed g
  user : g.kernel.stack = []

theorem bootSys_between (kmain : T) (task : T → Task T) : Between (bootSys kmain task) := by
  refine ⟨⟨_, _, _, _, bootSys_inv kmain task⟩, ⟨Or.inl rfl, fun t ht s hs => ?_⟩, rfl⟩
  obtain rfl : t = kmain := by simpa [bootSys] using ht
  simp [bootSys, taskBootstrap] at hs

/-- `task_start` prepares the pcb of the new task and no other. -/
theorem taskStart_frame {t : T} {fn userdata : Word} {k k' : Kernel T}
    (h : taskStart t fn userdata k = .ok k') : k'.stack = k.stack ∧
      (k'.heap.task t).pcb = some [.startup fn userdata] ∧
      ∀ u, u ≠ t → (k'.heap.task u).pcb = (k.heap.task u).pcb := by
  simp only [taskStart, bind_eq_ok, pure_eq_ok, Except.ok.injEq] at h
  obtain ⟨heap, hmove, rfl⟩ := h
  refine ⟨rfl, by simp, fun u hut => ?_⟩
  exact (TaskHeap.pcb_setPcb_of_ne _ _ hut).trans (pcb_of_info (info_taskListMoveHead hmove) u)

/-- Every operation succeeds and ends between operations again. -/
theorem Between.perform {g : Sys T} (h : Between g) (o : Op T) (hen : o.Enabled g) :
    ∃ g', g.perform o = .ok g' ∧ Between g' := by
  obtain ⟨⟨R, Z, c, out, hinv⟩, hu, hs⟩ := h
  cases o with
  | new t =>
      refine ⟨_, rfl, ⟨_, _, _, _, hinv.new hs hen⟩, ⟨hu.here, fun u hin s hpcb => ?_⟩, hs⟩
      have hut : u ≠ t := by
        rintro rfl
        exact hen (List.mem_append_left _ hin)
      exact hu.saved u hin s ((congrArg Task.pcb (task_taskNew_of_ne hut)).symm.trans hpcb)
  | start t fn userdata =>
      obtain ⟨k, hk, hinv'⟩ := hinv.start hs hen fn userdata
      obtain ⟨hstack, hself, hother⟩ := taskStart_frame hk
      have hs' : k.stack = [] := hstack.trans hs
      refine ⟨_, by simp [Sys.perform, hk], ⟨_, _, _, _, hinv'⟩, ⟨Or.inl hs', ?_⟩, hs'⟩
      intro u hin s hpcb
      by_cases hut : u = t
      · subst hut
        rw [← Option.some.inj (hself.symm.trans hpcb)]
        rfl
      · refine hu.saved u ?_ s ((hother u hut).symm.trans hpcb)
        rcases List.mem_cons.mp hin with hb | hst
        · exact List.mem_cons.mpr (Or.inl hb)
        · exact List.mem_cons_of_mem _ ((List.mem_cons.mp hst).resolve_left hut)
  | yield =>
      obtain ⟨k, R', Z', c', out', hk, hinv', hu', hs'⟩ := hinv.miSwitch hu hs (Or.inl rfl)
      exact ⟨_, by simp [Sys.perform, taskYield, hk], ⟨_, _, _, _, hinv'⟩, hu', hs'⟩
  | exit =>
      have hne : c ≠ g.bootstrap := by
        rintro rfl
        exact hen (hinv.user hs).1
      obtain ⟨k, R', Z', c', out', hk, hinv', hu', hs'⟩ := hinv.miSwitch hu hs (Or.inr ⟨rfl, hne⟩)
      exact ⟨_, by simp [Sys.perform, taskExit, hk], ⟨_, _, _, _, hinv'⟩, hu', hs'⟩

theorem Reached.between {kmain : T} {task : T → Task T} {g : Sys T} (h : Reached kmain task g) :
    Between g := by
  induction h with
  | boot => exact bootSys_between kmain task
  | op _ hen ho ih =>
      obtain ⟨g', ho', hg'⟩ := ih.perform _ hen
      rw [ho'] at ho
      cases ho
      exact hg'

/-- **No task is lost or in two places** in any run of complete operations
from `task_bootstrap`, and no operation panics. -/
theorem Reached.partitioned (kmain : T) (task : T → Task T) (g : Sys T)
    (h : Reached kmain task g) :
    Partitioned g ∧ ∀ o : Op T, o.Enabled g → ∃ g', g.perform o = .ok g' := by
  obtain ⟨⟨R, Z, c, out, hinv⟩, -, hs⟩ := h.between
  refine ⟨hinv.partition hs, fun o hen => ?_⟩
  obtain ⟨g', ho, -⟩ := h.between.perform o hen
  exact ⟨g', ho⟩

/-- A second task is created and started, and `main` yields to it. -/
theorem Reached.partitioned_yield :
    ∃ g, [Op.new true, .start true 0 0, .yield].foldlM Sys.perform (bootSys false blankTask) =
      .ok g ∧ Partitioned g := by
  have hnew : (Op.new true).Enabled (bootSys false blankTask) := by simp [Op.Enabled, bootSys]
  obtain ⟨g1, he1⟩ := (Reached.partitioned false blankTask _ .boot).2 (.new true) hnew
  have h1 := Reached.boot.op hnew he1
  have hstart : (Op.start true 0 0).Enabled g1 := by
    rw [← Except.ok.inj he1]
    exact List.mem_cons_self
  obtain ⟨g2, he2⟩ := (Reached.partitioned false blankTask _ h1).2 (.start true 0 0) hstart
  have h2 := h1.op hstart he2
  obtain ⟨g3, he3⟩ := (Reached.partitioned false blankTask _ h2).2 .yield trivial
  have h3 := h2.op (o := .yield) trivial he3
  refine ⟨g3, ?_, (Reached.partitioned false blankTask _ h3).1⟩
  rw [List.foldlM_cons, he1, ok_bind, List.foldlM_cons, he2, ok_bind, List.foldlM_cons, he3,
    ok_bind, List.foldlM_nil]
  rfl

end TeachingOs
