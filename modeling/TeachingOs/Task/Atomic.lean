import TeachingOs.Task.Points

/-!
# TeachingOs.Task.Atomic

What the machine of `TeachingOs.Task.Points` does without interrupts.

The list functions, `splhigh`, `spl0`, `mi_switch` up to `md_switch` and
`task_start` take their points one after the other and end where the single
statements of `TeachingOs.Task.Sched` do, so that the two machines differ in
nothing but the places where an interrupt can arrive.
-/

namespace TeachingOs

section ListStmts

variable {T : Type} [DecidableEq T]

/-- Statements one after the other. -/
def execAll (t : T) (h : TaskHeap T ListName) (stmts : List ListStmt) :
    Except Panic (TaskHeap T ListName) :=
  stmts.foldlM (ListStmt.exec t) h

variable {t : T} {h : TaskHeap T ListName} {source : Option ListName} {l : ListName}

theorem execAll_append (a b : List ListStmt) :
    execAll t h (a ++ b) = (execAll t h a >>= fun h => execAll t h b) :=
  List.foldlM_append

theorem execAll_unlink : execAll t h (unlinkStmts source) = taskUnlinkFrom h (some t) source := by
  cases source <;> rfl

theorem execAll_moveHead :
    execAll t h (moveHeadStmts source l) = taskListMoveHead h (some t) source (some l) := by
  rw [moveHeadStmts, execAll_append, execAll_unlink]
  simp [execAll, ListStmt.exec, taskListMoveHead, assertNotNull, TaskHeap.linkHead]

theorem execAll_moveTail :
    execAll t h (moveTailStmts source l) = taskListMoveTail h (some t) source (some l) := by
  rw [moveTailStmts, execAll_append, execAll_unlink]
  simp [execAll, ListStmt.exec, taskListMoveTail, assertNotNull, TaskHeap.linkTail]

end ListStmts

namespace Cpu

variable {T : Type} [DecidableEq T] {k k₁ k' : Cpu T} {s : List (Point T)}

/-! ## Uninterrupted execution -/

/-- Some number of statements lead from `k` to `k'`. -/
def Reaches (k k' : Cpu T) : Prop := ∃ n, steps n k = .ok k'

theorem Reaches.refl (k : Cpu T) : Reaches k k := ⟨0, rfl⟩

theorem Reaches.step (hstep : k.step = .ok k₁) (h : Reaches k₁ k') : Reaches k k' := by
  obtain ⟨n, hn⟩ := h
  exact ⟨n + 1, bind_eq_ok.mpr ⟨k₁, hstep, hn⟩⟩

theorem Reaches.trans (h : Reaches k k₁) (h' : Reaches k₁ k') : Reaches k k' := by
  obtain ⟨n, hn⟩ := h
  induction n generalizing k with
  | zero =>
      cases hn
      exact h'
  | succ n ih =>
      obtain ⟨k₂, hstep, hn⟩ := bind_eq_ok.mp hn
      exact .step hstep (ih hn)

/-- What the points share with `TeachingOs.Task.Sched`, between calls. -/
def kernel (k : Cpu T) : Kernel T := ⟨k.heap, k.curtask, k.curspl, k.masked, []⟩

/-- The levels, lists and `curtask` of `g`, at another place in the code. -/
def withKernel (k : Cpu T) (g : Kernel T) (stack : List (Point T)) : Cpu T :=
  { k with heap := g.heap, curtask := g.curtask, curspl := g.curspl, masked := g.masked, stack }

/-! ## spl.c -/

theorem reaches_splhigh (hs : k.stack = .high0 :: s) :
    Reaches k (k.withKernel (TeachingOs.splhigh k.kernel).2 (ret k.curspl s)) :=
  ⟨4, by simp [steps, Cpu.step, hs, setSpl, withKernel, kernel, TeachingOs.splhigh]⟩

theorem reaches_spl0 (hs : k.stack = .low0 :: s) :
    Reaches k (k.withKernel (TeachingOs.spl0 k.kernel).2 (ret k.curspl s)) :=
  ⟨4, by simp [steps, Cpu.step, hs, setSpl, withKernel, kernel, TeachingOs.spl0]⟩

theorem reaches_splx {spl : Int} (hs : k.stack = .splx spl :: s) :
    Reaches k (k.withKernel (TeachingOs.splx spl k.kernel).2 (ret k.curspl s)) := by
  by_cases hspl : spl > 0
  · have hstep : k.step = .ok { k with stack := .high0 :: s } := by simp [Cpu.step, hs, hspl]
    rw [TeachingOs.splx, if_pos hspl]
    exact .step hstep (reaches_splhigh rfl)
  · have hstep : k.step = .ok { k with stack := .low0 :: s } := by simp [Cpu.step, hs, hspl]
    rw [TeachingOs.splx, if_neg hspl]
    exact .step hstep (reaches_spl0 rfl)

/-! ## The list functions -/

/-- A call `p` of a list function runs through its statements. -/
theorem reaches_execAll {t : T} {p : List ListStmt → Point T}
    (hp : ∀ (k : Cpu T) x todo heap, k.stack = p (x :: todo) :: s → x.exec t k.heap = .ok heap →
      k.step = .ok { k with heap, stack := p todo :: s })
    {todo : List ListStmt} {heap : TaskHeap T ListName} (hs : k.stack = p todo :: s)
    (hrun : execAll t k.heap todo = .ok heap) : Reaches k { k with heap, stack := p [] :: s } := by
  induction todo generalizing k with
  | nil =>
      cases hrun
      rw [← hs]
      exact .refl k
  | cons x todo ih =>
      obtain ⟨heap₁, hx, hrun⟩ := bind_eq_ok.mp hrun
      exact .step (hp k x todo heap₁ hs hx) (ih rfl hrun)

/-- `task_list_move_tail` in `mi_switch`. -/
theorem reaches_enqueueing {next : Option T} {t : T} {list : ListName}
    {heap : TaskHeap T ListName}
    (hs : k.stack = .enqueueing next t (moveTailStmts none list) :: s)
    (hrun : taskListMoveTail k.heap (some t) none (some list) = .ok heap) :
    Reaches k { k with heap, stack := .enqueued next :: s } := by
  rw [← execAll_moveTail] at hrun
  refine (reaches_execAll (p := .enqueueing next t) ?_ hs hrun).trans (.step rfl (.refl _))
  intro k x todo heap hs hx
  simp [Cpu.step, hs, hx]

/-- `task_unlink_from` in `mi_switch`. -/
theorem reaches_unlinking {prev : Option T} {spl : Int} {t : T} {heap : TaskHeap T ListName}
    (hs : k.stack = .unlinking prev spl t (unlinkStmts (some .tasksReady)) :: s)
    (hrun : taskUnlinkFrom k.heap (some t) (some .tasksReady) = .ok heap) :
    Reaches k { k with heap, stack := .dispatched prev spl :: s } := by
  rw [← execAll_unlink] at hrun
  refine (reaches_execAll (p := .unlinking prev spl t) ?_ hs hrun).trans (.step rfl (.refl _))
  intro k x todo heap hs hx
  simp [Cpu.step, hs, hx]

/-- **`task_start`** moves the task to the head of the list and completes its
context. -/
theorem reaches_starting {t : T} {fn userdata : Word} {heap : TaskHeap T ListName}
    (hs : k.stack = .starting t fn userdata (moveHeadStmts none .tasksReady) :: s)
    (hrun : taskListMoveHead k.heap (some t) none (some .tasksReady) = .ok heap) :
    Reaches k { k with
      heap
      context := Function.update k.context t (.frame true (some fn) (some userdata))
      stack := s } := by
  rw [← execAll_moveHead] at hrun
  refine (reaches_execAll (p := .starting t fn userdata) ?_ hs hrun).trans ⟨7, ?_⟩
  · intro k x todo heap hs hx
    simp [Cpu.step, hs, hx]
  · simp [steps, Cpu.step, pcbStmts, PcbStmt.exec]

/-! ## mi_switch -/

/-- **`mi_switch`** up to `md_switch` does what its four statements in
`TeachingOs.Task.Sched` do. -/
theorem reaches_miSwitch {into : TaskState} {g : Kernel T} (hs : k.stack = .entry into :: s)
    (hrun : TeachingOs.steps 4 (callSwitch into k.kernel) = .ok g) :
    ∃ prev spl, g.stack = [.dispatched prev spl] ∧
      Reaches k (k.withKernel g (.dispatched prev spl :: s)) := by
  obtain ⟨g₁, hentry, hrun⟩ := bind_eq_ok.mp hrun
  cases hentry
  obtain ⟨g₂, hchosen, hrun⟩ := bind_eq_ok.mp hrun
  simp only [TeachingOs.step, callSwitch, kernel, bind_eq_ok, pure_eq_ok,
    Except.ok.injEq] at hchosen
  obtain ⟨⟨⟩, hinto, list, hlist, heap₁, hmove, rfl⟩ := hchosen
  obtain ⟨g₃, henqueued, hrun⟩ := bind_eq_ok.mp hrun
  cases henqueued
  obtain ⟨g₄, hmasked, hrun⟩ := bind_eq_ok.mp hrun
  simp only [TeachingOs.step, bind_eq_ok, pure_eq_ok, Except.ok.injEq] at hmasked
  obtain ⟨heap₂, hunlink, rfl⟩ := hmasked
  cases hrun
  obtain ⟨next, hnext⟩ : ∃ next, (k.heap.list .tasksReady).head = next := ⟨_, rfl⟩
  obtain ⟨u, hu⟩ : ∃ u, (if next = none then k.curtask else next) = some u := by
    simp only [taskUnlinkFrom, scheduler, hnext, bind_eq_ok, assertNotNull_eq_ok] at hunlink
    exact ⟨_, hunlink.choose_spec.1⟩
  obtain ⟨t, ht⟩ : ∃ t, k.curtask = some t := by
    simp only [taskListMoveTail, bind_eq_ok, assertNotNull_eq_ok] at hmove
    exact ⟨_, hmove.choose_spec.1⟩
  simp only [scheduler, hnext, hu] at hunlink ⊢
  rw [ht] at hmove
  have hentry : k.step = .ok { k with stack := .chosen into next :: s } := by
    simp [Cpu.step, hs, hnext]
  have hchosen : Cpu.step { k with stack := .chosen into next :: s } =
      .ok { k with stack := .enqueueing next t (moveTailStmts none list) :: s } := by
    simp [Cpu.step, hinto, hlist, ht, assertNotNull]
  have hmasked : Cpu.step { k with
        heap := heap₁.setSpl k.curtask 1, curspl := 1, masked := true
        stack := .masked (some u) k.curspl :: s } =
      .ok { k with
        heap := heap₁.setSpl k.curtask 1, curtask := some u, curspl := 1, masked := true
        stack := .unlinking k.curtask k.curspl u (unlinkStmts (some .tasksReady)) :: s } := by
    simp [Cpu.step, assertNotNull]
  refine ⟨k.curtask, k.curspl, rfl, .step hentry (.step hchosen ?_)⟩
  refine (reaches_enqueueing (k := { k with
    stack := .enqueueing next t (moveTailStmts none list) :: s }) rfl hmove).trans
    (.step rfl ((reaches_splhigh rfl).trans ?_))
  simp only [hu]
  exact .step hmasked (reaches_unlinking rfl hunlink)

/-! ## aarch64_trapentry -/

/-- An interrupt whose handler yields calls `mi_switch` at level 1. -/
theorem reaches_irq (hirq : k.take (.irq 1) = .ok k₁) : ∃ st,
    Reaches k₁ (k.withKernel (TeachingOs.irq k.kernel)
      (.entry .ready :: .back st :: .handler 0 k.spl :: .back k.status :: k.stack)) := by
  cases hirq
  exact ⟨_, 4, rfl⟩

/-- The way out of an interrupt restores the level and unmasks. -/
theorem reaches_eret {oldspl : Int} (hs : k.stack = .handler 0 oldspl :: s) {g : Kernel T}
    (hrun : TeachingOs.step { k.kernel with stack := [.trap oldspl] } = .ok g) :
    Reaches k (k.withKernel g s) := by
  cases hrun
  exact ⟨4, by simp [steps, Cpu.step, hs, setSpl, withKernel, kernel]⟩

end Cpu

end TeachingOs
