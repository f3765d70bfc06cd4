import TeachingOs.Task.Points

/-!
# TeachingOs.Task.Levels

The interrupt levels at every point.

`Valid t st s` says that a control stack of the task `t` fits a status: from
there its statements lead back, level by level, to the task's own code with
`curspl`, `curtask->spl` and the mask in agreement.  Every statement but the
context switch takes a valid stack to a valid one (`Valid.step`), and so does
an interrupt (`Valid.irq`).  A stack that waits in a pcb is `Valid` for
whatever levels the switch will find, because `splx` and `spl0` store all
three.
-/

namespace TeachingOs.Cpu

variable {T : Type}

/-! ## Statuses -/

/-- The three places agree that the level is `m`. -/
def level (t : T) (m : Bool) : Status T := ⟨some t, m, m.toInt, m.toInt⟩

/-- In the middle of a switch: masked, with any levels. -/
def Held (t : T) (st : Status T) : Prop := st.curtask = some t ∧ st.masked = true

/-- Where `splhigh` and `spl0` may start. -/
def Fit (t : T) (st : Status T) : Prop := st = level t false ∨ Held t st

theorem held_level (t : T) : Held t (level t true) := ⟨rfl, rfl⟩

theorem fit_level (t : T) (m : Bool) : Fit t (level t m) := by
  cases m
  · exact Or.inl rfl
  · exact Or.inr (held_level t)

theorem Fit.curtask {t : T} {st : Status T} (h : Fit t st) : st.curtask = some t := by
  unfold Fit at h
  cases h with
  | inl h => rw [h]; rfl
  | inr h => exact h.1

/-! ## Valid stacks -/

/-- The stack `s` of `t` can go on in the status `st`. -/
inductive Valid (t : T) : Status T → List (Point T) → Prop where
  | user {st : Status T} {m : Bool} (h : st = level t m) : Valid t st []
  -- splhigh ends at level 1, spl0 at level 0
  | high0 {st : Status T} {s : List (Point T)} (h : Fit t st)
      (hs : Valid t (level t true) (ret st.curspl s)) : Valid t st (.high0 :: s)
  | high1 {st : Status T} {r : Int} {s : List (Point T)} (h : Fit t st)
      (hs : Valid t (level t true) (ret r s)) : Valid t st (.high1 r :: s)
  | high2 {st : Status T} {r : Int} {s : List (Point T)} (h : Held t st)
      (hs : Valid t (level t true) (ret r s)) : Valid t st (.high2 r :: s)
  | high3 {st : Status T} {r : Int} {s : List (Point T)} (h : Held t st) (hc : st.curspl = 1)
      (hs : Valid t (level t true) (ret r s)) : Valid t st (.high3 r :: s)
  | low0 {st : Status T} {s : List (Point T)} (h : Fit t st)
      (hs : Valid t (level t false) (ret st.curspl s)) : Valid t st (.low0 :: s)
  | low1 {st : Status T} {r : Int} {s : List (Point T)} (h : Fit t st)
      (hs : Valid t (level t false) (ret r s)) : Valid t st (.low1 r :: s)
  | low2 {st : Status T} {r : Int} {s : List (Point T)} (h : Fit t st) (hv : st.spl = 0)
      (hs : Valid t (level t false) (ret r s)) : Valid t st (.low2 r :: s)
  | low3 {st : Status T} {r : Int} {s : List (Point T)} (h : Fit t st) (hv : st.spl = 0)
      (hc : st.curspl = 0) (hs : Valid t (level t false) (ret r s)) : Valid t st (.low3 r :: s)
  | splx {st : Status T} {spl : Int} {s : List (Point T)} (h : Fit t st)
      (hs : Valid t (level t (decide (spl > 0))) (ret st.curspl s)) : Valid t st (.splx spl :: s)
  -- mi_switch ends at the level it was called at
  | entry {into : TaskState} {m : Bool} {s : List (Point T)} (hs : Valid t (level t m) s) :
      Valid t (level t m) (.entry into :: s)
  | chosen {into : TaskState} {next : Option T} {m : Bool} {s : List (Point T)}
      (hs : Valid t (level t m) s) : Valid t (level t m) (.chosen into next :: s)
  | enqueueing {next : Option T} {u : T} {todo : List ListStmt} {m : Bool} {s : List (Point T)}
      (hs : Valid t (level t m) s) : Valid t (level t m) (.enqueueing next u todo :: s)
  | enqueued {next : Option T} {m : Bool} {s : List (Point T)} (hs : Valid t (level t m) s) :
      Valid t (level t m) (.enqueued next :: s)
  | masked {next : Option T} {m : Bool} {s : List (Point T)} (hs : Valid t (level t m) s) :
      Valid t (level t true) (.masked next m.toInt :: s)
  | unlinking {st : Status T} {n u : T} {todo : List ListStmt} {m : Bool} {s : List (Point T)}
      (h : Held n st) (hs : Valid t (level t m) s) :
      Valid t st (.unlinking (some t) m.toInt u todo :: s)
  | dispatched {st : Status T} {n : T} {m : Bool} {s : List (Point T)} (h : Held n st)
      (hs : Valid t (level t m) s) : Valid t st (.dispatched (some t) m.toInt :: s)
  | switched {st : Status T} {m : Bool} {s : List (Point T)} (h : Held t st)
      (hs : Valid t (level t m) s) : Valid t st (.switched m.toInt :: s)
  | startup {st : Status T} {fn userdata : Word} (h : Held t st) :
      Valid t st [.startup fn userdata]
  -- the handler runs at level 1 and eret goes back to level 0
  | trap0 {n : Nat} {s : List (Point T)} (hs : Valid t (level t false) s) :
      Valid t ⟨some t, true, 0, 0⟩ (.trap0 n :: s)
  | trap1 {n : Nat} {s : List (Point T)} (hs : Valid t (level t false) s) :
      Valid t ⟨some t, true, 0, 0⟩ (.trap1 n 0 :: s)
  | trap2 {n : Nat} {s : List (Point T)} (hs : Valid t (level t false) s) :
      Valid t ⟨some t, true, 0, 1⟩ (.trap2 n 0 :: s)
  | handler {n : Nat} {s : List (Point T)} (hs : Valid t (level t false) s) :
      Valid t (level t true) (.handler n 0 :: s)
  | trap3 {s : List (Point T)} (hs : Valid t (level t false) s) :
      Valid t (level t true) (.trap3 0 :: s)
  | trap4 {s : List (Point T)} (hs : Valid t (level t false) s) :
      Valid t ⟨some t, true, 1, 0⟩ (.trap4 0 :: s)
  | eret {s : List (Point T)} (hs : Valid t (level t false) s) :
      Valid t ⟨some t, true, 0, 0⟩ (.eret :: s)
  -- task_start is called from the task's own code
  | starting {u : T} {fn userdata : Word} {todo : List ListStmt} {m : Bool} :
      Valid t (level t m) [.starting u fn userdata todo]
  | pcb {u : T} {fn userdata : Word} {todo : List PcbStmt} {m : Bool} :
      Valid t (level t m) [.pcb u fn userdata todo]
  | back {m : Bool} {s : List (Point T)} (hs : Valid t (level t m) s) :
      Valid t (level t m) (.back (level t m) :: s)

section Valid

variable {t : T} {st : Status T} {s : List (Point T)}

/-- No valid stack waits for `splhigh` without having called it. -/
theorem Valid.ret (h : Valid t st s) (r : Int) : ret r s = s := by
  cases h <;> rfl

/-- **Unmasked means level 0.** -/
theorem Valid.unmasked (h : Valid t st s) (hm : st.masked = false) : st = level t false := by
  have hheld : ¬ Held t st := fun hc => Bool.false_ne_true (hm.symm.trans hc.2)
  have hlevel : ∀ m, st = level t m → st = level t false := by
    intro m he
    obtain rfl : m = false := by
      rw [he] at hm
      exact hm
    exact he
  cases h with
  | user h => exact hlevel _ h
  | high0 h | high1 h | low0 h | low1 h | low2 h | low3 h | splx h => exact h.resolve_right hheld
  | high2 h | high3 h | switched h | startup h => exact absurd h hheld
  | entry | chosen | enqueueing | enqueued | starting | pcb | back => exact hlevel _ rfl
  | unlinking h | dispatched h => exact absurd (hm.symm.trans h.2) Bool.false_ne_true
  | masked | trap0 | trap1 | trap2 | handler | trap3 | trap4 | eret => cases hm

/-- In the task's own code the three places agree. -/
theorem Valid.eq_level (h : Valid t st []) : ∃ m, st = level t m := by
  cases h with
  | user h => exact ⟨_, h⟩

/-- A return finds the status of the call. -/
theorem Valid.back_eq {st' : Status T} (h : Valid t st (.back st' :: s)) : st = st' := by
  cases h with
  | back hs => rfl

end Valid

/-! ## Statements -/

section Stores

variable [DecidableEq T] {t : T} {k : Cpu T}

theorem status_setSpl (h : k.curtask = some t) (v : Int) :
    (k.setSpl v).status = { k.status with spl := v } := by
  simp [status, spl, setSpl, h, TaskHeap.setSpl]

/-- List statements store to links only. -/
theorem info_exec {u : T} {h h' : TaskHeap T ListName} {x : ListStmt} (hx : x.exec u h = .ok h') :
    h'.info = h.info := by
  cases x with
  | unlinkHead l | unlinkTail l | headPrev l | tailNext l =>
      cases hx
      split_ifs <;> simp
  | assertPrev | assertNext =>
      simp only [ListStmt.exec, bind_eq_ok, pure_eq_ok, Except.ok.injEq] at hx
      obtain ⟨-, -, rfl⟩ := hx
      rfl
  | _ => cases hx; simp

omit [DecidableEq T] in
theorem status_of_info {h : TaskHeap T ListName} {s : List (Point T)} (hi : h.info = k.heap.info) :
    ({ k with heap := h, stack := s } : Cpu T).status = k.status := by
  have hspl : ∀ u, (h.task u).spl = (k.heap.task u).spl := by
    intro u
    have hu : (h.info u).spl = (k.heap.info u).spl := by rw [hi]
    exact hu
  simp [status, spl, hspl]

omit [DecidableEq T] in
theorem Valid.of_eq {st st' : Status T} {s : List (Point T)} (h : Valid t st s) (he : st' = st) :
    Valid t st' s := he ▸ h

/-- `curtask->spl` is the last of the three for `splhigh`, the mask for
`spl0`. -/
theorem status_high3 (h : Held t k.status) (hc : k.status.curspl = 1) :
    (k.setSpl 1).status = level t true := by
  rw [status_setSpl h.1]
  obtain ⟨hcur, hm⟩ := h
  generalize k.status = st at *
  cases st
  simp_all [level]

theorem fit_setSpl (h : Fit t k.status) : Fit t (k.setSpl 0).status := by
  rw [status_setSpl h.curtask]
  unfold Fit at h ⊢
  cases h with
  | inl h => exact Or.inl (by rw [h]; rfl)
  | inr h => exact Or.inr h

omit [DecidableEq T] in
theorem fit_curspl {st : Status T} (h : Fit t st) : Fit t { st with curspl := 0 } := by
  unfold Fit at h ⊢
  cases h with
  | inl h => exact Or.inl (by rw [h]; rfl)
  | inr h => exact Or.inr h

omit [DecidableEq T] in
theorem unmask_low3 {st : Status T} (h : Fit t st) (hv : st.spl = 0) (hc : st.curspl = 0) :
    { st with masked := false } = level t false := by
  have hcur := h.curtask
  cases st
  simp_all [level]

/-- **One statement**, other than the context switch, keeps the stack valid. -/
theorem Valid.step {k' : Cpu T} (h : Valid t k.status k.stack) (hstep : k.step = .ok k')
    (hd : ∀ prev spl s, k.stack ≠ .dispatched prev spl :: s) : Valid t k'.status k'.stack := by
  unfold Cpu.step at hstep
  generalize hst : k.status = st at h
  generalize hs : k.stack = stack at h hd
  rw [hs] at hstep
  cases h with
  | user h =>
      cases hstep
      rw [hs, hst]
      exact .user h
  | high0 h hr =>
      cases hstep
      subst hst
      exact .high1 h hr
  | high1 h hr =>
      cases hstep
      subst hst
      exact .high2 ⟨h.curtask, rfl⟩ hr
  | high2 h hr =>
      cases hstep
      subst hst
      exact .high3 h rfl hr
  | high3 h hc hr =>
      cases hstep
      subst hst
      exact hr.of_eq (status_high3 h hc)
  | low0 h hr =>
      cases hstep
      subst hst
      exact .low1 h hr
  | low1 h hr =>
      cases hstep
      subst hst
      exact .low2 (fit_setSpl h) (congrArg Status.spl (status_setSpl h.curtask 0)) hr
  | low2 h hv hr =>
      cases hstep
      subst hst
      exact .low3 (fit_curspl h) hv rfl hr
  | low3 h hv hc hr =>
      cases hstep
      subst hst
      exact hr.of_eq (unmask_low3 h hv hc)
  | @splx _ spl _ h hr =>
      cases hstep
      subst hst
      by_cases hspl : spl > 0
      · rw [decide_eq_true hspl] at hr
        simp only [hspl, if_true]
        exact .high0 h hr
      · rw [decide_eq_false hspl] at hr
        simp only [hspl, if_false]
        exact .low0 h hr
  | entry hr =>
      cases hstep
      exact (Valid.chosen hr).of_eq hst
  | chosen hr =>
      simp only [bind_eq_ok, pure_eq_ok, Except.ok.injEq] at hstep
      obtain ⟨-, -, list, -, u, -, rfl⟩ := hstep
      exact (Valid.enqueueing hr).of_eq hst
  | @enqueueing _ _ todo _ _ hr =>
      cases todo with
      | nil =>
          cases hstep
          exact (Valid.enqueued hr).of_eq hst
      | cons x todo =>
          simp only [bind_eq_ok, pure_eq_ok, Except.ok.injEq] at hstep
          obtain ⟨heap, hx, rfl⟩ := hstep
          exact (Valid.enqueueing hr).of_eq ((status_of_info (info_exec hx)).trans hst)
  | @enqueued next m s hr =>
      cases hstep
      have hret : ∀ next, Valid t (level t true) (Cpu.ret m.toInt (.awaiting next :: s)) :=
        fun next => .masked hr
      exact (Valid.high0 (fit_level t m) (hret _)).of_eq hst
  | masked hr =>
      simp only [bind_eq_ok, pure_eq_ok, Except.ok.injEq] at hstep
      obtain ⟨u, hu, rfl⟩ := hstep
      have hcur : k.curtask = some t := congrArg Status.curtask hst
      rw [hcur]
      exact .unlinking ⟨assertNotNull_eq_ok.mp hu, congrArg Status.masked hst⟩ hr
  | @unlinking _ _ _ todo _ _ h hr =>
      subst hst
      cases todo with
      | nil =>
          cases hstep
          exact .dispatched h hr
      | cons x todo =>
          simp only [bind_eq_ok, pure_eq_ok, Except.ok.injEq] at hstep
          obtain ⟨heap, -, rfl⟩ := hstep
          exact .unlinking h hr
  | dispatched => exact absurd rfl (hd _ _ _)
  | @switched _ m _ h hr =>
      cases hstep
      subst hst
      refine .splx (Or.inr h) ?_
      rw [hr.ret]
      cases m <;> exact hr
  | startup h =>
      cases hstep
      subst hst
      exact .low0 (Or.inr h) (.user rfl)
  | trap0 hr =>
      cases hstep
      have hspl : k.spl = 0 := congrArg Status.spl hst
      rw [hspl]
      exact (Valid.trap1 hr).of_eq hst
  | trap1 hr =>
      cases hstep
      have hcur : k.curtask = some t := congrArg Status.curtask hst
      exact (Valid.trap2 hr).of_eq ((status_setSpl hcur 1).trans (by rw [hst]))
  | trap2 hr =>
      cases hstep
      exact (Valid.handler hr).of_eq (congrArg (fun st => { st with curspl := 1 }) hst)
  | @handler n _ hr =>
      cases n with
      | zero =>
          cases hstep
          exact (Valid.trap3 hr).of_eq hst
      | succ n =>
          cases hstep
          rw [hst]
          exact (Valid.entry (Valid.back (Valid.handler hr))).of_eq hst
  | trap3 hr =>
      cases hstep
      have hcur : k.curtask = some t := congrArg Status.curtask hst
      exact (Valid.trap4 hr).of_eq ((status_setSpl hcur 0).trans (by rw [hst]; rfl))
  | trap4 hr =>
      cases hstep
      exact (Valid.eret hr).of_eq (congrArg (fun st => { st with curspl := 0 }) hst)
  | eret hr =>
      cases hstep
      exact hr.of_eq (congrArg (fun st => { st with masked := false }) hst)
  | @starting _ _ _ todo _ =>
      cases todo with
      | nil =>
          cases hstep
          exact Valid.pcb.of_eq hst
      | cons x todo =>
          simp only [bind_eq_ok, pure_eq_ok, Except.ok.injEq] at hstep
          obtain ⟨heap, hx, rfl⟩ := hstep
          exact Valid.starting.of_eq ((status_of_info (info_exec hx)).trans hst)
  | @pcb _ _ _ todo _ =>
      cases todo with
      | nil =>
          cases hstep
          exact (Valid.user rfl).of_eq hst
      | cons x todo =>
          cases hstep
          exact Valid.pcb.of_eq hst
  | back hr =>
      cases hstep
      exact hr.of_eq hst

omit [DecidableEq T] in
/-- What a stack expects once the switch has loaded it. -/
theorem Valid.switch {prev : Option T} {spl : Int} {st : Status T} {s : List (Point T)}
    (h : Valid t st (.dispatched prev spl :: s)) : prev = some t ∧ (∃ n, Held n st) ∧
      ∀ st, Held t st → Valid t st (.switched spl :: s) := by
  cases h with
  | dispatched h hr => exact ⟨rfl, ⟨_, h⟩, fun st hheld => .switched hheld hr⟩

omit [DecidableEq T] in
/-- **An interrupt**, with a record of the status for its return. -/
theorem Valid.irq (h : Valid t k.status k.stack) (hm : k.masked = false) (n : Nat) :
    Valid t { k.status with masked := true } (.trap0 n :: .back k.status :: k.stack) := by
  have hst := h.unmasked hm
  rw [hst] at h ⊢
  exact .trap0 (.back h)

end Stores

end TeachingOs.Cpu
