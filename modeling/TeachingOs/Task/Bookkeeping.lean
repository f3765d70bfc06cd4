import TeachingOs.Task.Dispatch
import TeachingOs.Task.Levels
import TeachingOs.Task.Preempt

/-!
# TeachingOs.Task.Bookkeeping

Runs of the machine of `TeachingOs.Task.Points`, with an interrupt at any
statement.

`Inv` puts the levels and the dispatcher together: a valid stack tells who
called `md_switch`, and a complete context brings back a valid stack.  Every
event keeps it as long as no interrupt yields while the window of
`task_start` is open (`Inv.take`), from which `levels_agree` and
`loads_of_closed` follow.
-/

namespace TeachingOs.Cpu

variable {T : Type}

/-- The dispatcher meets good tasks, and the running task and the suspended
ones have valid stacks. -/
structure Inv [DecidableEq T] (k : Cpu T) (t : T) : Prop where
  dispatch : Dispatch k t
  valid : Valid t k.status k.stack
  saved : ∀ u s, k.context u = .saved s → ∀ st, Held u st → Valid u st s

/-- No interrupt yields while the window of `task_start` is open. -/
def Closed (k : Cpu T) : Event T → Prop
  | .irq yields => 0 < yields → window k.stack = none
  | _ => True

/-- Interrupts arrive outside of `task_start`. -/
def Outside (k : Cpu T) : Event T → Prop
  | .irq _ => ∀ p ∈ k.stack, ¬ p.InStart
  | _ => True

theorem Outside.closed {k : Cpu T} {e : Event T} (h : Outside k e) : Closed k e := by
  cases e with
  | irq n =>
      intro _
      by_contra hopen
      obtain ⟨u, hu⟩ := Option.ne_none_iff_exists'.mp hopen
      obtain ⟨p, hp, hw⟩ := window_eq_some hu
      exact h p hp (Point.inStart_of_window hw)
  | _ => trivial

section Invariant

variable [DecidableEq T] {k k' : Cpu T} {t : T}

/-! ## Statements -/

/-- Only `md_switch` and `md_init_new_task_pcb` store to contexts. -/
theorem context_step (hstep : k.step = .ok k')
    (hd : ∀ prev spl s, k.stack ≠ .dispatched prev spl :: s)
    (hp : ∀ u fn userdata x todo s, k.stack ≠ .pcb u fn userdata (x :: todo) :: s) :
    k'.context = k.context := by
  unfold step at hstep
  split at hstep <;> grind [setSpl, bind_eq_ok, pure_eq_ok]

/-- A statement that keeps every context. -/
theorem Inv.keep (h : Inv k t) (hd : Dispatch k' t) (hv : Valid t k'.status k'.stack)
    (hcontext : k'.context = k.context) : Inv k' t :=
  ⟨hd, hv, by rw [hcontext]; exact h.saved⟩

/-- **The context switch** brings back a valid stack. -/
theorem Inv.switch {prev : Option T} {spl : Int} {s : List (Point T)} (h : Inv k t)
    (hs : k.stack = .dispatched prev spl :: s) :
    ∃ n, k.curtask = some n ∧ Inv (mdSwitch prev { k with stack := .switched spl :: s }) n := by
  have hvalid := h.valid
  rw [hs] at hvalid
  obtain ⟨rfl, ⟨n, hcur, hmasked⟩, hback⟩ := hvalid.switch
  have hcur : k.curtask = some n := hcur
  have hcomplete := h.dispatch.complete hs (h.dispatch.current n hcur)
  have hsaved : ∀ u s', (mdSwitch (some t) { k with stack := .switched spl :: s }).context u =
      .saved s' → ∀ st, Held u st → Valid u st s' := by
    intro u s' hu
    by_cases hut : u = t
    · subst hut
      have hself := (Function.update_self u (Context.saved (.switched spl :: s)) k.context).symm
      cases hself.trans hu
      exact hback
    · exact h.saved u s' ((Function.update_of_ne hut _ k.context).symm.trans hu)
  have hstack : (mdSwitch (some t) { k with stack := .switched spl :: s }).stack =
      ((mdSwitch (some t) { k with stack := .switched spl :: s }).context n).resume := by
    simp only [mdSwitch, hcur, Option.map_some, Option.getD_some]
  refine ⟨n, hcur, h.dispatch.switch hs hcur, ?_, hsaved⟩
  rw [hstack]
  cases resume_of_complete hcomplete with
  | inl hstart =>
      obtain ⟨fn, userdata, hresume⟩ := hstart
      rw [hresume]
      exact .startup ⟨hcur, hmasked⟩
  | inr hload => exact hsaved n _ hload _ ⟨hcur, hmasked⟩

omit [DecidableEq T] in
theorem Valid.eq_nil_of_inStart {st : Status T} {x : Point T} {s : List (Point T)}
    (h : Valid t st (x :: s)) (hx : x.InStart) : s = [] := by
  cases h with
  | startup | starting | pcb => rfl
  | _ => exact hx.elim

/-- A statement of `task_start`. -/
theorem Inv.start_step {x : Point T} {s : List (Point T)} (h : Inv k t) (hs : k.stack = x :: s)
    (hx : x.InStart) (hstep : k.step = .ok k') : Inv k' t := by
  have hvalid := h.valid.step hstep (by rw [hs]; rintro _ _ _ ⟨⟩; exact hx)
  obtain rfl := (hs ▸ h.valid).eq_nil_of_inStart hx
  simp only [Cpu.step, hs] at hstep
  cases x with
  | starting u fn userdata todo =>
      cases todo with
      | nil =>
          cases hstep
          exact h.keep (h.dispatch.started hs) hvalid rfl
      | cons x todo =>
          simp only [bind_eq_ok, pure_eq_ok, Except.ok.injEq] at hstep
          obtain ⟨heap, hexec, rfl⟩ := hstep
          exact h.keep (h.dispatch.starting hs hexec) hvalid rfl
  | pcb u fn userdata todo =>
      cases todo with
      | nil =>
          cases hstep
          exact h.keep (h.dispatch.goto (q := []) hs rfl h.dispatch.linked h.dispatch.current
            (List.forall_mem_nil _) fun _ => List.forall_mem_nil _) hvalid rfl
      | cons x todo =>
          cases hstep
          refine ⟨h.dispatch.pcb hs, hvalid, fun v s hv => h.saved v s ?_⟩
          by_cases hvu : v = u
          · subst hvu
            exact saved_of_exec ((Function.update_self v _ k.context).symm.trans hv)
          · exact (Function.update_of_ne hvu _ k.context).symm.trans hv
  | _ => exact hx.elim

/-- **Every statement** keeps the invariant. -/
theorem Inv.step (h : Inv k t) (hstep : k.step = .ok k') : ∃ t', Inv k' t' := by
  by_cases hd : ∀ prev spl s, k.stack ≠ .dispatched prev spl :: s
  · have hvalid := h.valid.step hstep hd
    by_cases hstart : ∀ x s, k.stack = x :: s → ¬ x.InStart
    · refine ⟨t, h.keep (h.dispatch.step hstep hd hstart) hvalid (context_step hstep hd ?_)⟩
      intro u fn userdata x todo s hs
      exact hstart _ _ hs trivial
    · push Not at hstart
      obtain ⟨x, s, hs, hx⟩ := hstart
      exact ⟨t, h.start_step hs hx hstep⟩
  · push Not at hd
    obtain ⟨prev, spl, s, hs⟩ := hd
    obtain ⟨n, -, hinv⟩ := h.switch hs
    simp only [Cpu.step, hs] at hstep
    cases hstep
    exact ⟨n, hinv⟩

/-! ## Interrupts and calls -/

theorem Inv.irq {n : Nat} (h : Inv k t) (hm : k.masked = false)
    (hclosed : 0 < n → window k.stack = none) (htake : k.take (.irq n) = .ok k') : Inv k' t := by
  cases htake
  refine h.keep (h.dispatch.frame (p := []) (q := [_, _]) rfl rfl h.dispatch.linked
    h.dispatch.current (List.forall_mem_nil _) ?_ fun hopen => ?_) (h.valid.irq hm n) rfl
  · rw [List.forall_mem_cons, List.forall_mem_singleton]
    exact ⟨⟨rfl, trivial⟩, ⟨rfl, trivial⟩⟩
  · rw [List.forall_mem_cons, List.forall_mem_singleton]
    exact ⟨Nat.eq_zero_of_not_pos fun hn => hopen (hclosed hn), trivial⟩

/-- A call by the task's own code puts `q` on the empty stack. -/
theorem Inv.call {q : List (Point T)} (h : Inv k t) (hs : k.stack = [])
    (hq : ∀ x ∈ q, x.window = none ∧ x.Ok (k.Good t) k.Known)
    (hvalid : ∀ m, k.status = level t m → Valid t (level t m) q) :
    Inv { k with stack := q ++ k.stack } t := by
  obtain ⟨m, hst⟩ := (hs ▸ h.valid).eq_level
  refine h.keep (h.dispatch.frame (p := []) rfl rfl h.dispatch.linked h.dispatch.current
    (List.forall_mem_nil _) hq fun hopen => ?_) ?_ rfl
  · rw [hs] at hopen
    exact absurd rfl hopen
  · rw [hs, List.append_nil]
    exact (hvalid m hst).of_eq hst

theorem Inv.new {u : T} (h : Inv k t) (hs : k.stack = []) (hu : u ∉ k.started ++ k.created)
    (htake : k.take (.new u) = .ok k') : Inv k' t := by
  obtain ⟨m, hst⟩ := (hs ▸ h.valid).eq_level
  have hcur : k.curtask = some t := congrArg Status.curtask hst
  have hspl : k'.status = k.status := by
    have htu : t ≠ u := fun heq => hu (List.mem_append_left _ (heq ▸ h.dispatch.owner))
    cases htake
    simp [status, spl, hcur, Function.update_of_ne htu]
  refine ⟨h.dispatch.new hs hu htake, ?_, fun v s hv => h.saved v s ?_⟩
  · cases htake
    exact h.valid.of_eq hspl
  · cases htake
    by_cases hvu : v = u
    · subst hvu
      cases (Function.update_self v _ k.context).symm.trans hv
    · exact (Function.update_of_ne hvu _ k.context).symm.trans hv

theorem Inv.start {u : T} {fn userdata : Word} (h : Inv k t) (hs : k.stack = [])
    (hu : u ∈ k.created) (htake : k.take (.start u fn userdata) = .ok k') : Inv k' t := by
  obtain ⟨m, hst⟩ := (hs ▸ h.valid).eq_level
  have hd := h.dispatch.start hs hu htake
  cases htake
  rw [hs] at hd ⊢
  exact h.keep hd (Valid.starting.of_eq hst) rfl

/-- **Every event** keeps the invariant, but for an interrupt that yields in
the window. -/
theorem Inv.take {e : Event T} (h : Inv k t) (hp : k.Possible e) (hc : Closed k e)
    (htake : k.take e = .ok k') : ∃ t', Inv k' t' := by
  cases e with
  | step => exact h.step htake
  | irq n => exact ⟨t, h.irq hp hc htake⟩
  | new u => exact ⟨t, h.new hp.1 hp.2 htake⟩
  | start u fn userdata => exact ⟨t, h.start hp.1 hp.2 htake⟩
  | splhigh =>
      cases htake
      exact ⟨t, h.call (q := [_]) hp (by simp [Point.window, Point.Ok])
        fun m _ => .high0 (fit_level t m) (.user rfl)⟩
  | spl0 =>
      cases htake
      exact ⟨t, h.call (q := [_]) hp (by simp [Point.window, Point.Ok])
        fun m _ => .low0 (fit_level t m) (.user rfl)⟩
  | splx spl =>
      cases htake
      exact ⟨t, h.call (q := [_]) hp (by simp [Point.window, Point.Ok])
        fun m _ => .splx (fit_level t m) (.user rfl)⟩
  | yield =>
      cases htake
      refine ⟨t, h.call (q := [_, _]) hp (by simp [Point.window, Point.Ok]) fun m hst => ?_⟩
      rw [hst]
      exact .entry (.back (.user rfl))
  | exit =>
      cases htake
      exact ⟨t, h.call (q := [_]) hp (by simp [Point.window, Point.Ok])
        fun m _ => .entry (.user rfl)⟩

/-! ## Runs -/

/-- The invariant after `task_bootstrap`. -/
theorem inv_boot (kmain : T) (task : T → Task T) : Inv (boot kmain task) kmain := by
  have hspl : (boot kmain task).spl = 0 := by simp [boot, spl]
  have hnext : (boot kmain task).heap.next kmain = none := by simp [boot, TaskHeap.next]
  refine ⟨?_, .user (by rw [level, status, hspl]; rfl), fun u s hu => by cases hu⟩
  exact {
    linked := by
      refine ⟨fun l n hn => (by cases hn), fun u hu n hn => ?_⟩
      obtain rfl : u = kmain := List.mem_singleton.mp hu
      rw [hnext] at hn
      cases hn
    ok := List.forall_mem_nil _
    current := fun n hn => Or.inl (Option.some.inj hn).symm
    calm := fun _ => List.forall_mem_nil _
    finish := fun u fn userdata x todo hm => absurd hm List.not_mem_nil
    parked := fun u s hu => by cases hu
    owner := List.mem_cons_self
    known := fun n hn => hn.elim }

/-- **The invariant holds in every run** without yields in the window. -/
theorem inv_of_run {kmain : T} {task : T → Task T} {past : List (Cpu T × Event T)}
    (h : Run Closed kmain task past k) : ∃ t, Inv k t := by
  have hinit : ∀ k, k = boot kmain task → ∃ t, Inv k t := by
    intro k hk
    rw [hk]
    exact ⟨kmain, inv_boot kmain task⟩
  have hstep : ∀ (k : Cpu T) (e : Event T) (k' : Cpu T), (∃ t, Inv k t) → True →
      (k.Possible e ∧ Closed k e ∧ k.take e = .ok k') → ∃ t, Inv k' t := by
    intro k e k' hinv _ hevent
    obtain ⟨t, hinv⟩ := hinv
    exact hinv.take hevent.1 hevent.2.1 hevent.2.2
  exact @History.invariant _ _ _ _ past k (fun k => ∃ t, Inv k t) h (fun _ _ => True) hinit hstep
    fun _ _ => trivial

end Invariant

/-! ## What holds in every run -/

/-- An operation has completed: the task's own code is running, a call is
about to return to it or to an interrupt handler, or `splhigh` has returned
to `mi_switch`. -/
def Completed : List (Point T) → Prop
  | [] => True
  | .back _ :: _ => True
  | .masked _ _ :: _ => True
  | _ => False

/-- The mask, `curspl` and `curtask->spl` agree wherever that can be seen,
and a call returns to the status it was made in. -/
structure Levels [DecidableEq T] (k : Cpu T) : Prop where
  unmasked : k.masked = false → k.curspl = 0 ∧ k.spl = 0
  completed : Completed k.stack → k.curspl = k.spl ∧ (k.curspl = 1 ↔ k.masked = true)
  restored : ∀ st s, k.stack = .back st :: s → k.status = st

section Results

variable [DecidableEq T] {k : Cpu T} {t : T} {kmain : T} {task : T → Task T}
  {past : List (Cpu T × Event T)}

omit [DecidableEq T] in
theorem Valid.eq_level_of_completed {st : Status T} {s : List (Point T)} (h : Valid t st s)
    (hc : Completed s) : ∃ m, st = level t m := by
  cases h with
  | user h => exact ⟨_, h⟩
  | masked | back => exact ⟨_, rfl⟩
  | _ => exact hc.elim

theorem Inv.levels (h : Inv k t) : Levels k where
  unmasked hm := by
    have hst := h.valid.unmasked hm
    exact ⟨congrArg Status.curspl hst, congrArg Status.spl hst⟩
  completed hc := by
    obtain ⟨m, hst⟩ := h.valid.eq_level_of_completed hc
    have hcurspl : k.curspl = m.toInt := congrArg Status.curspl hst
    have hspl : k.spl = m.toInt := congrArg Status.spl hst
    have hmasked : k.masked = m := congrArg Status.masked hst
    rw [hcurspl, hspl, hmasked]
    cases m <;> simp
  restored st s hs := (hs ▸ h.valid).back_eq

theorem Inv.loads (h : Inv k t) : Loads k := by
  intro prev spl s hs
  obtain ⟨rfl, ⟨n, hcur, -⟩, -⟩ := (hs ▸ h.valid).switch
  exact ⟨n, hcur, h.dispatch.complete hs (h.dispatch.current n hcur)⟩

/-- **The levels agree** in every run whose interrupts arrive outside of
`task_start`. -/
theorem levels_agree (h : Run Outside kmain task past k) : Levels k := by
  obtain ⟨t, hinv⟩ := inv_of_run (h.mono fun _ _ => Outside.closed)
  exact hinv.levels

/-- `main` starts a task, and an interrupt switches to it. -/
theorem levels_agree_preempted : ∃ past k, Run Outside false blankTask past k ∧
    k.curtask = some true ∧ k.stack = [] ∧ Levels k := by
  have hboot : Run Outside false blankTask [] _ := .init rfl
  have hstart := (hboot.snoc (e := Event.new true) ⟨⟨rfl, by simp [boot]⟩, trivial, rfl⟩).snoc
    (e := Event.start true 0 0) ⟨⟨rfl, List.mem_cons_self⟩, trivial, rfl⟩
  obtain ⟨past₁, hdone⟩ := Run.steps (fun _ => trivial) (n := 15) hstart rfl
  have hirq := hdone.snoc (e := Event.irq 1) ⟨rfl, List.forall_mem_nil _, rfl⟩
  obtain ⟨past₂, hrun⟩ := Run.steps (fun _ => trivial) (n := 34) hirq rfl
  exact ⟨past₂, _, hrun, rfl, rfl, levels_agree hrun⟩

/-- **Only complete contexts are loaded** in every run without an interrupt
that yields between `to->head = task` and the end of `md_init_new_task_pcb`. -/
theorem loads_of_closed (h : Run Closed kmain task past k) : Loads k := by
  obtain ⟨t, hinv⟩ := inv_of_run h
  exact hinv.loads

/-- An interrupt that yields once `task_start` is through switches to the
new task; the one before, in the window, does not yield. -/
theorem loads_of_closed_started : ∃ past k, Run Closed false blankTask past k ∧
    k.curtask = some true ∧ (∃ spl s, k.stack = .dispatched (some false) spl :: s) ∧ Loads k := by
  have hboot : Run Closed false blankTask [] _ := .init rfl
  have hstart := (hboot.snoc (e := Event.new true) ⟨⟨rfl, by simp [boot]⟩, trivial, rfl⟩).snoc
    (e := Event.start true 0 0) ⟨⟨rfl, List.mem_cons_self⟩, trivial, rfl⟩
  obtain ⟨past₁, hwindow⟩ := Run.steps (fun _ => trivial) (n := 7) hstart rfl
  have hquiet := hwindow.snoc (e := Event.irq 0) ⟨rfl, fun hpos => absurd hpos (lt_irrefl 0), rfl⟩
  obtain ⟨past₂, hdone⟩ := Run.steps (fun _ => trivial) (n := 16) hquiet rfl
  have hirq := hdone.snoc (e := Event.irq 1) ⟨rfl, fun _ => rfl, rfl⟩
  obtain ⟨past₃, hrun⟩ := Run.steps (fun _ => trivial) (n := 28) hirq rfl
  exact ⟨past₃, _, hrun, rfl, ⟨_, _, rfl⟩, loads_of_closed hrun⟩

/-- An interrupt that yields right after `to->head = task` loads the pcb
that was never written. -/
theorem not_loads_window : ¬ ∀ past k, Run (fun _ _ => True) false blankTask past k → Loads k := by
  intro h
  have hboot : Run (fun _ _ => True) false blankTask [] _ := .init rfl
  have hstart := (hboot.snoc (e := Event.new true) ⟨⟨rfl, by simp [boot]⟩, trivial, rfl⟩).snoc
    (e := Event.start true 0 0) ⟨⟨rfl, List.mem_cons_self⟩, trivial, rfl⟩
  obtain ⟨past₁, hwindow⟩ := Run.steps (fun _ => trivial) (n := 7) hstart rfl
  have hirq := hwindow.snoc (e := Event.irq 1) ⟨rfl, trivial, rfl⟩
  obtain ⟨past₂, hrun⟩ := Run.steps (fun _ => trivial) (n := 28) hirq rfl
  obtain ⟨n, hcur, hcomplete⟩ := h _ _ hrun _ _ _ rfl
  cases hcur
  exact hcomplete

end Results

end TeachingOs.Cpu
