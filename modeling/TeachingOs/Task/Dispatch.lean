import TeachingOs.Task.Window

/-!
# TeachingOs.Task.Dispatch

Which contexts a switch can load.

A task is `Good` when it is the running one, has a complete context, or is
the one in the window of `task_start`.  `Dispatch` says that the scheduler
only meets good tasks.  Every statement keeps it (`Dispatch.step` and the
lemmas on `task_start`), and at a context switch no window is open, so that
the task it switches to has a complete context (`Dispatch.switch`).
-/

namespace TeachingOs.Cpu

variable {T : Type}

/-! ## The invariant -/

/-- The task of the open window, if there is one. -/
def window (s : List (Point T)) : Option T := s.findSome? Point.window

/-- A switch to the task goes well, while `t` runs. -/
def Good (k : Cpu T) (t n : T) : Prop :=
  n = t ∨ (k.context n).Complete ∨ window k.stack = some n

/-- The tasks that `task_start` was called for, and the bootstrap task. -/
def Known (k : Cpu T) (t : T) : Prop := t ∈ k.started

/-- While `t` runs, the scheduler meets good tasks only; suspended tasks are
not in the window, and the statements left in the window complete the
context. -/
structure Dispatch (k : Cpu T) (t : T) : Prop where
  linked : Linked (k.Good t) (· ∈ k.created ++ k.started) k.heap
  ok : ∀ p ∈ k.stack, p.Ok (k.Good t) k.Known
  current : ∀ n, k.curtask = some n → k.Good t n
  calm : window k.stack ≠ none → ∀ p ∈ k.stack, p.Calm
  finish : ∀ u fn userdata x todo, .pcb u fn userdata (x :: todo) ∈ k.stack →
    ((x :: todo).foldl (PcbStmt.exec fn userdata) (k.context u)).Complete
  parked : ∀ u s, k.context u = .saved s →
    window s = none ∧ ∀ p ∈ s, p.Ok (k.Good t) k.Known
  owner : k.Known t
  known : ∀ n, (k.context n).Complete → k.Known n

section Window

theorem window_cons (p : Point T) (s : List (Point T)) :
    window (p :: s) = p.window.or (window s) := by
  unfold window
  rw [List.findSome?_cons]
  cases p.window <;> rfl

theorem window_singleton (p : Point T) : window [p] = p.window := by
  rw [window_cons]
  cases p.window <;> rfl

theorem window_append {p s : List (Point T)} (hp : ∀ x ∈ p, x.window = none) :
    window (p ++ s) = window s := by
  induction p with
  | nil => rfl
  | cons x p ih =>
      rw [List.forall_mem_cons] at hp
      rw [List.cons_append, window_cons, hp.1, ih hp.2]
      rfl

theorem window_eq_some {s : List (Point T)} {u : T} (h : window s = some u) :
    ∃ p ∈ s, p.window = some u := List.exists_of_findSome?_eq_some h

theorem pcb_done_of_window {s : List (Point T)} {u : T} {fn userdata : Word} {x : PcbStmt}
    {todo : List PcbStmt} (h : window s = none) : .pcb u fn userdata (x :: todo) ∉ s := by
  intro hm
  have hw := List.findSome?_eq_none_iff.mp h _ hm
  cases hw

end Window

section Dispatch

variable {k k' : Cpu T} {t : T}

theorem Dispatch.known_of_good (h : Dispatch k t) {n : T} (hn : k.Good t n) : k.Known n := by
  unfold Good at hn
  rcases hn with rfl | hn | hn
  · exact h.owner
  · exact h.known n hn
  · obtain ⟨p, hp, hw⟩ := window_eq_some hn
    exact (h.ok p hp).known_of_window hw

/-- **The frame rule**: a step that touches neither contexts nor the window. -/
theorem Dispatch.keep (h : Dispatch k t) (hwindow : window k'.stack = window k.stack)
    (hlinked : Linked (k.Good t) (· ∈ k.created ++ k.started) k'.heap)
    (hcurrent : ∀ n, k'.curtask = some n → k.Good t n)
    (hok : ∀ x ∈ k'.stack, x.Ok (k.Good t) k.Known)
    (hcalm : window k.stack ≠ none → ∀ x ∈ k'.stack, x.Calm)
    (hfinish : ∀ u fn userdata x todo, .pcb u fn userdata (x :: todo) ∈ k'.stack →
      ((x :: todo).foldl (PcbStmt.exec fn userdata) (k.context u)).Complete)
    (hcontext : k'.context = k.context := by rfl) (hcreated : k'.created = k.created := by rfl)
    (hstarted : k'.started = k.started := by rfl) : Dispatch k' t := by
  have hgood : k'.Good t = k.Good t := by
    funext n
    rw [Good, Good, hcontext, hwindow]
  have hknown : k'.Known = k.Known := by
    funext n
    rw [Known, Known, hstarted]
  exact {
    linked := by rw [hgood, hcreated, hstarted]; exact hlinked
    ok := by rw [hgood, hknown]; exact hok
    current := by rw [hgood]; exact hcurrent
    calm := by rw [hwindow]; exact hcalm
    finish := by rw [hcontext]; exact hfinish
    parked := by rw [hcontext, hgood, hknown]; exact h.parked
    owner := by rw [hknown]; exact h.owner
    known := by rw [hcontext, hknown]; exact h.known }

/-- The frame rule for a change at the top of the stack. -/
theorem Dispatch.frame (h : Dispatch k t) {p q s : List (Point T)} (hs : k.stack = p ++ s)
    (hs' : k'.stack = q ++ s) (hlinked : Linked (k.Good t) (· ∈ k.created ++ k.started) k'.heap)
    (hcurrent : ∀ n, k'.curtask = some n → k.Good t n) (hp : ∀ x ∈ p, x.window = none)
    (hq : ∀ x ∈ q, x.window = none ∧ x.Ok (k.Good t) k.Known)
    (hcalm : window k.stack ≠ none → ∀ x ∈ q, x.Calm)
    (hcontext : k'.context = k.context := by rfl) (hcreated : k'.created = k.created := by rfl)
    (hstarted : k'.started = k.started := by rfl) : Dispatch k' t := by
  have hin : ∀ x ∈ s, x ∈ k.stack := fun x hx => hs ▸ List.mem_append_right p hx
  refine h.keep ?_ hlinked hcurrent ?_ ?_ ?_ hcontext hcreated hstarted
  · rw [hs, hs', window_append hp, window_append fun x hx => (hq x hx).1]
  · rw [hs', List.forall_mem_append]
    exact ⟨fun x hx => (hq x hx).2, fun x hx => h.ok x (hin x hx)⟩
  · intro hopen
    rw [hs', List.forall_mem_append]
    exact ⟨hcalm hopen, fun x hx => h.calm hopen x (hin x hx)⟩
  · intro u fn userdata x todo hx
    rw [hs', List.mem_append] at hx
    refine h.finish u fn userdata x todo (hx.elim (fun hx => ?_) (hin _))
    have hw := (hq _ hx).1
    cases hw

/-- The frame rule for one point. -/
theorem Dispatch.goto (h : Dispatch k t) {x : Point T} {q s : List (Point T)}
    (hs : k.stack = x :: s) (hs' : k'.stack = q ++ s)
    (hlinked : Linked (k.Good t) (· ∈ k.created ++ k.started) k'.heap)
    (hcurrent : ∀ n, k'.curtask = some n → k.Good t n)
    (hq : ∀ y ∈ q, y.window = none ∧ y.Ok (k.Good t) k.Known) (hcalm : x.Calm → ∀ y ∈ q, y.Calm)
    (hx : x.window = none := by rfl) (hcontext : k'.context = k.context := by rfl)
    (hcreated : k'.created = k.created := by rfl) (hstarted : k'.started = k.started := by rfl) :
    Dispatch k' t := by
  have hmem : x ∈ k.stack := hs ▸ List.mem_cons_self
  exact h.frame (p := [x]) hs hs' hlinked hcurrent (by simp [hx]) hq
    (fun hopen => hcalm (h.calm hopen x hmem)) hcontext hcreated hstarted

/-- From one point to the next. -/
theorem Dispatch.jump (h : Dispatch k t) {x y : Point T} {s : List (Point T)}
    (hs : k.stack = x :: s) (hs' : k'.stack = y :: s)
    (hlinked : Linked (k.Good t) (· ∈ k.created ++ k.started) k'.heap)
    (hcurrent : ∀ n, k'.curtask = some n → k.Good t n) (hok : y.Ok (k.Good t) k.Known)
    (hcalm : x.Calm → y.Calm) (hx : x.window = none := by rfl) (hy : y.window = none := by rfl)
    (hcontext : k'.context = k.context := by rfl) (hcreated : k'.created = k.created := by rfl)
    (hstarted : k'.started = k.started := by rfl) : Dispatch k' t :=
  h.goto (q := [y]) hs hs' hlinked hcurrent (by simp [hy, hok]) (by simpa using hcalm) hx hcontext
    hcreated hstarted

/-- A return: only `mi_switch` has something to go on with. -/
theorem Dispatch.goto_ret (h : Dispatch k t) {x : Point T} {r : Int} {s : List (Point T)}
    (hs : k.stack = x :: s) (hs' : k'.stack = ret r s)
    (hlinked : Linked (k.Good t) (· ∈ k.created ++ k.started) k'.heap)
    (hcurrent : ∀ n, k'.curtask = some n → k.Good t n) (hcalm : ¬ x.Calm)
    (hx : x.window = none := by rfl)
    (hcontext : k'.context = k.context := by rfl) (hcreated : k'.created = k.created := by rfl)
    (hstarted : k'.started = k.started := by rfl) : Dispatch k' t := by
  have hmem : x ∈ k.stack := hs ▸ List.mem_cons_self
  unfold Cpu.ret at hs'
  split at hs'
  · next next s' =>
    have hnext := h.ok (.awaiting next) (hs ▸ List.mem_cons_of_mem _ List.mem_cons_self)
    have hawaiting : (Point.awaiting next).window = none := rfl
    exact h.frame (p := [x, .awaiting next]) (q := [_]) hs hs' hlinked hcurrent
      (by simp [hx, hawaiting]) (List.forall_mem_singleton.mpr ⟨rfl, hnext⟩)
      (fun hopen => absurd (h.calm hopen x hmem) hcalm) hcontext hcreated hstarted
  · exact h.goto (q := []) hs hs' hlinked hcurrent (List.forall_mem_nil _)
      (fun hc => absurd hc hcalm) hx hcontext hcreated hstarted

variable [DecidableEq T]

/-- **One statement**, other than the context switch, and outside of
`task_start`. -/
theorem Dispatch.step (h : Dispatch k t) (hstep : k.step = .ok k')
    (hd : ∀ prev spl s, k.stack ≠ .dispatched prev spl :: s)
    (hstart : ∀ x s, k.stack = x :: s → ¬ x.InStart) : Dispatch k' t := by
  have hself : ∀ n, k.Good t n → n ∈ k.created ++ k.started :=
    fun n hn => List.mem_append_right _ (h.known_of_good hn)
  unfold Cpu.step at hstep
  split at hstep
  · cases hstep
    exact h
  -- splhigh
  · next s hs =>
    cases hstep
    exact h.jump hs rfl h.linked h.current trivial False.elim
  · next r s hs =>
    cases hstep
    exact h.jump hs rfl h.linked h.current trivial False.elim
  · next r s hs =>
    cases hstep
    exact h.jump hs rfl h.linked h.current trivial False.elim
  · next r s hs =>
    cases hstep
    exact h.goto_ret hs rfl (h.linked.setSpl _ _) h.current False.elim
  -- spl0
  · next s hs =>
    cases hstep
    exact h.jump hs rfl h.linked h.current trivial False.elim
  · next r s hs =>
    cases hstep
    exact h.jump hs rfl (h.linked.setSpl _ _) h.current trivial False.elim
  · next r s hs =>
    cases hstep
    exact h.jump hs rfl h.linked h.current trivial False.elim
  · next r s hs =>
    cases hstep
    exact h.goto_ret hs rfl h.linked h.current False.elim
  · next spl s hs =>
    cases hstep
    split_ifs
    · exact h.jump hs rfl h.linked h.current trivial False.elim
    · exact h.jump hs rfl h.linked h.current trivial False.elim
  -- mi_switch
  · next into s hs =>
    cases hstep
    exact h.jump hs rfl h.linked h.current (h.linked.head .tasksReady) False.elim
  · next into next s hs =>
    simp only [bind_eq_ok, pure_eq_ok, Except.ok.injEq] at hstep
    obtain ⟨-, -, list, -, u, hu, rfl⟩ := hstep
    have hnext := h.ok (.chosen into next) (hs ▸ List.mem_cons_self)
    exact h.jump hs rfl h.linked h.current ⟨hnext, h.current u (assertNotNull_eq_ok.mp hu)⟩
      False.elim
  · next next u s hs =>
    cases hstep
    have hnext := (h.ok (.enqueueing next u []) (hs ▸ List.mem_cons_self)).1
    exact h.jump hs rfl h.linked h.current hnext False.elim
  · next next u x todo s hs =>
    simp only [bind_eq_ok, pure_eq_ok, Except.ok.injEq] at hstep
    obtain ⟨heap, hx, rfl⟩ := hstep
    have hok := h.ok (.enqueueing next u (x :: todo)) (hs ▸ List.mem_cons_self)
    exact h.jump hs rfl (h.linked.exec (hself u hok.2) (fun _ => hok.2) hx) h.current hok False.elim
  · next next s hs =>
    cases hstep
    have hnext := h.ok (.enqueued next) (hs ▸ List.mem_cons_self)
    refine h.goto hs (q := [_, _]) rfl h.linked h.current ?_ False.elim
    simp only [List.forall_mem_cons]
    refine ⟨⟨rfl, trivial⟩, ⟨rfl, ?_⟩, List.forall_mem_nil _⟩
    split_ifs
    · exact h.current
    · exact hnext
  · cases hstep
    exact h
  · next next spl s hs =>
    simp only [bind_eq_ok, pure_eq_ok, Except.ok.injEq] at hstep
    obtain ⟨u, hu, rfl⟩ := hstep
    have hnext := h.ok (.masked next spl) (hs ▸ List.mem_cons_self)
    exact h.jump hs rfl h.linked hnext (hnext u (assertNotNull_eq_ok.mp hu)) False.elim
  · next prev spl u s hs =>
    cases hstep
    exact h.jump hs rfl h.linked h.current trivial False.elim
  · next prev spl u x todo s hs =>
    simp only [bind_eq_ok, pure_eq_ok, Except.ok.injEq] at hstep
    obtain ⟨heap, hx, rfl⟩ := hstep
    have hok := h.ok (.unlinking prev spl u (x :: todo)) (hs ▸ List.mem_cons_self)
    exact h.jump hs rfl (h.linked.exec (hself u hok) (fun _ => hok) hx) h.current hok False.elim
  · next prev spl s hs => exact absurd hs (hd prev spl s)
  · next spl s hs =>
    cases hstep
    exact h.jump hs rfl h.linked h.current trivial False.elim
  · next fn userdata s hs =>
    cases hstep
    exact h.jump hs rfl h.linked h.current trivial False.elim
  -- aarch64_trapentry
  · next n s hs =>
    cases hstep
    exact h.jump hs rfl h.linked h.current trivial id
  · next n old s hs =>
    cases hstep
    exact h.jump hs rfl (h.linked.setSpl _ _) h.current trivial id
  · next n old s hs =>
    cases hstep
    exact h.jump hs rfl h.linked h.current trivial id
  · next old s hs =>
    cases hstep
    exact h.jump hs rfl h.linked h.current trivial fun _ => trivial
  · next n old s hs =>
    cases hstep
    exact h.goto hs (q := [_, _, _]) rfl h.linked h.current (by simp [Point.window, Point.Ok])
      fun hc => absurd hc (Nat.succ_ne_zero n)
  · next old s hs =>
    cases hstep
    exact h.jump hs rfl (h.linked.setSpl _ _) h.current trivial id
  · next old s hs =>
    cases hstep
    exact h.jump hs rfl h.linked h.current trivial id
  · next s hs =>
    cases hstep
    exact h.goto hs (q := []) rfl h.linked h.current (List.forall_mem_nil _)
      fun _ => List.forall_mem_nil _
  -- task_start
  · next hs => exact absurd trivial (hstart _ _ hs)
  · next hs => exact absurd trivial (hstart _ _ hs)
  · next hs => exact absurd trivial (hstart _ _ hs)
  · next hs => exact absurd trivial (hstart _ _ hs)
  · next s hs =>
    cases hstep
    exact h.goto hs (q := []) rfl h.linked h.current (List.forall_mem_nil _)
      fun _ => List.forall_mem_nil _
  · cases hstep
    exact h

/-! ## task_start -/

/-- The one statement of `task_start` that makes its task reachable opens the
window. -/
theorem setHead_notMem {x : ListStmt} {todo : List ListStmt}
    (hsuffix : x :: todo <:+ moveHeadStmts none .tasksReady) (hx : x.Links) :
    .setHead .tasksReady ∉ todo := by
  simp only [moveHeadStmts, unlinkStmts, List.cons_append, List.nil_append, List.suffix_cons_iff,
    List.cons.injEq, List.suffix_nil, reduceCtorEq, or_false] at hsuffix
  rcases hsuffix with h | h | h | h | h | h | h | h <;> obtain ⟨rfl, rfl⟩ := h <;>
    simp_all [ListStmt.Links]

/-- A list statement of `task_start`. -/
theorem Dispatch.starting {u : T} {fn userdata : Word} {x : ListStmt} {todo : List ListStmt}
    {heap : TaskHeap T ListName} (h : Dispatch k t)
    (hs : k.stack = [.starting u fn userdata (x :: todo)]) (hx : x.exec u k.heap = .ok heap) :
    Dispatch { k with heap, stack := [.starting u fn userdata todo] } t := by
  obtain ⟨hu, hsuffix⟩ := h.ok (.starting u fn userdata (x :: todo)) (hs ▸ List.mem_cons_self)
  have hgood : ∀ n, k.Good t n →
      Good { k with heap, stack := [.starting u fn userdata todo] } t n := by
    intro n hn
    refine hn.imp_right (Or.imp_right fun hw => ?_)
    rw [hs, window_singleton] at hw
    change window [.starting u fn userdata todo] = some n
    rw [window_singleton]
    simp only [Point.window, List.mem_cons] at hw ⊢
    split_ifs at hw with hmem
    rw [if_neg fun hm => hmem (Or.inr hm)]
    exact hw
  have hopen : x.Links → Good { k with heap, stack := [.starting u fn userdata todo] } t u := by
    intro hlinks
    refine Or.inr (Or.inr ?_)
    change window [.starting u fn userdata todo] = some u
    rw [window_singleton]
    exact if_neg (setHead_notMem hsuffix hlinks)
  exact {
    linked := (h.linked.mono hgood fun _ hn => hn).exec (List.mem_append_right _ hu) hopen hx
    ok := List.forall_mem_singleton.mpr ⟨hu, (List.suffix_cons x todo).trans hsuffix⟩
    current := fun n hn => hgood n (h.current n hn)
    calm := fun _ => List.forall_mem_singleton.mpr trivial
    finish := fun v f w y rest hm => by cases List.mem_singleton.mp hm
    parked := fun v s hv =>
      ⟨(h.parked v s hv).1, fun p hp => ((h.parked v s hv).2 p hp).mono hgood fun _ hn => hn⟩
    owner := h.owner
    known := h.known }

omit [DecidableEq T] in
/-- `md_init_new_task_pcb` is called with the window open. -/
theorem Dispatch.started {u : T} {fn userdata : Word} (h : Dispatch k t)
    (hs : k.stack = [.starting u fn userdata []]) :
    Dispatch { k with stack := [.pcb u fn userdata pcbStmts] } t := by
  have hu := (h.ok (.starting u fn userdata []) (hs ▸ List.mem_cons_self)).1
  refine h.keep ?_ h.linked h.current (List.forall_mem_singleton.mpr hu)
    (fun _ => List.forall_mem_singleton.mpr trivial) fun v f w y rest hm => ?_
  · rw [hs, window_singleton]
    rfl
  · cases List.mem_singleton.mp hm
    exact complete_pcbStmts fn userdata _

omit [DecidableEq T] in
theorem saved_of_exec {fn userdata : Word} {c : Context T} {x : PcbStmt}
    {s : List (Point T)} (h : x.exec fn userdata c = .saved s) : c = .saved s := by
  cases x <;> cases c <;> simp_all [PcbStmt.exec]

/-- A statement of `md_init_new_task_pcb`; the last one closes the window. -/
theorem Dispatch.pcb {u : T} {fn userdata : Word} {x : PcbStmt} {todo : List PcbStmt}
    (h : Dispatch k t) (hs : k.stack = [.pcb u fn userdata (x :: todo)]) :
    Dispatch { k with
      context := Function.update k.context u (x.exec fn userdata (k.context u))
      stack := [.pcb u fn userdata todo] } t := by
  have hu := h.ok (.pcb u fn userdata (x :: todo)) (hs ▸ List.mem_cons_self)
  have hfinish := h.finish u fn userdata x todo (hs ▸ List.mem_cons_self)
  obtain ⟨k', hk'⟩ : ∃ k' : Cpu T, k' = { k with
      context := Function.update k.context u (x.exec fn userdata (k.context u))
      stack := [.pcb u fn userdata todo] } := ⟨_, rfl⟩
  rw [← hk']
  have hother : ∀ n, n ≠ u → k'.context n = k.context n := by
    intro n hn
    rw [hk']
    exact Function.update_of_ne hn _ _
  have hself : k'.context u = x.exec fn userdata (k.context u) := by
    rw [hk']
    exact Function.update_self _ _ _
  have hstack : k'.stack = [.pcb u fn userdata todo] := by rw [hk']
  have hgood : ∀ n, k.Good t n → k'.Good t n := by
    intro n hn
    by_cases hnu : n = u
    · subst hnu
      cases todo with
      | nil => exact Or.inr (Or.inl (by rw [hself]; exact hfinish))
      | cons y todo => exact Or.inr (Or.inr (by rw [hstack]; rfl))
    · refine hn.imp_right (Or.imp ?_ fun hw => ?_)
      · rw [hother n hnu]
        exact id
      · rw [hs] at hw
        exact absurd (Option.some.inj hw).symm hnu
  have hknown : k'.Known = k.Known := by rw [hk']; rfl
  exact {
    linked := by rw [hk']; exact h.linked.mono (hk' ▸ hgood) fun _ hn => hn
    ok := by rw [hstack, hknown]; exact List.forall_mem_singleton.mpr hu
    current := by rw [hk']; exact fun n hn => hk' ▸ hgood n (h.current n hn)
    calm := by rw [hstack]; exact fun _ => List.forall_mem_singleton.mpr trivial
    finish := by
      intro v f w y rest hm
      rw [hstack] at hm
      cases List.mem_singleton.mp hm
      rw [hself]
      exact hfinish
    parked := by
      intro v s hv
      have hold : k.context v = .saved s := by
        by_cases hvu : v = u
        · subst hvu
          exact saved_of_exec (hself ▸ hv)
        · rw [← hother v hvu, hv]
      obtain ⟨hw, hok⟩ := h.parked v s hold
      exact ⟨hw, fun p hp => (hok p hp).mono hgood fun n hn => by rw [hknown]; exact hn⟩
    owner := by rw [hknown]; exact h.owner
    known := by
      intro n hn
      rw [hknown]
      by_cases hnu : n = u
      · exact hnu ▸ hu
      · exact h.known n (hother n hnu ▸ hn) }

/-! ## New tasks -/

/-- `task_new` clears a block that no task occupies. -/
theorem Dispatch.new {u : T} (h : Dispatch k t) (hs : k.stack = [])
    (hu : u ∉ k.started ++ k.created) (htake : k.take (.new u) = .ok k') : Dispatch k' t := by
  rw [List.mem_append, not_or] at hu
  have hknown : ∀ n, k.Known n → k'.Known n := by
    cases htake
    exact fun n hn => hn
  have hother : ∀ n, n ≠ u → k'.context n = k.context n := by
    cases htake
    exact fun n hn => Function.update_of_ne hn _ _
  have hself : k'.context u = .unset := by
    cases htake
    exact Function.update_self _ _ _
  have hstack : k'.stack = [] := by
    cases htake
    exact hs
  have hgood : ∀ n, k.Good t n → k'.Good t n := by
    intro n hn
    have hne : n ≠ u := fun heq => hu.1 (heq ▸ h.known_of_good hn)
    rw [Good, hother n hne, hstack, ← hs]
    exact hn
  have hcomplete : ∀ n, (k'.context n).Complete → n ≠ u := by
    intro n hn hnu
    rw [hnu, hself] at hn
    exact hn
  exact {
    linked := by
      have hlinked := h.linked.mono hgood fun _ hn => hn
      cases htake
      refine ⟨hlinked.head, fun v hv n hn => ?_⟩
      by_cases hvu : v = u
      · subst hvu
        simp [TaskHeap.next] at hn
      · simp only [TaskHeap.next, Function.update_of_ne hvu] at hn
        exact hlinked.next v ((List.mem_cons.mp hv).resolve_left hvu) n hn
    ok := by rw [hstack]; exact List.forall_mem_nil _
    current := by
      cases htake
      exact fun n hn => hgood n (h.current n hn)
    calm := by rw [hstack]; exact fun _ => List.forall_mem_nil _
    finish := by rw [hstack]; exact fun u fn userdata x todo hm => absurd hm List.not_mem_nil
    parked := by
      intro v s hv
      have hvu := hcomplete v (by rw [hv]; trivial)
      obtain ⟨hw, hok⟩ := h.parked v s (hother v hvu ▸ hv)
      exact ⟨hw, fun p hp => (hok p hp).mono hgood hknown⟩
    owner := hknown t h.owner
    known := fun n hn => hknown n (h.known n (hother n (hcomplete n hn) ▸ hn)) }

/-- `task_start` begins. -/
theorem Dispatch.start {u : T} {fn userdata : Word} (h : Dispatch k t) (hs : k.stack = [])
    (hu : u ∈ k.created) (htake : k.take (.start u fn userdata) = .ok k') : Dispatch k' t := by
  have hstack : k'.stack = [.starting u fn userdata (moveHeadStmts none .tasksReady)] := by
    cases htake
    rw [hs]
  have hcontext : k'.context = k.context := by
    cases htake
    rfl
  have hknown : ∀ n, k'.Known n ↔ n = u ∨ k.Known n := by
    cases htake
    exact fun n => List.mem_cons
  have hgood : k'.Good t = k.Good t := by
    funext n
    rw [Good, Good, hcontext, hstack, hs]
    rfl
  have hmono : ∀ p : Point T, p.Ok (k.Good t) k.Known → p.Ok (k'.Good t) k'.Known :=
    fun p hp => hp.mono (fun n hn => hgood ▸ hn) fun n hn => (hknown n).mpr (Or.inr hn)
  exact {
    linked := by
      rw [hgood]
      cases htake
      refine h.linked.mono (fun _ hn => hn) fun n hn => ?_
      simp only [List.mem_append, List.mem_cons] at hn ⊢
      exact hn.elim (fun hn => Or.inl (List.mem_of_mem_erase hn))
        (Or.rec (fun hnu => Or.inl (hnu ▸ hu)) Or.inr)
    ok := by
      rw [hstack]
      exact List.forall_mem_singleton.mpr ⟨(hknown u).mpr (Or.inl rfl), List.suffix_refl _⟩
    current := by
      rw [hgood]
      cases htake
      exact h.current
    calm := by rw [hstack]; exact fun _ => List.forall_mem_singleton.mpr trivial
    finish := by
      intro v f w y rest hm
      rw [hstack] at hm
      cases List.mem_singleton.mp hm
    parked := by
      intro v s hv
      obtain ⟨hw, hok⟩ := h.parked v s (hcontext ▸ hv)
      exact ⟨hw, fun p hp => hmono p (hok p hp)⟩
    owner := (hknown t).mpr (Or.inr h.owner)
    known := fun n hn => (hknown n).mpr (Or.inr (h.known n (hcontext ▸ hn))) }

/-! ## The context switch -/

/-- The context that the next statement loads, if that is `md_switch`. -/
def Loads (k : Cpu T) : Prop :=
  ∀ prev spl s, k.stack = .dispatched prev spl :: s → ∃ n, k.curtask = some n ∧
    ((mdSwitch prev { k with stack := .switched spl :: s }).context n).Complete

omit [DecidableEq T] in
/-- A complete context continues a saved stack or enters `mi_task_startup`. -/
theorem resume_of_complete {c : Context T} (h : c.Complete) :
    (∃ fn userdata, c.resume = [.startup fn userdata]) ∨ c = .saved c.resume := by
  cases c with
  | frame lr fn userdata =>
      obtain ⟨rfl, hfn, huserdata⟩ := h
      obtain ⟨f, rfl⟩ := Option.ne_none_iff_exists'.mp hfn
      obtain ⟨w, rfl⟩ := Option.ne_none_iff_exists'.mp huserdata
      exact Or.inl ⟨f, w, rfl⟩
  | saved s => exact Or.inr rfl
  | _ => exact h.elim

section Switch

variable {spl : Int} {s : List (Point T)} {n : T}

omit [DecidableEq T] in
/-- No window is open at a switch. -/
theorem Dispatch.window_eq_none (h : Dispatch k t) {x : Point T} (hx : x ∈ k.stack)
    (hcalm : ¬ x.Calm) : window k.stack = none := by
  by_contra hopen
  exact hcalm (h.calm hopen x hx)

/-- Good tasks can be switched to. -/
theorem Dispatch.complete (h : Dispatch k t) (hs : k.stack = .dispatched (some t) spl :: s)
    (hn : k.Good t n) :
    ((mdSwitch (some t) { k with stack := .switched spl :: s }).context n).Complete := by
  have hwindow := h.window_eq_none (x := .dispatched (some t) spl) (hs ▸ List.mem_cons_self) id
  simp only [mdSwitch]
  by_cases hnt : n = t
  · subst hnt
    rw [Function.update_self]
    trivial
  · rw [Function.update_of_ne hnt]
    refine (hn.resolve_left hnt).resolve_right fun hw => ?_
    rw [hwindow] at hw
    cases hw

/-- **The context switch** from `t` to a good task. -/
theorem Dispatch.switch (h : Dispatch k t) (hs : k.stack = .dispatched (some t) spl :: s)
    (hn : k.curtask = some n) :
    Dispatch (mdSwitch (some t) { k with stack := .switched spl :: s }) n := by
  have hcomplete : ∀ m, k.Good t m →
      ((mdSwitch (some t) { k with stack := .switched spl :: s }).context m).Complete :=
    fun m hm => h.complete hs hm
  have hwindow : window s = none := by
    have hopen := h.window_eq_none (x := .dispatched (some t) spl) (hs ▸ List.mem_cons_self) id
    rw [hs, window_cons] at hopen
    exact hopen
  have hgood := h.current n hn
  obtain ⟨k', hk'⟩ : ∃ k', k' = mdSwitch (some t) { k with stack := .switched spl :: s } :=
    ⟨_, rfl⟩
  rw [← hk'] at hcomplete ⊢
  have hself : k'.context t = .saved (.switched spl :: s) := by
    rw [hk']
    exact Function.update_self _ _ _
  have hother : ∀ m, m ≠ t → k'.context m = k.context m := by
    intro m hm
    rw [hk']
    exact Function.update_of_ne hm _ _
  have hstack : k'.stack = (k'.context n).resume := by
    rw [hk']
    simp only [mdSwitch, hn, Option.map_some, Option.getD_some]
  have hmono : ∀ m, k.Good t m → k'.Good n m := fun m hm => Or.inr (Or.inl (hcomplete m hm))
  have hknown : k'.Known = k.Known := by rw [hk']; rfl
  have hparked : ∀ u s', k'.context u = .saved s' →
      window s' = none ∧ ∀ p ∈ s', p.Ok (k'.Good n) k'.Known := by
    intro u s' hu
    rw [hknown]
    by_cases hut : u = t
    · subst hut
      cases hself.symm.trans hu
      refine ⟨(window_cons _ _).trans hwindow, List.forall_mem_cons.mpr ⟨trivial, fun p hp => ?_⟩⟩
      exact (h.ok p (hs ▸ List.mem_cons_of_mem _ hp)).mono hmono fun _ hm => hm
    · obtain ⟨hw, hok⟩ := h.parked u s' (hother u hut ▸ hu)
      exact ⟨hw, fun p hp => (hok p hp).mono hmono fun _ hm => hm⟩
  have hloaded : window k'.stack = none ∧ ∀ p ∈ k'.stack, p.Ok (k'.Good n) k'.Known := by
    rw [hstack]
    cases resume_of_complete (hcomplete n hgood) with
    | inl hstart =>
        obtain ⟨fn, userdata, hresume⟩ := hstart
        rw [hresume]
        exact ⟨rfl, List.forall_mem_singleton.mpr trivial⟩
    | inr hsaved => exact hparked n _ hsaved
  exact {
    linked := by rw [hk'] at hmono ⊢; exact h.linked.mono hmono fun _ hm => hm
    ok := hloaded.2
    current := by
      intro m hm
      rw [hk'] at hm
      exact Or.inl (Option.some.inj (hm.symm.trans hn))
    calm := fun hopen => absurd hloaded.1 hopen
    finish := fun u fn userdata x todo hm => absurd hm (pcb_done_of_window hloaded.1)
    parked := hparked
    owner := by rw [hknown]; exact h.known_of_good hgood
    known := by
      intro m hm
      rw [hknown]
      by_cases hmt : m = t
      · exact hmt ▸ h.owner
      · exact h.known m (hother m hmt ▸ hm) }

end Switch

end Dispatch

end TeachingOs.Cpu
