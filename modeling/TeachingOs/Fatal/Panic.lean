import Mathlib.Data.List.Nodup

/-!
# TeachingOs.Fatal.Panic

`panic` of `kern/lib/panic.c` while the functions it calls may panic again.

`panic` never returns, so a call that panics does not come back to its
caller, and a run is one sequence of ticks of the innermost `panic`.  The
static `step` lets it skip what an outer call has finished:
`started_sorted` says that it never goes back to an earlier step.  But
`step` moves behind the calls of a step, so a call that panics is made
again, and `noRepeat_iff` leaves no other case: `panic` does not repeat
itself exactly if nothing that it calls panics.
-/

namespace TeachingOs.Fatal

/-! ## The code -/

/-- What `panic` calls. -/
inductive Action where
  | splhigh
  | printk (fmt : String)
  | vprintk
  | powerPanic
deriving DecidableEq, Repr

/-- A statement of a step. -/
inductive Stmt where
  | call (a : Action)
  | setStep (k : Nat)
deriving DecidableEq, Repr

/-- `if(step == guard) { body }`. -/
structure IfStep where
  guard : Nat
  body : List Stmt
deriving DecidableEq, Repr

/-- The steps of `panic`; behind them it hangs. -/
def panic : List IfStep :=
  [⟨0, [.call .splhigh, .setStep 1]⟩,
    ⟨1, [.setStep 2]⟩,
    ⟨2, [.call (.printk "\npanic: "), .call .vprintk, .call (.printk "\n"), .setStep 3]⟩,
    ⟨3, [.call .powerPanic, .setStep 4]⟩]

/-! ## Runs -/

/-- What becomes of a call: it returns, it panics, or it never ends. -/
inductive Outcome where
  | returns
  | panics
  | hangs
deriving DecidableEq, Repr

/-- The counter `step`, the statements that the innermost `panic` has left,
in the step it is in and behind it, the number of calls of `panic`, and the
calls started so far. -/
structure State where
  step : Nat
  body : List Stmt
  rest : List IfStep
  depth : Nat
  started : List Action
deriving DecidableEq, Repr

/-- The first call of `panic`. -/
def State.first : State := ⟨0, [], panic, 1, []⟩

/-- One tick, if `p` gives the outcome of each call in the order in which
they are started. -/
def tick (p : Nat → Outcome) (s : State) : State :=
  match s.body, s.rest with
  | .call a :: body, _ =>
    let started := s.started ++ [a]
    match p s.started.length with
    | .returns => { s with body, started }
    -- `panic` from the start, with the counter as it stands
    | .panics => { s with body := [], rest := panic, depth := s.depth + 1, started }
    | .hangs => { s with body := [], rest := [], started }
  | .setStep k :: body, _ => { s with step := k, body }
  | [], b :: rest => if s.step = b.guard then { s with body := b.body, rest } else { s with rest }
  | [], [] => s

/-- The state after `n` ticks. -/
def run (p : Nat → Outcome) : Nat → State
  | 0 => .first
  | n + 1 => tick p (run p n)

/-- No call is started twice, and there are no more calls of `panic` than
steps. -/
def NoRepeat (p : Nat → Outcome) : Prop :=
  ∀ n, (run p n).started.Nodup ∧ (run p n).depth ≤ panic.length

variable {p q : Nat → Outcome} {s s' : State} {n : Nat}

/-! ## One tick -/

/-- What a tick can do. -/
inductive Ticked (p : Nat → Outcome) : State → State → Prop where
  | returns {step depth : Nat} {a : Action} {body : List Stmt} {rest : List IfStep}
      {started : List Action} (h : p started.length = .returns) :
      Ticked p ⟨step, .call a :: body, rest, depth, started⟩
        ⟨step, body, rest, depth, started ++ [a]⟩
  | panics {step depth : Nat} {a : Action} {body : List Stmt} {rest : List IfStep}
      {started : List Action} (h : p started.length = .panics) :
      Ticked p ⟨step, .call a :: body, rest, depth, started⟩
        ⟨step, [], panic, depth + 1, started ++ [a]⟩
  | hangs {step depth : Nat} {a : Action} {body : List Stmt} {rest : List IfStep}
      {started : List Action} (h : p started.length = .hangs) :
      Ticked p ⟨step, .call a :: body, rest, depth, started⟩ ⟨step, [], [], depth, started ++ [a]⟩
  | setStep {step k depth : Nat} {body : List Stmt} {rest : List IfStep} {started : List Action} :
      Ticked p ⟨step, .setStep k :: body, rest, depth, started⟩ ⟨k, body, rest, depth, started⟩
  | enter {step depth : Nat} {b : IfStep} {rest : List IfStep} {started : List Action}
      (h : step = b.guard) :
      Ticked p ⟨step, [], b :: rest, depth, started⟩ ⟨step, b.body, rest, depth, started⟩
  | skip {step depth : Nat} {b : IfStep} {rest : List IfStep} {started : List Action}
      (h : step ≠ b.guard) :
      Ticked p ⟨step, [], b :: rest, depth, started⟩ ⟨step, [], rest, depth, started⟩
  | done {step depth : Nat} {started : List Action} :
      Ticked p ⟨step, [], [], depth, started⟩ ⟨step, [], [], depth, started⟩

theorem ticked (p : Nat → Outcome) (s : State) : Ticked p s (tick p s) := by
  obtain ⟨step, body, rest, depth, started⟩ := s
  cases body with
  | nil =>
      cases rest with
      | nil => exact .done
      | cons b rest =>
          by_cases h : step = b.guard
          · simpa [tick, h] using Ticked.enter rfl
          · simpa [tick, h] using Ticked.skip h
  | cons st body =>
      cases st with
      | setStep k => exact .setStep
      | call a =>
          cases h : p started.length with
          | returns => simpa [tick, h] using Ticked.returns h
          | panics => simpa [tick, h] using Ticked.panics h
          | hangs => simpa [tick, h] using Ticked.hangs h

/-- A call is started, whatever becomes of it. -/
theorem Ticked.started_call {a : Action} {body : List Stmt} (h : Ticked p s s')
    (hs : s.body = .call a :: body) : s'.started = s.started ++ [a] := by
  cases h with
  | returns | panics | hangs =>
      cases hs
      rfl
  | setStep | enter | skip | done => cases hs

theorem Ticked.length_started (h : Ticked p s s') : s.started.length ≤ s'.started.length := by
  cases h with
  | returns | panics | hangs => simp
  | setStep | enter | skip | done => exact Nat.le_refl _

/-- A tick asks for the outcome of the call that it starts and of no other. -/
theorem Ticked.congr (h : Ticked q s s') (hpq : ∀ i < s'.started.length, p i = q i) :
    tick p s = s' := by
  cases h with
  | returns h | panics h | hangs h =>
      have hp := (hpq _ (by simp)).trans h
      simp only [tick, hp]
  | setStep | done => rfl
  | enter h => simp only [tick, if_pos h]
  | skip h => simp only [tick, if_neg h]

/-- Two patterns give the same run as long as they agree on the calls that
were started. -/
theorem run_congr (h : ∀ i < (run q n).started.length, p i = q i) : run p n = run q n := by
  induction n with
  | zero => rfl
  | succ n ih =>
      have htick := ticked q (run q n)
      have hrun : run p n = run q n :=
        ih fun i hi => h i (Nat.lt_of_lt_of_le hi htick.length_started)
      rw [run, hrun]
      exact htick.congr h

/-! ## Steps in order -/

/-- The step that a call belongs to. -/
def Action.step : Action → Nat
  | .splhigh => 0
  | .printk _ | .vprintk => 2
  | .powerPanic => 3

/-- The statements call what belongs to step `k`, until they move on. -/
def Within : Nat → List Stmt → Prop
  | _, [] => True
  | k, .call a :: body => a.step = k ∧ Within k body
  | k, .setStep k' :: body => k ≤ k' ∧ Within k' body

theorem panic_within : ∀ b ∈ panic, Within b.guard b.body := by
  simp [panic, Within, Action.step]

/-- What was started belongs to the steps up to the counter, in order. -/
structure Sorted (s : State) : Prop where
  sorted : (s.started.map Action.step).Pairwise (· ≤ ·)
  le : ∀ a ∈ s.started, a.step ≤ s.step
  body : Within s.step s.body
  rest : s.rest ⊆ panic

theorem Sorted.first : Sorted .first := ⟨.nil, by simp [State.first], trivial, List.Subset.refl _⟩

/-- Starting a call of the current step. -/
theorem Sorted.call {step depth depth' : Nat} {a : Action} {body body' : List Stmt}
    {rest rest' : List IfStep} {started : List Action}
    (h : Sorted ⟨step, .call a :: body, rest, depth, started⟩) (hbody : Within step body')
    (hrest : rest' ⊆ panic) : Sorted ⟨step, body', rest', depth', started ++ [a]⟩ := by
  have hstep : a.step = step := h.body.1
  refine ⟨?_, ?_, hbody, hrest⟩
  · simp only [List.map_append, List.pairwise_append, List.map_cons, List.map_nil,
      List.mem_map, List.mem_singleton, forall_exists_index, and_imp]
    refine ⟨h.sorted, List.pairwise_singleton _ _, ?_⟩
    rintro _ c hc rfl _ rfl
    exact hstep ▸ h.le c hc
  · intro c hc
    rcases List.mem_append.mp hc with hc | hc
    · exact h.le c hc
    · exact Nat.le_of_eq (List.mem_singleton.mp hc ▸ hstep)

theorem Sorted.tick (h : Sorted s) (hs : Ticked p s s') : Sorted s' := by
  cases hs with
  | returns => exact h.call h.body.2 h.rest
  | panics => exact h.call trivial (List.Subset.refl _)
  | hangs => exact h.call trivial (List.nil_subset _)
  | setStep =>
      exact ⟨h.sorted, fun c hc => Nat.le_trans (h.le c hc) h.body.1, h.body.2, h.rest⟩
  | @enter _ _ b rest _ hguard =>
      have hrest : b ∈ panic ∧ rest ⊆ panic := List.cons_subset.mp h.rest
      exact ⟨h.sorted, h.le, hguard ▸ panic_within b hrest.1, hrest.2⟩
  | skip => exact ⟨h.sorted, h.le, h.body, (List.cons_subset.mp h.rest).2⟩
  | done => exact h

/-- **What the counter gives**: whatever panics, `panic` never goes back to
an earlier step. -/
theorem started_sorted (p : Nat → Outcome) (n : Nat) :
    ((run p n).started.map Action.step).Pairwise (· ≤ ·) := by
  suffices h : Sorted (run p n) from h.sorted
  induction n with
  | zero => exact .first
  | succ n ih => exact ih.tick (ticked p _)

/-! ## Runs without re-entrance -/

/-- What `panic` calls, in the order of its text. -/
def actions : List Action := [.splhigh, .printk "\npanic: ", .vprintk, .printk "\n", .powerPanic]

/-- What is left to call if every call returns. -/
def pending : Nat → List Stmt → List IfStep → List Action
  | step, .call a :: body, rest => a :: pending step body rest
  | _, .setStep k :: body, rest => pending k body rest
  | step, [], b :: rest =>
    if step = b.guard then pending step b.body rest else pending step [] rest
  | _, [], [] => []
termination_by _ body rest => (rest, body)

theorem pending_first : pending 0 [] panic = actions := by
  simp [pending, panic, actions]

/-- No call has panicked: all that were started have returned, or the last
one hangs. -/
inductive Once (p : Nat → Outcome) (s : State) : Prop where
  | running (hret : ∀ i < s.started.length, p i = .returns)
      (hall : s.started ++ pending s.step s.body s.rest = actions) (hdepth : s.depth = 1)
  | hung (hbody : s.body = []) (hrest : s.rest = []) (hall : s.started <+: actions)
      (hdepth : s.depth = 1)

theorem Once.started (h : Once p s) : s.started <+: actions := by
  cases h with
  | running _ hall _ => exact ⟨_, hall⟩
  | hung _ _ hall _ => exact hall

theorem Once.depth (h : Once p s) : s.depth = 1 := by
  cases h with
  | running _ _ hdepth => exact hdepth
  | hung _ _ _ hdepth => exact hdepth

/-- No call panics that can be made at all. -/
def NoReentry (p : Nat → Outcome) : Prop :=
  ∀ i < actions.length, p i = .panics → ∃ j < i, p j = .hangs

/-- One more call has returned. -/
theorem forall_returns_append {started : List Action} {a : Action}
    (hret : ∀ i < started.length, p i = .returns) (h : p started.length = .returns) :
    ∀ i < (started ++ [a]).length, p i = .returns := by
  intro i hi
  rw [List.length_append, List.length_singleton] at hi
  rcases Nat.lt_succ_iff_lt_or_eq.mp hi with hi | rfl
  · exact hret i hi
  · exact h

theorem Once.tick (hp : NoReentry p) (h : Once p s) (hs : Ticked p s s') : Once p s' := by
  cases h with
  | hung hbody hrest hall hdepth =>
      cases hs with
      | done => exact .hung rfl rfl hall hdepth
      | returns | panics | hangs | setStep => cases hbody
      | enter | skip => cases hrest
  | running hret hall hdepth =>
      cases hs with
      | @returns _ _ a _ _ _ h =>
          rw [pending] at hall
          exact .running (forall_returns_append hret h) (by simpa using hall) hdepth
      | @panics step _ a body rest started h =>
          -- the call is one of the five, and all before it have returned
          rw [pending] at hall
          have hlen : started.length < (started ++ a :: pending step body rest).length := by
            rw [List.length_append, List.length_cons]
            omega
          rw [hall] at hlen
          obtain ⟨j, hj, hhang⟩ := hp _ hlen h
          rw [hret j hj] at hhang
          cases hhang
      | @hangs step _ a body rest _ h =>
          rw [pending] at hall
          exact .hung rfl rfl ⟨pending step body rest, by simpa using hall⟩ hdepth
      | setStep =>
          rw [pending] at hall
          exact .running hret hall hdepth
      | enter h =>
          rw [pending, if_pos h] at hall
          exact .running hret hall hdepth
      | skip h =>
          rw [pending, if_neg h] at hall
          exact .running hret hall hdepth
      | done => exact .running hret hall hdepth

theorem Once.run (hp : NoReentry p) (n : Nat) : Once p (run p n) := by
  induction n with
  | zero => exact .running (fun i hi => absurd hi (Nat.not_lt_zero i)) pending_first rfl
  | succ n ih => exact ih.tick hp (ticked p _)

/-! ## Runs with re-entrance -/

/-- Call number `i` panics, and no other. -/
def panicsAt (i : Nat) : Nat → Outcome := fun j => if j = i then .panics else .returns

/-- The next call after a re-entrance has been made before. -/
theorem panicsAt_repeats : ∀ i < actions.length, ∃ n < 17,
    (run (panicsAt i) n).started.length = i + 1 ∧
    ∃ a ∈ (run (panicsAt i) n).started, (run (panicsAt i) n).body.head? = some (.call a) := by
  decide

/-- A pattern whose first call that does not return is call `i`, which
panics. -/
theorem not_noRepeat_of_panics {i : Nat} (hi : i < actions.length)
    (hret : ∀ j < i, p j = .returns) (hpanic : p i = .panics) : ¬ NoRepeat p := by
  intro hnr
  obtain ⟨n, -, hlen, a, ha, hcall⟩ := panicsAt_repeats i hi
  have hrun : Fatal.run p n = Fatal.run (panicsAt i) n := by
    refine run_congr fun j hj => ?_
    rcases Nat.lt_succ_iff_lt_or_eq.mp (hlen ▸ hj) with hj | rfl
    · rw [hret j hj, panicsAt, if_neg (Nat.ne_of_lt hj)]
    · rw [hpanic, panicsAt, if_pos rfl]
  obtain ⟨body, hbody⟩ := List.head?_eq_some_iff.mp hcall
  have hnodup := (hnr (n + 1)).1
  rw [Fatal.run, hrun, (ticked p _).started_call hbody, List.nodup_append] at hnodup
  exact hnodup.2.2 a ha a (List.mem_singleton_self a) rfl

/-- **`panic` does not repeat itself exactly if nothing that it calls
panics**, or something before it hangs. -/
theorem noRepeat_iff (p : Nat → Outcome) : NoRepeat p ↔ NoReentry p := by
  constructor
  · intro hnr i hi
    induction i using Nat.strongRecOn with
    | ind i ih =>
        intro hpanic
        by_contra hnohang
        have hnone : ∀ j < i, p j ≠ .hangs := fun j hj hhang => hnohang ⟨j, hj, hhang⟩
        refine not_noRepeat_of_panics hi (fun j hj => ?_) hpanic hnr
        cases hout : p j with
        | returns => rfl
        | panics =>
            obtain ⟨k, hk, hhang⟩ := ih j hj (Nat.lt_trans hj hi) hout
            exact absurd hhang (hnone k (Nat.lt_trans hk hj))
        | hangs => exact absurd hout (hnone j hj)
  · intro hp n
    have honce := Once.run hp n
    refine ⟨honce.started.sublist.nodup (by decide), ?_⟩
    rw [honce.depth]
    decide

/-- A message that cannot be printed. -/
theorem not_noRepeat_vprintk : ¬ NoRepeat (panicsAt 2) :=
  @not_noRepeat_of_panics _ 2 (by decide) (by decide) rfl

/-- If `splhigh` panics every time, the calls of `panic` nest without end. -/
theorem run_panics (n : Nat) :
    run (fun _ => .panics) (2 * n) = ⟨0, [], panic, n + 1, List.replicate n .splhigh⟩ := by
  induction n with
  | zero => rfl
  | succ n ih =>
      rw [Nat.mul_succ, run, run, ih, List.replicate_succ']
      rfl

end TeachingOs.Fatal
