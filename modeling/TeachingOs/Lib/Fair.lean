import Mathlib.Algebra.Order.Ring.Nat
import Mathlib.Data.Nat.Nth
import Mathlib.Order.Basic

/-!
# TeachingOs.Lib.Fair

Infinite runs of a step function under a schedule of events, and what they
lead to when the events that matter come again and again.

`LeadsTo.of_event` is the rule for one event that does the work while all
others leave it to do; `LeadsTo.of_rank` is induction on a measure.
`exists_compressed` leaves out the instants of a schedule at which nothing
happens.
-/

namespace TeachingOs

/-- A step of a task, one of the device that the tasks share, or one of
neither. -/
inductive Turn (T : Type) where
  | run (t : T)
  | tick
  | idle

namespace Fair

variable {S E : Type} {step : S → E → S} {schedule : Nat → E} {start : S}

/-- The state after the first `n` events of a schedule. -/
def runOf (step : S → E → S) (schedule : Nat → E) (start : S) : Nat → S
  | 0 => start
  | n + 1 => step (runOf step schedule start n) (schedule n)

@[simp] theorem runOf_zero : runOf step schedule start 0 = start := rfl

@[simp] theorem runOf_succ (n : Nat) :
    runOf step schedule start (n + 1) = step (runOf step schedule start n) (schedule n) := rfl

/-- The first `n` events as a list. -/
theorem foldl_range (n : Nat) :
    ((List.range n).map schedule).foldl step start = runOf step schedule start n := by
  induction n with
  | zero => rfl
  | succ n ih => rw [List.range_succ, List.map_append, List.foldl_append, ih, runOf_succ]; rfl

/-- What the events of a run are, each seen from the state it is taken in. -/
def views {F : Type} (step : S → E → S) (view : S → E → F) : S → List E → List F
  | _, [] => []
  | s, e :: events => view s e :: views step view (step s e) events

theorem map_views {F G : Type} {view : S → E → F} (g : F → G) (s : S) (events : List E) :
    (views step view s events).map g = views step (fun s e => g (view s e)) s events := by
  induction events generalizing s with
  | nil => rfl
  | cons e events ih => rw [views, List.map_cons, ih]; rfl

theorem count_views {F : Type} [DecidableEq E] [DecidableEq F] {view : S → E → F} {e : E} {f : F}
    (h : ∀ s e', view s e' = f ↔ e' = e) (s : S) (events : List E) :
    (views step view s events).count f = events.count e := by
  induction events generalizing s with
  | nil => rfl
  | cons e' events ih =>
      rw [views, List.count_cons, List.count_cons, ih]
      simp [h]

/-- Every event of a run meets a condition on the state it is taken in. -/
def Along (step : S → E → S) (Cond : S → E → Prop) : S → List E → Prop
  | _, [] => True
  | s, e :: events => Cond s e ∧ Along step Cond (step s e) events

theorem along_append {Cond : S → E → Prop} {s : S} {events events' : List E} :
    Along step Cond s (events ++ events') ↔
      Along step Cond s events ∧ Along step Cond (events.foldl step s) events' := by
  induction events generalizing s with
  | nil => simp [Along]
  | cons e events ih => rw [List.cons_append, Along, Along, ih, and_assoc]; rfl

/-- The form for a schedule. -/
theorem along_range {Cond : S → E → Prop} {n : Nat}
    (h : ∀ i < n, Cond (runOf step schedule start i) (schedule i)) :
    Along step Cond start ((List.range n).map schedule) := by
  induction n with
  | zero => trivial
  | succ n ih =>
      rw [List.range_succ, List.map_append, along_append, foldl_range]
      exact ⟨ih fun i hi => h i (Nat.lt_succ_of_lt hi), h n (Nat.lt_succ_self n), trivial⟩

/-- The event comes again and again. -/
def Recurs (schedule : Nat → E) (e : E) : Prop := ∀ n, ∃ m ≥ n, schedule m = e

/-- The next time that it comes. -/
theorem Recurs.exists_next [DecidableEq E] {e : E} (h : Recurs schedule e) (n : Nat) :
    ∃ m ≥ n, schedule m = e ∧ ∀ i, n ≤ i → i < m → schedule i ≠ e := by
  have hex : ∃ d, schedule (n + d) = e := by
    obtain ⟨m, hm, he⟩ := h n
    exact ⟨m - n, by rw [Nat.add_sub_cancel' hm, he]⟩
  refine ⟨n + Nat.find hex, Nat.le_add_right .., Nat.find_spec hex, fun i hi him he => ?_⟩
  refine Nat.find_min hex (m := i - n) (by omega) ?_
  rw [Nat.add_sub_cancel' hi, he]

/-- From `P` a run always comes to `Q`. -/
def LeadsTo (run : Nat → S) (P Q : S → Prop) : Prop := ∀ n, P (run n) → ∃ m ≥ n, Q (run m)

/-- What every event keeps holds in every later state. -/
theorem stable {P : S → Prop} (hstep : ∀ s e, P s → P (step s e)) {n m : Nat} (hnm : n ≤ m)
    (h : P (runOf step schedule start n)) : P (runOf step schedule start m) := by
  induction m, hnm using Nat.le_induction with
  | base => exact h
  | succ m _ ih => exact hstep _ _ ih

namespace LeadsTo

variable {run : Nat → S} {P P' Q Q' R : S → Prop}

theorem of_imp (h : ∀ s, P s → Q s) : LeadsTo run P Q := fun n hP => ⟨n, Nat.le_refl n, h _ hP⟩

theorem trans (h : LeadsTo run P Q) (h' : LeadsTo run Q R) : LeadsTo run P R := by
  intro n hP
  obtain ⟨m, hm, hQ⟩ := h n hP
  obtain ⟨k, hk, hR⟩ := h' m hQ
  exact ⟨k, Nat.le_trans hm hk, hR⟩

theorem or_left (h : LeadsTo run P R) (h' : LeadsTo run Q R) :
    LeadsTo run (fun s => P s ∨ Q s) R := by
  rintro n (hP | hQ)
  · exact h n hP
  · exact h' n hQ

/-- A way out on the left is a way out on the right. -/
theorem trans_or (h : LeadsTo run P fun s => Q s ∨ R s) (h' : LeadsTo run Q R) :
    LeadsTo run P R :=
  h.trans (h'.or_left (of_imp fun _ hR => hR))

/-- **One event**: if every event keeps `P` or brings `Q`, and one that always
comes while `P` holds brings `Q`, then `P` leads to `Q`. -/
theorem of_event {e : E} (hfair : ∀ n, P (runOf step schedule start n) → ∃ m ≥ n, schedule m = e)
    (hkeep : ∀ s e', P s → P (step s e') ∨ Q (step s e'))
    (hdo : ∀ s, P s → Q (step s e)) : LeadsTo (runOf step schedule start) P Q := by
  intro n hP
  -- induction on how far away the event is
  have hdist : ∀ d n, schedule (n + d) = e → P (runOf step schedule start n) →
      ∃ m ≥ n, Q (runOf step schedule start m) := by
    intro d
    induction d with
    | zero =>
        intro n he hP
        refine ⟨n + 1, Nat.le_succ n, ?_⟩
        rw [runOf_succ, show schedule n = e from he]
        exact hdo _ hP
    | succ d ih =>
        intro n he hP
        rcases hkeep _ (schedule n) hP with hP' | hQ
        · obtain ⟨m, hm, hQ⟩ := ih (n + 1) (by rw [← he]; congr 1; omega) hP'
          exact ⟨m, Nat.le_of_succ_le hm, hQ⟩
        · exact ⟨n + 1, Nat.le_succ n, hQ⟩
  obtain ⟨m, hm, he⟩ := hfair n hP
  exact hdist (m - n) n (by rw [← he]; congr 1; omega) hP

/-- **A measure**: if `P` always leads to `Q` or to `P` at a smaller measure,
it leads to `Q`. -/
theorem of_rank (rank : S → Nat)
    (h : ∀ k, LeadsTo run (fun s => P s ∧ rank s = k) fun s => Q s ∨ (P s ∧ rank s < k)) :
    LeadsTo run P Q := by
  intro n hP
  induction hk : rank (run n) using Nat.strongRecOn generalizing n with
  | ind k ih =>
      obtain ⟨m, hm, hQ | ⟨hP', hlt⟩⟩ := h k n ⟨hP, hk⟩
      · exact ⟨m, hm, hQ⟩
      · obtain ⟨j, hj, hQ⟩ := ih _ hlt m hP' rfl
        exact ⟨j, Nat.le_trans hm hj, hQ⟩

end LeadsTo

/-! ## Instants without an event -/

variable {events : Nat → Option E} {compressed : Nat → E} {n m : Nat} {e : E}

/-- The number of events before an instant. -/
def happened (events : Nat → Option E) (n : Nat) : Nat :=
  Nat.count (fun i => (events i).isSome = true) n

/-- The same events, without the instants between them. -/
structure Compressed (events : Nat → Option E) (compressed : Nat → E) : Prop where
  eq : ∀ {n e}, events n = some e → compressed (happened events n) = e
  onto : ∀ k, ∃ n, happened events n = k ∧ events n = some (compressed k)

theorem happened_succ (events : Nat → Option E) (n : Nat) :
    happened events (n + 1) = happened events n + if (events n).isSome = true then 1 else 0 :=
  Nat.count_succ _ n

theorem happened_mono (h : n ≤ m) : happened events n ≤ happened events m :=
  Nat.count_monotone _ h

theorem happened_lt (h : events n = some e) (hnm : n < m) :
    happened events n < happened events m :=
  Nat.count_strict_mono (p := fun i => (events i).isSome = true) (by rw [h]; rfl) hnm

theorem lt_of_happened_lt (h : happened events n < happened events m) : n < m :=
  Nat.lt_of_not_le fun hle => Nat.not_lt_of_le (happened_mono hle) h

theorem Compressed.filterMap (h : Compressed events compressed) (n : Nat) :
    (List.range n).filterMap events = (List.range (happened events n)).map compressed := by
  induction n with
  | zero => rfl
  | succ n ih =>
      rw [List.range_succ, List.filterMap_append, ih, happened_succ]
      cases he : events n with
      | none => simp [he]
      | some e => simp [he, List.range_succ, h.eq he]

/-- **Compression**: where events come again and again, the instants without
one can be left out. -/
theorem exists_compressed (h : ∀ n, ∃ m ≥ n, (events m).isSome = true) :
    ∃ compressed, Compressed events compressed := by
  have hinf : (Set.ofPred fun i => (events i).isSome = true).Infinite := by
    refine Set.infinite_of_not_bddAbove fun ⟨b, hb⟩ => ?_
    obtain ⟨m, hm, hsome⟩ := h (b + 1)
    exact Nat.not_le_of_lt hm (hb hsome)
  have hsome : ∀ k, (events (Nat.nth (fun i => (events i).isSome = true) k)).isSome = true :=
    Nat.nth_mem_of_infinite hinf
  refine ⟨fun k => (events (Nat.nth _ k)).get (hsome k), fun {n e} he => ?_, fun k => ?_⟩
  · have hn : Nat.nth (fun i => (events i).isSome = true) (happened events n) = n :=
      Nat.nth_count (by rw [he]; rfl)
    rw [Option.get_of_eq_some]
    rw [hn, he]
  · exact ⟨_, Nat.count_nth_of_infinite hinf k, (Option.some_get _).symm⟩

end Fair

end TeachingOs
