/-!
# TeachingOs.Lib.History

Histories of a transition system: the states that a run went through, each
with the event that was taken there.

`History.invariant` carries an invariant along a history whose events all
meet a condition on the state they are taken in.  `History.good_iff` is for
a condition that is exact: if an event leads from the invariant to a good
state exactly when it meets the condition, and then keeps the invariant, a
history has good states only exactly when all of its events met it.
-/

namespace TeachingOs

universe u v

variable {S : Type u} {E : Type v}

/-- The run that ends in a state; `past` holds the earlier states and the
events taken in them, the latest first. -/
inductive History (init : S → Prop) (step : S → E → S → Prop) : List (S × E) → S → Prop where
  | init {s : S} (h : init s) : History init step [] s
  | snoc {past : List (S × E)} {s s' : S} {e : E} (h : History init step past s)
      (hstep : step s e s') : History init step ((s, e) :: past) s'

namespace History

variable {init : S → Prop} {step : S → E → S → Prop} {past : List (S × E)} {s : S}
  {Inv Good : S → Prop}

theorem mono {step' : S → E → S → Prop} (h : History init step past s)
    (hmono : ∀ s e s', step s e s' → step' s e s') : History init step' past s := by
  induction h with
  | init h => exact .init h
  | snoc _ hs ih => exact ih.snoc (hmono _ _ _ hs)

/-- **Invariants**: what holds at first and is kept by every event that meets
the condition holds at the end of a history of such events. -/
theorem invariant (h : History init step past s) (Cond : S → E → Prop)
    (hinit : ∀ s, init s → Inv s) (hstep : ∀ s e s', Inv s → Cond s e → step s e s' → Inv s')
    (hcond : ∀ p ∈ past, Cond p.1 p.2) : Inv s := by
  induction h with
  | init h => exact hinit _ h
  | snoc _ hs ih =>
      rw [List.forall_mem_cons] at hcond
      exact hstep _ _ _ (ih hcond.2) hcond.1 hs

/-- Every earlier state ends a history of its own. -/
theorem before (h : History init step past s) {p : S × E} (hp : p ∈ past) :
    ∃ past', History init step past' p.1 ∧ past' ⊆ past := by
  induction h with
  | init => cases hp
  | snoc h _ ih =>
      rcases List.mem_cons.mp hp with rfl | hp
      · exact ⟨_, h, List.subset_cons_self _ _⟩
      · obtain ⟨past', h', hsub⟩ := ih hp
        exact ⟨past', h', List.subset_cons_of_subset _ hsub⟩

/-- An invariant holds in the earlier states too. -/
theorem invariant_before (h : History init step past s) (Cond : S → E → Prop)
    (hinit : ∀ s, init s → Inv s) (hstep : ∀ s e s', Inv s → Cond s e → step s e s' → Inv s')
    (hcond : ∀ p ∈ past, Cond p.1 p.2) : ∀ p ∈ past, Inv p.1 := by
  intro p hp
  obtain ⟨past', h', hsub⟩ := h.before hp
  exact h'.invariant Cond hinit hstep fun q hq => hcond q (hsub hq)

/-- **Exact conditions**: the states of a history are all good exactly when
its events all met the condition. -/
theorem good_iff (h : History init step past s) (Cond : S → E → Prop)
    (hinit : ∀ s, init s → Inv s ∧ Good s)
    (hstep : ∀ s e s', Inv s → step s e s' → (Good s' ↔ Cond s e) ∧ (Cond s e → Inv s')) :
    (Good s ∧ ∀ p ∈ past, Good p.1) ↔ ∀ p ∈ past, Cond p.1 p.2 := by
  induction h with
  | init h => simp [(hinit _ h).2]
  | @snoc past s s' e h hs ih =>
      rw [List.forall_mem_cons, List.forall_mem_cons, ih]
      have hinv : (∀ p ∈ past, Cond p.1 p.2) → Inv s :=
        h.invariant Cond (fun s hi => (hinit s hi).1) fun s e s' hi hc hstep' =>
          (hstep s e s' hi hstep').2 hc
      constructor
      · rintro ⟨hgood, hpast⟩
        exact ⟨(hstep s e s' (hinv hpast) hs).1.mp hgood, hpast⟩
      · rintro ⟨hcond, hpast⟩
        exact ⟨(hstep s e s' (hinv hpast) hs).1.mpr hcond, hpast⟩

end History

end TeachingOs
