/-!
# TeachingOs.Lib.Transducer

Machines that read a list and write a list: a partial step function takes a
state and a letter to a state and some output.  `run` composes over `++`
(`run_append`), and `run_sim` carries a simulation between two machines from
steps to runs, with outputs related by any congruence of `++`.
-/

namespace TeachingOs.Transducer

variable {σ τ α β : Type}

/-- Read the whole list and collect the output. -/
def run (step : σ → α → Option (σ × List β)) : List α → σ → Option (σ × List β)
  | [], s => some (s, [])
  | a :: l, s => (step s a).bind fun r => (run step l r.1).map fun r' => (r'.1, r.2 ++ r'.2)

variable {step : σ → α → Option (σ × List β)} {step' : τ → α → Option (τ × List β)}

/-- A run that reads one more letter first. -/
theorem run_cons {a : α} {l : List α} {s s₁ : σ} {out : List β} (h : step s a = some (s₁, out)) :
    run step (a :: l) s = (run step l s₁).map fun r => (r.1, out ++ r.2) := by
  rw [run, h, Option.bind_some]

theorem run_cons_eq_some {a : α} {l : List α} {s s' : σ} {out : List β} :
    run step (a :: l) s = some (s', out) ↔ ∃ s₁ out₁ out₂, step s a = some (s₁, out₁) ∧
      run step l s₁ = some (s', out₂) ∧ out = out₁ ++ out₂ := by
  constructor
  · intro h
    cases hstep : step s a with
    | none => rw [run, hstep] at h; cases h
    | some r =>
        obtain ⟨s₁, out₁⟩ := r
        rw [run_cons hstep, Option.map_eq_some_iff] at h
        obtain ⟨⟨s₂, out₂⟩, hrun, heq⟩ := h
        cases heq
        exact ⟨s₁, out₁, out₂, rfl, hrun, rfl⟩
  · rintro ⟨s₁, out₁, out₂, hstep, hrun, rfl⟩
    rw [run_cons hstep, hrun]
    rfl

theorem run_append_eq_some {l l' : List α} {s s' : σ} {out : List β} :
    run step (l ++ l') s = some (s', out) ↔ ∃ s₁ out₁ out₂, run step l s = some (s₁, out₁) ∧
      run step l' s₁ = some (s', out₂) ∧ out = out₁ ++ out₂ := by
  induction l generalizing s out with
  | nil =>
      constructor
      · exact fun h => ⟨s, [], out, rfl, h, rfl⟩
      · rintro ⟨s₁, out₁, out₂, h, hrun, rfl⟩
        cases h
        exact hrun
  | cons a l ih =>
      rw [List.cons_append, run_cons_eq_some]
      constructor
      · rintro ⟨s₁, out₁, out₂, hstep, hrun, rfl⟩
        obtain ⟨s₂, out₃, out₄, hl, hl', rfl⟩ := ih.mp hrun
        exact ⟨s₂, out₁ ++ out₃, out₄, run_cons_eq_some.mpr ⟨_, _, _, hstep, hl, rfl⟩, hl',
          (List.append_assoc ..).symm⟩
      · rintro ⟨s₂, out₁, out₂, hl, hl', rfl⟩
        obtain ⟨s₁, out₃, out₄, hstep, hrun, rfl⟩ := run_cons_eq_some.mp hl
        exact ⟨s₁, out₃, out₄ ++ out₂, hstep, ih.mpr ⟨s₂, out₄, out₂, hrun, hl', rfl⟩,
          List.append_assoc ..⟩

/-- **Simulation**: what holds between two machines step by step, with
outputs related by a congruence `Q` of `++`, holds between their runs. -/
theorem run_sim {R : σ → τ → Prop} {Q : List β → List β → Prop} {l : List α} {s s' : σ} {t : τ}
    {out : List β} (hR : R s t) (h : run step l s = some (s', out)) (hnil : Q [] [])
    (happend : ∀ {a b c d}, Q a b → Q c d → Q (a ++ c) (b ++ d))
    (hstep : ∀ {s t a s' out}, R s t → step s a = some (s', out) →
      ∃ t' out', step' t a = some (t', out') ∧ R s' t' ∧ Q out out') :
    ∃ t' out', run step' l t = some (t', out') ∧ R s' t' ∧ Q out out' := by
  induction l generalizing s t out with
  | nil =>
      cases h
      exact ⟨t, [], rfl, hR, hnil⟩
  | cons a l ih =>
      obtain ⟨s₁, out₁, out₂, hs, hrun, rfl⟩ := run_cons_eq_some.mp h
      obtain ⟨t₁, out₁', ht, hR₁, hQ₁⟩ := hstep hR hs
      obtain ⟨t', out₂', hrun', hR', hQ₂⟩ := ih hR₁ hrun
      exact ⟨t', _, run_cons_eq_some.mpr ⟨t₁, out₁', out₂', ht, hrun', rfl⟩, hR',
        happend hQ₁ hQ₂⟩

end TeachingOs.Transducer
