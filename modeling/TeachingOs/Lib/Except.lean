/-!
# TeachingOs.Lib.Except

Inverting computations in `Except`: what a successful `bind` says about its
parts, and the induction rules for a loop that threads a state through a
list.
-/

namespace TeachingOs

universe u v

variable {ε : Type u} {α β σ : Type v}

theorem bind_eq_ok {x : Except ε α} {f : α → Except ε β} {b : β} :
    (x >>= f) = .ok b ↔ ∃ a, x = .ok a ∧ f a = .ok b := by
  cases x <;> simp [bind, Except.bind]

@[simp] theorem ok_bind (a : α) (f : α → Except ε β) : ((.ok a : Except ε α) >>= f) = f a := rfl

@[simp] theorem error_bind (e : ε) (f : α → Except ε β) :
    ((.error e : Except ε α) >>= f) = .error e := rfl

@[simp] theorem pure_eq_ok (a : α) : (pure a : Except ε α) = .ok a := rfl

/-- A property that every round of a loop keeps holds when the loop ends. -/
theorem foldlM_inv {f : σ → α → Except ε σ} {P : σ → Prop} {l : List α}
    (hstep : ∀ s a s', a ∈ l → P s → f s a = .ok s' → P s') {s s' : σ}
    (h : l.foldlM f s = .ok s') (hs : P s) : P s' := by
  induction l generalizing s with
  | nil => cases h; exact hs
  | cons a l ih =>
      rw [List.foldlM_cons, bind_eq_ok] at h
      obtain ⟨s₁, h₁, h₂⟩ := h
      exact ih (fun s b s' hb => hstep s b s' (List.mem_cons_of_mem a hb)) h₂
        (hstep s a s₁ List.mem_cons_self hs h₁)

/-- The form that knows the rounds done so far. -/
theorem foldlM_prefix_inv {f : σ → α → Except ε σ} {P : List α → σ → Prop} {l : List α}
    (hstep : ∀ pre a s s', a ∈ l → P pre s → f s a = .ok s' → P (pre ++ [a]) s') {s s' : σ}
    (h : l.foldlM f s = .ok s') (hs : P [] s) : P l s' := by
  induction l generalizing s P with
  | nil => cases h; exact hs
  | cons a l ih =>
      rw [List.foldlM_cons, bind_eq_ok] at h
      obtain ⟨s₁, h₁, h₂⟩ := h
      exact ih (P := fun pre => P (a :: pre))
        (fun pre b s s' hb => hstep (a :: pre) b s s' (List.mem_cons_of_mem a hb)) h₂
        (hstep [] a s s₁ List.mem_cons_self hs h₁)

/-- The counting form: round `i` takes `P i` to `P (i + 1)`. -/
theorem foldlM_range_inv {f : σ → Nat → Except ε σ} {P : Nat → σ → Prop} {n : Nat}
    (hstep : ∀ i s s', i < n → P i s → f s i = .ok s' → P (i + 1) s') {s s' : σ}
    (h : (List.range n).foldlM f s = .ok s') (hs : P 0 s) : P n s' := by
  induction n generalizing s' with
  | zero => cases h; exact hs
  | succ n ih =>
      rw [List.range_succ, List.foldlM_append, bind_eq_ok] at h
      obtain ⟨s₁, h₁, h₂⟩ := h
      rw [List.foldlM_cons, bind_eq_ok] at h₂
      obtain ⟨s₂, h₂, h₃⟩ := h₂
      cases h₃
      exact hstep n s₁ s' (Nat.lt_succ_self n)
        (ih (fun i s s' hi => hstep i s s' (by omega)) h₁) h₂

/-- Two loops over one list: as long as the first succeeds, rounds that keep
`R` let the second follow it. -/
theorem foldlM_sim {f : σ → α → Except ε σ} {g : σ → α → Except ε σ} {R : σ → σ → Prop}
    {l : List α} (hstep : ∀ s t a s', a ∈ l → R s t → f s a = .ok s' →
      ∃ t', g t a = .ok t' ∧ R s' t') {s s' t : σ} (h : l.foldlM f s = .ok s') (hR : R s t) :
    ∃ t', l.foldlM g t = .ok t' ∧ R s' t' := by
  induction l generalizing s t with
  | nil => cases h; exact ⟨t, rfl, hR⟩
  | cons a l ih =>
      rw [List.foldlM_cons, bind_eq_ok] at h
      obtain ⟨s₁, h₁, h₂⟩ := h
      obtain ⟨t₁, ht₁, hR₁⟩ := hstep s t a s₁ List.mem_cons_self hR h₁
      obtain ⟨t', ht', hR'⟩ :=
        ih (fun s t b s' hb => hstep s t b s' (List.mem_cons_of_mem a hb)) h₂ hR₁
      exact ⟨t', by rw [List.foldlM_cons, ht₁, ok_bind, ht'], hR'⟩

/-- A loop whose rounds never fail does not fail. -/
theorem foldlM_ok {f : σ → α → Except ε σ} (hf : ∀ s a, ∃ s', f s a = .ok s') (l : List α) (s : σ) :
    ∃ s', l.foldlM f s = .ok s' := by
  induction l generalizing s with
  | nil => exact ⟨s, rfl⟩
  | cons a l ih =>
      obtain ⟨s₁, h₁⟩ := hf s a
      obtain ⟨s₂, h₂⟩ := ih s₁
      exact ⟨s₂, by rw [List.foldlM_cons, h₁, ok_bind, h₂]⟩

/-- A step that stays where it is when it fails. -/
def orStay (f : σ → α → Except ε σ) (s : σ) (a : α) : σ :=
  match f s a with
  | .ok s' => s'
  | .error _ => s

theorem orStay_of_ok {f : σ → α → Except ε σ} {s s' : σ} {a : α} (h : f s a = .ok s') :
    orStay f s a = s' := by
  rw [orStay, h]

/-- Loops with the same rounds are the same loop. -/
theorem foldlM_congr {f g : σ → α → Except ε σ} {l : List α}
    (h : ∀ s, ∀ a ∈ l, f s a = g s a) (s : σ) : l.foldlM f s = l.foldlM g s := by
  induction l generalizing s with
  | nil => rfl
  | cons a l ih =>
      rw [List.foldlM_cons, List.foldlM_cons, h s a List.mem_cons_self]
      congr 1
      funext s'
      exact ih (fun s b hb => h s b (List.mem_cons_of_mem a hb)) s'

/-- A loop over the lists of a loop. -/
theorem foldlM_flatMap {f : σ → β → Except ε σ} {g : α → List β} (l : List α) (s : σ) :
    (l.flatMap g).foldlM f s = l.foldlM (fun s a => (g a).foldlM f s) s := by
  induction l generalizing s with
  | nil => rfl
  | cons a l ih =>
      rw [List.flatMap_cons, List.foldlM_append, List.foldlM_cons]
      congr 1
      funext s'
      exact ih s'

end TeachingOs
