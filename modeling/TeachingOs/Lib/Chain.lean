import Mathlib.Data.List.Nodup
import Mathlib.Logic.Function.Basic

/-!
# TeachingOs.Lib.Chain

NULL-terminated singly linked lists over a link map.

`Chain next p l` follows the links from `p` through the nodes `l` to NULL.
Links are a function, so that a chain never passes a node twice
(`Chain.nodup`), and a node pushed in front of a list that it is on already
leaves no chain at all (`chain_push_iff`).  `followLinks` is the loop over a
list; it ends exactly on a chain.
-/

namespace TeachingOs

universe u

variable {T : Type u} {next next' : T → Option T} {p : Option T} {l l' : List T} {a : T} {n : Nat}

/-! ## Chains -/

/-- From `p` the links lead through `l` to NULL. -/
def Chain (next : T → Option T) : Option T → List T → Prop
  | p, [] => p = none
  | p, a :: l => p = some a ∧ Chain next (next a) l

@[simp] theorem chain_nil : Chain next p [] ↔ p = none := Iff.rfl

@[simp] theorem chain_cons : Chain next p (a :: l) ↔ p = some a ∧ Chain next (next a) l := Iff.rfl

theorem Chain.unique (h : Chain next p l) (h' : Chain next p l') : l = l' := by
  induction l generalizing p l' with
  | nil =>
      cases l' with
      | nil => rfl
      | cons b l' => simp_all
  | cons a l ih =>
      cases l' with
      | nil => simp_all
      | cons b l' =>
          obtain ⟨rfl, hl⟩ := h
          obtain ⟨hb, hl'⟩ := h'
          obtain rfl := Option.some.inj hb
          rw [ih hl hl']

/-- Behind a node of a chain there is the rest of the chain. -/
theorem Chain.behind (h : Chain next p l) (ha : a ∈ l) :
    ∃ l₁ l₂, l = l₁ ++ a :: l₂ ∧ Chain next (next a) l₂ := by
  induction l generalizing p with
  | nil => cases ha
  | cons b l ih =>
      obtain ⟨-, hl⟩ := h
      rcases List.mem_cons.mp ha with rfl | ha
      · exact ⟨[], l, rfl, hl⟩
      · obtain ⟨l₁, l₂, rfl, hl₂⟩ := ih hl ha
        exact ⟨b :: l₁, l₂, rfl, hl₂⟩

/-- **A chain has no cycle**. -/
theorem Chain.nodup (h : Chain next p l) : l.Nodup := by
  induction l generalizing p with
  | nil => exact List.nodup_nil
  | cons a l ih =>
      obtain ⟨-, hl⟩ := h
      refine List.nodup_cons.mpr ⟨fun ha => ?_, ih hl⟩
      -- the chain behind the second `a` would be the chain behind the first
      obtain ⟨l₁, l₂, hsplit, hl₂⟩ := hl.behind ha
      have hlen := congrArg List.length hsplit
      rw [hl.unique hl₂, List.length_append, List.length_cons] at hlen
      omega

/-- A chain depends on the links of its nodes only. -/
theorem Chain.congr (h : Chain next p l) (hn : ∀ b ∈ l, next' b = next b) : Chain next' p l := by
  induction l generalizing p with
  | nil => exact h
  | cons a l ih =>
      rw [List.forall_mem_cons] at hn
      exact ⟨h.1, hn.1 ▸ ih h.2 hn.2⟩

/-- **Pushing** `a` in front of the list at `p` gives a chain exactly if that
list is one and `a` is not on it. -/
theorem chain_push_iff [DecidableEq T] : Chain (Function.update next a p) (some a) l' ↔
    ∃ l, l' = a :: l ∧ a ∉ l ∧ Chain next p l := by
  have hoff : ∀ l : List T, a ∉ l → ∀ b ∈ l, Function.update next a p b = next b :=
    fun l ha b hb => Function.update_of_ne (ne_of_mem_of_not_mem hb ha) p next
  constructor
  · intro h
    cases l' with
    | nil => cases h
    | cons b l =>
        have hnodup := h.nodup
        obtain ⟨hb, hl⟩ := h
        obtain rfl := Option.some.inj hb
        rw [Function.update_self] at hl
        have ha := (List.nodup_cons.mp hnodup).1
        exact ⟨l, rfl, ha, hl.congr fun b hb => (hoff l ha b hb).symm⟩
  · rintro ⟨l, rfl, ha, hl⟩
    rw [chain_cons, Function.update_self]
    exact ⟨rfl, hl.congr (hoff l ha)⟩

/-! ## The loop over a list -/

/-- `n` rounds of `while(p) { …; p = p->next; }`, with the nodes visited;
`none` when the loop goes on. -/
def followLinks (next : T → Option T) : Nat → Option T → Option (List T)
  | 0, _ => none
  | _ + 1, none => some []
  | n + 1, some a => (followLinks next n (next a)).map (a :: ·)

/-- **The loop ends exactly on a chain**, having visited its nodes. -/
theorem followLinks_eq_some_iff :
    followLinks next n p = some l ↔ Chain next p l ∧ l.length < n := by
  induction n generalizing p l with
  | zero => simp [followLinks]
  | succ n ih =>
      cases p with
      | none => cases l <;> simp [followLinks]
      | some a =>
          cases l with
          | nil => simp [followLinks]
          | cons b l =>
              simp only [followLinks, Option.map_eq_some_iff, ih, List.cons.injEq, chain_cons,
                Option.some.injEq, List.length_cons, Nat.add_lt_add_iff_right]
              constructor
              · rintro ⟨l₁, ⟨hl, hlen⟩, rfl, rfl⟩
                exact ⟨⟨rfl, hl⟩, hlen⟩
              · rintro ⟨⟨rfl, hl⟩, hlen⟩
                exact ⟨l, ⟨hl, hlen⟩, rfl, rfl⟩

theorem exists_followLinks_iff : (∃ n, followLinks next n p = some l) ↔ Chain next p l := by
  simp only [followLinks_eq_some_iff]
  constructor
  · rintro ⟨n, h, -⟩
    exact h
  · exact fun h => ⟨l.length + 1, h, Nat.lt_succ_self _⟩

end TeachingOs
