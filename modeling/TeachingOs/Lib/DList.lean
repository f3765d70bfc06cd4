import Mathlib.Data.List.Nodup
import Mathlib.Logic.Function.Basic

/-!
# TeachingOs.Lib.DList

NULL-terminated doubly linked lists over two link maps.

`Seg next prev p l q` is a stretch of such a list: the nodes `l`, entered
from `p` and left towards `q`.  Segments append, so that an operation in the
middle of a list is two operations at the ends of segments.  `Rep` is a
whole list with its head and tail pointers; `Rep.unlink`, `Rep.pushFront`
and `Rep.pushBack` are the three operations, stated on the link maps after
their stores.
-/

namespace TeachingOs.DList

variable {T : Type*}

/-! ## Segments -/

/-- The nodes `l`, linked both ways, between `p` and `q`. -/
def Seg (next prev : T → Option T) (p : Option T) : List T → Option T → Prop
  | [], _ => True
  | a :: l, q => prev a = p ∧ next a = l.head?.or q ∧ Seg next prev (some a) l q

variable {next prev next' prev' : T → Option T} {p q : Option T} {l l₁ l₂ : List T} {a : T}

theorem or_getLast?_cons (a : T) (l : List T) (p : Option T) :
    (a :: l).getLast?.or p = l.getLast?.or (some a) := by
  cases l with
  | nil => rfl
  | cons b l => rw [List.getLast?_cons_cons, List.getLast?_cons]; rfl

theorem seg_append : Seg next prev p (l₁ ++ l₂) q ↔
    Seg next prev p l₁ (l₂.head?.or q) ∧ Seg next prev (l₁.getLast?.or p) l₂ q := by
  induction l₁ generalizing p with
  | nil => simp [Seg]
  | cons a l₁ ih =>
      rw [or_getLast?_cons]
      simp only [List.cons_append, Seg, ih, List.head?_append, Option.or_assoc, and_assoc]

/-- A segment only depends on the links of its nodes. -/
theorem Seg.congr (h : Seg next prev p l q) (hn : ∀ b ∈ l, next' b = next b)
    (hp : ∀ b ∈ l, prev' b = prev b) : Seg next' prev' p l q := by
  induction l generalizing p with
  | nil => trivial
  | cons a l ih =>
      obtain ⟨h1, h2, h3⟩ := h
      refine ⟨by rw [hp a List.mem_cons_self, h1], by rw [hn a List.mem_cons_self, h2], ?_⟩
      exact ih h3 (fun b hb => hn b (List.mem_cons_of_mem a hb))
        (fun b hb => hp b (List.mem_cons_of_mem a hb))

theorem ne_getLast? {b : T} (hb : b ∉ l) : l.getLast? ≠ some b :=
  fun h => hb (List.mem_of_getLast? h)

theorem ne_head? {b : T} (hb : b ∉ l) : l.head? ≠ some b :=
  fun h => hb (List.mem_of_head? h)

/-! ## Whole lists -/

/-- `head` and `tail` are the ends of the list `l`. -/
structure Rep (next prev : T → Option T) (head tail : Option T) (l : List T) : Prop where
  head : head = l.head?
  tail : tail = l.getLast?
  nodup : l.Nodup
  seg : Seg next prev none l none

variable {head tail : Option T}

theorem Rep.congr (h : Rep next prev head tail l) (hn : ∀ b ∈ l, next' b = next b)
    (hp : ∀ b ∈ l, prev' b = prev b) : Rep next' prev' head tail l :=
  ⟨h.head, h.tail, h.nodup, h.seg.congr hn hp⟩

theorem Rep.nil (next prev : T → Option T) : Rep next prev none none ([] : List T) :=
  ⟨rfl, rfl, List.nodup_nil, trivial⟩

/-- The links of a node in the middle of a list. -/
theorem Rep.links (h : Rep next prev head tail (l₁ ++ a :: l₂)) :
    prev a = l₁.getLast? ∧ next a = l₂.head? := by
  obtain ⟨-, h1, h2, -⟩ := seg_append.mp h.seg
  exact ⟨by simpa using h1, by simpa using h2⟩

/-! ## Stores -/

variable [DecidableEq T]

/-- A store through a pointer that may be null: `if (p) p->field = v`. -/
def setAt (f : T → Option T) (p v : Option T) : T → Option T :=
  match p with
  | none => f
  | some a => Function.update f a v

@[simp] theorem setAt_none (f : T → Option T) (v : Option T) : setAt f none v = f := rfl

@[simp] theorem setAt_some (f : T → Option T) (a : T) (v : Option T) :
    setAt f (some a) v = Function.update f a v := rfl

theorem setAt_of_ne {f : T → Option T} {p v : Option T} {b : T} (h : p ≠ some b) :
    setAt f p v b = f b := by
  cases p with
  | none => rfl
  | some a => exact Function.update_of_ne (fun hb => h (by rw [hb])) _ _

/-- Redirecting the last node changes where a segment leads. -/
theorem Seg.setNext_last (h : Seg next prev p l q) (hnodup : l.Nodup) (q' : Option T) :
    Seg (setAt next l.getLast? q') prev p l q' := by
  induction l generalizing p with
  | nil => trivial
  | cons a l ih =>
      obtain ⟨h1, h2, h3⟩ := h
      rw [List.nodup_cons] at hnodup
      cases l with
      | nil => exact ⟨h1, by simp, trivial⟩
      | cons b l =>
          rw [List.getLast?_cons_cons]
          refine ⟨h1, ?_, ih h3 hnodup.2⟩
          rw [setAt_of_ne (ne_getLast? hnodup.1), h2]
          rfl

/-- Redirecting the first node changes where a segment comes from. -/
theorem Seg.setPrev_head (h : Seg next prev p l q) (hnodup : l.Nodup) (p' : Option T) :
    Seg next (setAt prev l.head? p') p' l q := by
  cases l with
  | nil => trivial
  | cons a l =>
      obtain ⟨-, h2, h3⟩ := h
      rw [List.nodup_cons] at hnodup
      refine ⟨by simp, h2, h3.congr (fun b _ => rfl) fun b hb => ?_⟩
      exact setAt_of_ne fun h => hnodup.1 (Option.some.inj h ▸ hb)

/-! ## Operations -/

/-- **Unlinking**: redirect the neighbours of `a` to each other, move `head`
and `tail` when they point at `a`, and clear the links of `a`. -/
theorem Rep.unlink (h : Rep next prev head tail (l₁ ++ a :: l₂)) :
    Rep (Function.update (setAt next l₁.getLast? l₂.head?) a none)
      (Function.update (setAt prev l₂.head? l₁.getLast?) a none)
      (if head = some a then l₂.head? else head) (if tail = some a then l₁.getLast? else tail)
      (l₁ ++ l₂) := by
  have hnodup := h.nodup
  rw [List.nodup_middle, List.nodup_cons, List.mem_append, not_or] at hnodup
  obtain ⟨⟨ha₁, ha₂⟩, hnodup₂⟩ := hnodup
  obtain ⟨hn₁, hn₂, hdisj⟩ := List.nodup_append.mp hnodup₂
  obtain ⟨hseg₁, -, -, hseg₂⟩ := seg_append.mp h.seg
  refine ⟨?_, ?_, hnodup₂, ?_⟩
  · rw [h.head]
    cases l₁ with
    | nil => simp
    | cons b l₁ => simp [show b ≠ a from fun hb => ha₁ (hb ▸ List.mem_cons_self)]
  · rw [h.tail]
    cases hl : l₂.getLast? with
    | none =>
        obtain rfl := List.getLast?_eq_none_iff.mp hl
        simp
    | some b =>
        have hb : b ≠ a := fun hb => ha₂ (hb ▸ List.mem_of_getLast? hl)
        simp [List.getLast?_append, List.getLast?_cons, hl, hb]
  · refine seg_append.mpr ⟨?_, ?_⟩
    · refine (hseg₁.setNext_last hn₁ (l₂.head?.or none)).congr ?_ ?_
      · intro b hb
        rw [Function.update_of_ne (ne_of_mem_of_not_mem hb ha₁), Option.or_none]
      · intro b hb
        rw [Function.update_of_ne (ne_of_mem_of_not_mem hb ha₁),
          setAt_of_ne (ne_head? fun hb₂ => hdisj b hb b hb₂ rfl)]
    · refine (hseg₂.setPrev_head hn₂ (l₁.getLast?.or none)).congr ?_ ?_
      · intro b hb
        rw [Function.update_of_ne (ne_of_mem_of_not_mem hb ha₂),
          setAt_of_ne (ne_getLast? fun hb₁ => hdisj b hb₁ b hb rfl)]
      · intro b hb
        rw [Function.update_of_ne (ne_of_mem_of_not_mem hb ha₂), Option.or_none]

/-- **Pushing in front** of a list a node whose prev pointer is null. -/
theorem Rep.pushFront (h : Rep next prev head tail l) (ha : a ∉ l) (hp : prev a = none) :
    Rep (Function.update next a head) (setAt prev head (some a)) (some a)
      (if head = none then some a else tail) (a :: l) := by
  refine ⟨rfl, ?_, List.nodup_cons.mpr ⟨ha, h.nodup⟩, ?_, ?_, ?_⟩
  · rw [h.head, h.tail]
    cases l with
    | nil => rfl
    | cons b l => rw [List.getLast?_cons_cons]; rfl
  · rw [setAt_of_ne (h.head ▸ ne_head? ha), hp]
  · rw [Function.update_self, h.head, Option.or_none]
  · rw [h.head]
    refine (h.seg.setPrev_head h.nodup (some a)).congr (fun b hb => ?_) fun _ _ => rfl
    exact Function.update_of_ne (ne_of_mem_of_not_mem hb ha) _ _

/-- **Pushing at the end** of a list a node whose next pointer is null. -/
theorem Rep.pushBack (h : Rep next prev head tail l) (ha : a ∉ l) (hn : next a = none) :
    Rep (setAt next tail (some a)) (Function.update prev a tail)
      (if tail = none then some a else head) (some a) (l ++ [a]) := by
  refine ⟨?_, by simp, ?_, seg_append.mpr ⟨?_, ?_, ?_, trivial⟩⟩
  · rw [h.head, h.tail]
    cases l with
    | nil => rfl
    | cons b l => simp
  · exact List.nodup_append.mpr ⟨h.nodup, by simp, by
      intro b hb c hc hbc
      obtain rfl := List.mem_singleton.mp hc
      exact ha (hbc ▸ hb)⟩
  · rw [h.tail]
    refine (h.seg.setNext_last h.nodup (some a)).congr (fun _ _ => rfl) fun b hb => ?_
    exact Function.update_of_ne (ne_of_mem_of_not_mem hb ha) _ _
  · rw [Function.update_self, h.tail, Option.or_none]
  · rw [setAt_of_ne (h.tail ▸ ne_getLast? ha), hn]
    rfl

end TeachingOs.DList
