import Mathlib.Logic.Function.Basic
import Mathlib.Data.List.Induction

/-!
# TeachingOs.Lib.RadixTree

Radix trees of tables kept in one flat mutable memory.

A `Layout` says where the slots of a table lie and which child table, if
any, the value in a slot names.  `descend` follows a path of slot indices
from a root.  Two memory updates build every such tree: writing a slot, and
linking an empty table into an empty slot.  Both are described by what they
do to `descend` along *every* path:

* `descend_update_of_not_prefix`: a write changes only paths through the slot;
* `descend_link`: linking a blank table adds exactly one path.

Both rest on `Owned`: no table is reached along two different paths.  The
paths are restricted by a predicate on their first index, so that a root may
carry slots that belong to somebody else.
-/

namespace TeachingOs.RadixTree

variable {Addr Val Table Idx : Type*}

/-- How tables lie in memory: the address of a slot, and the child table
that a value found in a slot names. -/
structure Layout (Addr Val Table Idx : Type*) where
  slot : Table → Idx → Addr
  child : Val → Option Table
  slot_inj : ∀ {t i t' i'}, slot t i = slot t' i' → t = t' ∧ i = i'

/-- A path whose first index, if it has one, satisfies `S`. -/
def Starts (S : Idx → Prop) : List Idx → Prop
  | [] => True
  | i :: _ => S i

theorem Starts.of_append {S : Idx → Prop} {p q : List Idx} (h : Starts S (p ++ q)) :
    Starts S p := by
  cases p with
  | nil => trivial
  | cons i p => exact h

namespace Layout

variable (L : Layout Addr Val Table Idx)

/-- The table reached from `root` along a path of slot indices. -/
def descend (m : Addr → Val) (root : Table) : List Idx → Option Table
  | [] => some root
  | i :: is => (L.child (m (L.slot root i))).bind fun t => descend m t is

@[simp] theorem descend_nil (m : Addr → Val) (root : Table) :
    L.descend m root [] = some root := rfl

theorem descend_append (m : Addr → Val) (root : Table) (p q : List Idx) :
    L.descend m root (p ++ q) = (L.descend m root p).bind fun t => L.descend m t q := by
  induction p generalizing root with
  | nil => rfl
  | cons i p ih =>
      simp only [List.cons_append, descend, Option.bind_assoc]
      congr 1
      funext t
      exact ih t

theorem descend_concat (m : Addr → Val) (root : Table) (p : List Idx) (i : Idx) :
    L.descend m root (p ++ [i]) =
      (L.descend m root p).bind fun t => L.child (m (L.slot t i)) := by
  rw [descend_append]
  congr 1
  funext t
  simp [descend]

/-- Up to depth `n`, no table is reached along two different paths. -/
def Owned (m : Addr → Val) (root : Table) (S : Idx → Prop) (n : Nat) : Prop :=
  ∀ ⦃p q : List Idx⦄ ⦃t : Table⦄, Starts S p → Starts S q → p.length ≤ n → q.length ≤ n →
    L.descend m root p = some t → L.descend m root q = some t → p = q

/-- A table with no children. -/
def Blank (m : Addr → Val) (t : Table) : Prop := ∀ i, L.child (m (L.slot t i)) = none

/-- A table that no path of length at most `n` reaches. -/
def Outside (m : Addr → Val) (root : Table) (S : Idx → Prop) (n : Nat) (f : Table) : Prop :=
  ∀ ⦃p : List Idx⦄, Starts S p → p.length ≤ n → L.descend m root p ≠ some f

variable {L} [DecidableEq Addr] {m : Addr → Val} {root t f : Table} {S : Idx → Prop} {n : Nat}
  {p q : List Idx} {i : Idx} {v : Val}

omit [DecidableEq Addr] in
/-- A slot belongs to one path only. -/
theorem Owned.slot_inj (hown : L.Owned m root S n) {t' : Table} {j : Idx} (hp : Starts S p)
    (hq : Starts S q) (hpn : p.length ≤ n) (hqn : q.length ≤ n)
    (hpt : L.descend m root p = some t) (hqt : L.descend m root q = some t')
    (h : L.slot t' j = L.slot t i) : q = p ∧ j = i := by
  obtain ⟨rfl, rfl⟩ := L.slot_inj h
  exact ⟨hown hq hp hqn hpn hqt hpt, rfl⟩

omit [DecidableEq Addr] in
/-- The slots of an outside table are not slots of the tree. -/
theorem Outside.slot_ne (hout : L.Outside m root S n f) {j : Idx} (hp : Starts S p)
    (hpn : p.length ≤ n) (hpt : L.descend m root p = some t) : L.slot f j ≠ L.slot t i := by
  intro h
  obtain ⟨rfl, -⟩ := L.slot_inj h
  exact hout hp hpn hpt

omit [DecidableEq Addr] in
/-- Memories that agree on the slots of the tree have the same tree. -/
theorem descend_of_agree {m' : Addr → Val}
    (hag : ∀ ⦃p t i⦄, Starts S (p ++ [i]) → p.length < n → L.descend m root p = some t →
      m' (L.slot t i) = m (L.slot t i)) :
    ∀ q, Starts S q → q.length ≤ n → L.descend m' root q = L.descend m root q := by
  intro q
  induction q using List.reverseRecOn with
  | nil => intros; rfl
  | append_singleton q j ih =>
      intro hS hlen
      have hq : q.length + 1 ≤ n := by simpa using hlen
      rw [descend_concat, descend_concat, ih hS.of_append (by omega)]
      refine Option.bind_congr fun t ht => ?_
      rw [hag hS hq ht]

/-- Writing slot `i` of the table at path `p` leaves every path that does
not go through that slot as it was. -/
theorem descend_update_of_not_prefix (hown : L.Owned m root S n) (hp : Starts S p)
    (hpn : p.length ≤ n) (hpt : L.descend m root p = some t) :
    ∀ q, Starts S q → q.length ≤ n + 1 → ¬ (p ++ [i]) <+: q →
      L.descend (Function.update m (L.slot t i) v) root q = L.descend m root q := by
  intro q
  induction q using List.reverseRecOn with
  | nil => intros; rfl
  | append_singleton q j ih =>
      intro hS hlen hnot
      have hq : Starts S q := hS.of_append
      have hqn : q.length ≤ n := by simpa using hlen
      have hnq : ¬ (p ++ [i]) <+: q := fun h => hnot (h.trans (List.prefix_append q [j]))
      rw [descend_concat, descend_concat, ih hq (by omega) hnq]
      cases hqt : L.descend m root q with
      | none => rfl
      | some t' =>
          have hne : L.slot t' j ≠ L.slot t i := by
            intro he
            obtain ⟨rfl, rfl⟩ := hown.slot_inj hp hq hpn hqn hpt hqt he
            exact hnot (List.prefix_refl _)
          simp [Function.update_of_ne hne]

/-- A write whose value names no child keeps ownership when the slot had no
child before. -/
theorem descend_update_leaf (hown : L.Owned m root S n) (hp : Starts S p)
    (hpn : p.length = n) (hpt : L.descend m root p = some t) (hq : Starts S q)
    (hqn : q.length ≤ n) :
    L.descend (Function.update m (L.slot t i) v) root q = L.descend m root q := by
  apply descend_update_of_not_prefix hown hp (Nat.le_of_eq hpn) hpt q hq (by omega)
  intro hpre
  have := hpre.length_le
  simp only [List.length_append, List.length_singleton] at this
  omega

/-- Linking a blank outside table `f` into an empty slot adds the path to
`f` and changes no other path. -/
theorem descend_link (hown : L.Owned m root S n) (hp : Starts S (p ++ [i]))
    (hpn : p.length < n) (hpt : L.descend m root p = some t)
    (hempty : L.child (m (L.slot t i)) = none) (hv : L.child v = some f)
    (hout : L.Outside m root S n f) (hblank : L.Blank m f) (hq : Starts S q)
    (hqn : q.length ≤ n) [Decidable (q = p ++ [i])] :
    L.descend (Function.update m (L.slot t i) v) root q =
      if q = p ++ [i] then some f else L.descend m root q := by
  have hp' : Starts S p := hp.of_append
  by_cases hpre : (p ++ [i]) <+: q
  · obtain ⟨r, rfl⟩ := hpre
    have hpath : L.descend (Function.update m (L.slot t i) v) root (p ++ [i]) = some f := by
      rw [descend_concat,
        descend_update_of_not_prefix hown hp' (Nat.le_of_lt hpn) hpt p hp' (by omega)
          (fun h => by simpa [Nat.not_succ_le_self] using h.length_le), hpt]
      simp [hv]
    rw [descend_append, hpath]
    cases r with
    | nil => simp
    | cons j r =>
        have hne : L.slot f j ≠ L.slot t i := hout.slot_ne hp' (Nat.le_of_lt hpn) hpt
        have hold : L.descend m root (p ++ [i] ++ j :: r) = none := by
          rw [descend_append, descend_concat, hpt]
          simp [hempty]
        rw [if_neg (by simp), hold]
        simp [descend, Function.update_of_ne hne, hblank j]
  · have hne : q ≠ p ++ [i] := fun h => hpre (h ▸ List.prefix_refl _)
    rw [if_neg hne]
    exact descend_update_of_not_prefix hown hp' (Nat.le_of_lt hpn) hpt q hq (by omega) hpre

/-- Linking keeps every table on one path. -/
theorem Owned.link (hown : L.Owned m root S n) (hp : Starts S (p ++ [i]))
    (hpn : p.length < n) (hpt : L.descend m root p = some t)
    (hempty : L.child (m (L.slot t i)) = none) (hv : L.child v = some f)
    (hout : L.Outside m root S n f) (hblank : L.Blank m f) :
    L.Owned (Function.update m (L.slot t i) v) root S n := by
  classical
  intro a b u ha hb han hbn hau hbu
  rw [descend_link hown hp hpn hpt hempty hv hout hblank ha han] at hau
  rw [descend_link hown hp hpn hpt hempty hv hout hblank hb hbn] at hbu
  split at hau <;> split at hbu
  · next h₁ h₂ => rw [h₁, h₂]
  · cases hau; exact absurd hbu (hout hb hbn)
  · cases hbu; exact absurd hau (hout ha han)
  · exact hown ha hb han hbn hau hbu

/-- A table other than `f` that was outside stays outside. -/
theorem Outside.link {g : Table} (hg : L.Outside m root S n g) (hgf : g ≠ f)
    (hown : L.Owned m root S n) (hp : Starts S (p ++ [i]))
    (hpn : p.length < n) (hpt : L.descend m root p = some t)
    (hempty : L.child (m (L.slot t i)) = none) (hv : L.child v = some f)
    (hout : L.Outside m root S n f) (hblank : L.Blank m f) :
    L.Outside (Function.update m (L.slot t i) v) root S n g := by
  classical
  intro a ha han h
  rw [descend_link hown hp hpn hpt hempty hv hout hblank ha han] at h
  split at h
  · exact hgf (Option.some.inj h).symm
  · exact hg ha han h

end Layout

end TeachingOs.RadixTree
