import Mathlib.Algebra.Ring.Nat
import Mathlib.Data.Set.Basic

/-!
# TeachingOs.Lib.ByteMem

A byte-addressed memory of a 64-bit machine with little-endian doubleword
accesses, and frames: a block of doubleword slots at fixed offsets from a
base address.  Addresses wrap around, so no lemma asks for a base that is
not close to the end of the address space.
-/

namespace TeachingOs.ByteMem

/-! ## Accesses -/

abbrev Addr := BitVec 64

abbrev Mem := Addr → BitVec 8

/-- The `n` bytes from `a` on. -/
def bytes (a : Addr) (n : Nat) : Set Addr := {b | (b - a).toNat < n}

/-- The doubleword at `a`. -/
def load64 (m : Mem) (a : Addr) : BitVec 64 :=
  m (a + 7) ++ m (a + 6) ++ m (a + 5) ++ m (a + 4) ++ m (a + 3) ++ m (a + 2) ++ m (a + 1) ++ m (a + 0)

/-- The memory after `v` is stored at `a`. -/
def store64 (m : Mem) (a : Addr) (v : BitVec 64) : Mem := fun b =>
  if (b - a).toNat < 8 then v.extractLsb' (8 * (b - a).toNat) 8 else m b

variable {m m' : Mem} {a b : Addr} {v : BitVec 64} {i j n : Nat}

theorem mem_bytes : b ∈ bytes a n ↔ (b - a).toNat < n := Iff.rfl

theorem store64_of_notMem (h : b ∉ bytes a 8) : store64 m a v b = m b := if_neg h

/-- A byte of a stored doubleword. -/
theorem store64_add {k : BitVec 64} (h : k.toNat < 8) :
    store64 m a v (a + k) = v.extractLsb' (8 * k.toNat) 8 := by
  have hk : a + k - a = k := by rw [BitVec.add_comm, BitVec.add_sub_cancel]
  rw [store64, hk, if_pos h]

theorem load64_store64 (m : Mem) (a : Addr) (v : BitVec 64) : load64 (store64 m a v) a = v := by
  simp only [load64, store64_add (m := m) (a := a) (v := v) (k := 7) (by decide),
    store64_add (m := m) (a := a) (v := v) (k := 6) (by decide),
    store64_add (m := m) (a := a) (v := v) (k := 5) (by decide),
    store64_add (m := m) (a := a) (v := v) (k := 4) (by decide),
    store64_add (m := m) (a := a) (v := v) (k := 3) (by decide),
    store64_add (m := m) (a := a) (v := v) (k := 2) (by decide),
    store64_add (m := m) (a := a) (v := v) (k := 1) (by decide),
    store64_add (m := m) (a := a) (v := v) (k := 0) (by decide)]
  iterate 7 rw [BitVec.extractLsb'_append_extractLsb'_eq_extractLsb' (by decide)]
  exact BitVec.extractLsb'_eq_self

/-- A doubleword depends on its eight bytes only. -/
theorem load64_congr (h : ∀ b ∈ bytes a 8, m b = m' b) : load64 m a = load64 m' a := by
  have hbyte : ∀ k : BitVec 64, k.toNat < 8 → m (a + k) = m' (a + k) := by
    intro k hk
    refine h (a + k) ?_
    rw [mem_bytes, BitVec.add_comm, BitVec.add_sub_cancel]
    exact hk
  simp only [load64, hbyte 7 (by decide), hbyte 6 (by decide), hbyte 5 (by decide),
    hbyte 4 (by decide), hbyte 3 (by decide), hbyte 2 (by decide), hbyte 1 (by decide),
    hbyte 0 (by decide)]

/-! ## Offsets -/

/-- A slot of a block lies in the block. -/
theorem bytes_add_subset (h : i + 8 ≤ n) (hn : n ≤ 2 ^ 64) :
    bytes (a + .ofNat 64 i) 8 ⊆ bytes a n := by
  intro b hb
  rw [mem_bytes] at hb ⊢
  bv_omega

/-- Two slots that do not overlap have no byte in common. -/
theorem notMem_bytes_add (h : i + 8 ≤ j ∨ j + 8 ≤ i) (hi : i + 8 ≤ 2 ^ 64) (hj : j + 8 ≤ 2 ^ 64)
    (hb : b ∈ bytes (a + .ofNat 64 i) 8) : b ∉ bytes (a + .ofNat 64 j) 8 := by
  intro hb'
  rw [mem_bytes] at hb hb'
  bv_omega

/-- A block that ends where or before another begins has no byte of it. -/
theorem notMem_bytes_of_le {x : Addr} (hab : a.toNat + i ≤ b.toNat) (hb : b.toNat + j ≤ 2 ^ 64)
    (hx : x ∈ bytes a i) : x ∉ bytes b j := by
  intro hx'
  rw [mem_bytes] at hx hx'
  bv_omega

/-! ## Frames -/

/-- A doubleword at an offset. -/
abbrev Slot := Nat × BitVec 64

/-- The memory after the slots are stored at their offsets from `a`. -/
def storeAll (a : Addr) (slots : List Slot) (m : Mem) : Mem :=
  slots.foldl (fun m p => store64 m (a + .ofNat 64 p.1) p.2) m

/-- Offsets of doublewords of a block of `n` bytes that do not overlap. -/
structure Layout (n : Nat) (offsets : List Nat) : Prop where
  inside : ∀ i ∈ offsets, i + 8 ≤ n
  apart : offsets.Pairwise fun i j => i + 8 ≤ j ∨ j + 8 ≤ i

theorem Layout.tail {offsets : List Nat} (h : Layout n (i :: offsets)) : Layout n offsets :=
  ⟨fun j hj => h.inside j (List.mem_cons_of_mem _ hj), (List.pairwise_cons.mp h.apart).2⟩

variable {slots : List Slot}

theorem storeAll_cons (a : Addr) (p : Slot) (slots : List Slot) (m : Mem) :
    storeAll a (p :: slots) m = storeAll a slots (store64 m (a + .ofNat 64 p.1) p.2) := rfl

theorem storeAll_append (a : Addr) (slots slots' : List Slot) (m : Mem) :
    storeAll a (slots ++ slots') m = storeAll a slots' (storeAll a slots m) := List.foldl_append

/-- Storing slots changes nothing that is outside of all of them. -/
theorem storeAll_apart (h : ∀ p ∈ slots, b ∉ bytes (a + .ofNat 64 p.1) 8) :
    storeAll a slots m b = m b := by
  induction slots generalizing m with
  | nil => rfl
  | cons p slots ih =>
      have hp := store64_of_notMem (m := m) (v := p.2) (h p List.mem_cons_self)
      exact (ih fun q hq => h q (List.mem_cons_of_mem _ hq)).trans hp

/-- **Frame**: storing slots of a block changes nothing outside the block. -/
theorem storeAll_of_notMem (h : Layout n (slots.map Prod.fst)) (hn : n ≤ 2 ^ 64)
    (hb : b ∉ bytes a n) : storeAll a slots m b = m b :=
  storeAll_apart fun p hp hmem =>
    hb (bytes_add_subset (h.inside p.1 (List.mem_map_of_mem hp)) hn hmem)

/-- **Every slot keeps its value** until the block is written again. -/
theorem load64_storeAll (h : Layout n (slots.map Prod.fst)) (hn : n ≤ 2 ^ 64) {p : Slot}
    (hp : p ∈ slots) : load64 (storeAll a slots m) (a + .ofNat 64 p.1) = p.2 := by
  induction slots generalizing m with
  | nil => cases hp
  | cons q slots ih =>
      rcases List.mem_cons.mp hp with rfl | hp
      · have hlast : ∀ b ∈ bytes (a + .ofNat 64 p.1) 8, storeAll a (p :: slots) m b =
            store64 m (a + .ofNat 64 p.1) p.2 b := by
          intro b hb
          rw [storeAll_cons]
          refine storeAll_apart fun q hq => ?_
          have hq' := List.mem_map_of_mem (f := Prod.fst) hq
          have hpq := (List.pairwise_cons.mp h.apart).1 q.1 hq'
          have hpn := h.inside p.1 List.mem_cons_self
          have hqn := h.inside q.1 (List.mem_cons_of_mem _ hq')
          exact notMem_bytes_add hpq (by omega) (by omega) hb
        rw [load64_congr hlast, load64_store64]
      · exact ih h.tail hp

end TeachingOs.ByteMem
