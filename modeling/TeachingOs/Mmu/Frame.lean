import TeachingOs.Mmu.PageTable
import TeachingOs.Lib.RadixTree

/-!
# TeachingOs.Mmu.Frame

Page frames and their slots.  A `Frame` is a physical address that fits the
address field of a descriptor, i.e. 4 KB aligned and below 2^48; the 512
slots of the frames are what the page-table code indexes.  The lemmas here
are the only place where descriptor bits are taken apart:

* a frame and the attribute bits of a descriptor do not overlap;
* `walk` computes the address of a `Fin 512` slot of a frame;
* slots of different frames, or different slots of one frame, are different
  addresses, so that the tables form a `RadixTree.Layout`.
-/

namespace TeachingOs

open RadixTree

/-! ## Frames and descriptor bits -/

/-- A physical page frame: an address with no bit outside bits 47:12. -/
structure Frame where
  addr : Word
  masked : addr &&& addrMask = addr

theorem Frame.ext {f g : Frame} (h : f.addr = g.addr) : f = g := by
  cases f; cases g; simp_all

/-- The frame that the address field of a descriptor names. -/
def frameOf (d : Word) : Frame :=
  ⟨d &&& addrMask, by rw [BitVec.and_assoc, BitVec.and_self]⟩

theorem Frame.and_of_disjoint (f : Frame) {c : Word} (hc : addrMask &&& c = 0) :
    f.addr &&& c = 0 := by
  rw [← f.masked, BitVec.and_assoc, hc]
  simp

/-- Attribute bits read back from a descriptor do not see the frame. -/
theorem Frame.or_and_attr (f : Frame) (w : Word) {c : Word} (hc : addrMask &&& c = 0) :
    (f.addr ||| w) &&& c = w &&& c := by
  rw [BitVec.and_or_distrib_right, f.and_of_disjoint hc]
  simp

/-- The address field of a descriptor is its frame. -/
theorem Frame.or_and_addrMask (f : Frame) {w : Word} (hw : w &&& addrMask = 0) :
    (f.addr ||| w) &&& addrMask = f.addr := by
  rw [BitVec.and_or_distrib_right, f.masked, hw]
  simp

/-- The two low bits are not part of the address: `*mapping & ~3`. -/
theorem Frame.or_three_and_not_three (f : Frame) : (f.addr ||| 3) &&& ~~~3 = f.addr := by
  have h3 : (3 : Word) &&& ~~~3 = 0 := by decide
  have hm : addrMask &&& ~~~3 = addrMask := by decide
  have hf : f.addr &&& ~~~3 = f.addr := by
    rw [← f.masked, BitVec.and_assoc, hm]
  rw [BitVec.and_or_distrib_right, h3, hf]
  simp

theorem Frame.toNat_mod (f : Frame) : f.addr.toNat % 4096 = 0 := by
  have h : f.addr &&& 0xFFF = 0 := f.and_of_disjoint (by decide)
  have h' := congrArg BitVec.toNat h
  rw [BitVec.toNat_and] at h'
  simpa [Nat.and_two_pow_sub_one_eq_mod _ 12] using h'

theorem Frame.toNat_lt (f : Frame) : f.addr.toNat < 2 ^ 48 := by
  have h : f.addr.toNat ≤ addrMask.toNat := by
    rw [← f.masked, BitVec.toNat_and]
    exact Nat.and_le_right
  have hm : addrMask.toNat < 2 ^ 48 := by decide
  omega

/-- 4 KB aligned and below 2^48. -/
def IsFrame (w : Word) : Prop := w.toNat % 2 ^ 12 = 0 ∧ w.toNat < 2 ^ 48

instance (w : Word) : Decidable (IsFrame w) := inferInstanceAs (Decidable (_ ∧ _))

/-- Being a page frame is what the address mask checks. -/
theorem IsFrame.masked {w : Word} (h : IsFrame w) : w &&& addrMask = w := by
  obtain ⟨hmod, hlt⟩ := h
  apply BitVec.eq_of_toNat_eq
  rw [BitVec.toNat_and]
  have hmask : addrMask.toNat = (2 ^ 36 - 1) <<< 12 := by decide
  rw [hmask]
  apply Nat.eq_of_testBit_eq
  intro i
  rw [Nat.testBit_and, Nat.testBit_shiftLeft, Nat.testBit_two_pow_sub_one]
  by_cases hi : i < 12
  · have hbit : w.toNat.testBit i = false := by
      have := Nat.testBit_mod_two_pow w.toNat 12 i
      rw [hmod] at this
      simpa [hi] using this.symm
    simp [hbit]
  · by_cases hi' : i < 48
    · simp [show 12 ≤ i by omega, show i - 12 < 36 by omega]
    · have hbit : w.toNat.testBit i = false :=
        Nat.testBit_lt_two_pow (Nat.lt_of_lt_of_le hlt (Nat.pow_le_pow_right (by omega) (by omega)))
      simp [hbit]

/-! ## Slots -/

/-- The physical address of slot `i` of a table. -/
def Frame.slot (f : Frame) (i : Fin 512) : Word := f.addr + BitVec.ofNat 64 (i * 8)

theorem Frame.toNat_slot (f : Frame) (i : Fin 512) :
    (f.slot i).toNat = f.addr.toNat + i * 8 := by
  have hf := f.toNat_lt
  have hi := i.isLt
  simp only [Frame.slot, BitVec.toNat_add, BitVec.toNat_ofNat]
  omega

theorem Frame.slot_inj {f g : Frame} {i j : Fin 512} (h : f.slot i = g.slot j) :
    f = g ∧ i = j := by
  have h' := congrArg BitVec.toNat h
  rw [f.toNat_slot, g.toNat_slot] at h'
  have hf := f.toNat_mod
  have hg := g.toNat_mod
  have hi := i.isLt
  have hj := j.isLt
  have hfg : f.addr.toNat = g.addr.toNat := by omega
  exact ⟨Frame.ext (BitVec.eq_of_toNat_eq hfg), Fin.ext (by omega)⟩

/-- The slot of a table that translates `v` at the level of `shift`. -/
def index (v : Word) (shift : Nat) : Fin 512 :=
  ⟨v.toNat / 2 ^ shift % 512, Nat.mod_lt _ (by decide)⟩

theorem toNat_slotIndex (v : Word) (shift : Nat) :
    (slotIndex v shift).toNat = v.toNat / 2 ^ shift % 512 := by
  have h : (0x1FF : Word).toNat = 2 ^ 9 - 1 := by decide
  rw [slotIndex, BitVec.toNat_and, h, Nat.and_two_pow_sub_one_eq_mod,
    BitVec.toNat_ushiftRight, Nat.shiftRight_eq_div_pow]

/-- The address that `walk` and the hardware compute is a slot of the frame. -/
theorem Frame.add_slotIndex (f : Frame) (v : Word) (shift : Nat) :
    f.addr + slotIndex v shift * 8 = f.slot (index v shift) := by
  have h : slotIndex v shift * 8 = BitVec.ofNat 64 (index v shift * 8) := by
    apply BitVec.eq_of_toNat_eq
    rw [BitVec.toNat_mul, toNat_slotIndex, BitVec.toNat_ofNat]
    rfl
  rw [h, Frame.slot]

/-! ## Tables as a radix tree -/

/-- A valid descriptor names a table. -/
def childTable (d : Word) : Option Frame := if d &&& 1 = 0 then none else some (frameOf d)

/-- Page tables are radix-tree tables: 512 slots a frame, and a child behind
every valid descriptor. -/
def pageLayout : Layout Word Word Frame (Fin 512) where
  slot := Frame.slot
  child := childTable
  slot_inj := Frame.slot_inj

theorem childTable_of_invalid {d : Word} (h : d &&& 1 = 0) : childTable d = none := if_pos h

theorem childTable_zero : childTable 0 = none := by decide

theorem childTable_table (f : Frame) : childTable (f.addr ||| 3) = some f := by
  have h1 : (f.addr ||| 3) &&& 1 ≠ 0 := by
    rw [f.or_and_attr 3 (by decide)]; decide
  rw [childTable, if_neg h1]
  congr 1
  exact Frame.ext (f.or_and_addrMask (by decide))

/-! ## Pages -/

/-- The number of the 4 KB page of a 48-bit virtual address: bits 47:12. -/
def pageNumber (v : Word) : Nat := v.toNat / 2 ^ 12 % 2 ^ 36

/-- The slot indices of an address, from level 0 to level 2. -/
def tablePath (v : Word) : List (Fin 512) := [index v 39, index v 30, index v 21]

/-- The four slot indices determine the page and nothing more. -/
theorem pageNumber_eq_iff (v w : Word) :
    pageNumber v = pageNumber w ↔ tablePath v = tablePath w ∧ index v 12 = index w 12 := by
  simp only [pageNumber, tablePath, index, List.cons.injEq, and_true, Fin.mk.injEq]
  constructor
  · intro h; omega
  · intro h; omega

end TeachingOs
