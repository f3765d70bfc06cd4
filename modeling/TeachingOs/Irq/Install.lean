import Mathlib.Data.List.Induction
import TeachingOs.Irq.Gic

/-!
# TeachingOs.Irq.Install

How `drivers/aarch64/gic_400.c` fills the table that its handler reads,
`irq_to_kirq_map`.  `gic_400_install_ppi` compares the number that it stores
with the size of the table, not the index that it stores at; `mapsLast_iff`
says for which calls this makes no difference.
-/

namespace TeachingOs.Irq

/-! ## Setting up the table -/

/-- The heap as `gic_400.c` sees it: for a block of some bytes the 64-bit
words from the block on, or `none` when the allocation fails. -/
abbrev WordHeap := Word → Option (Nat → Nat)

/-- The statics of `gic_400.c` after `gic_400_init`, the device registers
written since, and the elements of `irq_to_kirq_map` that were stored to. -/
structure Gic400 where
  gicdEnableIrqBase : Word
  gic : Gic
  registers : List (Word × BitVec 32)
  stores : List Nat

/-- `gic_400_init`. -/
def gic400Init (heap : WordHeap) (baseAddr totalGicIrqs : Word) : Except Panic Gic400 :=
  let gicdDistBase := baseAddr + 0x1000
  let size := totalGicIrqs * 8
  match heap size with
  | some past => .ok {
      gicdEnableIrqBase := gicdDistBase + 0x100
      gic := {
        irqToKirqMap := fun i => if 8 * i < size.toNat then irqNull else past i
        irqMapCount := totalGicIrqs.toNat }
      registers := []
      stores := [] }
  | none => .error (.message "failed to allocate gic_400 irq_to_kirq map")

/-- `gic_400_enable`. -/
def gic400Enable (d : Gic400) (irq : BitVec 32) : Gic400 :=
  let n := irq / 32
  let offset := irq % 32
  let enableReg := d.gicdEnableIrqBase + n.setWidth 64 * 4
  { d with registers := d.registers ++ [(enableReg, 1#32 <<< offset.toNat)] }

/-- `gic_400_install_ppi`. -/
def gic400InstallPpi (d : Gic400) (ppi : BitVec 32) (kernIrq : Word) : Gic400 :=
  let d := gic400Enable d ppi
  if kernIrq.toNat < d.gic.irqMapCount then
    { d with
      gic := { d.gic with
        irqToKirqMap := Function.update d.gic.irqToKirqMap ppi.toNat kernIrq.toNat }
      stores := d.stores ++ [ppi.toNat] }
  else d

/-- A call of `gic_400_install_ppi` for each pair. -/
def installs (d : Gic400) (calls : List (BitVec 32 × Word)) : Gic400 :=
  calls.foldl (fun d c => gic400InstallPpi d c.1 c.2) d

/-! ## What the table is for -/

/-- The kernel's number for interrupt `i` in the last call for `i`. -/
def lastInstall (i : Nat) (calls : List (BitVec 32 × Word)) : Nat :=
  calls.foldl (fun last c => if c.1.toNat = i then c.2.toNat else last) irqNull

/-- Stores stay inside the table, which gives every interrupt the kernel's
number for it. -/
structure MapsLast (totalGicIrqs : Word) (calls : List (BitVec 32 × Word)) (d : Gic400) : Prop where
  inside : ∀ i ∈ d.stores, i < totalGicIrqs.toNat
  last : ∀ i < totalGicIrqs.toNat, d.gic.irqToKirqMap i = lastInstall i calls

variable {heap : WordHeap} {baseAddr totalGicIrqs : Word} {calls : List (BitVec 32 × Word)}
  {d : Gic400} {i : Nat}

theorem lastInstall_append (i : Nat) (calls : List (BitVec 32 × Word)) (c : BitVec 32 × Word) :
    lastInstall i (calls ++ [c]) = if c.1.toNat = i then c.2.toNat else lastInstall i calls := by
  simp [lastInstall]

/-- Interrupt ids have 32 bits. -/
theorem toNat_ne_of_le (ppi : BitVec 32) (hi : 2 ^ 32 ≤ i) : ppi.toNat ≠ i := by
  have hlt := ppi.isLt
  omega

theorem lastInstall_of_le (hi : 2 ^ 32 ≤ i) (calls : List (BitVec 32 × Word)) :
    lastInstall i calls = irqNull := by
  induction calls using List.reverseRecOn with
  | nil => rfl
  | append_singleton calls c ih =>
      rw [lastInstall_append, if_neg (toNat_ne_of_le c.1 hi), ih]

/-! ## What a call does -/

section

variable (d : Gic400) (ppi : BitVec 32) (kernIrq : Word)

theorem install_of_lt (h : kernIrq.toNat < d.gic.irqMapCount) :
    gic400InstallPpi d ppi kernIrq = { gic400Enable d ppi with
      gic := { d.gic with
        irqToKirqMap := Function.update d.gic.irqToKirqMap ppi.toNat kernIrq.toNat }
      stores := d.stores ++ [ppi.toNat] } :=
  if_pos h

theorem install_of_not_lt (h : ¬ kernIrq.toNat < d.gic.irqMapCount) :
    gic400InstallPpi d ppi kernIrq = gic400Enable d ppi :=
  if_neg h

theorem irqMapCount_install :
    (gic400InstallPpi d ppi kernIrq).gic.irqMapCount = d.gic.irqMapCount := by
  by_cases h : kernIrq.toNat < d.gic.irqMapCount
  · rw [install_of_lt d ppi kernIrq h]
  · rw [install_of_not_lt d ppi kernIrq h]
    rfl

theorem stores_install : (gic400InstallPpi d ppi kernIrq).stores =
    d.stores ++ if kernIrq.toNat < d.gic.irqMapCount then [ppi.toNat] else [] := by
  by_cases h : kernIrq.toNat < d.gic.irqMapCount
  · rw [install_of_lt d ppi kernIrq h, if_pos h]
  · rw [install_of_not_lt d ppi kernIrq h, if_neg h, List.append_nil]
    rfl

theorem irqToKirqMap_install (i : Nat) : (gic400InstallPpi d ppi kernIrq).gic.irqToKirqMap i =
    if kernIrq.toNat < d.gic.irqMapCount ∧ ppi.toNat = i then kernIrq.toNat
      else d.gic.irqToKirqMap i := by
  by_cases h : kernIrq.toNat < d.gic.irqMapCount
  · rw [install_of_lt d ppi kernIrq h]
    by_cases hi : ppi.toNat = i
    · rw [if_pos ⟨h, hi⟩, ← hi]
      exact Function.update_self _ _ _
    · rw [if_neg (hi ·.2)]
      exact Function.update_of_ne (Ne.symm hi) _ _
  · rw [install_of_not_lt d ppi kernIrq h, if_neg (h ·.1)]
    rfl

end

/-! ## What the calls do -/

theorem installs_append (d : Gic400) (calls : List (BitVec 32 × Word)) (c : BitVec 32 × Word) :
    installs d (calls ++ [c]) = gic400InstallPpi (installs d calls) c.1 c.2 := by
  simp [installs]

theorem irqMapCount_installs (d : Gic400) (calls : List (BitVec 32 × Word)) :
    (installs d calls).gic.irqMapCount = d.gic.irqMapCount := by
  induction calls using List.reverseRecOn with
  | nil => rfl
  | append_singleton calls c ih => rw [installs_append, irqMapCount_install, ih]

/-- The elements stored to are those of the calls with a small number. -/
theorem mem_stores_installs (hd : d.stores = []) : i ∈ (installs d calls).stores ↔
    ∃ c ∈ calls, c.2.toNat < d.gic.irqMapCount ∧ c.1.toNat = i := by
  induction calls using List.reverseRecOn with
  | nil => simp [installs, hd]
  | append_singleton calls c ih =>
      rw [installs_append, stores_install, irqMapCount_installs, List.mem_append, ih]
      by_cases hlt : c.2.toNat < d.gic.irqMapCount <;>
        simp [hlt, or_and_right, exists_or, eq_comm]

/-- The table holds the last number for an interrupt, if that number is small. -/
theorem irqToKirqMap_installs (hd : d.gic.irqToKirqMap i = irqNull)
    (hsmall : lastInstall i calls < d.gic.irqMapCount) :
    (installs d calls).gic.irqToKirqMap i = lastInstall i calls := by
  induction calls using List.reverseRecOn with
  | nil => exact hd
  | append_singleton calls c ih =>
      rw [lastInstall_append] at hsmall
      rw [installs_append, irqToKirqMap_install, irqMapCount_installs, lastInstall_append]
      by_cases hi : c.1.toNat = i
      · rw [if_pos hi] at hsmall
        rw [if_pos ⟨hsmall, hi⟩, if_pos hi]
      · rw [if_neg hi] at hsmall
        rw [if_neg (hi ·.2), if_neg hi, ih hsmall]

/-- It holds only small numbers. -/
theorem irqToKirqMap_installs_lt (hd : d.gic.irqToKirqMap i < d.gic.irqMapCount) :
    (installs d calls).gic.irqToKirqMap i < d.gic.irqMapCount := by
  induction calls using List.reverseRecOn with
  | nil => exact hd
  | append_singleton calls c ih =>
      rw [installs_append, irqToKirqMap_install, irqMapCount_installs]
      split
      · next hc => exact hc.1
      · exact ih

/-- An element that no interrupt has stays. -/
theorem irqToKirqMap_installs_of_le (hi : 2 ^ 32 ≤ i) :
    (installs d calls).gic.irqToKirqMap i = d.gic.irqToKirqMap i := by
  induction calls using List.reverseRecOn with
  | nil => rfl
  | append_singleton calls c ih =>
      have hne := toNat_ne_of_le c.1 hi
      rw [installs_append, irqToKirqMap_install, if_neg (hne ·.2), ih]

/-! ## When the table is right -/

/-- The table after `gic_400_init`. -/
theorem of_gic400Init (h : gic400Init heap baseAddr totalGicIrqs = .ok d) :
    ∃ past, heap (totalGicIrqs * 8) = some past ∧ d.stores = [] ∧
      d.gic.irqMapCount = totalGicIrqs.toNat ∧ ∀ i, d.gic.irqToKirqMap i =
        if 8 * i < (totalGicIrqs * 8).toNat then irqNull else past i := by
  rw [gic400Init] at h
  cases hheap : heap (totalGicIrqs * 8) with
  | some past =>
      simp only [hheap] at h
      rw [← Except.ok.inj h]
      exact ⟨past, rfl, rfl, rfl, fun _ => rfl⟩
  | none =>
      simp only [hheap] at h
      cases h

/-- The size in bytes of the block overflows from 2^61 elements on. -/
theorem toNat_size (totalGicIrqs : Word) :
    (totalGicIrqs * 8).toNat = 8 * (totalGicIrqs.toNat % 2 ^ 61) := by
  have hmul : (totalGicIrqs * 8).toNat = totalGicIrqs.toNat * 8 % 2 ^ 64 :=
    BitVec.toNat_mul totalGicIrqs 8
  omega

/-- The size of the block does not overflow, every number below the size of
the table is installed for an interrupt below it, and the last number for
an interrupt of the table is below it. -/
structure Fits (totalGicIrqs : Word) (calls : List (BitVec 32 × Word)) : Prop where
  size : totalGicIrqs.toNat < 2 ^ 61
  index : ∀ c ∈ calls, c.2.toNat < totalGicIrqs.toNat → c.1.toNat < totalGicIrqs.toNat
  number : ∀ i < totalGicIrqs.toNat, lastInstall i calls < totalGicIrqs.toNat

/-- **The table gives every interrupt its last number**, whatever follows its
block in memory, exactly when the calls fit it. -/
theorem mapsLast_iff (baseAddr totalGicIrqs : Word) (calls : List (BitVec 32 × Word)) :
    (∀ heap d, gic400Init heap baseAddr totalGicIrqs = .ok d →
      MapsLast totalGicIrqs calls (installs d calls)) ↔ Fits totalGicIrqs calls := by
  constructor
  · intro h
    obtain ⟨d, hd⟩ : ∃ d, gic400Init (fun _ => some fun _ => 1) baseAddr totalGicIrqs = .ok d :=
      ⟨_, rfl⟩
    have hmaps := h _ d hd
    obtain ⟨_, hpast, hstores, hcount, hinit⟩ := of_gic400Init hd
    cases hpast
    have hsize : totalGicIrqs.toNat < 2 ^ 61 := by
      by_contra hbig
      -- element 2^61 - 1 of the table is behind its block, and no interrupt has it
      have hlast := hmaps.last (2 ^ 61 - 1) (by omega)
      have hblock : ¬ 8 * (2 ^ 61 - 1) < (totalGicIrqs * 8).toNat := by
        rw [toNat_size]
        omega
      rw [irqToKirqMap_installs_of_le (by decide), lastInstall_of_le (by decide), hinit,
        if_neg hblock] at hlast
      cases hlast
    refine ⟨hsize, fun c hc hlt => ?_, fun i hi => ?_⟩
    · exact hmaps.inside _ ((mem_stores_installs hstores).mpr ⟨c, hc, hcount ▸ hlt, rfl⟩)
    · have hnull : d.gic.irqToKirqMap i = irqNull := by
        rw [hinit, toNat_size, Nat.mod_eq_of_lt hsize, if_pos (by omega)]
      rw [← hmaps.last i hi, ← hcount]
      refine irqToKirqMap_installs_lt ?_
      rw [hnull, hcount]
      exact Nat.zero_lt_of_lt hi
  · intro hfits heap d hd
    obtain ⟨past, -, hstores, hcount, hinit⟩ := of_gic400Init hd
    constructor
    · intro i hi
      obtain ⟨c, hc, hlt, rfl⟩ := (mem_stores_installs hstores).mp hi
      exact hfits.index c hc (hcount ▸ hlt)
    · intro i hi
      refine irqToKirqMap_installs ?_ (hcount ▸ hfits.number i hi)
      rw [hinit, toNat_size, Nat.mod_eq_of_lt hfits.size, if_pos (by omega)]

/-- With the 128 elements that the board asks for: kernel number 128 is
dropped, and interrupt 200 is stored behind the table. -/
theorem not_mapsLast_board :
    ∃ d, gic400Init (fun _ => some fun _ => 1) 0x7f840000 128 = .ok d ∧
      ¬ MapsLast 128 [(30, 128)] (installs d [(30, 128)]) ∧
      ¬ MapsLast 128 [(200, 2)] (installs d [(200, 2)]) := by
  refine ⟨_, rfl, fun h => ?_, fun h => ?_⟩
  · exact absurd (h.last 30 (by decide)) (by decide)
  · exact absurd (h.inside 200 (by decide)) (by decide)

end TeachingOs.Irq
