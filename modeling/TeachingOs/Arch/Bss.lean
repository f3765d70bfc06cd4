import Mathlib.Computability.StateTransition
import TeachingOs.Arch.Machine

/-!
# TeachingOs.Arch.Bss

The loop of `boot.S` that clears `.bss`, and the symbols of `link.ld` that it
reads.

`__bss_size` counts doublewords and is rounded down, so that the loop leaves
the last `(__bss_end - __bss_start) % 8` bytes as they are, and the counter
has 32 bits.  `clearsBss_iff`: every byte is cleared exactly when nothing is
lost in either place.  No other byte is ever written.

The virtual memory is flat here: every address of the section is mapped, and
as memory.  The map of `boot.S` ends a gigabyte above the kernel's base, at
`0xFFFF000040000000`, so that a section that runs past it would fault first.
-/

namespace TeachingOs.Arch

open ByteMem StateTransition

/-! ## The section -/

/-- `.bss` as `link.ld` places it. -/
structure BssLayout where
  bssStart : Addr
  bssEnd : Addr
  -- `. = ALIGN(16)`
  aligned : bssStart.toNat % 16 = 0
  le : bssStart ≤ bssEnd

namespace BssLayout

/-- The bytes from `__bss_start` up to `__bss_end`. -/
def bss (l : BssLayout) : Set Addr := {b | l.bssStart ≤ b ∧ b < l.bssEnd}

/-- The number of bytes of the section. -/
def length (l : BssLayout) : Nat := l.bssEnd.toNat - l.bssStart.toNat

/-- `__bss_size`. -/
def bssSize (l : BssLayout) : BitVec 64 := (l.bssEnd - l.bssStart) >>> 3

end BssLayout

/-! ## The loop -/

/-- Instructions with the index of the next one in the code.  `w` registers
are the low halves of `x` registers. -/
inductive BootInstr where
  | ldrX (r : Reg) (v : BitVec 64)
  | ldrW (r : Reg) (v : BitVec 32)
  | cbzW (r : Reg) (target : Nat)
  | strXzrPost (r : Reg) (imm : BitVec 64)
  | subW (r : Reg) (imm : BitVec 32)
  | cbnzW (r : Reg) (target : Nat)

/-- `wN`. -/
def Machine.w (s : Machine) (r : Reg) : BitVec 32 := (s.x r).setWidth 32

/-- Writing `wN` clears the upper half of `xN`. -/
def Machine.setW (s : Machine) (r : Reg) (v : BitVec 32) : Machine := s.setX r (v.setWidth 64)

/-- One instruction, at the index `i`. -/
def BootInstr.exec (i : Nat) (s : Machine) : BootInstr → Nat × Machine
  | .ldrX r v => (i + 1, s.setX r v)
  | .ldrW r v => (i + 1, s.setW r v)
  | .cbzW r target => (if s.w r = 0 then target else i + 1, s)
  | .strXzrPost r imm =>
      (i + 1, { s.setX r (s.x r + imm) with mem := store64 s.mem (s.x r) 0 })
  | .subW r imm => (i + 1, s.setW r (s.w r - imm))
  | .cbnzW r target => (if s.w r = 0 then i + 1 else target, s)

/-- The step from an index of the code; `none` behind its end. -/
def bootStep (code : List BootInstr) (c : Nat × Machine) : Option (Nat × Machine) :=
  code[c.1]?.map (BootInstr.exec c.1 c.2)

/-- "Clean the BSS section", up to the label `ready`.  The label `3` is
index 2. -/
def cleanBss (l : BssLayout) : List BootInstr := [
  .ldrX 1 l.bssStart,
  .ldrW 2 (l.bssSize.setWidth 32),
  .cbzW 2 6,
  .strXzrPost 1 8,
  .subW 2 1,
  .cbnzW 2 2]

/-! ## What it is for -/

/-- From `s` the code ends, in `s'`. -/
def Ends (code : List BootInstr) (s s' : Machine) : Prop :=
  ∃ i, (i, s') ∈ eval (bootStep code) (0, s)

/-- The section is zero and everything else is as before. -/
structure Cleared (l : BssLayout) (m m' : Mem) : Prop where
  zero : ∀ b ∈ l.bss, m' b = 0
  frame : ∀ b ∉ l.bss, m' b = m b

/-- Whatever memory holds, the loop clears the section. -/
def ClearsBss (l : BssLayout) : Prop :=
  ∀ s, ∃ s', Ends (cleanBss l) s s' ∧ Cleared l s.mem s'.mem

/-! ## What the loop does -/

/-- Memory with `n` bytes from `a` on zero. -/
def zeroFrom (m : Mem) (a : Addr) (n : Nat) : Mem := fun b =>
  if (b - a).toNat < n then 0 else m b

/-- A doubleword in front. -/
theorem zeroFrom_store64 {m : Mem} {a : Addr} {n : Nat} (hn : n + 8 ≤ 2 ^ 64) :
    zeroFrom (store64 m a 0) (a + 8) n = zeroFrom m a (n + 8) := by
  funext b
  have hzero : (0 : BitVec 64).extractLsb' (8 * (b - a).toNat) 8 = 0 := by simp
  rw [zeroFrom, zeroFrom, store64, hzero]
  by_cases hword : (b - a).toNat < 8
  · rw [if_pos hword, if_pos (show (b - a).toNat < n + 8 by omega), ite_self]
  · have hrest : (b - (a + 8)).toNat < n ↔ (b - a).toNat < n + 8 := by bv_omega
    rw [if_neg hword, if_congr hrest rfl rfl]

/-- The two instructions of a round. -/
def Machine.clearRound (s : Machine) : Machine :=
  { (s.setX 1 (s.x 1 + 8)).setW 2 (s.w 2 - 1) with mem := store64 s.mem (s.x 1) 0 }

theorem Machine.clearRound_w (s : Machine) : s.clearRound.w 2 = s.w 2 - 1 := by
  simp [clearRound, w, setW, setX]

theorem Machine.clearRound_x (s : Machine) : s.clearRound.x 1 = s.x 1 + 8 := rfl

variable {l : BssLayout} {s : Machine}

theorem bootStep_cbz (l : BssLayout) (s : Machine) :
    bootStep (cleanBss l) (2, s) = some (if s.w 2 = 0 then 6 else 3, s) := rfl

theorem bootStep_cbnz (l : BssLayout) (s : Machine) :
    bootStep (cleanBss l) (5, s) = some (if s.w 2 = 0 then 6 else 2, s) := rfl

/-- From the label `3`, with the counter at zero. -/
theorem reaches_ready (hw : s.w 2 = 0) : Reaches (bootStep (cleanBss l)) (2, s) (6, s) := by
  refine .single ?_
  rw [bootStep_cbz, if_pos hw, Option.mem_some_iff]

/-- A round in front of `cbnz`. -/
theorem reaches_round (hw : s.w 2 ≠ 0) :
    Reaches (bootStep (cleanBss l)) (2, s) (5, s.clearRound) := by
  have hcbz : (3, s) ∈ bootStep (cleanBss l) (2, s) := by
    rw [bootStep_cbz, if_neg hw, Option.mem_some_iff]
  refine .head hcbz (.head rfl (.single ?_))
  rfl

/-- **The loop** clears as many doublewords as the counter says. -/
theorem reaches_loop {n : Nat} (hw : (s.w 2).toNat = n) :
    ∃ s', Reaches (bootStep (cleanBss l)) (2, s) (6, s') ∧
      s'.mem = zeroFrom s.mem (s.x 1) (8 * n) := by
  induction n generalizing s with
  | zero => exact ⟨s, reaches_ready (BitVec.eq_of_toNat_eq hw), rfl⟩
  | succ n ih =>
      have hlt := (s.w 2).isLt
      have hne : s.w 2 ≠ 0 := by bv_omega
      have hround := reaches_round (l := l) hne
      have hw' : (s.clearRound.w 2).toNat = n := by
        rw [Machine.clearRound_w]
        bv_omega
      have hmem : zeroFrom s.clearRound.mem (s.clearRound.x 1) (8 * n) =
          zeroFrom s.mem (s.x 1) (8 * (n + 1)) := by
        rw [Machine.clearRound_x]
        exact zeroFrom_store64 (by omega)
      by_cases hlast : s.clearRound.w 2 = 0
      · have hzero : n = 0 := by bv_omega
        subst hzero
        refine ⟨s.clearRound, hround.tail ?_, hmem⟩
        rw [bootStep_cbnz, if_pos hlast, Option.mem_some_iff]
      · have hcbnz : (2, s.clearRound) ∈ bootStep (cleanBss l) (5, s.clearRound) := by
          rw [bootStep_cbnz, if_neg hlast, Option.mem_some_iff]
        obtain ⟨s', hloop, hs'⟩ := ih hw'
        exact ⟨s', hround.trans (.head hcbnz hloop), hs'.trans hmem⟩

/-- The number of bytes that the loop clears. -/
def BssLayout.cleared (l : BssLayout) : Nat := 8 * (l.bssSize.setWidth 32).toNat

/-- **What the loop does**, for every layout. -/
theorem ends_cleanBss (l : BssLayout) (s : Machine) :
    ∃ s', Ends (cleanBss l) s s' ∧ s'.mem = zeroFrom s.mem l.bssStart l.cleared := by
  have hstart : Reaches (bootStep (cleanBss l)) (0, s)
      (2, (s.setX 1 l.bssStart).setW 2 (l.bssSize.setWidth 32)) := .head rfl (.single rfl)
  have hw : ((s.setX 1 l.bssStart).setW 2 (l.bssSize.setWidth 32)).w 2 =
      l.bssSize.setWidth 32 := by
    simp [Machine.w, Machine.setW, Machine.setX]
  obtain ⟨s', hloop, hs'⟩ := reaches_loop (l := l) (congrArg BitVec.toNat hw)
  exact ⟨s', ⟨6, mem_eval.mpr ⟨hstart.trans hloop, rfl⟩⟩, hs'⟩

/-- The code ends in one state at most. -/
theorem Ends.unique {code : List BootInstr} {s₁ s₂ : Machine} (h₁ : Ends code s s₁)
    (h₂ : Ends code s s₂) : s₁ = s₂ := by
  obtain ⟨i₁, h₁⟩ := h₁
  obtain ⟨i₂, h₂⟩ := h₂
  exact congrArg Prod.snd (Part.mem_unique h₁ h₂)

/-- What memory holds where the code ends. -/
theorem Ends.mem_eq {s' : Machine} (h : Ends (cleanBss l) s s') :
    s'.mem = zeroFrom s.mem l.bssStart l.cleared := by
  obtain ⟨s'', hends, hmem⟩ := ends_cleanBss l s
  rw [h.unique hends, hmem]

/-! ## Rounding -/

namespace BssLayout

theorem mem_bss_iff (l : BssLayout) {b : Addr} :
    b ∈ l.bss ↔ (b - l.bssStart).toNat < l.length := by
  have hle := l.le
  simp only [bss, Set.mem_ofPred_eq, length]
  bv_omega

theorem cleared_eq (l : BssLayout) : l.cleared = 8 * (l.length / 8 % 2 ^ 32) := by
  have hle := l.le
  have hlength : (l.bssEnd - l.bssStart).toNat = l.length := by
    rw [length]
    bv_omega
  rw [cleared, bssSize, BitVec.toNat_setWidth, BitVec.toNat_ushiftRight, hlength,
    Nat.shiftRight_eq_div_pow]

theorem cleared_le (l : BssLayout) : l.cleared ≤ l.length := by
  rw [cleared_eq]
  omega

theorem cleared_eq_length_iff (l : BssLayout) :
    l.cleared = l.length ↔ 8 ∣ l.length ∧ l.length < 2 ^ 35 := by
  rw [cleared_eq]
  omega

end BssLayout

/-- **Nothing outside the section is written**, for any layout. -/
theorem Ends.frame {s' : Machine} (h : Ends (cleanBss l) s s') {b : Addr} (hb : b ∉ l.bss) :
    s'.mem b = s.mem b := by
  have hle := l.cleared_le
  rw [l.mem_bss_iff] at hb
  rw [h.mem_eq, zeroFrom, if_neg (by omega)]

/-- The first byte that the loop leaves. -/
theorem Ends.mem_add_cleared {s' : Machine} (h : Ends (cleanBss l) s s') :
    s'.mem (l.bssStart + .ofNat 64 l.cleared) = s.mem (l.bssStart + .ofNat 64 l.cleared) := by
  have hlt : l.cleared < 2 ^ 64 := by
    have := (l.bssSize.setWidth 32).isLt
    rw [BssLayout.cleared]
    omega
  rw [h.mem_eq, zeroFrom, if_neg (by bv_omega)]

/-- The loop leaves a byte that is not zero, if memory held none that is. -/
theorem not_clearsBss (hlt : l.cleared < l.length) : ¬ ClearsBss l := by
  intro h
  obtain ⟨s', hends, hcleared⟩ := h ⟨fun _ => 0, 0, 0, fun _ => 0, fun _ => 0xff⟩
  have hmem : l.bssStart + .ofNat 64 l.cleared ∈ l.bss := by
    rw [l.mem_bss_iff]
    have hlength : l.length < 2 ^ 64 := by
      rw [BssLayout.length]
      omega
    bv_omega
  have hzero := hcleared.zero _ hmem
  rw [hends.mem_add_cleared] at hzero
  change (0xff : BitVec 8) = 0 at hzero
  exact absurd hzero (by decide)

/-- **Exactly when the section is cleared**: its length is a multiple of
eight, and the count of doublewords fits in 32 bits. -/
theorem clearsBss_iff (l : BssLayout) :
    ClearsBss l ↔ 8 ∣ l.length ∧ l.length < 2 ^ 35 := by
  rw [← l.cleared_eq_length_iff]
  constructor
  · intro h
    by_contra hne
    exact not_clearsBss (lt_of_le_of_ne l.cleared_le hne) h
  · intro hlength s
    obtain ⟨s', hends, hmem⟩ := ends_cleanBss l s
    refine ⟨s', hends, ?_, fun b hb => hends.frame hb⟩
    intro b hb
    rw [l.mem_bss_iff] at hb
    rw [hmem, zeroFrom, if_pos (by omega)]

/-- A section of three 32-bit variables. -/
def threeWords : BssLayout where
  bssStart := 0xFFFF000000094000
  bssEnd := 0xFFFF00000009400C
  aligned := by decide
  le := by decide

/-- The last of them is left as it was. -/
theorem not_clearsBss_threeWords : ¬ ClearsBss threeWords := not_clearsBss (by decide)

end TeachingOs.Arch
