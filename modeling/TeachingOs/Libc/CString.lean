import Mathlib.Data.List.Basic
import TeachingOs.Lib.ByteMem

/-!
# TeachingOs.Libc.CString

The functions on NUL-terminated strings of `lib/libc/string.c`.

`strlen` counts up to the NUL.  The loop of `strchr` has no step that
advances `s`: it compares the first character with `c` over and over, so
that the call finds what it is for only in an empty string and in one that
starts with `c` (`strchr_findsFirst_iff`).
-/

namespace TeachingOs.Libc

open ByteMem

variable {m : Mem} {s : Addr} {str : List (BitVec 8)} {c : BitVec 8} {n : Nat}

/-! ## Strings in memory -/

/-- The characters `str` and a NUL are stored from `s` on. -/
structure IsString (m : Mem) (s : Addr) (str : List (BitVec 8)) : Prop where
  chars : ∀ i c, str[i]? = some c → m (s + .ofNat 64 i) = c
  nul_notMem : 0 ∉ str
  nul : m (s + .ofNat 64 str.length) = 0

theorem IsString.head (h : IsString m s (c :: str)) : m s = c := by
  simpa using h.chars 0 c rfl

theorem IsString.of_nil (h : IsString m s []) : m s = 0 := by
  simpa using h.nul

/-- The rest of a string starts one byte further on. -/
theorem IsString.tail (h : IsString m s (c :: str)) : IsString m (s + 1) str := by
  have hadd : ∀ i, s + 1 + .ofNat 64 i = s + .ofNat 64 (i + 1) := by
    intro i
    bv_omega
  refine ⟨fun i d hd => ?_, fun hmem => h.nul_notMem (List.mem_cons_of_mem c hmem), ?_⟩
  · rw [hadd]
    exact h.chars (i + 1) d hd
  · rw [hadd]
    exact h.nul

/-! ## `strlen` -/

/-- `n` rounds of the loop of `strlen`, from `len` on; `none` when they do
not get to the NUL. -/
def strlen (m : Mem) (string : Addr) : Nat → BitVec 64 → Option (BitVec 64)
  | 0, _ => none
  | n + 1, len => if m (string + len) ≠ 0 then strlen m string n (len + 1) else some len

/-- **`strlen` counts the characters**. -/
theorem strlen_eq (h : IsString m s str) :
    strlen m s (str.length + 1) 0 = some (.ofNat 64 str.length) := by
  suffices hgen : ∀ l (len : BitVec 64), IsString m (s + len) l →
      strlen m s (l.length + 1) len = some (len + .ofNat 64 l.length) by
    simpa using hgen str 0 (by simpa using h)
  intro l
  induction l with
  | nil =>
      intro len hl
      simp [strlen, hl.of_nil]
  | cons c l ih =>
      intro len hl
      have hc : m (s + len) ≠ 0 := by
        rw [hl.head]
        rintro rfl
        exact hl.nul_notMem List.mem_cons_self
      have htail : IsString m (s + (len + 1)) l := by
        rw [← BitVec.add_assoc]
        exact hl.tail
      rw [strlen, if_pos hc, List.length_cons, ih (len + 1) htail, Option.some_inj]
      bv_omega

/-! ## `strchr` -/

/-- `n` rounds of the loop of `strchr`, with the pointer that it returns;
`none` when the loop goes on.  A `char` has no sign on AArch64. -/
def strchr (m : Mem) (c : BitVec 32) : Nat → Addr → Option Addr
  | 0, _ => none
  | n + 1, s =>
    if m s ≠ 0 then
      if (m s).setWidth 32 = c then some s
      -- the body ends here, with `s` where it was
      else strchr m c n s
    else some 0

/-- The address of the first `c` in the string at `s`, or NULL. -/
def firstOccurrence (s : Addr) (str : List (BitVec 8)) (c : BitVec 8) : Addr :=
  ((str.findIdx? (· == c)).map fun i => s + .ofNat 64 i).getD 0

/-- `strchr(s, c)` terminates with the first occurrence of `c`. -/
def FindsFirst (m : Mem) (s : Addr) (str : List (BitVec 8)) (c : BitVec 8) : Prop :=
  ∃ n, strchr m (c.setWidth 32) n s = some (firstOccurrence s str c)

theorem firstOccurrence_head : firstOccurrence s (c :: str) c = s := by
  simp [firstOccurrence, List.findIdx?_cons]

/-- A loop that neither stops at the first character nor advances. -/
theorem strchr_eq_none {c : BitVec 32} (hnul : m s ≠ 0) (hc : (m s).setWidth 32 ≠ c) (n : Nat) :
    strchr m c n s = none := by
  induction n with
  | zero => rfl
  | succ n ih => rw [strchr, if_pos hnul, if_neg hc, ih]

/-- **Exactly when `strchr` does its job**: the string is empty, or starts
with the character. -/
theorem strchr_findsFirst_iff (h : IsString m s str) (c : BitVec 8) :
    FindsFirst m s str c ↔ str = [] ∨ str.head? = some c := by
  cases str with
  | nil =>
      have hret : strchr m (c.setWidth 32) 1 s = some 0 := by simp [strchr, h.of_nil]
      exact iff_of_true ⟨1, hret⟩ (Or.inl rfl)
  | cons d str =>
      have hd := h.head
      have hnul : m s ≠ 0 := by
        rw [hd]
        rintro rfl
        exact h.nul_notMem List.mem_cons_self
      by_cases hdc : d = c
      · subst hdc
        have hret : strchr m (d.setWidth 32) 1 s = some s := by
          rw [strchr, if_pos hnul, if_pos (by rw [hd])]
        exact iff_of_true ⟨1, by rw [hret, firstOccurrence_head]⟩ (Or.inr rfl)
      · have hne : (m s).setWidth 32 ≠ c.setWidth 32 := by
          rw [hd]
          bv_omega
        simp [FindsFirst, strchr_eq_none hnul hne, hdc]

/-- The memory of the string `"ab"` at `0x10`. -/
def abMem : Mem := fun a => if a = 0x10 then 97 else if a = 0x11 then 98 else 0

theorem isString_ab : IsString abMem 0x10 [97, 98] := by
  refine ⟨fun i c hc => ?_, by decide, rfl⟩
  rcases i with _ | _ | i
  · cases hc
    rfl
  · cases hc
    rfl
  · simp at hc

/-- Looking for the first character of `"ab"`. -/
theorem strchr_findsFirst_ab : FindsFirst abMem 0x10 [97, 98] 97 :=
  (strchr_findsFirst_iff isString_ab 97).mpr (Or.inr rfl)

/-- Looking for the second character of `"ab"` never ends. -/
theorem strchr_second_char : ¬ ∀ (m : Mem) (s : Addr) (str : List (BitVec 8)) (c : BitVec 8),
    IsString m s str → c ≠ 0 → FindsFirst m s str c := by
  intro h
  obtain ⟨n, hn⟩ := h abMem 0x10 [97, 98] 98 isString_ab (by decide)
  rw [strchr_eq_none (by decide) (by decide)] at hn
  cases hn

end TeachingOs.Libc
