import TeachingOs.Lib.ByteMem

/-!
# TeachingOs.Libc.String

The memory functions of `lib/libc/string.c`, as their byte loops over the
byte memory of `Lib.ByteMem`.  Both directions of `memmove` are one function
of the original memory (`moved`).
-/

namespace TeachingOs.Libc

open ByteMem

variable {m : Mem} {s a dest src : Addr} {c : BitVec 8} {n : Nat}

/-! ## `memset` -/

/-- `memset(s, c, n)` after the rounds `0 … n - 1` of its loop. -/
def memset (s : Addr) (c : BitVec 8) : Nat → Mem → Mem
  | 0, m => m
  | n + 1, m => Function.update (memset s c n m) (s + .ofNat 64 n) c

/-- The byte that round `n` writes, seen from the start of the block. -/
theorem eq_add_ofNat_iff (hn : n < 2 ^ 64) : a = s + .ofNat 64 n ↔ (a - s).toNat = n := by
  constructor
  · intro h
    subst h
    bv_omega
  · intro h
    bv_omega

/-- **The loop fills the block**, and nothing else. -/
theorem memset_apply (hn : n ≤ 2 ^ 64) :
    memset s c n m a = if (a - s).toNat < n then c else m a := by
  induction n with
  | zero => rfl
  | succ n ih =>
      rw [memset, Function.update_apply, ih (by omega)]
      have hlast := eq_add_ofNat_iff (a := a) (s := s) (n := n) (by omega)
      by_cases ha : (a - s).toNat = n
      · rw [if_pos (hlast.mpr ha), if_pos (by omega)]
      · rw [if_neg fun h => ha (hlast.mp h)]
        by_cases hlt : (a - s).toNat < n
        · rw [if_pos hlt, if_pos (by omega)]
        · rw [if_neg hlt, if_neg (by omega)]

theorem memset_of_mem (hn : n ≤ 2 ^ 64) (ha : a ∈ bytes s n) : memset s c n m a = c := by
  rw [memset_apply hn, if_pos (mem_bytes.mp ha)]

/-- **Frame**: `memset` changes nothing outside its block. -/
theorem memset_of_notMem (hn : n ≤ 2 ^ 64) (ha : a ∉ bytes s n) : memset s c n m a = m a := by
  rw [memset_apply hn, if_neg fun h => ha (mem_bytes.mpr h)]

/-! ## `memcpy` -/

/-- `memcpy(dest, src, n)` after the rounds `0 … n - 1` of its loop.  The
source is `restrict`, so that it is given by its bytes. -/
def memcpy (dest : Addr) (src : Nat → BitVec 8) : Nat → Mem → Mem
  | 0, m => m
  | n + 1, m => Function.update (memcpy dest src n m) (dest + .ofNat 64 n) (src n)

theorem memcpy_apply {src : Nat → BitVec 8} (hn : n ≤ 2 ^ 64) :
    memcpy dest src n m a = if (a - dest).toNat < n then src (a - dest).toNat else m a := by
  induction n with
  | zero => rfl
  | succ n ih =>
      rw [memcpy, Function.update_apply, ih (by omega)]
      have hlast := eq_add_ofNat_iff (a := a) (s := dest) (n := n) (by omega)
      by_cases ha : (a - dest).toNat = n
      · rw [if_pos (hlast.mpr ha), if_pos (by omega), ha]
      · rw [if_neg fun h => ha (hlast.mp h)]
        by_cases hlt : (a - dest).toNat < n
        · rw [if_pos hlt, if_pos (by omega)]
        · rw [if_neg hlt, if_neg (by omega)]

/-- A copy of a doubleword is a store. -/
theorem memcpy_doubleword (dest : Addr) (v : BitVec 64) (m : Mem) :
    memcpy dest (fun i => v.extractLsb' (8 * i) 8) 8 m = store64 m dest v :=
  funext fun _ => memcpy_apply (by decide)

/-! ## `memmove` -/

/-- The rounds `0 … n - 1` of the loop that copies forward. -/
def copyForward (dest src : Addr) : Nat → Mem → Mem
  | 0, m => m
  | n + 1, m =>
      let m := copyForward dest src n m
      Function.update m (dest + .ofNat 64 n) (m (src + .ofNat 64 n))

/-- The rounds `n - 1 … 0` of the loop that copies backwards. -/
def copyBackward (dest src : Addr) : Nat → Mem → Mem
  | 0, m => m
  | n + 1, m =>
      copyBackward dest src n
        (Function.update m (dest + .ofNat 64 n) (m (src + .ofNat 64 n)))

/-- `memmove`, with the pointer it returns. -/
def memmove (dest src : Addr) (nbytes : BitVec 64) (m : Mem) : Addr × Mem :=
  (dest, if src < dest then copyBackward dest src nbytes.toNat m
    else copyForward dest src nbytes.toNat m)

/-- The bytes of `m` from `src` on, moved to `dest`. -/
def moved (dest src : Addr) (n : Nat) (m : Mem) : Mem := fun a =>
  if (a - dest).toNat < n then m (src + (a - dest)) else m a

/-- A round that adds the byte `n` to the bytes below it. -/
theorem update_moved (hn : n < 2 ^ 64) :
    Function.update (moved dest src n m) (dest + .ofNat 64 n) (m (src + .ofNat 64 n)) =
      moved dest src (n + 1) m := by
  funext a
  have hlast := eq_add_ofNat_iff (a := a) (s := dest) hn
  rw [Function.update_apply, moved, moved]
  by_cases ha : (a - dest).toNat = n
  · have hoff : a - dest = .ofNat 64 n := by bv_omega
    rw [if_pos (hlast.mpr ha), if_pos (by omega), hoff]
  · rw [if_neg fun h => ha (hlast.mp h)]
    by_cases hlt : (a - dest).toNat < n
    · rw [if_pos hlt, if_pos (by omega)]
    · rw [if_neg hlt, if_neg (by omega)]

/-- **Forward**, the bytes from round `n` on are still original: none of them
is below `dest + n`. -/
theorem copyForward_eq (h : dest ≤ src) (hsrc : src.toNat + n ≤ 2 ^ 64) :
    copyForward dest src n m = moved dest src n m := by
  induction n with
  | zero => rfl
  | succ n ih =>
      have hunread : moved dest src n m (src + .ofNat 64 n) = m (src + .ofNat 64 n) := by
        refine if_neg ?_
        bv_omega
      rw [copyForward, ih (by omega)]
      simp only [hunread]
      exact update_moved (by omega)

/-- **Backwards**, the bytes before round `n` are still original: all of them
are below `dest + n`. -/
theorem copyBackward_eq (h : src < dest) (hdest : dest.toNat + n ≤ 2 ^ 64) :
    copyBackward dest src n m = moved dest src n m := by
  induction n generalizing m with
  | zero => rfl
  | succ n ih =>
      rw [copyBackward, ih (by omega), ← update_moved (by omega)]
      funext a
      rw [Function.update_apply, moved, moved, Function.update_apply, Function.update_apply]
      have hlast := eq_add_ofNat_iff (a := a) (s := dest) (n := n) (by omega)
      by_cases hlt : (a - dest).toNat < n
      · have hunread : src + (a - dest) ≠ dest + .ofNat 64 n := by bv_omega
        rw [if_pos hlt, if_neg hunread, if_neg fun h => by have := hlast.mp h; omega, if_pos hlt]
      · rw [if_neg hlt, if_neg hlt]

theorem memmove_snd {nbytes : BitVec 64} (hdest : dest.toNat + nbytes.toNat ≤ 2 ^ 64)
    (hsrc : src.toNat + nbytes.toNat ≤ 2 ^ 64) :
    (memmove dest src nbytes m).2 = moved dest src nbytes.toNat m := by
  rw [memmove]
  split
  · next h => exact copyBackward_eq h hdest
  · next h => exact copyForward_eq (BitVec.not_lt.mp h) hsrc

/-- **`memmove` moves**: however the ranges overlap, the destination holds
what the source held, and nothing else changes. -/
theorem memmove_moves (m : Mem) (dest src : Addr) (nbytes : BitVec 64)
    (hdest : dest.toNat + nbytes.toNat ≤ 2 ^ 64) (hsrc : src.toNat + nbytes.toNat ≤ 2 ^ 64) :
    (memmove dest src nbytes m).1 = dest ∧
      (∀ i < nbytes.toNat, (memmove dest src nbytes m).2 (dest + .ofNat 64 i) =
        m (src + .ofNat 64 i)) ∧
      ∀ a ∉ bytes dest nbytes.toNat, (memmove dest src nbytes m).2 a = m a := by
  rw [memmove_snd hdest hsrc]
  refine ⟨rfl, fun i hi => ?_, fun a ha => if_neg ha⟩
  have hoff : dest + .ofNat 64 i - dest = .ofNat 64 i := by bv_omega
  have hlt : (BitVec.ofNat 64 i).toNat < nbytes.toNat := by bv_omega
  rw [moved, hoff, if_pos hlt]

/-- A move up by one byte, over three bytes that hold their own addresses. -/
theorem memmove_moves_up : (memmove 0x11 0x10 3 fun a => a.truncate 8).1 = 0x11 ∧
    (∀ i < 3, (memmove 0x11 0x10 3 fun a => a.truncate 8).2 (0x11 + .ofNat 64 i) =
      (0x10 + BitVec.ofNat 64 i).truncate 8) ∧
    ∀ a ∉ bytes 0x11 3, (memmove 0x11 0x10 3 fun a => a.truncate 8).2 a = a.truncate 8 :=
  memmove_moves (fun a => a.truncate 8) 0x11 0x10 3 (by decide) (by decide)

end TeachingOs.Libc
