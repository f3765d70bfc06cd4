import Mathlib.Algebra.Order.Ring.Nat
import Mathlib.Logic.Function.Basic

/-!
# TeachingOs.Lib.BitField

Fields of one size, packed into words, and tables of such fields in a memory
of words.  A field is written by reading the word, clearing the field and
setting it, so that what has to be shown is what the write keeps.
-/

namespace TeachingOs.BitField

variable {w : Nat}

/-! ## A word -/

/-- The low `size` bits. -/
def mask (w size : Nat) : BitVec w := 1#w <<< size - 1#w

/-- Field `i`. -/
def get (size : Nat) (v : BitVec w) (i : Nat) : BitVec w := v >>> (i * size) &&& mask w size

/-- The word with `x` in field `i`. -/
def set (size : Nat) (v : BitVec w) (i : Nat) (x : BitVec w) : BitVec w :=
  v &&& ~~~(mask w size <<< (i * size)) ||| x <<< (i * size)

variable {size i j b : Nat} {v x : BitVec w}

theorem mask_eq_ofNat (w size : Nat) : mask w size = .ofNat w (2 ^ size - 1) := by
  rcases Nat.eq_zero_or_pos w with rfl | hw
  · exact Subsingleton.elim _ _
  · have hshift : 1#w <<< size = .ofNat w (2 ^ size) := by
      apply BitVec.eq_of_toNat_eq
      rw [BitVec.toNat_shiftLeft, BitVec.toNat_ofNat, BitVec.toNat_ofNat, Nat.shiftLeft_eq,
        Nat.mod_eq_of_lt (Nat.one_lt_two_pow hw.ne'), Nat.one_mul]
    rw [mask, hshift,
      BitVec.ofNat_sub_ofNat_of_le _ _ (Nat.one_lt_two_pow hw.ne') Nat.one_le_two_pow]

theorem getLsbD_mask : (mask w size).getLsbD b = (decide (b < w) && decide (b < size)) := by
  rw [mask_eq_ofNat, BitVec.getLsbD_ofNat, Nat.testBit_two_pow_sub_one]

/-- A value that fits has no bits above the field. -/
theorem getLsbD_of_le_mask (h : x ≤ mask w size) (hb : size ≤ b) : x.getLsbD b = false := by
  rw [BitVec.le_def, mask_eq_ofNat, BitVec.toNat_ofNat] at h
  have hlt : x.toNat < 2 ^ b := by
    calc x.toNat ≤ (2 ^ size - 1) % 2 ^ w := h
      _ ≤ 2 ^ size - 1 := Nat.mod_le _ _
      _ < 2 ^ size := Nat.sub_one_lt (Nat.two_pow_pos size).ne'
      _ ≤ 2 ^ b := Nat.pow_le_pow_right Nat.two_pos hb
  exact Nat.testBit_lt_two_pow hlt

theorem getLsbD_get (hb : b < w) :
    (get size v i).getLsbD b = (v.getLsbD (i * size + b) && decide (b < size)) := by
  rw [get, BitVec.getLsbD_and, BitVec.getLsbD_ushiftRight, getLsbD_mask, decide_eq_true hb,
    Bool.true_and]

/-- The bits of a written word. -/
theorem getLsbD_set (hx : x ≤ mask w size) (hb : b < w) :
    (set size v i x).getLsbD b =
      if i * size ≤ b ∧ b < i * size + size then x.getLsbD (b - i * size) else v.getLsbD b := by
  simp only [set, BitVec.getLsbD_or, BitVec.getLsbD_and, BitVec.getLsbD_not,
    BitVec.getLsbD_shiftLeft, getLsbD_mask, hb]
  by_cases hlow : i * size ≤ b
  · by_cases hhigh : b < i * size + size
    · have hsub : b - i * size < w ∧ b - i * size < size := by omega
      simp [hlow, hhigh, hsub, Nat.not_lt.mpr hlow]
    · have hsub : size ≤ b - i * size := by omega
      simp [hlow, hhigh, getLsbD_of_le_mask hx hsub, Nat.not_lt.mpr hsub]
  · simp [hlow, Nat.lt_of_not_le hlow]

theorem get_set_self (hx : x ≤ mask w size) (hi : i * size + size ≤ w) :
    get size (set size v i x) i = x := by
  apply BitVec.eq_of_getLsbD_eq
  intro b hb
  rw [getLsbD_get hb]
  by_cases hlt : b < size
  · rw [getLsbD_set hx (by omega)]
    simp [hlt]
  · rw [getLsbD_of_le_mask hx (Nat.le_of_not_lt hlt)]
    simp [hlt]

theorem get_set_of_ne (hx : x ≤ mask w size) (hj : j * size + size ≤ w) (hij : i ≠ j) :
    get size (set size v i x) j = get size v j := by
  apply BitVec.eq_of_getLsbD_eq
  intro b hb
  rw [getLsbD_get hb, getLsbD_get hb]
  by_cases hlt : b < size
  · -- one field ends before the other begins
    have hapart : ¬ (i * size ≤ j * size + b ∧ j * size + b < i * size + size) := by
      rcases Nat.lt_or_gt_of_ne hij with h | h
      · have := Nat.mul_le_mul_right size h
        rw [Nat.succ_mul] at this
        omega
      · have := Nat.mul_le_mul_right size h
        rw [Nat.succ_mul] at this
        omega
    rw [getLsbD_set hx (by omega), if_neg hapart]
  · simp [hlt]

/-! ## A table -/

/-- Fields `0` to `count - 1`, `perWord` in a word, from one word on to the
next. -/
structure Table (A : Type) (w : Nat) where
  word : Nat → A
  size : Nat
  perWord : Nat
  count : Nat
  pos : 0 < perWord
  fits : perWord * size ≤ w
  distinct : ∀ i < count, ∀ j < count, word (i / perWord) = word (j / perWord) →
    i / perWord = j / perWord

namespace Table

variable {A : Type} (t : Table A w)

/-- The address of the word with field `i`. -/
def addr (i : Nat) : A := t.word (i / t.perWord)

/-- Field `i` of the table. -/
def get (m : A → BitVec w) (i : Nat) : BitVec w :=
  BitField.get t.size (m (t.addr i)) (i % t.perWord)

/-- The bit is one of field `i`. -/
def Covers (i : Nat) (a : A) (b : Nat) : Prop :=
  a = t.addr i ∧ i % t.perWord * t.size ≤ b ∧ b < i % t.perWord * t.size + t.size

variable [DecidableEq A]

/-- The memory with `x` in field `i`. -/
def set (m : A → BitVec w) (i : Nat) (x : BitVec w) : A → BitVec w :=
  Function.update m (t.addr i) (BitField.set t.size (m (t.addr i)) (i % t.perWord) x)

variable {t} {m : A → BitVec w} {a : A}

omit [DecidableEq A] in
theorem fits_mod (t : Table A w) (i : Nat) : i % t.perWord * t.size + t.size ≤ w := by
  have hlt := Nat.mul_le_mul_right t.size (Nat.succ_le_of_lt (Nat.mod_lt i t.pos))
  rw [Nat.succ_mul] at hlt
  exact hlt.trans t.fits

theorem get_set_self (hx : x ≤ mask w t.size) : t.get (t.set m i x) i = x := by
  rw [get, set, Function.update_self, BitField.get_set_self hx (t.fits_mod i)]

theorem get_set_of_ne (hx : x ≤ mask w t.size) (hi : i < t.count) (hj : j < t.count) (hij : i ≠ j) :
    t.get (t.set m i x) j = t.get m j := by
  rw [get, get, set]
  by_cases haddr : t.addr j = t.addr i
  · -- one word, another place in it
    have hmod : i % t.perWord ≠ j % t.perWord := fun hmod => hij <| by
      rw [← Nat.div_add_mod i t.perWord, ← Nat.div_add_mod j t.perWord, hmod,
        t.distinct i hi j hj haddr.symm]
    rw [haddr, Function.update_self, BitField.get_set_of_ne hx (t.fits_mod j) hmod]
  · rw [Function.update_of_ne haddr]

/-- A write leaves every other bit alone. -/
theorem getLsbD_set_of_not_covers (hx : x ≤ mask w t.size) (hb : b < w) (h : ¬ t.Covers i a b) :
    (t.set m i x a).getLsbD b = (m a).getLsbD b := by
  rw [set]
  by_cases ha : a = t.addr i
  · subst ha
    rw [Function.update_self, BitField.getLsbD_set hx hb, if_neg fun hin => h ⟨rfl, hin⟩]
  · rw [Function.update_of_ne ha]

/-- A table does not see a write to a word that is not its own. -/
theorem get_update_of_ne (h : a ≠ t.addr i) (v : BitVec w) :
    t.get (Function.update m a v) i = t.get m i := by
  rw [get, get, Function.update_of_ne h.symm]

end Table

end TeachingOs.BitField
