import Mathlib.Data.Nat.Digits.Lemmas
import TeachingOs.Printf.Typed

/-!
# TeachingOs.Printf.Digits

The digits of `printf_do_uint`.  Its loop writes them backwards into a buffer
of `INT_BUF_SIZE` bytes: `DigitBuf` is that loop over memory that nothing
protects, `digitLoop` of `Printf.Runner` is what it leaves in the buffer, and
`digitsText` is what the digits are.
-/

namespace TeachingOs.Printf

/-! ## Numerals -/

/-- `numerals[d]`. -/
def numeral (d : Nat) : Char := numerals.getD d '0'

/-- The digits of a number, without a leading zero: none for 0. -/
def digitsText (base value : Nat) : List Char := ((Nat.digits base value).map numeral).reverse

/-- The number that digits denote. -/
def readDigits (base : Nat) (text : List Char) : Nat :=
  text.foldl (fun value c => base * value + numerals.idxOf c) 0

/-- The numeral of `value` as it is written by hand. -/
structure Canonical (base value : Nat) (text : List Char) : Prop where
  digits : ∀ c ∈ text, c ∈ numerals.take base
  value : readDigits base text = value
  nonempty : text ≠ []
  leading : text.head? = some '0' → text = ['0']

variable {base value : Nat} {c : Char}

/-- The bases of the conversions. -/
def IsBase (base : Nat) : Prop := base = 10 ∨ base = 16

theorem IsBase.one_lt (h : IsBase base) : 1 < base := by
  rcases h with rfl | rfl <;> decide

theorem IsBase.le (h : IsBase base) : base ≤ 16 := by
  rcases h with rfl | rfl <;> decide

/-- `INT_BUF_SIZE` has room for every value of every base in use. -/
theorem IsBase.lt_pow (h : IsBase base) (value : Word) :
    value.toNat < base ^ (intBufSize - 1) := by
  have hvalue := value.isLt
  rcases h with rfl | rfl <;> refine Nat.lt_trans hvalue ?_ <;> decide

theorem isBase_ten : IsBase 10 := Or.inl rfl

theorem isBase_sixteen : IsBase 16 := Or.inr rfl

theorem getElem_numerals {d : Nat} (hd : d < numerals.length) : numerals[d] = numeral d := by
  rw [numeral, List.getD_eq_getElem?_getD, List.getElem?_eq_getElem hd]
  rfl

theorem idxOf_numeral {d : Nat} (hd : d < 16) : numerals.idxOf (numeral d) = d := by
  revert d
  decide

theorem numeral_mem_take {d : Nat} (hd : d < base) (hle : base ≤ 16) :
    numeral d ∈ numerals.take base := by
  have hlength : d < numerals.length := Nat.lt_of_lt_of_le hd hle
  rw [← getElem_numerals hlength]
  exact List.mem_take_iff_getElem.mpr ⟨d, by simp; omega, rfl⟩

theorem numeral_eq_zero {d : Nat} (hd : d < 16) (h : numeral d = '0') : d = 0 := by
  revert d
  decide

theorem digitsText_zero : digitsText base 0 = [] := by
  rw [digitsText, Nat.digits_zero]
  rfl

theorem digitsText_of_pos (hbase : 1 < base) (hvalue : 0 < value) :
    digitsText base value = digitsText base (value / base) ++ [numeral (value % base)] := by
  rw [digitsText, Nat.digits_def' hbase hvalue, List.map_cons, List.reverse_cons]
  rfl

theorem length_digitsText : (digitsText base value).length = (Nat.digits base value).length := by
  rw [digitsText, List.length_reverse, List.length_map]

theorem digitsText_eq_nil (h : digitsText base value = []) : value = 0 := by
  have hlength : (Nat.digits base value).length = 0 := by
    rw [← length_digitsText, h]
    rfl
  exact Nat.digits_eq_nil_iff_eq_zero.mp (List.length_eq_zero_iff.mp hlength)

theorem readDigits_append_singleton (text : List Char) (c : Char) :
    readDigits base (text ++ [c]) = base * readDigits base text + numerals.idxOf c := by
  rw [readDigits, List.foldl_append]
  rfl

/-- **The digits denote the number**. -/
theorem readDigits_digitsText (h : IsBase base) (value : Nat) :
    readDigits base (digitsText base value) = value := by
  have hbase := h.one_lt
  have hle := h.le
  induction value using Nat.strongRecOn with
  | ind value ih =>
      rcases Nat.eq_zero_or_pos value with rfl | hpos
      · rw [digitsText_zero]
        rfl
      · have hdigit : value % base < base := Nat.mod_lt _ (by omega)
        rw [digitsText_of_pos hbase hpos, readDigits_append_singleton,
          ih _ (Nat.div_lt_self hpos hbase), idxOf_numeral (by omega)]
        exact Nat.div_add_mod value base

theorem mem_take_of_mem_digitsText (h : IsBase base) (hc : c ∈ digitsText base value) :
    c ∈ numerals.take base := by
  rw [digitsText, List.mem_reverse, List.mem_map] at hc
  obtain ⟨d, hd, rfl⟩ := hc
  exact numeral_mem_take (Nat.digits_lt_base h.one_lt hd) h.le

/-- The first digit is not a zero. -/
theorem head_digitsText (h : IsBase base) (value : Nat) :
    (digitsText base value).head? ≠ some '0' := by
  rw [digitsText, List.head?_reverse, List.getLast?_map]
  intro hzero
  obtain ⟨d, hlast, hd⟩ := Option.map_eq_some_iff.mp hzero
  have hlt : d < base := Nat.digits_lt_base h.one_lt (List.mem_of_getLast? hlast)
  have hle := h.le
  have hne : Nat.digits base value ≠ [] := fun hnil => by
    rw [hnil] at hlast
    cases hlast
  rw [List.getLast?_eq_some_getLast hne, Option.some_inj] at hlast
  exact Nat.getLast_digit_ne_zero base (Nat.digits_ne_nil_iff_ne_zero.mp hne)
    (hlast.trans (numeral_eq_zero (by omega) hd))

/-- The numeral with the zero that the default precision adds. -/
def numeralText (base value : Nat) : List Char :=
  List.replicate (1 - (digitsText base value).length) '0' ++ digitsText base value

theorem numeralText_zero : numeralText base 0 = ['0'] := by
  rw [numeralText, digitsText_zero]
  rfl

theorem numeralText_of_pos (hvalue : 0 < value) :
    numeralText base value = digitsText base value := by
  have hlength : (digitsText base value).length ≠ 0 := fun h => by
    have := digitsText_eq_nil (List.length_eq_zero_iff.mp h)
    omega
  rw [numeralText, show 1 - (digitsText base value).length = 0 by omega]
  rfl

/-- **The default precision makes the digits a numeral**. -/
theorem canonical_numeralText (h : IsBase base) (value : Nat) :
    Canonical base value (numeralText base value) := by
  rcases Nat.eq_zero_or_pos value with rfl | hpos
  · rw [numeralText_zero]
    refine ⟨fun c hc => ?_, rfl, List.cons_ne_nil _ _, fun _ => rfl⟩
    rw [List.mem_singleton.mp hc]
    exact numeral_mem_take (d := 0) (Nat.lt_of_succ_lt h.one_lt) h.le
  · rw [numeralText_of_pos hpos]
    refine ⟨fun c hc => mem_take_of_mem_digitsText h hc, readDigits_digitsText h value,
      fun hnil => ?_, fun hhead => absurd hhead (head_digitsText h value)⟩
    have := digitsText_eq_nil hnil
    omega

/-! ## The loop -/

/-- Room for the value is enough for the loop, which adds its digits. -/
theorem digitLoop_eq (hbase : IsBase base) {room : Nat} (h : value < base ^ room)
    (text : List Char) : digitLoop base room value text = some (digitsText base value ++ text) := by
  induction room generalizing value text with
  | zero =>
      obtain rfl : value = 0 := by simpa using h
      rw [digitLoop, digitsText_zero]
      rfl
  | succ room ih =>
      cases value with
      | zero =>
          rw [digitLoop, digitsText_zero]
          rfl
      | succ value =>
          have hpos := Nat.lt_of_succ_lt hbase.one_lt
          have hdigit : (value + 1) % base < numerals.length :=
            Nat.lt_of_lt_of_le (Nat.mod_lt _ hpos) hbase.le
          have hdiv : (value + 1) / base < base ^ room := by
            rw [Nat.div_lt_iff_lt_mul hpos]
            exact h
          rw [digitLoop, List.getElem?_eq_getElem hdigit,
            digitsText_of_pos hbase.one_lt (Nat.succ_pos _)]
          · exact (ih hdiv _).trans (by rw [getElem_numerals, List.append_assoc]; rfl)
          · exact Nat.succ_ne_zero _

/-! ## The buffer -/

/-- The locals of `printf_do_uint`: the memory around `buf`, whose first
element has the index 0, the pointer `at`, the value that is left, and the
elements written. -/
structure DigitBuf where
  buf : Int → Char
  at' : Int
  value : Nat
  writes : List Int

/-- The locals before the loop, in memory that holds anything. -/
def digitBuf (mem : Int → Char) (value : Word) : DigitBuf where
  buf i := if 0 ≤ i ∧ i < intBufSize then '\x00' else mem i
  at' := intBufSize - 1
  value := value.toNat
  writes := []

/-- A round of the loop. -/
def DigitBuf.round (base : Nat) (s : DigitBuf) : DigitBuf where
  buf := Function.update s.buf (s.at' - 1) (numeral (s.value % base))
  at' := s.at' - 1
  value := s.value / base
  writes := s.writes ++ [s.at' - 1]

@[simp] theorem DigitBuf.round_buf (base : Nat) (s : DigitBuf) : (s.round base).buf =
    Function.update s.buf (s.at' - 1) (numeral (s.value % base)) := rfl

@[simp] theorem DigitBuf.round_at' (base : Nat) (s : DigitBuf) :
    (s.round base).at' = s.at' - 1 := rfl

@[simp] theorem DigitBuf.round_writes (base : Nat) (s : DigitBuf) :
    (s.round base).writes = s.writes ++ [s.at' - 1] := rfl

/-- The loop, or `none` where it has not ended after `fuel` rounds. -/
def DigitBuf.loop (base : Nat) : Nat → DigitBuf → Option DigitBuf
  | 0, s => if s.value = 0 then some s else none
  | fuel + 1, s => if s.value = 0 then some s else DigitBuf.loop base fuel (s.round base)

/-- `strlen`, or `none` where it has not met a NUL after `fuel` characters. -/
def strlen : Nat → (Nat → Char) → Option Nat
  | 0, _ => none
  | fuel + 1, s => if s 0 = '\x00' then some 0 else (strlen fuel fun i => s (i + 1)).map (· + 1)

/-- The string that `printf_do_print` finds at a pointer. -/
def stringAt (fuel : Nat) (s : Nat → Char) : Option (List Char) :=
  (strlen fuel s).map fun n => (List.range n).map s

/-- The buffer holds `text` from the pointer to the terminator, and nothing
outside of it has been written. -/
structure DigitBuf.Holds (s : DigitBuf) (room : Nat) (text : List Char) : Prop where
  at' : s.at' = room
  length : room + text.length = intBufSize - 1
  text : ∀ k (h : k < text.length), s.buf (room + k) = text[k]
  nul : s.buf (intBufSize - 1) = '\x00'
  inside : ∀ i ∈ s.writes, 0 ≤ i ∧ i < intBufSize - 1

theorem holds_digitBuf (mem : Int → Char) (value : Word) :
    (digitBuf mem value).Holds (intBufSize - 1) [] where
  at' := rfl
  length := rfl
  text _ h := absurd h (Nat.not_lt_zero _)
  nul := rfl
  inside _ hi := absurd hi List.not_mem_nil

variable {s : DigitBuf} {room : Nat} {text : List Char}

/-- A round puts a digit before the text. -/
theorem DigitBuf.Holds.round (h : s.Holds (room + 1) text) :
    (s.round base).Holds room (numeral (s.value % base) :: text) := by
  have hat : s.at' - 1 = (room : Int) := by
    rw [h.at']
    omega
  have hlength := h.length
  have hsize : intBufSize = 21 := rfl
  refine ⟨hat, by rw [List.length_cons]; omega, fun k hk => ?_, ?_, fun i hi => ?_⟩
  · rw [DigitBuf.round_buf, hat]
    cases k with
    | zero => exact Function.update_self ..
    | succ k =>
        have hne : (room : Int) + (k + 1 : Nat) ≠ room := by omega
        have htext := h.text k (Nat.lt_of_succ_lt_succ hk)
        rw [Function.update_of_ne hne, List.getElem_cons_succ, ← htext]
        congr 1
        omega
  · have hne : (intBufSize : Int) - 1 ≠ room := by omega
    rw [DigitBuf.round_buf, hat, Function.update_of_ne hne]
    exact h.nul
  · rw [DigitBuf.round_writes, hat, List.mem_append, List.mem_singleton] at hi
    rcases hi with hi | rfl
    · exact h.inside i hi
    · omega

/-- **The loop stays in the buffer**, in as many rounds as there is room. -/
theorem DigitBuf.Holds.loop (hbase : 1 < base) (h : s.Holds room text)
    (hvalue : s.value < base ^ room) {fuel : Nat} (hfuel : room ≤ fuel) :
    ∃ s' room', DigitBuf.loop base fuel s = some s' ∧
      s'.Holds room' (digitsText base s.value ++ text) := by
  induction room generalizing s text fuel with
  | zero =>
      have hzero : s.value = 0 := by simpa using hvalue
      refine ⟨s, 0, ?_, ?_⟩
      · cases fuel <;> exact if_pos hzero
      · rw [hzero, digitsText_zero]
        exact h
  | succ room ih =>
      obtain ⟨fuel, rfl⟩ := Nat.exists_eq_succ_of_ne_zero (Nat.ne_zero_of_lt hfuel)
      by_cases hzero : s.value = 0
      · refine ⟨s, room + 1, if_pos hzero, ?_⟩
        rw [hzero, digitsText_zero]
        exact h
      · have hdiv : (s.round base).value < base ^ room := by
          rw [DigitBuf.round, Nat.div_lt_iff_lt_mul (by omega)]
          exact hvalue
        obtain ⟨s', room', hloop, hholds⟩ := ih h.round hdiv (Nat.le_of_succ_le_succ hfuel)
        refine ⟨s', room', (if_neg hzero).trans hloop, ?_⟩
        rw [digitsText_of_pos hbase (Nat.pos_of_ne_zero hzero), List.append_assoc]
        exact hholds

theorem strlen_eq {n fuel : Nat} {s : Nat → Char} (hend : s n = '\x00')
    (hfree : ∀ i < n, s i ≠ '\x00') (hfuel : n < fuel) : strlen fuel s = some n := by
  induction n generalizing fuel s with
  | zero =>
      obtain ⟨fuel, rfl⟩ := Nat.exists_eq_succ_of_ne_zero (Nat.pos_iff_ne_zero.mp hfuel)
      rw [strlen, if_pos hend]
  | succ n ih =>
      obtain ⟨fuel, rfl⟩ := Nat.exists_eq_succ_of_ne_zero (Nat.ne_zero_of_lt hfuel)
      have hrest : strlen fuel (fun i => s (i + 1)) = some n :=
        ih hend (fun i hi => hfree (i + 1) (Nat.succ_lt_succ hi)) (Nat.lt_of_succ_lt_succ hfuel)
      rw [strlen, if_neg (hfree 0 (Nat.succ_pos n)), hrest, Option.map_some]

/-- The string at the pointer is the text. -/
theorem DigitBuf.Holds.stringAt (h : s.Holds room text) (hfree : '\x00' ∉ text) {fuel : Nat}
    (hfuel : intBufSize ≤ fuel) : stringAt fuel (fun k => s.buf (s.at' + k)) = some text := by
  have hlength := h.length
  have hsize : intBufSize = 21 := rfl
  have hchar : ∀ k (hk : k < text.length), s.buf (s.at' + k) = text[k] := by
    intro k hk
    rw [h.at']
    exact h.text k hk
  have hend : s.buf (s.at' + text.length) = '\x00' := by
    rw [h.at', ← h.nul]
    congr 1
    omega
  have hstrlen : strlen fuel (fun k => s.buf (s.at' + k)) = some text.length := by
    refine strlen_eq hend (fun k hk hnul => hfree ?_) (by omega)
    rw [← hnul, hchar k hk]
    exact List.getElem_mem hk
  rw [Printf.stringAt, hstrlen, Option.map_some]
  refine congrArg some (List.ext_getElem (by simp) fun k hk hk' => ?_)
  rw [List.getElem_map, List.getElem_range]
  exact hchar k hk'

theorem nul_notMem_digitsText (h : IsBase base) (value : Nat) :
    '\x00' ∉ digitsText base value := by
  intro hnul
  have hnumeral := List.mem_of_mem_take (mem_take_of_mem_digitsText h hnul)
  revert hnumeral
  decide

/-- **The digits fit.**  For every value and base in use the pointer stays in
the buffer, the terminator is not overwritten, and the string at the pointer
is the text that `printf_do_print` receives. -/
theorem digitBuf_spec (mem : Int → Char) (h : IsBase base) (value : Word) {fuel : Nat}
    (hfuel : intBufSize ≤ fuel) :
    ∃ s, DigitBuf.loop base fuel (digitBuf mem value) = some s ∧
      (∀ i ∈ s.writes, 0 ≤ i ∧ i < intBufSize - 1) ∧ 0 ≤ s.at' ∧
      s.buf (intBufSize - 1) = '\x00' ∧
      stringAt fuel (fun k => s.buf (s.at' + k)) =
        digitLoop base (intBufSize - 1) value.toNat [] := by
  have hroom : intBufSize - 1 ≤ fuel := Nat.le_trans (Nat.sub_le _ _) hfuel
  obtain ⟨s, room, hloop, hholds⟩ :=
    (holds_digitBuf mem value).loop h.one_lt (h.lt_pow value) hroom
  have hvalue : (digitBuf mem value).value = value.toNat := rfl
  rw [hvalue, List.append_nil] at hholds
  refine ⟨s, hloop, hholds.inside, ?_, hholds.nul, ?_⟩
  · rw [hholds.at']
    omega
  · rw [digitLoop_eq h (h.lt_pow value), List.append_nil]
    exact hholds.stringAt (nul_notMem_digitsText h _) hfuel

end TeachingOs.Printf
