import TeachingOs.Printf.Directive

/-!
# TeachingOs.Printf.Number

The numbers that `%d`, `%x` and `%p` print.  Without options they are
canonical numerals.  Zero padding comes before the sign and the prefix, where
it is part of the number only if there is neither; and `%x` prints signed
numbers, unlike `%p`.
-/

namespace TeachingOs.Printf

open Transducer

variable {r : PrintfRunner} {c : Char} {opts ds : List Char} {v : Word} {w : Nat}

/-! ## The integer conversions -/

/-- The sign of `printf_do_int`. -/
def signText (v : Word) : List Char := if v.toInt < 0 then ['-'] else []

/-- The prefix of `printf_do_uint`. -/
def PrintfRunner.basePrefix (r : PrintfRunner) : List Char :=
  if r.enableBasePrefix ∧ r.base = 16 then ['0', 'x'] else []

theorem printfDoUint_eq (hbase : IsBase r.base) (value : Word) (signPrefix : List Char) :
    printfDoUint r value signPrefix =
      some (printfDoPrint r signPrefix r.basePrefix (digitsText r.base value.toNat)) := by
  rw [printfDoUint, digitLoop_eq hbase (hbase.lt_pow value), List.append_nil]
  rfl

/-- The negation wraps for the minimum only, and is right as an unsigned number. -/
theorem toNat_neg_eq_natAbs (hv : v.toInt < 0) : (-v).toNat = v.toInt.natAbs := by
  have hlt := v.isLt
  rw [BitVec.toInt_eq_toNat_cond] at hv ⊢
  split at hv
  · omega
  · next hge =>
      rw [if_neg hge, BitVec.toNat_neg]
      omega

theorem toNat_eq_natAbs (hv : ¬ v.toInt < 0) : v.toNat = v.toInt.natAbs := by
  rw [BitVec.toInt_eq_toNat_cond] at hv ⊢
  split at hv
  · next hlt => rw [if_pos hlt]; rfl
  · omega

theorem printfDoInt_eq (hbase : IsBase r.base) (v : Word) :
    printfDoInt r v =
      some (printfDoPrint r (signText v) r.basePrefix (digitsText r.base v.toInt.natAbs)) := by
  rw [printfDoInt, signText]
  split
  · next hneg => rw [printfDoUint_eq hbase, toNat_neg_eq_natAbs hneg]
  · next hpos => rw [printfDoUint_eq hbase, toNat_eq_natAbs hpos]

theorem length_digitsText_le {base : Nat} (hbase : IsBase base) {value : Nat} (h : value < 2 ^ 64) :
    (digitsText base value).length ≤ 20 := by
  rw [length_digitsText, Nat.digits_length_le_iff hbase.one_lt]
  exact hbase.lt_pow (BitVec.ofNatLT value h)

theorem length_numeralText {base value : Nat} :
    (numeralText base value).length = max 1 (Nat.digits base value).length := by
  rw [numeralText, List.length_append, List.length_replicate, length_digitsText]
  omega

/-- Digits with the default precision are a numeral. -/
theorem body_digitsText (hprec : r.precision = 1) (prefix1 prefix2 : List Char) (base value : Nat) :
    r.body prefix1 prefix2 (digitsText base value) =
      prefix1 ++ prefix2 ++ numeralText base value := by
  rw [PrintfRunner.body, hprec, numeralText, List.append_assoc (prefix1 ++ prefix2)]
  rfl

/-- The text behind left padding to the field width. -/
def PrintfRunner.padLeft (r : PrintfRunner) (text : List Char) : List Char :=
  List.replicate (r.fieldWidth.toNat - text.length) (if r.zeroPad then '0' else ' ') ++ text

/-- A number with the default precision, padded on the left. -/
theorem printfDoPrint_number (hright : r.rightPad = false) (hprec : r.precision = 1)
    {base value : Nat} (hbase : IsBase base) (hvalue : value < 2 ^ 64) (prefix1 prefix2 : List Char)
    (h1 : prefix1.length ≤ 1) (h2 : prefix2.length ≤ 2) :
    (printfDoPrint r prefix1 prefix2 (digitsText base value)).2 =
      r.padLeft (prefix1 ++ prefix2 ++ numeralText base value) := by
  have hbody := body_digitsText hprec prefix1 prefix2 base value
  have hfits : FieldFits r prefix1 prefix2 (digitsText base value) := by
    have hdigits := length_digitsText_le hbase hvalue
    have hone : (1 : Word).toNat = 1 := rfl
    rw [FieldFits, length_body, hprec, hone]
    omega
  rw [hfits.printfDoPrint_eq, if_neg (Bool.eq_false_iff.mp hright), PrintfRunner.field, hbody,
    if_neg (Bool.eq_false_iff.mp hright)]
  rfl

theorem length_signText_le (v : Word) : (signText v).length ≤ 1 := by
  rw [signText]
  split <;> decide

theorem length_basePrefix_le (r : PrintfRunner) : r.basePrefix.length ≤ 2 := by
  rw [PrintfRunner.basePrefix]
  split <;> decide

theorem natAbs_toInt_lt (v : Word) : v.toInt.natAbs < 2 ^ 64 := by
  have hlt := v.isLt
  rw [BitVec.toInt_eq_toNat_cond]
  split <;> omega

theorem printfDoInt_number (hbase : IsBase r.base) (hright : r.rightPad = false)
    (hprec : r.precision = 1) (v : Word) : ∃ r', printfDoInt r v =
      some (r', r.padLeft (signText v ++ r.basePrefix ++ numeralText r.base v.toInt.natAbs)) := by
  rw [printfDoInt_eq hbase, ← printfDoPrint_number hright hprec hbase (natAbs_toInt_lt v) _ _
    (length_signText_le v) (length_basePrefix_le r)]
  exact ⟨_, rfl⟩

theorem printfDoUint_number (hbase : IsBase r.base) (hright : r.rightPad = false)
    (hprec : r.precision = 1) (v : Word) : ∃ r', printfDoUint r v [] =
      some (r', r.padLeft (r.basePrefix ++ numeralText r.base v.toNat)) := by
  have hout := printfDoPrint_number hright hprec hbase v.isLt [] r.basePrefix (Nat.zero_le 1)
    (length_basePrefix_le r)
  rw [List.nil_append] at hout
  rw [printfDoUint_eq hbase, ← hout]
  exact ⟨_, rfl⟩

theorem convert_d (hva : r.va = [.word v]) :
    convert r 'd' = printfDoInt { r with va := [], base := 10 } v := by
  rw [convert, if_pos rfl, hva]
  rfl

theorem convert_x (hva : r.va = [.word v]) :
    convert r 'x' = printfDoInt { r with va := [], base := 16 } v := by
  rw [convert, if_neg (by decide), if_neg (by decide), if_pos rfl, hva]
  rfl

theorem convert_p (hva : r.va = [.word v]) (hv : v ≠ 0) : convert r 'p' =
    printfDoUint { r with va := [], enableBasePrefix := true, base := 16 } v [] := by
  rw [convert, if_neg (by decide), if_pos rfl, hva]
  exact if_neg hv

theorem behind_va (opts : List Char) (va : List Arg) : (behind opts va).va = va :=
  foldl_setOption_va opts _

theorem padLeft_of_zero (hwidth : r.fieldWidth = 0) (text : List Char) : r.padLeft text = text := by
  have hzero : r.fieldWidth.toNat - text.length = 0 := by
    rw [hwidth]
    exact Nat.zero_sub _
  rw [PrintfRunner.padLeft, hzero]
  rfl

theorem printed_d (garbage : Vector Char bufSize) (ho : ∀ c ∈ opts, isOption c = true)
    (hright : (behind opts [.word v]).rightPad = false)
    (hprec : (behind opts [.word v]).precision = 1) :
    printed garbage ('%' :: opts ++ ['d']) [.word v] =
      some ((behind opts [.word v]).padLeft (signText v ++ numeralText 10 v.toInt.natAbs)) := by
  obtain ⟨r', hint⟩ := printfDoInt_number (r := { behind opts [.word v] with va := [], base := 10 })
    isBase_ten hright hprec v
  have hnone : PrintfRunner.basePrefix { behind opts [.word v] with va := [], base := 10 } = [] :=
    if_neg fun h => absurd (show 10 = 16 from h.2) (by decide)
  rw [hnone, List.append_nil] at hint
  exact printed_directive garbage ho rfl ((convert_d (behind_va opts [.word v])).trans hint)

theorem printed_x (garbage : Vector Char bufSize) (ho : ∀ c ∈ opts, isOption c = true)
    (hright : (behind opts [.word v]).rightPad = false)
    (hprec : (behind opts [.word v]).precision = 1)
    (hflag : (behind opts [.word v]).enableBasePrefix = true) :
    printed garbage ('%' :: opts ++ ['x']) [.word v] = some ((behind opts [.word v]).padLeft
      (signText v ++ ['0', 'x'] ++ numeralText 16 v.toInt.natAbs)) := by
  obtain ⟨r', hint⟩ := printfDoInt_number (r := { behind opts [.word v] with va := [], base := 16 })
    isBase_sixteen hright hprec v
  have hsome : PrintfRunner.basePrefix { behind opts [.word v] with va := [], base := 16 } =
      ['0', 'x'] := if_pos ⟨hflag, rfl⟩
  rw [hsome] at hint
  exact printed_directive garbage ho rfl ((convert_x (behind_va opts [.word v])).trans hint)

theorem printed_p (garbage : Vector Char bufSize) (ho : ∀ c ∈ opts, isOption c = true)
    (hright : (behind opts [.word v]).rightPad = false)
    (hprec : (behind opts [.word v]).precision = 1) (hv : v ≠ 0) :
    printed garbage ('%' :: opts ++ ['p']) [.word v] =
      some ((behind opts [.word v]).padLeft (['0', 'x'] ++ numeralText 16 v.toNat)) := by
  obtain ⟨r', huint⟩ := printfDoUint_number
    (r := { behind opts [.word v] with va := [], enableBasePrefix := true, base := 16 })
    isBase_sixteen hright hprec v
  exact printed_directive garbage ho rfl ((convert_p (behind_va opts [.word v]) hv).trans huint)

/-! ## Numerals -/

theorem printed_plain_d (garbage : Vector Char bufSize) (v : Word) :
    printed garbage ['%', 'd'] [.word v] = some (signText v ++ numeralText 10 v.toInt.natAbs) := by
  have hd := printed_d (v := v) garbage no_options rfl rfl
  rwa [padLeft_of_zero rfl] at hd

/-- **`%d` and `%p` print canonical numerals**: of the absolute value behind
the sign, the minimum included, and of the unsigned value behind `0x`.  The
digits of any value are written inside the buffer and stay terminated. -/
theorem printed_canonical :
    (∀ (garbage : Vector Char bufSize) (v : Word), ∃ digits,
      printed garbage ['%', 'd'] [.word v] = some ((if v.toInt < 0 then ['-'] else []) ++ digits) ∧
        Canonical 10 v.toInt.natAbs digits ∧ (v = 0 → digits = ['0'])) ∧
    (∀ (garbage : Vector Char bufSize) (v : Word), v ≠ 0 → ∃ digits,
      printed garbage ['%', 'p'] [.word v] = some (['0', 'x'] ++ digits) ∧
        Canonical 16 v.toNat digits) ∧
    ∀ (mem : Int → Char) (base : Nat) (value : Word) (fuel : Nat), IsBase base →
      intBufSize ≤ fuel → ∃ s, DigitBuf.loop base fuel (digitBuf mem value) = some s ∧
        (∀ i ∈ s.writes, 0 ≤ i ∧ i < intBufSize - 1) ∧ 0 ≤ s.at' ∧
        s.buf (intBufSize - 1) = '\x00' ∧
        stringAt fuel (fun k => s.buf (s.at' + k)) =
          digitLoop base (intBufSize - 1) value.toNat [] := by
  refine ⟨fun garbage v => ?_, fun garbage v hv => ?_,
    fun mem base value fuel hbase hfuel => digitBuf_spec mem hbase value hfuel⟩
  · refine ⟨numeralText 10 v.toInt.natAbs, printed_plain_d garbage v,
      canonical_numeralText isBase_ten _, ?_⟩
    rintro rfl
    exact numeralText_zero
  · refine ⟨numeralText 16 v.toNat, ?_, canonical_numeralText isBase_sixteen _⟩
    have hp := printed_p garbage no_options rfl rfl hv
    rwa [padLeft_of_zero rfl] at hp

/-! ## Zero padding -/

/-- The number that a text denotes. -/
def readInt (text : List Char) : Int :=
  if text.head? = some '-' then -readDigits 10 text.tail else readDigits 10 text

/-- `%0<w>d` prints a number of the width that reads back. -/
def ZeroPadsInt (garbage : Vector Char bufSize) (ds : List Char) (w : Nat) (v : Word) : Prop :=
  ∃ out plain digits, printed garbage ('%' :: '0' :: ds ++ ['d']) [.word v] = some out ∧
    printed garbage ['%', 'd'] [.word v] = some plain ∧
    out = (if v.toInt < 0 then ['-'] else []) ++ digits ∧ (∀ c ∈ digits, c.isDigit = true) ∧
    out.length = max w plain.length ∧ readInt out = v.toInt

/-- `%#0<w>x` prints the prefix and then digits that read back. -/
def ZeroPadsHex (garbage : Vector Char bufSize) (ds : List Char) (v : Word) : Prop :=
  ∃ digits, printed garbage ('%' :: '#' :: '0' :: ds ++ ['x']) [.word v] =
      some (['0', 'x'] ++ digits) ∧
    digits ≠ [] ∧ (∀ c ∈ digits, c ∈ numerals) ∧ readDigits 16 digits = v.toNat

/-- The length of a number in decimal, with its sign. -/
def decimalLength (v : Word) : Nat :=
  (if v.toInt < 0 then 1 else 0) + max 1 (Nat.digits 10 v.toInt.natAbs).length

/-- The length of a number in hexadecimal, with its prefix. -/
def hexLength (v : Word) : Nat := 2 + max 1 (Nat.digits 16 v.toNat).length

/-- The width behind a flag that pads with zeroes. -/
theorem IsWidth.behind_zero (h : IsWidth ds w) (hprec : r.inPrecision = false)
    (hwidth : r.fieldWidth = 0) (hzero : r.zeroPad = true) :
    ds.foldl setOption r = { r with fieldWidth := .ofNat 64 w } := by
  obtain ⟨zeroPad, hfold, hset, -⟩ := foldl_setOption_width 0 hprec h.digits hwidth
  have hvalue : readOn 0 ds = w := h.value
  rw [hfold, hvalue, hset hzero, ← hzero]

theorem length_signText_append (v : Word) :
    (signText v ++ numeralText 10 v.toInt.natAbs).length = decimalLength v := by
  rw [List.length_append, length_numeralText, decimalLength, signText]
  split <;> rfl

theorem decimalLength_le (v : Word) : decimalLength v ≤ 21 := by
  have hdigits := length_digitsText_le isBase_ten (natAbs_toInt_lt v)
  rw [length_digitsText] at hdigits
  rw [decimalLength]
  split <;> omega

theorem printed_zero_d (garbage : Vector Char bufSize) (h : IsWidth ds w) (v : Word) :
    printed garbage ('%' :: '0' :: ds ++ ['d']) [.word v] =
      some (List.replicate (w % 2 ^ 64 - decimalLength v) '0' ++
        (signText v ++ numeralText 10 v.toInt.natAbs)) := by
  have hbehind : behind ('0' :: ds) [.word v] = { printfBeginFmt (printfRunner [.word v]) with
      fieldWidth := .ofNat 64 w, zeroPad := true } :=
    h.behind_zero (r := { printfBeginFmt (printfRunner [.word v]) with zeroPad := true })
      rfl rfl rfl
  have ho : ∀ c ∈ '0' :: ds, isOption c = true :=
    List.forall_mem_cons.mpr ⟨rfl, fun d hd => isOption_of_isDigit (h.digits d hd)⟩
  rw [printed_d garbage ho (by rw [hbehind]; rfl) (by rw [hbehind]; rfl), hbehind,
    PrintfRunner.padLeft, length_signText_append, BitVec.toNat_ofNat]
  rfl

theorem printed_zero_x (garbage : Vector Char bufSize) (h : IsWidth ds w) (hv : 0 ≤ v.toInt) :
    printed garbage ('%' :: '#' :: '0' :: ds ++ ['x']) [.word v] =
      some (List.replicate (w % 2 ^ 64 - hexLength v) '0' ++
        (['0', 'x'] ++ numeralText 16 v.toNat)) := by
  have hbehind : behind ('#' :: '0' :: ds) [.word v] =
      { printfBeginFmt (printfRunner [.word v]) with
        enableBasePrefix := true, fieldWidth := .ofNat 64 w, zeroPad := true } :=
    h.behind_zero (r := { printfBeginFmt (printfRunner [.word v]) with
      enableBasePrefix := true, zeroPad := true }) rfl rfl rfl
  have ho : ∀ c ∈ '#' :: '0' :: ds, isOption c = true :=
    List.forall_mem_cons.mpr ⟨rfl, List.forall_mem_cons.mpr
      ⟨rfl, fun d hd => isOption_of_isDigit (h.digits d hd)⟩⟩
  have hsign : signText v = [] := if_neg (not_lt.mpr hv)
  have hlength : (['0', 'x'] ++ numeralText 16 v.toNat).length = hexLength v := by
    rw [List.length_append, length_numeralText, hexLength]
    rfl
  rw [printed_x garbage ho (by rw [hbehind]; rfl) (by rw [hbehind]; rfl) (by rw [hbehind]), hbehind,
    hsign, List.nil_append, ← toNat_eq_natAbs (not_lt.mpr hv), PrintfRunner.padLeft, hlength,
    BitVec.toNat_ofNat]
  rfl

theorem isDigit_of_mem_take (hc : c ∈ numerals.take 10) : c.isDigit = true :=
  List.all_eq_true.mp (show (numerals.take 10).all Char.isDigit = true from rfl) c hc

theorem readDigits_replicate_zero (base n : Nat) (text : List Char) :
    readDigits base (List.replicate n '0' ++ text) = readDigits base text := by
  have hzeroes : readDigits base (List.replicate n '0') = 0 := by
    induction n with
    | zero => rfl
    | succ n ih =>
        rw [List.replicate_succ', readDigits_append_singleton, ih]
        rfl
  rw [readDigits, List.foldl_append]
  exact congrArg (fun value => text.foldl _ value) hzeroes

theorem digitsText_isDigit {value : Nat} (hc : c ∈ numeralText 10 value) : c.isDigit = true :=
  isDigit_of_mem_take
    ((canonical_numeralText isBase_ten value).digits c hc)

/-- Zeroes before the digits of a natural number are part of it. -/
theorem readInt_zeroes (n value : Nat) :
    readInt (List.replicate n '0' ++ numeralText 10 value) = value := by
  have hcanonical := canonical_numeralText isBase_ten value
  have hhead : (List.replicate n '0' ++ numeralText 10 value).head? ≠ some '-' := by
    intro hminus
    rcases List.mem_append.mp (List.mem_of_mem_head? hminus) with hmem | hmem
    · exact absurd (List.eq_of_mem_replicate hmem) (by decide)
    · exact absurd (digitsText_isDigit hmem) (by decide)
  rw [readInt, if_neg hhead, readDigits_replicate_zero, hcanonical.value]

theorem readInt_sign (v : Word) :
    readInt (signText v ++ numeralText 10 v.toInt.natAbs) = v.toInt := by
  have hcanonical := canonical_numeralText isBase_ten v.toInt.natAbs
  rw [signText]
  split
  · next hneg =>
      rw [readInt, if_pos (show (['-'] ++ numeralText 10 v.toInt.natAbs).head? = some '-' from rfl)]
      change -(readDigits 10 (numeralText 10 v.toInt.natAbs) : Int) = v.toInt
      rw [hcanonical.value]
      omega
  · next hpos =>
      have hzero := readInt_zeroes 0 v.toInt.natAbs
      rw [List.replicate_zero] at hzero
      rw [hzero]
      omega

/-- No zeroes, or no sign to keep them from the digits. -/
theorem zeroes_append_sign {n : Nat} {v : Word} (h : n = 0 ∨ 0 ≤ v.toInt) (digits : List Char) :
    List.replicate n '0' ++ (signText v ++ digits) =
      signText v ++ (List.replicate n '0' ++ digits) := by
  rcases h with rfl | hpos
  · simp
  · simp [signText, not_lt.mpr hpos]

theorem readInt_zeroes_sign {n : Nat} {v : Word} (h : n = 0 ∨ 0 ≤ v.toInt) :
    readInt (List.replicate n '0' ++ (signText v ++ numeralText 10 v.toInt.natAbs)) = v.toInt := by
  rcases h with rfl | hpos
  · exact readInt_sign v
  · rw [signText, if_neg (not_lt.mpr hpos), List.nil_append, readInt_zeroes]
    omega

/-- Zero padding of a decimal number. -/
theorem zeroPadsInt_iff (garbage : Vector Char bufSize) (h : IsWidth ds w) (v : Word) :
    ZeroPadsInt garbage ds w v ↔ w ≤ decimalLength v ∨ 0 ≤ v.toInt ∧ w < 2 ^ 64 := by
  have hout := printed_zero_d garbage h v
  have hplain := printed_plain_d garbage v
  have hsmall := decimalLength_le v
  constructor
  · rintro ⟨out, plain, digits, hprinted, hplain', htext, -, hmax, -⟩
    rw [hout, Option.some_inj] at hprinted
    rw [hplain, Option.some_inj] at hplain'
    rw [← hprinted, ← hplain', List.length_append, List.length_replicate,
      length_signText_append] at hmax
    by_contra hor
    rw [not_or, not_le] at hor
    have hneg : v.toInt < 0 := by
      by_contra hpos
      exact hor.2 ⟨not_lt.mp hpos, by omega⟩
    -- the first character is a zero of the padding, not the sign
    obtain ⟨n, hn⟩ := Nat.exists_eq_succ_of_ne_zero
      (show w % 2 ^ 64 - decimalLength v ≠ 0 by omega)
    rw [← hprinted, hn, List.replicate_succ, if_pos hneg] at htext
    cases htext
  · intro hor
    obtain ⟨n, hn⟩ : ∃ n, n = w % 2 ^ 64 - decimalLength v := ⟨_, rfl⟩
    have hcase : n = 0 ∨ 0 ≤ v.toInt := hor.imp (fun hle => by omega) And.left
    refine ⟨_, _, List.replicate n '0' ++ numeralText 10 v.toInt.natAbs, hout, hplain,
      ?_, ?_, ?_, ?_⟩
    · rw [← hn]
      exact zeroes_append_sign hcase _
    · intro c hc
      rcases List.mem_append.mp hc with hc | hc
      · rw [List.eq_of_mem_replicate hc]
        rfl
      · exact digitsText_isDigit hc
    · rw [List.length_append, List.length_replicate, length_signText_append]
      rcases hor with hle | ⟨-, hlt⟩ <;> omega
    · rw [← hn]
      exact readInt_zeroes_sign hcase

/-- Zero padding of a hexadecimal number. -/
theorem zeroPadsHex_iff (garbage : Vector Char bufSize) (h : IsWidth ds w) (hv : 0 ≤ v.toInt) :
    ZeroPadsHex garbage ds v ↔ w % 2 ^ 64 ≤ hexLength v := by
  have hout := printed_zero_x garbage h hv
  have hcanonical := canonical_numeralText isBase_sixteen v.toNat
  constructor
  · rintro ⟨digits, hprinted, -, -, -⟩
    rw [hout, Option.some_inj] at hprinted
    by_contra hlt
    obtain ⟨n, hn⟩ := Nat.exists_eq_succ_of_ne_zero
      (show w % 2 ^ 64 - hexLength v ≠ 0 by omega)
    rw [hn, List.replicate_succ] at hprinted
    -- the second character is a zero, of the padding or of the prefix
    cases n <;> cases hprinted
  · intro hle
    rw [show w % 2 ^ 64 - hexLength v = 0 by omega] at hout
    refine ⟨numeralText 16 v.toNat, hout, hcanonical.nonempty, hcanonical.digits, hcanonical.value⟩

/-- **Exactly when zero padding keeps the number**: in decimal when the number
needs none, or has no sign; in hexadecimal behind a prefix when the number
needs none. -/
theorem zeroPads_iff (garbage : Vector Char bufSize) :
    (∀ ds w v, IsWidth ds w → 1 ≤ w →
      (ZeroPadsInt garbage ds w v ↔ w ≤ decimalLength v ∨ 0 ≤ v.toInt ∧ w < 2 ^ 64)) ∧
    ∀ ds w v, IsWidth ds w → 1 ≤ w → 0 ≤ v.toInt →
      (ZeroPadsHex garbage ds v ↔ w % 2 ^ 64 ≤ hexLength v) :=
  ⟨fun _ _ v h _ => zeroPadsInt_iff garbage h v, fun _ _ _ h _ hv => zeroPadsHex_iff garbage h hv⟩

/-- `%05d` prints `000-5`, and `%#06x` prints `000x1f`. -/
theorem not_zeroPads : (¬ ∀ (garbage : Vector Char bufSize) (ds : List Char) (w : Nat) (v : Word),
      IsWidth ds w → 1 ≤ w → ZeroPadsInt garbage ds w v) ∧
    ¬ ∀ (garbage : Vector Char bufSize) (ds : List Char) (w : Nat) (v : Word),
      IsWidth ds w → 1 ≤ w → 0 ≤ v.toInt → ZeroPadsHex garbage ds v := by
  constructor
  · intro h
    obtain ⟨out, plain, digits, hprinted, -, htext, -⟩ :=
      h (Vector.replicate bufSize 'z') ['5'] 5 (-5) isWidth_five (by decide)
    have hout : printed (Vector.replicate bufSize 'z') ['%', '0', '5', 'd'] [.word (-5)] =
        some ['0', '0', '0', '-', '5'] := by decide
    have heq := Option.some.inj (hprinted.symm.trans hout)
    rw [heq] at htext
    cases htext
  · intro h
    obtain ⟨digits, hprinted, -⟩ :=
      h (Vector.replicate bufSize 'z') ['6'] 6 0x1F ⟨List.all_eq_true.mp rfl, by decide, rfl⟩
        (by decide) (by decide)
    have hout : printed (Vector.replicate bufSize 'z') ['%', '#', '0', '6', 'x'] [.word 0x1F] =
        some ['0', '0', '0', 'x', '1', 'f'] := by decide
    have heq := Option.some.inj (hprinted.symm.trans hout)
    cases heq

/-- `%5d` of a number without sign. -/
theorem zeroPads_iff_five : ZeroPadsInt (Vector.replicate bufSize 'z') ['5'] 5 42 ↔
    5 ≤ decimalLength 42 ∨ 0 ≤ (42 : Word).toInt ∧ 5 < 2 ^ 64 :=
  (zeroPads_iff (Vector.replicate bufSize 'z')).1 ['5'] 5 42 isWidth_five (by decide)

/-! ## `%#x` and `%p` -/

/-- `%#x` and `%p` print the same field with the value behind its prefix. -/
def SameHex (garbage : Vector Char bufSize) (opts : List Char) (v : Word) : Prop :=
  ∃ out pad digits rest, printed garbage ('%' :: '#' :: opts ++ ['x']) [.word v] = some out ∧
    printed garbage ('%' :: opts ++ ['p']) [.word v] = some out ∧
    out = pad ++ ['0', 'x'] ++ digits ++ rest ∧ (∀ c ∈ pad, c = '0' ∨ c = ' ') ∧
    (∀ c ∈ digits, c ∈ numerals) ∧ (∀ c ∈ rest, c = ' ') ∧ readDigits 16 digits = v.toNat

/-- The base prefix is an option like the others. -/
theorem setOption_prefix (r : PrintfRunner) (c : Char) :
    setOption { r with enableBasePrefix := true } c =
      { setOption r c with enableBasePrefix := true } := by
  unfold setOption formatDigit
  split_ifs <;> rfl

theorem foldl_setOption_prefix (opts : List Char) (r : PrintfRunner) :
    opts.foldl setOption { r with enableBasePrefix := true } =
      { opts.foldl setOption r with enableBasePrefix := true } := by
  induction opts generalizing r with
  | nil => rfl
  | cons c opts ih =>
      rw [List.foldl_cons, setOption_prefix, ih]
      rfl

/-- The runner of both conversions. -/
def hexRunner (opts : List Char) (v : Word) : PrintfRunner :=
  { behind opts [.word v] with va := [], enableBasePrefix := true, base := 16 }

theorem printed_hash_x (garbage : Vector Char bufSize) (ho : ∀ c ∈ opts, isOption c = true)
    (v : Word) : printed garbage ('%' :: '#' :: opts ++ ['x']) [.word v] =
      some (printfDoPrint (hexRunner opts v) (signText v) ['0', 'x']
        (digitsText 16 v.toInt.natAbs)).2 := by
  have hbehind : behind ('#' :: opts) [.word v] =
      { behind opts [.word v] with enableBasePrefix := true } := foldl_setOption_prefix opts _
  have hconvert := convert_x (behind_va ('#' :: opts) [.word v])
  rw [hbehind] at hconvert
  have hint := printfDoInt_eq (r := hexRunner opts v) isBase_sixteen v
  exact printed_directive garbage (List.forall_mem_cons.mpr ⟨rfl, ho⟩) rfl
    (by rw [hbehind]; exact hconvert.trans hint)

theorem printed_hex_p (garbage : Vector Char bufSize) (ho : ∀ c ∈ opts, isOption c = true)
    (hv : v ≠ 0) : printed garbage ('%' :: opts ++ ['p']) [.word v] =
      some (printfDoPrint (hexRunner opts v) [] ['0', 'x'] (digitsText 16 v.toNat)).2 := by
  have huint := printfDoUint_eq (r := hexRunner opts v) isBase_sixteen v []
  exact printed_directive garbage ho rfl ((convert_p (behind_va opts [.word v]) hv).trans huint)

/-- The shape of a field, with any options. -/
theorem printfDoPrint_shape (r : PrintfRunner) (prefix1 prefix2 what : List Char) :
    ∃ pad n rest, (printfDoPrint r prefix1 prefix2 what).2 =
        pad ++ prefix1 ++ prefix2 ++ (List.replicate n '0' ++ what) ++ rest ∧
      (∀ c ∈ pad, c = '0' ∨ c = ' ') ∧ ∀ c ∈ rest, c = ' ' := by
  have hfill : ∀ (p : Prop) [Decidable p] (n : Nat) (d : Char),
      ∃ k, (if p then List.replicate n d else []) = List.replicate k d := by
    intro p _ n d
    split
    · exact ⟨n, rfl⟩
    · exact ⟨0, rfl⟩
  simp only [printfDoPrint]
  generalize (if BitVec.ofNat 64 what.length < r.precision then _ else _ : Word) = totalLen
  obtain ⟨i, hpad⟩ := hfill (totalLen < r.fieldWidth ∧ (!r.rightPad) = true)
    (r.fieldWidth - totalLen).toNat (if r.zeroPad then '0' else ' ')
  obtain ⟨n, hzeroes⟩ := hfill (BitVec.ofNat 64 what.length < r.precision)
    (r.precision - .ofNat 64 what.length).toNat '0'
  obtain ⟨j, hrest⟩ := hfill (r.rightPad = true) (r.fieldWidth - totalLen).toNat ' '
  rw [hpad, hzeroes, hrest]
  refine ⟨List.replicate i (if r.zeroPad then '0' else ' '), n, List.replicate j ' ',
    by simp only [List.append_assoc], fun c hc => ?_, fun c hc => ?_⟩
  · rw [List.eq_of_mem_replicate hc]
    split
    · exact Or.inl rfl
    · exact Or.inr rfl
  · exact List.eq_of_mem_replicate hc

/-- **Exactly when the hexadecimal conversions agree**: for the values that
are not negative as signed numbers, whatever the options. -/
theorem sameHex_iff (garbage : Vector Char bufSize) (ho : ∀ c ∈ opts, isOption c = true)
    (hv : v ≠ 0) : SameHex garbage opts v ↔ 0 ≤ v.toInt := by
  have hx := printed_hash_x garbage ho v
  have hp := printed_hex_p garbage ho hv
  constructor
  · rintro ⟨out, -, -, -, hout, hout', -⟩
    rw [hx, Option.some_inj] at hout
    rw [hp, Option.some_inj] at hout'
    by_contra hneg
    have hsign : signText v = ['-'] := if_pos (not_le.mp hneg)
    have hfree : ∀ value, (digitsText 16 value).count '-' = 0 := by
      intro value
      refine List.count_eq_zero.mpr fun hmem => ?_
      exact absurd (mem_take_of_mem_digitsText isBase_sixteen hmem) (by decide)
    have hcount := congrArg (List.count '-') (hout.trans hout'.symm)
    rw [count_printfDoPrint (by decide) (by decide), count_printfDoPrint (by decide) (by decide),
      hsign, hfree, hfree] at hcount
    revert hcount
    decide
  · intro hpos
    rw [signText, if_neg (not_lt.mpr hpos), ← toNat_eq_natAbs (not_lt.mpr hpos)] at hx
    obtain ⟨pad, n, rest, hshape, hpad, hrest⟩ :=
      printfDoPrint_shape (hexRunner opts v) [] ['0', 'x'] (digitsText 16 v.toNat)
    refine ⟨_, pad, List.replicate n '0' ++ digitsText 16 v.toNat, rest, hx, hp, ?_, hpad, ?_,
      hrest, ?_⟩
    · rw [hshape, List.append_nil]
    · intro c hc
      rcases List.mem_append.mp hc with hc | hc
      · rw [List.eq_of_mem_replicate hc]
        decide
      · exact List.mem_of_mem_take (mem_take_of_mem_digitsText isBase_sixteen hc)
    · rw [readDigits_replicate_zero, readDigits_digitsText isBase_sixteen]

/-- `%#18x` and `%18p` of a device address. -/
theorem sameHex_iff_device : SameHex (Vector.replicate bufSize 'z') ['1', '8'] 0xFE201000 ↔
    0 ≤ (0xFE201000 : Word).toInt :=
  sameHex_iff (Vector.replicate bufSize 'z') (List.all_eq_true.mp rfl) (by decide)

/-- `%#x` prints a kernel address as `-0x8000000000`. -/
theorem not_sameHex_kernel : ¬ ∀ (garbage : Vector Char bufSize) (opts : List Char) (v : Word),
    (∀ c ∈ opts, isOption c = true) → v ≠ 0 → SameHex garbage opts v := by
  intro h
  obtain ⟨out, -, -, -, hx, hp, -⟩ := h (Vector.replicate bufSize 'z') [] 0xFFFFFF8000000000
    no_options (by decide)
  have hne : printed (Vector.replicate bufSize 'z') ['%', '#', 'x'] [.word 0xFFFFFF8000000000] ≠
      printed (Vector.replicate bufSize 'z') ['%', 'p'] [.word 0xFFFFFF8000000000] := by decide
  exact hne (hx.trans hp.symm)

end TeachingOs.Printf
