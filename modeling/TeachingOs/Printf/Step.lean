import Mathlib.Tactic.SplitIfs
import TeachingOs.Printf.Text

/-!
# TeachingOs.Printf.Step

What a step of the runner reads and prints, and three simulations between
runners: options change no percent sign that is printed, leftover options do
not matter outside a format, and neither do arguments that are not reached.
-/

namespace TeachingOs.Printf

open Transducer

/-! ## Steps -/

variable {r r' : PrintfRunner} {c : Char} {out : List Char}

theorem printfStep_percent (h : r.inFmt = false) :
    printfStep r '%' = some (printfBeginFmt r, []) := by
  simp [printfStep, h]

theorem printfStep_literal (h : r.inFmt = false) (hc : c ≠ '%') :
    printfStep r c = some (r, [c]) := by
  simp [printfStep, h, hc]

theorem printfStep_option (h : r.inFmt = true) (hc : isOption c = true) :
    printfStep r c = some (setOption r c, []) := by
  simp [printfStep, h, hc]

theorem isOption_eq_false (hc : isConversion c = true) : isOption c = false := by
  simp only [isConversion, Bool.or_eq_true, decide_eq_true_eq] at hc
  rcases hc with ((rfl | rfl) | rfl) | rfl <;> rfl

theorem isConversion_eq_false (ho : isOption c = true) : isConversion c = false :=
  Bool.eq_false_iff.mpr fun hc => by simp [isOption_eq_false hc] at ho

theorem printfStep_conversion (h : r.inFmt = true) (hc : isConversion c = true) :
    printfStep r c = convert r c := by
  simp [printfStep, h, hc, isOption_eq_false hc]

/-- Any other character is printed, and the format stays open. -/
theorem printfStep_other (h : r.inFmt = true) (ho : isOption c = false)
    (hc : isConversion c = false) : printfStep r c = some (r, [c]) := by
  simp [printfStep, h, ho, hc]

@[simp] theorem setOption_inFmt : (setOption r c).inFmt = r.inFmt := by
  unfold setOption formatDigit
  split_ifs <;> rfl

@[simp] theorem setOption_va : (setOption r c).va = r.va := by
  unfold setOption formatDigit
  split_ifs <;> rfl

/-! ## Conversions -/

/-- The argument has the type that the conversion reads. -/
def Arg.accepts (c : Char) : Arg → Bool
  | .word _ => c = 'd' || c = 'p' || c = 'x'
  | .str _ => c = 's'

/-- The percent signs that an argument prints. -/
def Arg.percents : Arg → Nat
  | .word _ => 0
  | .str s => s.count '%'

/-- How often an argument has a character. -/
def Arg.count (z : Char) : Arg → Nat
  | .word _ => 0
  | .str s => s.count z

theorem Arg.percents_eq (arg : Arg) : arg.percents = arg.count '%' := by
  cases arg <;> rfl

/-- What a conversion can print besides the characters of a string. -/
def fieldChars : List Char := numerals ++ ['x', '-', ' ', '(', 'n', 'u', 'l', ')']

variable {z : Char}

theorem count_eq_zero_of_subset (hz : z ∉ fieldChars) {l : List Char} (h : l ⊆ fieldChars) :
    l.count z = 0 :=
  List.count_eq_zero.mpr fun hl => hz (h hl)

theorem count_padding {p : Prop} [Decidable p] {n : Nat} (h : c ≠ z) :
    (if p then List.replicate n c else []).count z = 0 := by
  split <;> simp [List.count_replicate, h]

theorem count_printfDoPrint (hzero : '0' ≠ z) (hspace : ' ' ≠ z) (prefix1 prefix2 what : List Char) :
    (printfDoPrint r prefix1 prefix2 what).2.count z =
      prefix1.count z + prefix2.count z + what.count z := by
  have hpad : (if r.zeroPad = true then '0' else ' ') ≠ z := by split <;> assumption
  simp only [printfDoPrint, List.count_append, count_padding hpad, count_padding hzero,
    count_padding hspace]
  omega

/-- Printing a field ends the format and reads nothing. -/
theorem printfDoPrint_ok (hz : z ∉ fieldChars) (prefix1 prefix2 what : List Char) :
    ∃ r' out, printfDoPrint r prefix1 prefix2 what = (r', out) ∧ r'.inFmt = false ∧
      r'.va = r.va ∧ out.count z = prefix1.count z + prefix2.count z + what.count z := by
  have hzero : '0' ≠ z := fun h => hz (h ▸ by decide)
  have hspace : ' ' ≠ z := fun h => hz (h ▸ by decide)
  exact ⟨_, _, rfl, rfl, rfl, count_printfDoPrint hzero hspace prefix1 prefix2 what⟩

/-- The digits fit into the room that the largest value needs. -/
theorem digitLoop_ok (hz : z ∉ fieldChars) {base : Nat} (hbase : 0 < base) (hle : base ≤ 16)
    {at' value : Nat} (h : value < base ^ at') (text : List Char) :
    ∃ text', digitLoop base at' value text = some text' ∧ text'.count z = text.count z := by
  induction at' generalizing value text with
  | zero =>
      obtain rfl : value = 0 := by simpa using h
      exact ⟨text, by rw [digitLoop], rfl⟩
  | succ at' ih =>
      cases value with
      | zero => exact ⟨text, by rw [digitLoop], rfl⟩
      | succ value =>
          have hdigit : (value + 1) % base < numerals.length :=
            Nat.lt_of_lt_of_le (Nat.mod_lt _ hbase) hle
          have hnumeral : numerals[(value + 1) % base] ≠ z := fun heq =>
            hz (heq ▸ List.mem_append_left _ (List.getElem_mem hdigit))
          have hdiv : (value + 1) / base < base ^ at' := by
            rw [Nat.div_lt_iff_lt_mul hbase]
            exact h
          obtain ⟨text', htext, hcount⟩ := ih hdiv (numerals[(value + 1) % base] :: text)
          refine ⟨text', ?_, hcount.trans (List.count_cons_of_ne hnumeral)⟩
          rw [digitLoop, List.getElem?_eq_getElem hdigit]
          · exact htext
          · exact nofun

theorem printfDoUint_ok (hz : z ∉ fieldChars) (hbase : r.base = 10 ∨ r.base = 16) (value : Word)
    {signPrefix : List Char} (hsign : signPrefix.count z = 0) :
    ∃ r' out, printfDoUint r value signPrefix = some (r', out) ∧ r'.inFmt = false ∧
      r'.va = r.va ∧ out.count z = 0 := by
  have hfits : value.toNat < r.base ^ (intBufSize - 1) := by
    have hvalue := value.isLt
    rcases hbase with h | h <;> rw [h] <;> refine Nat.lt_trans hvalue ?_ <;> decide
  have hpos : 0 < r.base := by omega
  obtain ⟨text, htext, hcount⟩ := digitLoop_ok hz hpos (by omega) hfits []
  obtain ⟨r', out, h, hfmt, hva, hout⟩ := printfDoPrint_ok (r := r) hz signPrefix
    (if r.enableBasePrefix ∧ r.base = 16 then ['0', 'x'] else []) text
  have hprefix : (if r.enableBasePrefix ∧ r.base = 16 then ['0', 'x'] else []).count z = 0 := by
    split_ifs
    · exact count_eq_zero_of_subset hz (by decide)
    · rfl
  refine ⟨r', out, ?_, hfmt, hva, ?_⟩
  · rw [printfDoUint, htext]
    exact congrArg some h
  · rw [hout, hsign, hcount, hprefix]
    rfl

theorem printfDoInt_ok (hz : z ∉ fieldChars) (hbase : r.base = 10 ∨ r.base = 16) (value : Word) :
    ∃ r' out, printfDoInt r value = some (r', out) ∧ r'.inFmt = false ∧
      r'.va = r.va ∧ out.count z = 0 := by
  rw [printfDoInt]
  split
  · exact printfDoUint_ok hz hbase _ (count_eq_zero_of_subset hz (by decide))
  · exact printfDoUint_ok hz hbase _ rfl

/-- A conversion of an argument of its type reads it, ends the format and
prints a character outside of `fieldChars` as often as the argument has it. -/
theorem convert_count (hz : z ∉ fieldChars) {arg : Arg} {va : List Arg}
    (ha : arg.accepts c = true) (hva : r.va = arg :: va) :
    ∃ r' out, convert r c = some (r', out) ∧ r'.inFmt = false ∧ r'.va = va ∧
      out.count z = arg.count z := by
  cases arg with
  | word value =>
      have hread : vaWord r.va = some (value, va) := by rw [hva]; rfl
      simp only [Arg.accepts, Bool.or_eq_true, decide_eq_true_eq] at ha
      rcases ha with (rfl | rfl) | rfl
      · simp only [convert, hread, reduceIte, Option.bind_eq_bind, Option.bind_some]
        exact printfDoInt_ok (r := { r with va, base := 10 }) hz (Or.inl rfl) value
      · simp only [convert, hread, reduceIte, Option.bind_eq_bind, Option.bind_some, Char.reduceEq]
        by_cases hnull : value = 0
        · obtain ⟨r', out, h, hfmt, hrest, hcount⟩ :=
            printfDoPrint_ok (r := { r with va }) hz [] [] ['(', 'n', 'u', 'l', 'l', ')']
          have htext := count_eq_zero_of_subset hz
            (show ['(', 'n', 'u', 'l', 'l', ')'] ⊆ fieldChars by decide)
          rw [htext] at hcount
          rw [if_pos hnull]
          exact ⟨r', out, congrArg some h, hfmt, hrest, hcount⟩
        · rw [if_neg hnull]
          exact printfDoUint_ok (r := { r with va, enableBasePrefix := true, base := 16 })
            hz (Or.inr rfl) value rfl
      · simp only [convert, hread, reduceIte, Option.bind_eq_bind, Option.bind_some, Char.reduceEq]
        exact printfDoInt_ok (r := { r with va, base := 16 }) hz (Or.inr rfl) value
  | str s =>
      have hread : vaString r.va = some (s, va) := by rw [hva]; rfl
      simp only [Arg.accepts, decide_eq_true_eq] at ha
      subst ha
      simp only [convert, hread, reduceIte, Option.bind_eq_bind, Option.bind_some, Char.reduceEq]
      obtain ⟨r', out, h, hfmt, hrest, hcount⟩ := printfDoPrint_ok (r := { r with va }) hz [] [] s
      exact ⟨r', out, congrArg some h, hfmt, hrest, hcount.trans (Nat.zero_add _)⟩

/-- A conversion prints the percent signs of its argument. -/
theorem convert_ok {arg : Arg} {va : List Arg} (ha : arg.accepts c = true) (hva : r.va = arg :: va) :
    ∃ r' out, convert r c = some (r', out) ∧ r'.inFmt = false ∧ r'.va = va ∧
      out.count '%' = arg.percents := by
  rw [arg.percents_eq]
  exact convert_count (by decide) ha hva

/-- A conversion that succeeds has found an argument of its type. -/
theorem accepts_of_convert (hc : isConversion c = true) (h : convert r c = some (r', out)) :
    ∃ arg va, r.va = arg :: va ∧ arg.accepts c = true := by
  simp only [isConversion, Bool.or_eq_true, decide_eq_true_eq] at hc
  cases hva : r.va with
  | nil => rcases hc with ((rfl | rfl) | rfl) | rfl <;> simp [convert, hva, vaWord, vaString] at h
  | cons arg va =>
      refine ⟨arg, va, rfl, ?_⟩
      cases arg with
      | word value => rcases hc with ((rfl | rfl) | rfl) | rfl <;> first
        | rfl
        | simp [convert, hva, vaString] at h
      | str s => rcases hc with ((rfl | rfl) | rfl) | rfl <;> first
        | rfl
        | simp [convert, hva, vaWord] at h

/-! ## Simulations -/

/-- The same arguments and mode, whatever the options. -/
def SameMode (r r' : PrintfRunner) : Prop := r.inFmt = r'.inFmt ∧ r.va = r'.va

/-- Equal, or both outside a format with the same arguments, where leftover
options do not matter. -/
def SameText (r r' : PrintfRunner) : Prop :=
  r = r' ∨ r.inFmt = false ∧ r'.inFmt = false ∧ r.va = r'.va

/-- More arguments behind those at hand. -/
def PrintfRunner.addArgs (r : PrintfRunner) (rest : List Arg) : PrintfRunner :=
  { r with va := r.va ++ rest }

theorem printfBeginFmt_eq {q : PrintfRunner} (h : r.va = q.va) :
    printfBeginFmt r = printfBeginFmt q := by
  simp [printfBeginFmt, h]

/-- Options do not change what is read and how many percent signs are
printed. -/
theorem printfStep_sameMode {q : PrintfRunner} (h : SameMode r q)
    (hstep : printfStep r c = some (r', out)) : ∃ q' out', printfStep q c = some (q', out') ∧
      SameMode r' q' ∧ out.count '%' = out'.count '%' := by
  obtain ⟨hfmt, hva⟩ := h
  cases hp : r.inFmt with
  | false =>
      have hq : q.inFmt = false := hfmt.symm.trans hp
      by_cases hc : c = '%'
      · subst hc
        rw [printfStep_percent hp] at hstep
        cases hstep
        exact ⟨_, _, printfStep_percent hq, ⟨rfl, hva⟩, rfl⟩
      · rw [printfStep_literal hp hc] at hstep
        cases hstep
        exact ⟨_, _, printfStep_literal hq hc, ⟨hfmt, hva⟩, rfl⟩
  | true =>
      have hq : q.inFmt = true := hfmt.symm.trans hp
      by_cases ho : isOption c = true
      · rw [printfStep_option hp ho] at hstep
        cases hstep
        exact ⟨_, _, printfStep_option hq ho, ⟨by simp [hfmt], by simp [hva]⟩, rfl⟩
      · by_cases hc : isConversion c = true
        · rw [printfStep_conversion hp hc] at hstep
          obtain ⟨arg, va, hread, ha⟩ := accepts_of_convert hc hstep
          obtain ⟨p₁, o₁, h₁, hf₁, hv₁, hn₁⟩ := convert_ok ha hread
          obtain ⟨q₁, o₂, h₂, hf₂, hv₂, hn₂⟩ := convert_ok ha (hva.symm.trans hread)
          rw [hstep] at h₁
          cases h₁
          exact ⟨q₁, o₂, (printfStep_conversion hq hc).trans h₂,
            ⟨hf₁.trans hf₂.symm, hv₁.trans hv₂.symm⟩, hn₁.trans hn₂.symm⟩
        · rw [printfStep_other hp (by simpa using ho) (by simpa using hc)] at hstep
          cases hstep
          exact ⟨_, _, printfStep_other hq (by simpa using ho) (by simpa using hc),
            ⟨hfmt, hva⟩, rfl⟩

theorem printfStep_sameText {q : PrintfRunner} (h : SameText r q)
    (hstep : printfStep r c = some (r', out)) :
    ∃ q' out', printfStep q c = some (q', out') ∧ SameText r' q' ∧ out = out' := by
  rcases h with rfl | ⟨hp, hq, hva⟩
  · exact ⟨r', out, hstep, Or.inl rfl, rfl⟩
  · by_cases hc : c = '%'
    · subst hc
      rw [printfStep_percent hp] at hstep
      cases hstep
      exact ⟨_, _, printfStep_percent hq, Or.inl (printfBeginFmt_eq hva), rfl⟩
    · rw [printfStep_literal hp hc] at hstep
      cases hstep
      exact ⟨_, _, printfStep_literal hq hc, Or.inr ⟨hp, hq, hva⟩, rfl⟩

theorem vaWord_append {va va' : List Arg} {value : Word} (h : vaWord va = some (value, va'))
    (rest : List Arg) : vaWord (va ++ rest) = some (value, va' ++ rest) := by
  cases va with
  | nil => cases h
  | cons arg va =>
      cases arg with
      | word => cases h; rfl
      | str => cases h

theorem vaString_append {va va' : List Arg} {s : List Char} (h : vaString va = some (s, va'))
    (rest : List Arg) : vaString (va ++ rest) = some (s, va' ++ rest) := by
  cases va with
  | nil => cases h
  | cons arg va =>
      cases arg with
      | word => cases h
      | str => cases h; rfl

theorem printfDoUint_addArgs {value : Word} {signPrefix : List Char}
    (h : printfDoUint r value signPrefix = some (r', out)) (rest : List Arg) :
    printfDoUint (r.addArgs rest) value signPrefix = some (r'.addArgs rest, out) := by
  obtain ⟨text, htext, h⟩ := Option.bind_eq_some_iff.mp h
  cases h
  exact Option.bind_eq_some_iff.mpr ⟨text, htext, rfl⟩

theorem printfDoInt_addArgs {value : Word} (h : printfDoInt r value = some (r', out))
    (rest : List Arg) : printfDoInt (r.addArgs rest) value = some (r'.addArgs rest, out) := by
  rw [printfDoInt] at h ⊢
  split at h
  · next hneg => rw [if_pos hneg]; exact printfDoUint_addArgs h rest
  · next hneg => rw [if_neg hneg]; exact printfDoUint_addArgs h rest

/-- Arguments that are not reached do not matter. -/
theorem convert_addArgs (h : convert r c = some (r', out)) (rest : List Arg) :
    convert (r.addArgs rest) c = some (r'.addArgs rest, out) := by
  unfold convert at h ⊢
  split_ifs at h ⊢ with hd hp hx
  · obtain ⟨⟨value, va⟩, hread, h⟩ := Option.bind_eq_some_iff.mp h
    exact Option.bind_eq_some_iff.mpr
      ⟨_, vaWord_append hread rest, printfDoInt_addArgs h rest⟩
  · obtain ⟨⟨arg, va⟩, hread, h⟩ := Option.bind_eq_some_iff.mp h
    refine Option.bind_eq_some_iff.mpr ⟨_, vaWord_append hread rest, ?_⟩
    simp only at h ⊢
    split_ifs at h ⊢ with hnull
    · cases h
      rfl
    · exact printfDoUint_addArgs h rest
  · obtain ⟨⟨value, va⟩, hread, h⟩ := Option.bind_eq_some_iff.mp h
    exact Option.bind_eq_some_iff.mpr
      ⟨_, vaWord_append hread rest, printfDoInt_addArgs h rest⟩
  · obtain ⟨⟨s, va⟩, hread, h⟩ := Option.bind_eq_some_iff.mp h
    cases h
    exact Option.bind_eq_some_iff.mpr ⟨_, vaString_append hread rest, rfl⟩

theorem setOption_addArgs (rest : List Arg) :
    setOption (r.addArgs rest) c = (setOption r c).addArgs rest := by
  unfold setOption formatDigit PrintfRunner.addArgs
  split_ifs <;> rfl

theorem printfStep_addArgs {rest : List Arg} {q : PrintfRunner} (h : q = r.addArgs rest)
    (hstep : printfStep r c = some (r', out)) : ∃ q' out', printfStep q c = some (q', out') ∧
      q' = r'.addArgs rest ∧ out = out' := by
  subst h
  refine ⟨_, _, ?_, rfl, rfl⟩
  unfold printfStep at hstep ⊢
  rw [show (r.addArgs rest).inFmt = r.inFmt from rfl]
  split_ifs at hstep ⊢ with hfmt hc ho hconv
  · cases hstep; rfl
  · cases hstep; rfl
  · cases hstep; rw [setOption_addArgs]
  · exact convert_addArgs hstep rest
  · cases hstep; rfl

/-! ## Runs -/

variable {fmt : List Char} {q : PrintfRunner}

theorem run_sameMode (h : SameMode r q) (hrun : run printfStep fmt r = some (r', out)) :
    ∃ q' out', run printfStep fmt q = some (q', out') ∧ SameMode r' q' ∧
      out.count '%' = out'.count '%' :=
  run_sim (Q := fun out out' => out.count '%' = out'.count '%') h hrun rfl
    (fun h₁ h₂ => by rw [List.count_append, List.count_append, h₁, h₂])
    fun h hstep => printfStep_sameMode h hstep

theorem run_sameText (h : SameText r q) (hrun : run printfStep fmt r = some (r', out)) :
    ∃ q', run printfStep fmt q = some (q', out) ∧ SameText r' q' := by
  obtain ⟨q', out', hrun', hR, rfl⟩ := run_sim (Q := Eq) h hrun rfl
    (fun h₁ h₂ => h₁ ▸ h₂ ▸ rfl) fun h hstep => printfStep_sameText h hstep
  exact ⟨q', hrun', hR⟩

theorem run_addArgs (hrun : run printfStep fmt r = some (r', out)) (rest : List Arg) :
    run printfStep fmt (r.addArgs rest) = some (r'.addArgs rest, out) := by
  obtain ⟨q', out', hrun', rfl, rfl⟩ := run_sim (R := fun r q => q = r.addArgs rest)
    (Q := Eq) rfl hrun rfl (fun h₁ h₂ => h₁ ▸ h₂ ▸ rfl)
    fun h hstep => printfStep_addArgs h hstep
  exact hrun'

/-! ## Options -/

/-- Options print nothing. -/
theorem run_options (hfmt : r.inFmt = true) (ho : ∀ c ∈ fmt, isOption c = true) :
    run printfStep fmt r = some (fmt.foldl setOption r, []) := by
  induction fmt generalizing r with
  | nil => rfl
  | cons c fmt ih =>
      rw [List.forall_mem_cons] at ho
      rw [run_cons (printfStep_option hfmt ho.1), ih (setOption_inFmt.trans hfmt) ho.2]
      rfl

theorem foldl_setOption_inFmt (opts : List Char) (r : PrintfRunner) :
    (opts.foldl setOption r).inFmt = r.inFmt := by
  induction opts generalizing r with
  | nil => rfl
  | cons c opts ih => exact (ih _).trans setOption_inFmt

theorem foldl_setOption_va (opts : List Char) (r : PrintfRunner) :
    (opts.foldl setOption r).va = r.va := by
  induction opts generalizing r with
  | nil => rfl
  | cons c opts ih => exact (ih _).trans setOption_va

/-- Digits read behind a number, in `size_t`. -/
def appendDigits (value : Word) (digits : List Char) : Word :=
  digits.foldl (fun value d => value * 10 + .ofNat 64 (d.toNat - '0'.toNat)) value

theorem setOption_precision (hprec : r.inPrecision = true) (hc : c.isDigit = true) :
    setOption r c = { r with precision := r.precision * 10 + .ofNat 64 (c.toNat - '0'.toNat) } := by
  have hne : ∀ d : Char, d.isDigit = false → c ≠ d := fun d hd h => by simp [h, hd] at hc
  rw [setOption, if_neg (hne '#' rfl), if_neg (hne '-' rfl), if_neg (hne '.' rfl), formatDigit,
    if_pos hprec]

/-- Digits behind a `.` are read into the precision. -/
theorem run_precision (hfmt : r.inFmt = true) (hprec : r.inPrecision = true)
    (hd : ∀ d ∈ fmt, d.isDigit = true) :
    run printfStep fmt r = some ({ r with precision := appendDigits r.precision fmt }, []) := by
  induction fmt generalizing r with
  | nil => rfl
  | cons c fmt ih =>
      rw [List.forall_mem_cons] at hd
      have hoption : isOption c = true := by simp [isOption, hd.1]
      have hstep := printfStep_option hfmt hoption
      rw [setOption_precision hprec hd.1] at hstep
      have hrest := ih
        (r := { r with precision := r.precision * 10 + .ofNat 64 (c.toNat - '0'.toNat) })
        hfmt hprec hd.2
      rw [run_cons hstep, hrest]
      rfl

end TeachingOs.Printf
