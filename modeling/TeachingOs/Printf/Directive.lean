import TeachingOs.Printf.Field

/-!
# TeachingOs.Printf.Directive

What `generic_printf` writes for a single directive: the options before the
conversion are folded into the runner (`printed_directive`), and a decimal
width is the number that its digits denote as long as that is a `size_t`.
-/

namespace TeachingOs.Printf

open Transducer

variable {r : PrintfRunner} {c : Char} {opts ds : List Char} {args va : List Arg} {w : Nat}

/-! ## Directives -/

/-- The characters that `generic_printf` writes. -/
def printed (garbage : Vector Char bufSize) (fmt : List Char) (args : List Arg) :
    Option (List Char) :=
  (genericPrintf garbage fmt args).map Printed.text

theorem printed_eq (garbage : Vector Char bufSize) (fmt : List Char) (args : List Arg) :
    printed garbage fmt args = (run printfStep fmt (printfRunner args)).map Prod.snd := by
  rw [printed, genericPrintf, loop_eq]
  cases run printfStep fmt (printfRunner args) with
  | none => rfl
  | some r => exact congrArg some (text_printfFlush garbage r.2)

/-- The runner behind the options of a directive. -/
def behind (opts : List Char) (va : List Arg) : PrintfRunner :=
  opts.foldl setOption (printfBeginFmt (printfRunner va))

/-- **A directive prints what its conversion prints** behind its options. -/
theorem printed_directive (garbage : Vector Char bufSize) (ho : ∀ c ∈ opts, isOption c = true)
    (hc : isConversion c = true) {out : List Char}
    (hconvert : convert (behind opts args) c = some (r, out)) :
    printed garbage ('%' :: opts ++ [c]) args = some out := by
  have hfmt : (behind opts args).inFmt = true := foldl_setOption_inFmt opts _
  have hopts := run_options (r := printfBeginFmt (printfRunner args)) rfl ho
  have hstep := (printfStep_conversion hfmt hc).trans hconvert
  have hrun := run_append_eq_some.mpr ⟨_, _, _, hopts, run_cons (l := []) hstep, rfl⟩
  rw [printed_eq, List.cons_append, run_cons (printfStep_percent rfl), hrun]
  simp

/-! ## Widths -/

/-- Digits behind a number. -/
def readOn (value : Nat) (ds : List Char) : Nat :=
  ds.foldl (fun value c => 10 * value + numerals.idxOf c) value

/-- A decimal number without a leading zero; 0 is the empty one. -/
structure IsWidth (ds : List Char) (w : Nat) : Prop where
  digits : ∀ d ∈ ds, d.isDigit = true
  leading : ds.head? ≠ some '0'
  value : readDigits 10 ds = w

theorem exists_numeral (hc : c.isDigit = true) : ∃ d < 10, c = numeral d := by
  obtain ⟨hlo, hhi⟩ := Char.isDigit_iff_toNat.mp hc
  obtain ⟨d, hd⟩ := Nat.exists_eq_add_of_le hlo
  have hlt : d < 10 := by
    change c.toNat ≤ 57 at hhi
    change c.toNat = 48 + d at hd
    omega
  refine ⟨d, hlt, ?_⟩
  rw [← Char.ofNat_toNat c, hd]
  clear hlo hhi hd
  revert d
  decide

/-- What `next - '0'` is. -/
theorem sub_zero_eq (hc : c.isDigit = true) : c.toNat - '0'.toNat = numerals.idxOf c := by
  obtain ⟨d, hd, rfl⟩ := exists_numeral hc
  revert d
  decide

theorem idxOf_ne_zero (hc : c.isDigit = true) (hne : c ≠ '0') : numerals.idxOf c ≠ 0 := by
  obtain ⟨d, hd, rfl⟩ := exists_numeral hc
  revert d
  decide

theorem le_readOn (value : Nat) (ds : List Char) : value ≤ readOn value ds := by
  induction ds generalizing value with
  | nil => exact Nat.le_refl _
  | cons c ds ih =>
      have hstep : value ≤ 10 * value + numerals.idxOf c := by omega
      exact Nat.le_trans hstep (ih _)

/-- A digit of the field width. -/
theorem setOption_width (hprec : r.inPrecision = false) (hc : c.isDigit = true) :
    setOption r c = { r with
      fieldWidth := r.fieldWidth * 10 + .ofNat 64 (numerals.idxOf c)
      zeroPad := r.zeroPad || decide (r.fieldWidth = 0 ∧ c = '0') } := by
  have hne : ∀ d : Char, d.isDigit = false → c ≠ d := fun d hd h => by simp [h, hd] at hc
  rw [setOption, if_neg (hne '#' rfl), if_neg (hne '-' rfl), if_neg (hne '.' rfl), formatDigit,
    sub_zero_eq hc, hprec]
  by_cases hzero : r.fieldWidth = 0 ∧ c = '0'
  · obtain ⟨hw, rfl⟩ := hzero
    have hidx : numerals.idxOf '0' = 0 := by decide
    simp [hw, hidx]
  · rw [if_neg Bool.false_ne_true, if_neg hzero, decide_eq_false hzero, Bool.or_false]

/-- The digits of the width, in `size_t`; a zero before the others switches
to zero padding. -/
theorem foldl_setOption_width (value : Nat) (hprec : r.inPrecision = false)
    (hd : ∀ d ∈ ds, d.isDigit = true) (hw : r.fieldWidth = .ofNat 64 value) : ∃ zeroPad,
    ds.foldl setOption r = { r with fieldWidth := .ofNat 64 (readOn value ds), zeroPad } ∧
      (r.zeroPad = true → zeroPad = true) ∧
      (readOn value ds < 2 ^ 64 → value ≠ 0 ∨ ds.head? ≠ some '0' → zeroPad = r.zeroPad) := by
  induction ds generalizing r value with
  | nil =>
      refine ⟨r.zeroPad, ?_, id, fun _ _ => rfl⟩
      rw [readOn, List.foldl_nil, List.foldl_nil, ← hw]
  | cons c ds ih =>
      rw [List.forall_mem_cons] at hd
      have hstep : r.fieldWidth * 10 + .ofNat 64 (numerals.idxOf c) =
          BitVec.ofNat 64 (10 * value + numerals.idxOf c) := by
        rw [hw]
        bv_omega
      rw [List.foldl_cons, setOption_width hprec hd.1]
      obtain ⟨zeroPad, hrun, hset, hkeep⟩ := ih (10 * value + numerals.idxOf c) (r := { r with
        fieldWidth := r.fieldWidth * 10 + .ofNat 64 (numerals.idxOf c)
        zeroPad := r.zeroPad || decide (r.fieldWidth = 0 ∧ c = '0') }) hprec hd.2 hstep
      refine ⟨zeroPad, hrun, fun h => hset (by simp [h]), fun hlt hlead => ?_⟩
      have hle : 10 * value + numerals.idxOf c < 2 ^ 64 := Nat.lt_of_le_of_lt (le_readOn _ ds) hlt
      have hfirst : value ≠ 0 ∨ c ≠ '0' := hlead.imp_right fun h heq => h (congrArg some heq)
      have hnext : 10 * value + numerals.idxOf c ≠ 0 := by
        rcases hfirst with hvalue | hc
        · omega
        · have := idxOf_ne_zero hd.1 hc
          omega
      have hflag : ¬ (r.fieldWidth = 0 ∧ c = '0') := by
        rintro ⟨hzero, hc⟩
        have hvalue := hfirst.resolve_right fun h => h hc
        rw [hw] at hzero
        bv_omega
      rw [hkeep hlt (Or.inl hnext), decide_eq_false hflag, Bool.or_false]

theorem no_options : ∀ c ∈ ([] : List Char), isOption c = true :=
  fun _ hc => absurd hc List.not_mem_nil

theorem isOption_of_isDigit (hc : c.isDigit = true) : isOption c = true := by
  simp [isOption, hc]

/-- The runner behind a width. -/
theorem IsWidth.behind (h : IsWidth ds w) (va : List Arg) : ∃ zeroPad,
    behind ds va = { printfBeginFmt (printfRunner va) with fieldWidth := .ofNat 64 w, zeroPad } ∧
      (w < 2 ^ 64 → zeroPad = false) := by
  obtain ⟨zeroPad, hfold, -, hkeep⟩ := foldl_setOption_width 0
    (r := printfBeginFmt (printfRunner va)) rfl h.digits rfl
  have hvalue : readOn 0 ds = w := h.value
  rw [hvalue] at hfold hkeep
  exact ⟨zeroPad, hfold, fun hlt => hkeep hlt (Or.inr h.leading)⟩

/-! ## Strings -/

/-- Without right padding the promised field is printed. -/
theorem printfDoPrint_left (hright : r.rightPad = false) {prefix1 prefix2 what : List Char}
    (hfits : FieldFits r prefix1 prefix2 what) :
    printfDoPrint r prefix1 prefix2 what =
      ({ r with inFmt := false }, r.field prefix1 prefix2 what) := by
  have hout := hfits.printfDoPrint_eq
  rw [if_neg (Bool.eq_false_iff.mp hright)] at hout
  exact Prod.ext rfl hout

/-- `%<w>s`, as it is printed. -/
theorem printed_string (garbage : Vector Char bufSize) (h : IsWidth ds w) {s : List Char}
    (hs : s.length < 2 ^ 64) : ∃ pad, (w < 2 ^ 64 → pad = ' ') ∧
      printed garbage ('%' :: ds ++ ['s']) [.str s] =
        some (List.replicate (w % 2 ^ 64 - max s.length 1) pad ++
          (List.replicate (1 - s.length) '0' ++ s)) := by
  obtain ⟨zeroPad, hbehind, hpad⟩ := h.behind [.str s]
  obtain ⟨r, hr⟩ : ∃ r, r = { printfBeginFmt (printfRunner [.str s]) with
    va := [], fieldWidth := .ofNat 64 w, zeroPad } := ⟨_, rfl⟩
  have hfield : r.field [] [] s = List.replicate (w % 2 ^ 64 - max s.length 1)
      (if zeroPad then '0' else ' ') ++ (List.replicate (1 - s.length) '0' ++ s) := by
    have hlength := length_body r [] [] s
    have hprecision : r.precision.toNat = 1 := by rw [hr]; rfl
    have hwidth : r.fieldWidth.toNat = w % 2 ^ 64 := by rw [hr]; exact BitVec.toNat_ofNat ..
    have hzero : r.zeroPad = zeroPad := by rw [hr]
    have hright : ¬ r.rightPad = true := by rw [hr]; exact Bool.false_ne_true
    rw [PrintfRunner.field, if_neg hright, hlength, hwidth, hprecision, hzero, PrintfRunner.body,
      hprecision]
    simp
  have hfits : FieldFits r [] [] s := by
    rw [FieldFits, length_body, hr]
    change 0 + 0 + max s.length 1 < 2 ^ 64
    omega
  have hconvert : convert (behind ds [.str s]) 's' = some ({ r with inFmt := false },
      r.field [] [] s) := by
    rw [← printfDoPrint_left (by rw [hr]; rfl) hfits, hbehind, hr]
    rfl
  refine ⟨if zeroPad then '0' else ' ', fun hlt => by rw [hpad hlt]; rfl, ?_⟩
  rw [← hfield]
  exact printed_directive garbage (fun d hd => isOption_of_isDigit (h.digits d hd)) rfl hconvert

/-- **Exactly when `%<w>s` prints its string** behind the spaces that fill the
width: when the string is not empty, for the precision of numbers prints a
zero then, and when the width is a `size_t`. -/
theorem printed_string_iff (garbage : Vector Char bufSize) (h : IsWidth ds w) {s : List Char}
    (hs : s.length < 2 ^ 64) :
    printed garbage ('%' :: ds ++ ['s']) [.str s] =
        some (List.replicate (w - s.length) ' ' ++ s) ↔
      s ≠ [] ∧ w < 2 ^ 64 := by
  obtain ⟨pad, hpad, hprinted⟩ := printed_string garbage h hs
  rw [hprinted, Option.some_inj]
  constructor
  · intro heq
    have hlength := congrArg List.length heq
    simp only [List.length_append, List.length_replicate] at hlength
    refine ⟨fun hnil => ?_, by omega⟩
    subst hnil
    have hzero := congrArg (fun out => decide ('0' ∈ out)) heq
    simp at hzero
  · rintro ⟨hne, hlt⟩
    have hpos : 0 < s.length := List.length_pos_of_ne_nil hne
    rw [hpad hlt, Nat.mod_eq_of_lt hlt, show max s.length 1 = s.length by omega,
      show 1 - s.length = 0 by omega, List.replicate_zero, List.nil_append]

theorem isWidth_five : IsWidth ['5'] 5 := ⟨List.all_eq_true.mp rfl, by decide, rfl⟩

/-- `%5s` of a name. -/
theorem printed_string_iff_five :
    printed (Vector.replicate bufSize 'z') ['%', '5', 's'] [.str ['i', 'r', 'q']] =
        some (List.replicate 2 ' ' ++ ['i', 'r', 'q']) ↔
      ['i', 'r', 'q'] ≠ [] ∧ 5 < 2 ^ 64 :=
  printed_string_iff (Vector.replicate bufSize 'z') isWidth_five (s := ['i', 'r', 'q']) (by decide)

/-- An empty string prints a zero. -/
theorem printed_string_empty : ¬ ∀ (garbage : Vector Char bufSize) (ds : List Char) (w : Nat)
    (s : List Char), IsWidth ds w → s.length < 2 ^ 64 →
    printed garbage ('%' :: ds ++ ['s']) [.str s] =
      some (List.replicate (w - s.length) ' ' ++ s) := by
  intro h
  have hempty := h (Vector.replicate bufSize 'z') [] 0 []
    ⟨List.all_eq_true.mp rfl, by decide, rfl⟩ (by decide)
  revert hempty
  decide

end TeachingOs.Printf
