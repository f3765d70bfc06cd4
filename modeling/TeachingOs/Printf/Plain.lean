import TeachingOs.Printf.Number

/-!
# TeachingOs.Printf.Plain

Formats as the kernel writes them: text, the directives `%d`, `%p` and `%s`
without options, and columns, `%-24s`.  What they print is the text with a
numeral or a string for each directive (`run_pieces`), and `%p` prints
different pointers differently.
-/

namespace TeachingOs.Printf

open Transducer

/-- What `%p` prints. -/
def pointerText (v : Word) : List Char :=
  if v = 0 then ['(', 'n', 'u', 'l', 'l', ')'] else ['0', 'x'] ++ numeralText 16 v.toNat

/-- What `%d` prints. -/
def decimalText (v : Word) : List Char := signText v ++ numeralText 10 v.toInt.natAbs

/-- What `%-<ds>s` prints. -/
def columnText (ds text : List Char) : List Char :=
  text ++ List.replicate (readOn 0 ds - text.length) ' '

/-- Text, or a directive with its argument; a column has the digits of its
width. -/
inductive Piece where
  | lit (text : List Char)
  | d (v : Word)
  | p (v : Word)
  | s (text : List Char)
  | column (ds text : List Char)

/-- What stands in the format. -/
def Piece.format : Piece → List Char
  | lit text => text
  | d _ => ['%', 'd']
  | p _ => ['%', 'p']
  | s _ => ['%', 's']
  | column ds _ => '%' :: ('-' :: ds) ++ ['s']

/-- What is passed for it. -/
def Piece.args : Piece → List Arg
  | lit _ => []
  | d v | p v => [.word v]
  | s text | column _ text => [.str text]

/-- What is printed for it. -/
def Piece.out : Piece → List Char
  | lit text => text
  | d v => decimalText v
  | p v => pointerText v
  | s text => text
  | column ds text => columnText ds text

/-- No directive and no NUL in a text, no string that is empty or does not fit
its column. -/
def Piece.Ok : Piece → Prop
  | lit text => '%' ∉ text ∧ '\x00' ∉ text
  | d _ | p _ => True
  | s text => text ≠ [] ∧ '\x00' ∉ text ∧ text.length < 2 ^ 64
  | column ds text => (∀ d ∈ ds, d.isDigit = true) ∧ text ≠ [] ∧ '\x00' ∉ text ∧
      text.length ≤ readOn 0 ds ∧ readOn 0 ds < 2 ^ 64

variable {r : PrintfRunner} {v : Word} {va : List Arg}

/-! ## Runs -/

theorem run_lit {text : List Char} (htext : '%' ∉ text) (hfmt : r.inFmt = false) :
    run printfStep text r = some (r, text) := by
  induction text with
  | nil => rfl
  | cons c text ih =>
      rw [List.mem_cons, not_or] at htext
      rw [run_cons (printfStep_literal hfmt (Ne.symm htext.1)), ih htext.2]
      rfl

/-- A directive prints what its conversion does behind its options. -/
theorem run_behind {c : Char} {opts out : List Char} {a : Arg} (hc : isConversion c = true)
    (ho : ∀ c ∈ opts, isOption c = true) (hfmt : r.inFmt = false) (hva : r.va = a :: va)
    (ha : a.accepts c = true)
    (hout : ∃ r', convert (opts.foldl setOption (printfBeginFmt r)) c = some (r', out)) :
    ∃ r', run printfStep ('%' :: opts ++ [c]) r = some (r', out) ∧ r'.inFmt = false ∧
      r'.va = va := by
  obtain ⟨q, hq⟩ : ∃ q, q = opts.foldl setOption (printfBeginFmt r) := ⟨_, rfl⟩
  have hqfmt : q.inFmt = true := by rw [hq, foldl_setOption_inFmt]; rfl
  have hqva : q.va = a :: va := by rw [hq, foldl_setOption_va, ← hva]; rfl
  have hopts := run_options (r := printfBeginFmt r) rfl ho
  rw [← hq] at hout hopts
  obtain ⟨r₁, out₁, hconvert, hfmt', hva', -⟩ := convert_ok ha hqva
  obtain ⟨r', hr'⟩ := hout
  cases hconvert.symm.trans hr'
  have hstep := (printfStep_conversion hqfmt hc).trans hconvert
  have hrun := run_append_eq_some.mpr ⟨_, _, _, hopts, run_cons (l := []) hstep, rfl⟩
  refine ⟨r₁, ?_, hfmt', hva'⟩
  rw [List.cons_append, run_cons (printfStep_percent hfmt), hrun]
  simp

/-- A directive without options. -/
theorem run_conversion {c : Char} {out : List Char} {a : Arg} (hc : isConversion c = true)
    (hfmt : r.inFmt = false) (hva : r.va = a :: va) (ha : a.accepts c = true)
    (hout : ∃ r', convert (printfBeginFmt r) c = some (r', out)) :
    ∃ r', run printfStep ['%', c] r = some (r', out) ∧ r'.inFmt = false ∧ r'.va = va :=
  run_behind hc no_options hfmt hva ha hout

theorem run_p (hfmt : r.inFmt = false) (hva : r.va = .word v :: va) :
    ∃ r', run printfStep ['%', 'p'] r = some (r', pointerText v) ∧ r'.inFmt = false ∧
      r'.va = va := by
  refine run_conversion rfl hfmt hva rfl ?_
  have hread : vaWord (printfBeginFmt r).va = some (v, va) := by
    rw [show (printfBeginFmt r).va = r.va from rfl, hva]
    rfl
  rw [convert, if_neg (by decide), if_pos rfl, hread, pointerText]
  by_cases hzero : v = 0
  · simp only [Option.bind_eq_bind, Option.bind_some, if_pos hzero]
    exact ⟨_, rfl⟩
  · simp only [Option.bind_eq_bind, Option.bind_some, if_neg hzero]
    have hnumber := printfDoUint_number (v := v)
      (r := { printfBeginFmt r with va, enableBasePrefix := true, base := 16 })
      isBase_sixteen rfl rfl
    rwa [padLeft_of_zero rfl] at hnumber

theorem run_d (hfmt : r.inFmt = false) (hva : r.va = .word v :: va) :
    ∃ r', run printfStep ['%', 'd'] r = some (r', decimalText v) ∧ r'.inFmt = false ∧
      r'.va = va := by
  refine run_conversion rfl hfmt hva rfl ?_
  have hread : vaWord (printfBeginFmt r).va = some (v, va) := by
    rw [show (printfBeginFmt r).va = r.va from rfl, hva]
    rfl
  rw [convert, if_pos rfl, hread]
  have hnumber := printfDoInt_number (v := v) (r := { printfBeginFmt r with va, base := 10 })
    isBase_ten rfl rfl
  have hnone : PrintfRunner.basePrefix { printfBeginFmt r with va, base := 10 } = [] :=
    if_neg fun h => Bool.false_ne_true h.1
  rwa [padLeft_of_zero rfl, hnone, List.append_nil] at hnumber

/-- A directive for a string prints its field. -/
theorem run_string {opts text out : List Char} (ho : ∀ c ∈ opts, isOption c = true)
    (hfmt : r.inFmt = false) (hva : r.va = .str text :: va) (hout :
      (printfDoPrint { opts.foldl setOption (printfBeginFmt r) with va } [] [] text).2 = out) :
    ∃ r', run printfStep ('%' :: opts ++ ['s']) r = some (r', out) ∧ r'.inFmt = false ∧
      r'.va = va := by
  have hread : (opts.foldl setOption (printfBeginFmt r)).va = .str text :: va := by
    rw [foldl_setOption_va]
    exact hva
  refine run_behind rfl ho hfmt hva rfl
    ⟨(printfDoPrint { opts.foldl setOption (printfBeginFmt r) with va } [] [] text).1, ?_⟩
  simp [convert, hread, vaString, ← hout]

/-- A string that is not empty needs no zero to reach the precision 1. -/
theorem body_text {q : PrintfRunner} {text : List Char} (hprecision : q.precision = 1)
    (htext : text ≠ []) : q.body [] [] text = text := by
  have hpos : 0 < text.length := List.length_pos_of_ne_nil htext
  have hone : q.precision.toNat - text.length = 0 := by
    rw [hprecision]
    simp
    omega
  rw [PrintfRunner.body, hone]
  rfl

theorem run_s {text : List Char} (htext : text ≠ []) (hlength : text.length < 2 ^ 64)
    (hfmt : r.inFmt = false) (hva : r.va = .str text :: va) :
    ∃ r', run printfStep ['%', 's'] r = some (r', text) ∧ r'.inFmt = false ∧ r'.va = va := by
  have hbody := body_text (q := { printfBeginFmt r with va }) rfl htext
  have hfits : FieldFits { printfBeginFmt r with va } [] [] text := by rwa [FieldFits, hbody]
  have hfield : PrintfRunner.field { printfBeginFmt r with va } [] [] text = text := by
    rw [PrintfRunner.field, hbody]
    simp [printfBeginFmt]
  refine run_string no_options hfmt hva ?_
  rw [List.foldl_nil, printfDoPrint_left rfl hfits, hfield]

theorem run_column {ds text : List Char} (hd : ∀ d ∈ ds, d.isDigit = true) (htext : text ≠ [])
    (hle : text.length ≤ readOn 0 ds) (hlt : readOn 0 ds < 2 ^ 64) (hfmt : r.inFmt = false)
    (hva : r.va = .str text :: va) :
    ∃ r', run printfStep ('%' :: ('-' :: ds) ++ ['s']) r = some (r', columnText ds text) ∧
      r'.inFmt = false ∧ r'.va = va := by
  have ho : ∀ c ∈ '-' :: ds, isOption c = true :=
    List.forall_mem_cons.mpr ⟨rfl, fun d hmem => isOption_of_isDigit (hd d hmem)⟩
  obtain ⟨zeroPad, hfold, -⟩ := foldl_setOption_width 0
    (r := { printfBeginFmt r with rightPad := true }) rfl hd rfl
  obtain ⟨q, hq⟩ : ∃ q, q = { printfBeginFmt r with
    va, rightPad := true, fieldWidth := .ofNat 64 (readOn 0 ds), zeroPad } := ⟨_, rfl⟩
  have hbody : q.body [] [] text = text := body_text (by rw [hq]; rfl) htext
  have hfits : FieldFits q [] [] text := by
    rw [FieldFits, hbody]
    omega
  have hwidth : q.fieldWidth = .ofNat 64 (readOn 0 ds) := by rw [hq]
  have hright : q.rightPad = true := by rw [hq]
  have hout : (printfDoPrint q [] [] text).2 = columnText ds text := by
    rw [hfits.printfDoPrint_eq, if_pos hright, hbody, hwidth, columnText]
    congr 2
    bv_omega
  refine run_string ho hfmt hva ?_
  rw [List.foldl_cons, show setOption (printfBeginFmt r) '-' =
    { printfBeginFmt r with rightPad := true } from rfl, hfold, ← hout, hq]

/-- The format of the pieces. -/
def formatOf (pieces : List Piece) : List Char := pieces.flatMap Piece.format

/-- The arguments of the pieces. -/
def argsOf (pieces : List Piece) : List Arg := pieces.flatMap Piece.args

/-- The text of the pieces. -/
def textOfPieces (pieces : List Piece) : List Char := pieces.flatMap Piece.out

/-- **What plain formats print**, piece after piece. -/
theorem run_pieces {pieces : List Piece} (hok : ∀ piece ∈ pieces, piece.Ok)
    (hfmt : r.inFmt = false) (hva : r.va = argsOf pieces ++ va) :
    ∃ r', run printfStep (formatOf pieces) r = some (r', textOfPieces pieces) ∧
      r'.inFmt = false ∧ r'.va = va := by
  induction pieces generalizing r with
  | nil => exact ⟨r, rfl, hfmt, hva⟩
  | cons piece pieces ih =>
      rw [List.forall_mem_cons] at hok
      obtain ⟨r₁, hrun₁, hfmt₁, hva₁⟩ : ∃ r₁, run printfStep piece.format r =
          some (r₁, piece.out) ∧ r₁.inFmt = false ∧ r₁.va = argsOf pieces ++ va := by
        cases piece with
        | lit text => exact ⟨r, run_lit hok.1.1 hfmt, hfmt, hva⟩
        | d v => exact run_d hfmt hva
        | p v => exact run_p hfmt hva
        | s text => exact run_s hok.1.1 hok.1.2.2 hfmt hva
        | column ds text =>
            obtain ⟨hd, htext, -, hle, hlt⟩ := hok.1
            exact run_column hd htext hle hlt hfmt hva
      obtain ⟨r', hrun', hfmt', hva'⟩ := ih hok.2 hfmt₁ hva₁
      exact ⟨r', run_append_eq_some.mpr ⟨r₁, _, _, hrun₁, hrun', rfl⟩, hfmt', hva'⟩

/-! ## Types -/

theorem wellTyped_lit {text fmt : List Char} {args : List Arg} (htext : '%' ∉ text) :
    WellTyped false (text ++ fmt) args = WellTyped false fmt args := by
  induction text with
  | nil => rfl
  | cons c text ih =>
      rw [List.mem_cons, not_or] at htext
      rw [List.cons_append, WellTyped, decide_eq_false (Ne.symm htext.1), ih htext.2]

theorem wellTyped_options {opts fmt : List Char} {args : List Arg}
    (ho : ∀ c ∈ opts, isOption c = true) :
    WellTyped true (opts ++ fmt) args = WellTyped true fmt args := by
  induction opts with
  | nil => rfl
  | cons c opts ih =>
      rw [List.forall_mem_cons] at ho
      rw [List.cons_append, wellTyped_of_not_conversion (isConversion_eq_false ho.1), ih ho.2]

theorem wellTyped_pieces {pieces : List Piece} (hok : ∀ piece ∈ pieces, piece.Ok) :
    WellTyped false (formatOf pieces) (argsOf pieces) = true := by
  induction pieces with
  | nil => rfl
  | cons piece pieces ih =>
      rw [List.forall_mem_cons] at hok
      have hrest := ih hok.2
      cases piece with
      | lit text => exact (wellTyped_lit hok.1.1).trans hrest
      | d v => exact hrest
      | p v => exact hrest
      | s text => exact hrest
      | column ds text =>
          have ho : ∀ c ∈ '-' :: ds, isOption c = true :=
            List.forall_mem_cons.mpr ⟨rfl, fun d hmem => isOption_of_isDigit (hok.1.1 d hmem)⟩
          have hformat : formatOf (.column ds text :: pieces) =
              '%' :: (('-' :: ds) ++ 's' :: formatOf pieces) := by
            simp [formatOf, Piece.format]
          rw [hformat, WellTyped, decide_eq_true rfl, wellTyped_options ho]
          exact hrest

/-! ## Reading it back -/

theorem numeralText_injective {base : Nat} (h : IsBase base) {value value' : Nat}
    (heq : numeralText base value = numeralText base value') : value = value' := by
  rw [← (canonical_numeralText h value).value, heq, (canonical_numeralText h value').value]

/-- Different pointers are printed differently. -/
theorem pointerText_injective {v v' : Word} (h : pointerText v = pointerText v') : v = v' := by
  rw [pointerText, pointerText] at h
  split at h <;> split at h
  · next hv hv' => rw [hv, hv']
  · cases h
  · cases h
  · exact BitVec.eq_of_toNat_eq (numeralText_injective isBase_sixteen (List.append_cancel_left h))

theorem mem_numeralText {base : Nat} (h : IsBase base) {value : Nat} {c : Char}
    (hc : c ∈ numeralText base value) : c ∈ numerals :=
  List.mem_of_mem_take ((canonical_numeralText h value).digits c hc)

theorem mem_pointerText {c : Char} (h : c ∈ pointerText v) :
    c ∈ numerals ++ ['x', '(', 'n', 'u', 'l', ')'] := by
  rw [pointerText] at h
  split at h
  · exact (show ['(', 'n', 'u', 'l', 'l', ')'] ⊆ numerals ++ ['x', '(', 'n', 'u', 'l', ')'] by
      decide) h
  · rcases List.mem_append.mp h with hp | hd
    · exact (show ['0', 'x'] ⊆ numerals ++ ['x', '(', 'n', 'u', 'l', ')'] by decide) hp
    · exact List.mem_append_left _ (mem_numeralText isBase_sixteen hd)

theorem mem_decimalText {c : Char} (h : c ∈ decimalText v) : c ∈ '-' :: numerals := by
  rcases List.mem_append.mp h with hsign | hd
  · rw [signText] at hsign
    split at hsign
    · exact List.mem_cons.mpr (.inl (List.mem_singleton.mp hsign))
    · cases hsign
  · exact List.mem_cons_of_mem _ (mem_numeralText isBase_ten hd)

/-- A separator that the text before it does not have ends that text. -/
theorem append_cons_inj {α : Type} {a : α} {l l' rest rest' : List α} (hl : a ∉ l) (hl' : a ∉ l')
    (h : l ++ a :: rest = l' ++ a :: rest') : l = l' ∧ rest = rest' := by
  induction l generalizing l' with
  | nil =>
      cases l' with
      | nil => exact ⟨rfl, (List.cons.inj h).2⟩
      | cons b l' =>
          obtain ⟨rfl, -⟩ := List.cons.inj h
          exact absurd List.mem_cons_self hl'
  | cons b l ih =>
      cases l' with
      | nil =>
          obtain ⟨rfl, -⟩ := List.cons.inj h
          exact absurd List.mem_cons_self hl
      | cons b' l' =>
          obtain ⟨rfl, htail⟩ := List.cons.inj h
          rw [List.mem_cons, not_or] at hl hl'
          obtain ⟨rfl, hrest⟩ := ih hl.2 hl'.2 htail
          exact ⟨rfl, hrest⟩

end TeachingOs.Printf
