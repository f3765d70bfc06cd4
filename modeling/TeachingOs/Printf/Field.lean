import TeachingOs.Printf.Digits

/-!
# TeachingOs.Printf.Field

The field that `printf_do_print` prints, against the field that its options
promise (`PrintfRunner.field`), and the options of a directive up to its
conversion.  Left of the text the code pads when the text is shorter than the
field; right of it, it does not look, and the padding wraps around.
-/

namespace TeachingOs.Printf

open Transducer

variable {r : PrintfRunner} {prefix1 prefix2 what : List Char}

/-! ## Fields -/

/-- What a field holds besides its padding: the prefixes, the zeroes that the
precision asks for, and the text. -/
def PrintfRunner.body (r : PrintfRunner) (prefix1 prefix2 what : List Char) : List Char :=
  prefix1 ++ prefix2 ++ List.replicate (r.precision.toNat - what.length) '0' ++ what

/-- The field as the options promise it: the body, padded on one side to the
field width. -/
def PrintfRunner.field (r : PrintfRunner) (prefix1 prefix2 what : List Char) : List Char :=
  let body := r.body prefix1 prefix2 what
  let padding := r.fieldWidth.toNat - body.length
  if r.rightPad then body ++ List.replicate padding ' '
  else List.replicate padding (if r.zeroPad then '0' else ' ') ++ body

theorem length_body (r : PrintfRunner) (prefix1 prefix2 what : List Char) :
    (r.body prefix1 prefix2 what).length =
      prefix1.length + prefix2.length + max what.length r.precision.toNat := by
  simp only [PrintfRunner.body, List.length_append, List.length_replicate]
  omega

theorem length_field (r : PrintfRunner) (prefix1 prefix2 what : List Char) :
    (r.field prefix1 prefix2 what).length =
      max r.fieldWidth.toNat (r.body prefix1 prefix2 what).length := by
  unfold PrintfRunner.field
  split <;> simp only [List.length_append, List.length_replicate] <;> omega

/-- The lengths add up to a `size_t`. -/
def FieldFits (r : PrintfRunner) (prefix1 prefix2 what : List Char) : Prop :=
  (r.body prefix1 prefix2 what).length < 2 ^ 64

theorem FieldFits.length_what (h : FieldFits r prefix1 prefix2 what) : what.length < 2 ^ 64 := by
  rw [FieldFits, length_body] at h
  omega

/-- A guarded loop fills up to the width. -/
theorem replicate_guarded {width : Word} {len : Nat} (hlen : len < 2 ^ 64) (c : Char) :
    (if BitVec.ofNat 64 len < width then List.replicate (width - .ofNat 64 len).toNat c else []) =
      List.replicate (width.toNat - len) c := by
  split
  · next hlt => rw [show (width - .ofNat 64 len).toNat = width.toNat - len by bv_omega]
  · next hlt => rw [show width.toNat - len = 0 by bv_omega, List.replicate_zero]

/-- `total_len` is the length of the body. -/
theorem FieldFits.totalLen (h : FieldFits r prefix1 prefix2 what) :
    (if BitVec.ofNat 64 what.length < r.precision then
      BitVec.ofNat 64 prefix1.length + .ofNat 64 prefix2.length + .ofNat 64 what.length +
        (r.precision - .ofNat 64 what.length)
      else .ofNat 64 prefix1.length + .ofNat 64 prefix2.length + .ofNat 64 what.length) =
      .ofNat 64 (r.body prefix1 prefix2 what).length := by
  have hwhat := h.length_what
  rw [length_body]
  split <;> bv_omega

/-- **What is printed**: left of the body, padding as promised; right of it,
the difference of the field width and the length as a `size_t`. -/
theorem FieldFits.printfDoPrint_eq (h : FieldFits r prefix1 prefix2 what) :
    (printfDoPrint r prefix1 prefix2 what).2 =
      if r.rightPad then r.body prefix1 prefix2 what ++ List.replicate
        (r.fieldWidth - .ofNat 64 (r.body prefix1 prefix2 what).length).toNat ' '
      else r.field prefix1 prefix2 what := by
  have hbody : prefix1 ++ prefix2 ++ List.replicate (r.precision.toNat - what.length) '0' ++ what =
      r.body prefix1 prefix2 what := rfl
  simp only [printfDoPrint, h.totalLen, replicate_guarded h.length_what]
  cases hright : r.rightPad with
  | true => simp [PrintfRunner.body]
  | false =>
      simp only [Bool.not_false, and_true, replicate_guarded h, Bool.false_eq_true, if_false,
        List.append_nil, List.append_assoc, PrintfRunner.field, hright]
      rw [← hbody]
      simp only [List.append_assoc]

/-- Printed as promised: the padded field, as long as the wider of the field
width and the text. -/
def PrintsField (r : PrintfRunner) (prefix1 prefix2 what : List Char) : Prop :=
  (printfDoPrint r prefix1 prefix2 what).2 = r.field prefix1 prefix2 what ∧
    (printfDoPrint r prefix1 prefix2 what).2.length = max r.fieldWidth.toNat
      (prefix1.length + prefix2.length + max what.length r.precision.toNat)

/-- A field with padding on the right that is longer than its width gets
nearly 2^64 spaces. -/
theorem FieldFits.length_printfDoPrint_right (h : FieldFits r prefix1 prefix2 what)
    (hright : r.rightPad = true)
    (hlong : r.fieldWidth.toNat < (r.body prefix1 prefix2 what).length) :
    (printfDoPrint r prefix1 prefix2 what).2.length = r.fieldWidth.toNat + 2 ^ 64 := by
  rw [h.printfDoPrint_eq, if_pos hright, List.length_append, List.length_replicate]
  rw [FieldFits] at h
  bv_omega

/-- **Exactly when a field is printed as promised**: not when it is longer
than its width and padded on the right. -/
theorem printsField_iff
    (h : prefix1.length + prefix2.length + max what.length r.precision.toNat < 2 ^ 64) :
    PrintsField r prefix1 prefix2 what ↔ r.rightPad = false ∨
      prefix1.length + prefix2.length + max what.length r.precision.toNat ≤ r.fieldWidth.toNat := by
  have hfits : FieldFits r prefix1 prefix2 what := by rwa [FieldFits, length_body]
  have hlength := length_field r prefix1 prefix2 what
  rw [← length_body] at h ⊢
  constructor
  · rintro ⟨-, hmax⟩
    by_contra hor
    rw [not_or, Bool.not_eq_false, Nat.not_le] at hor
    rw [hfits.length_printfDoPrint_right hor.1 hor.2, ← length_body] at hmax
    omega
  · intro hor
    have heq : (printfDoPrint r prefix1 prefix2 what).2 = r.field prefix1 prefix2 what := by
      rw [hfits.printfDoPrint_eq]
      split
      · next hright =>
          have hle := hor.resolve_left (by simp [hright])
          rw [PrintfRunner.field, if_pos hright,
            show (r.fieldWidth - .ofNat 64 (r.body prefix1 prefix2 what).length).toNat =
              r.fieldWidth.toNat - (r.body prefix1 prefix2 what).length by bv_omega]
      · rfl
    exact ⟨heq, by rw [heq, hlength, length_body]⟩

/-- The runner of `%-24s`. -/
def deviceColumn : PrintfRunner := ⟨[], true, false, 10, 24, 1, false, false, true⟩

/-- A name that fits its column. -/
theorem printsField_iff_console :
    PrintsField deviceColumn [] [] ['c', 'o', 'n', 's', 'o', 'l', 'e'] ↔
      deviceColumn.rightPad = false ∨ 0 + 0 + max 7 1 ≤ 24 :=
  @printsField_iff deviceColumn [] [] ['c', 'o', 'n', 's', 'o', 'l', 'e'] (by decide)

/-- A name of 25 characters does not. -/
theorem printfDoPrint_long_name : ¬ ∀ (r : PrintfRunner) (prefix1 prefix2 what : List Char),
    prefix1.length + prefix2.length + max what.length r.precision.toNat < 2 ^ 64 →
    PrintsField r prefix1 prefix2 what := by
  intro h
  have hname := (h deviceColumn [] [] (List.replicate 25 'n') (by decide)).2
  rw [FieldFits.length_printfDoPrint_right (by rw [FieldFits, length_body]; decide) rfl
    (by rw [length_body]; decide)] at hname
  revert hname
  decide

end TeachingOs.Printf
