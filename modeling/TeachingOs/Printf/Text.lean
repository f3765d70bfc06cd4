import TeachingOs.Printf.Runner

/-!
# TeachingOs.Printf.Text

What the write function receives is what was pushed: the buffer can be
forgotten, and a call of `generic_printf` is a run of `printfStep`.
-/

namespace TeachingOs.Printf

open Transducer

/-! ## The buffer -/

/-- The characters that a write function that respects `bytes` sees. -/
def Chunk.text (c : Chunk) : List Char := c.data.toList.take c.bytes

/-- The characters pushed so far. -/
def Buffer.text (b : Buffer) : List Char := b.chunks.flatMap Chunk.text ++ b.buf.toList.take b.buflen

/-- The characters passed to the write function. -/
def Printed.text (p : Printed) : List Char := p.chunks.flatMap Chunk.text

/-- A flush passes the buffered characters on. -/
theorem flatMap_text_flush {buf : Vector Char bufSize} {buflen : Nat} (h : buflen < bufSize)
    (written : Word) (chunks : List Chunk) :
    (flush buf buflen h written chunks).chunks.flatMap Chunk.text =
      chunks.flatMap Chunk.text ++ buf.toList.take buflen := by
  simp [flush, Chunk.text, Vector.toList_set, List.take_set_of_le]

theorem text_printfPushChar (b : Buffer) (c : Char) : (printfPushChar b c).text = b.text ++ [c] := by
  have hroom := b.room
  have hpush : (b.buf.set b.buflen c).toList.take (b.buflen + 1) =
      b.buf.toList.take b.buflen ++ [c] := by
    rw [Vector.toList_set, List.take_succ_eq_append_getElem (by simp; omega),
      List.take_set_of_le (Nat.le_refl _)]
    simp
  rw [printfPushChar]
  split
  · next hfull =>
      rw [Buffer.text, flatMap_text_flush, hpush, flush, List.take_zero, List.append_nil,
        Buffer.text, List.append_assoc]
  · rw [Buffer.text, hpush, Buffer.text, List.append_assoc]

theorem text_foldl_printfPushChar (out : List Char) (b : Buffer) :
    (out.foldl printfPushChar b).text = b.text ++ out := by
  induction out generalizing b with
  | nil => exact (List.append_nil _).symm
  | cons c out ih =>
      rw [List.foldl_cons, ih, text_printfPushChar, List.append_assoc, List.singleton_append]

/-! ## The call -/

/-- The loop of `generic_printf` is a run that pushes its output. -/
theorem loop_eq (fmt : List Char) (pr : PrintfRunner) (b : Buffer) :
    loop fmt (pr, b) = (run printfStep fmt pr).map fun r => (r.1, r.2.foldl printfPushChar b) := by
  induction fmt generalizing pr b with
  | nil => rfl
  | cons c fmt ih =>
      rw [loop]
      cases hstep : printfStep pr c with
      | none => simp [run, hstep]
      | some r =>
          rw [run_cons hstep, Option.map_map]
          simp [ih, Function.comp_def]

/-- What the whole call passes on is what was pushed. -/
theorem text_printfFlush (garbage : Vector Char bufSize) (out : List Char) :
    (printfFlush (out.foldl printfPushChar (emptyBuffer garbage))).chunks.flatMap Chunk.text =
      out := by
  have h := text_foldl_printfPushChar out (emptyBuffer garbage)
  rw [printfFlush, flatMap_text_flush]
  exact h

/-- **The buffer is unobservable**: the characters written are the output of
the run, and the arguments left are those it leaves. -/
theorem genericPrintf_iff {garbage : Vector Char bufSize} {fmt out : List Char} {args va : List Arg} :
    (∃ p, genericPrintf garbage fmt args = some p ∧ p.va = va ∧ p.text = out) ↔
      ∃ pr, run printfStep fmt (printfRunner args) = some (pr, out) ∧ pr.va = va := by
  rw [genericPrintf, loop_eq]
  cases run printfStep fmt (printfRunner args) with
  | none => simp
  | some r =>
      obtain ⟨pr, out'⟩ := r
      constructor
      · rintro ⟨p, hp, rfl, rfl⟩
        cases hp
        exact ⟨pr, by rw [Printed.text, text_printfFlush], rfl⟩
      · rintro ⟨pr', h, rfl⟩
        cases h
        exact ⟨_, rfl, rfl, text_printfFlush garbage _⟩

end TeachingOs.Printf
