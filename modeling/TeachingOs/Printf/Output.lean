import Mathlib.Data.List.Forall2
import Mathlib.Logic.Function.Basic
import TeachingOs.Printf.Typed

/-!
# TeachingOs.Printf.Output

The output of `generic_printf` as the code keeps it: a byte array that
nothing protects, a `size_t` index into it, and calls of a write function
that is handed a pointer.  `Output` records which elements of the array a
call touches, and `printk_writefn` reads up to a NUL without looking at the
length.

The machine refines the buffer of `Printf.Runner`, whose index is in range
by its type (`Output.Refines`).
-/

namespace TeachingOs.Printf

open Transducer

/-! ## The code -/

/-- A call of the write function: the memory at `data` when it is made, and
`len`. -/
structure Write where
  data : Nat → Char
  len : Word

/-- The output half of `struct printf_runner`, with the memory from `buf` on,
the calls made and the elements touched. -/
structure Output where
  buf : Nat → Char
  buflen : Word
  written : Word
  calls : List Write
  accesses : List Nat

/-- `pr->buf[pr->buflen] = c`. -/
def Output.store (o : Output) (c : Char) : Output :=
  { o with
    buf := Function.update o.buf o.buflen.toNat c
    accesses := o.accesses ++ [o.buflen.toNat] }

@[simp] theorem Output.store_buf (o : Output) (c : Char) :
    (o.store c).buf = Function.update o.buf o.buflen.toNat c := rfl

@[simp] theorem Output.store_accesses (o : Output) (c : Char) :
    (o.store c).accesses = o.accesses ++ [o.buflen.toNat] := rfl

/-- `printf_flush`. -/
def Output.printfFlush (o : Output) : Output :=
  let o := o.store '\x00'
  { o with
    calls := o.calls ++ [⟨o.buf, o.buflen⟩]
    written := o.written + o.buflen
    buflen := 0 }

/-- `printf_push_char`. -/
def Output.printfPushChar (o : Output) (c : Char) : Output :=
  let o := { o.store c with buflen := o.buflen + 1 }
  if o.buflen + 1 ≥ 32 then o.printfFlush else o

/-- The loop of `generic_printf`. -/
def Output.loop : List Char → PrintfRunner × Output → Option (PrintfRunner × Output)
  | [], s => some s
  | c :: fmt, (pr, o) => do
    let (pr, out) ← printfStep pr c
    Output.loop fmt (pr, out.foldl Output.printfPushChar o)

/-- `generic_printf`, over whatever the memory holds; it returns `written`. -/
def Output.genericPrintf (mem : Nat → Char) (fmt : List Char) (args : List Arg) : Option Output := do
  let (_, o) ← Output.loop fmt (printfRunner args, ⟨mem, 0, 0, [], []⟩)
  return o.printfFlush

/-- `printk_writefn`: the characters it gives to `con_putc`, or `none` where
it has not met a NUL after `fuel` characters. -/
def printkWritefn : Nat → (Nat → Char) → Option (List Char)
  | 0, _ => none
  | fuel + 1, data =>
      if data 0 = '\x00' then some []
      else (printkWritefn fuel fun i => data (i + 1)).map (data 0 :: ·)

/-- `vprintk`: the characters that reach the console. -/
def vprintk (fuel : Nat) (mem : Nat → Char) (fmt : List Char) (args : List Arg) :
    Option (List Char) := do
  let o ← Output.genericPrintf mem fmt args
  let texts ← o.calls.mapM fun w => printkWritefn fuel w.data
  return texts.flatten

/-- The characters that a write function that respects `len` sees. -/
def Write.text (w : Write) : List Char := (List.range w.len.toNat).map w.data

/-! ## The machine refines the buffer -/

/-- The same 32 characters, the same length. -/
structure Write.Refines (w : Write) (c : Chunk) : Prop where
  data : ∀ i (h : i < bufSize), w.data i = c.data[i]
  len : w.len = .ofNat 64 c.bytes

/-- The machine's state, and every access so far within the array. -/
structure Output.Shows (o : Output) (buf : Vector Char bufSize) (buflen : Nat) (written : Word)
    (chunks : List Chunk) : Prop where
  buf : ∀ i (h : i < bufSize), o.buf i = buf[i]
  buflen : o.buflen = .ofNat 64 buflen
  written : o.written = written
  calls : List.Forall₂ Write.Refines o.calls chunks
  inside : ∀ i ∈ o.accesses, i < bufSize

/-- The machine and the buffer agree. -/
def Output.Refines (o : Output) (b : Buffer) : Prop := o.Shows b.buf b.buflen b.written b.chunks

variable {o : Output} {b : Buffer} {buf : Vector Char bufSize} {n : Nat} {written : Word}
  {chunks : List Chunk}

theorem Output.Shows.toNat_buflen (h : o.Shows buf n written chunks) (hn : n < bufSize) :
    o.buflen.toNat = n := by
  rw [h.buflen, BitVec.toNat_ofNat]
  exact Nat.mod_eq_of_lt (Nat.lt_trans hn (by decide))

theorem Output.Shows.store (h : o.Shows buf n written chunks) (hn : n < bufSize) (c : Char) :
    (o.store c).Shows (buf.set n c) n written chunks := by
  have hlen := h.toNat_buflen hn
  refine ⟨fun i hi => ?_, h.buflen, h.written, h.calls, fun i hi => ?_⟩
  · rw [Output.store_buf, hlen, Vector.getElem_set]
    by_cases hin : i = n
    · subst hin
      rw [Function.update_self, if_pos rfl]
    · rw [Function.update_of_ne hin, if_neg (Ne.symm hin), h.buf]
  · rw [Output.store_accesses, hlen, List.mem_append, List.mem_singleton] at hi
    rcases hi with hi | rfl
    · exact h.inside i hi
    · exact hn

theorem Output.Shows.flush (h : o.Shows buf n written chunks) (hn : n < bufSize) :
    o.printfFlush.Refines (flush buf n hn written chunks) := by
  have hs := h.store hn '\x00'
  have hcall : Write.Refines ⟨(o.store '\x00').buf, (o.store '\x00').buflen⟩
      ⟨buf.set n '\x00', n⟩ := ⟨hs.buf, hs.buflen⟩
  refine ⟨hs.buf, rfl, ?_, ?_, hs.inside⟩
  · change (o.store '\x00').written + (o.store '\x00').buflen = written + .ofNat 64 n
    rw [hs.written, hs.buflen]
  · exact List.rel_append hs.calls (.cons hcall .nil)

theorem Output.Refines.push (h : o.Refines b) (c : Char) :
    (o.printfPushChar c).Refines (Printf.printfPushChar b c) := by
  have hroom := b.room
  have hs := Output.Shows.store h (Nat.lt_of_succ_lt hroom) c
  have hlen : (o.store c).buflen + 1 = .ofNat 64 (b.buflen + 1) := by
    rw [hs.buflen]
    bv_omega
  have hpushed : ({ o.store c with buflen := o.buflen + 1 } : Output).Shows
      (b.buf.set b.buflen c) (b.buflen + 1) b.written b.chunks :=
    ⟨hs.buf, hlen, hs.written, hs.calls, hs.inside⟩
  have hfull : (o.buflen + 1 + 1 ≥ 32) ↔ b.buflen + 1 + 1 ≥ bufSize := by
    have hnat := Output.Shows.toNat_buflen h (Nat.lt_of_succ_lt hroom)
    change b.buflen + 1 < 32 at hroom
    change 32 ≤ o.buflen + 1 + 1 ↔ 32 ≤ b.buflen + 1 + 1
    rw [BitVec.le_def]
    bv_omega
  unfold Output.printfPushChar Printf.printfPushChar
  by_cases hb : b.buflen + 1 + 1 ≥ bufSize
  · rw [dif_pos hb]
    simp only [if_pos (hfull.mpr hb)]
    exact hpushed.flush _
  · rw [dif_neg hb]
    simp only [if_neg fun h => hb (hfull.mp h)]
    exact hpushed

theorem Output.Refines.foldl (h : o.Refines b) (out : List Char) :
    (out.foldl Output.printfPushChar o).Refines (out.foldl Printf.printfPushChar b) := by
  induction out generalizing o b with
  | nil => exact h
  | cons c out ih => exact ih (h.push c)

/-- The loop is a run that pushes its output. -/
theorem Output.loop_eq (fmt : List Char) (pr : PrintfRunner) (o : Output) :
    Output.loop fmt (pr, o) =
      (run printfStep fmt pr).map fun r => (r.1, r.2.foldl Output.printfPushChar o) := by
  induction fmt generalizing pr o with
  | nil => rfl
  | cons c fmt ih =>
      rw [Output.loop]
      cases hstep : printfStep pr c with
      | none => simp [run, hstep]
      | some r =>
          rw [run_cons hstep, Option.map_map]
          simp [ih, Function.comp_def]

/-! ## What the buffer passes on -/

/-- A chunk ends in a NUL inside the array. -/
def Chunk.Terminated (c : Chunk) : Prop := ∃ h : c.bytes < bufSize, c.data[c.bytes] = '\x00'

/-- All chunks end in a NUL, and their characters have been counted. -/
structure Sealed (chunks : List Chunk) (written : Word) : Prop where
  terminated : ∀ c ∈ chunks, c.Terminated
  written : written = .ofNat 64 (chunks.flatMap Chunk.text).length

theorem Chunk.Terminated.length_text {c : Chunk} (h : c.Terminated) : c.text.length = c.bytes := by
  obtain ⟨hlt, -⟩ := h
  simp only [Chunk.text, List.length_take, Vector.length_toList]
  omega

theorem Sealed.flush (h : Sealed chunks written) (hn : n < bufSize) :
    Sealed (flush buf n hn written chunks).chunks (flush buf n hn written chunks).written := by
  have hlast : Chunk.Terminated ⟨buf.set n '\x00', n⟩ := ⟨hn, Vector.getElem_set_self hn⟩
  unfold Printf.flush
  refine ⟨fun c hc => ?_, ?_⟩
  · rcases List.mem_append.mp hc with hc | hc
    · exact h.terminated c hc
    · rw [List.mem_singleton.mp hc]
      exact hlast
  · rw [List.flatMap_append, List.length_append, List.flatMap_singleton, hlast.length_text,
      h.written, BitVec.ofNat_add]

theorem Sealed.push (h : Sealed b.chunks b.written) (c : Char) :
    Sealed (printfPushChar b c).chunks (printfPushChar b c).written := by
  unfold printfPushChar
  by_cases hb : b.buflen + 1 + 1 ≥ bufSize
  · rw [dif_pos hb]
    exact h.flush _
  · rw [dif_neg hb]
    exact h

theorem Sealed.foldl (h : Sealed b.chunks b.written) (out : List Char) :
    Sealed (out.foldl printfPushChar b).chunks (out.foldl printfPushChar b).written := by
  induction out generalizing b with
  | nil => exact h
  | cons c out ih => exact ih (h.push c)

/-! ## What the write function sees -/

theorem Write.Refines.text {w : Write} {c : Chunk} (h : w.Refines c) (hc : c.Terminated) :
    w.text = c.text := by
  obtain ⟨hlt, -⟩ := hc
  have hlen : w.len.toNat = c.bytes := by
    rw [h.len, BitVec.toNat_ofNat]
    exact Nat.mod_eq_of_lt (Nat.lt_trans hlt (by decide))
  refine List.ext_getElem ?_ fun i hi hi' => ?_
  · simp only [Write.text, Chunk.text, List.length_map, List.length_range, List.length_take,
      Vector.length_toList]
    omega
  · simp only [Chunk.text, List.length_take, Vector.length_toList] at hi'
    simp [Write.text, Chunk.text, h.data i (by omega)]

theorem flatMap_text {calls : List Write} (h : List.Forall₂ Write.Refines calls chunks)
    (hc : ∀ c ∈ chunks, c.Terminated) : calls.flatMap Write.text = chunks.flatMap Chunk.text := by
  induction h with
  | nil => rfl
  | cons hw _ ih =>
      rw [List.forall_mem_cons] at hc
      rw [List.flatMap_cons, List.flatMap_cons, hw.text hc.1, ih hc.2]

/-- What a consumer may rely on: a length within the array, a NUL there, and
none before. -/
structure Write.CString (w : Write) : Prop where
  len : w.len ≤ 31
  terminated : w.data w.len.toNat = '\x00'
  nulFree : ∀ i < w.len.toNat, w.data i ≠ '\x00'

theorem Write.Refines.cString {w : Write} {c : Chunk} (h : w.Refines c) (hc : c.Terminated)
    (hfree : '\x00' ∉ w.text) : w.CString := by
  obtain ⟨hlt, hend⟩ := hc
  have hlen : w.len.toNat = c.bytes := by
    rw [h.len, BitVec.toNat_ofNat]
    exact Nat.mod_eq_of_lt (Nat.lt_trans hlt (by decide))
  refine ⟨?_, ?_, fun i hi hnul => hfree ?_⟩
  · rw [BitVec.le_def, hlen]
    exact Nat.le_of_lt_succ hlt
  · rw [hlen, h.data _ hlt, hend]
  · rw [← hnul]
    exact List.mem_map_of_mem (List.mem_range.mpr hi)

theorem cString_of_mem {calls : List Write} (h : List.Forall₂ Write.Refines calls chunks)
    (hc : ∀ c ∈ chunks, c.Terminated) (hfree : '\x00' ∉ calls.flatMap Write.text) :
    ∀ w ∈ calls, w.CString := by
  induction h with
  | nil => exact fun w hw => absurd hw List.not_mem_nil
  | cons hw _ ih =>
      rw [List.forall_mem_cons] at hc ⊢
      rw [List.flatMap_cons, List.mem_append, not_or] at hfree
      exact ⟨hw.cString hc.1 hfree.1, ih hc.2 hfree.2⟩

/-- `printk_writefn` stops at the first NUL. -/
theorem printkWritefn_eq {fuel : Nat} {data : Nat → Char} (hend : data n = '\x00')
    (hfree : ∀ i < n, data i ≠ '\x00') (hfuel : n < fuel) :
    printkWritefn fuel data = some ((List.range n).map data) := by
  induction n generalizing fuel data with
  | zero =>
      obtain ⟨fuel, rfl⟩ := Nat.exists_eq_succ_of_ne_zero (Nat.pos_iff_ne_zero.mp hfuel)
      rw [printkWritefn, if_pos hend]
      rfl
  | succ n ih =>
      obtain ⟨fuel, rfl⟩ := Nat.exists_eq_succ_of_ne_zero (Nat.ne_zero_of_lt hfuel)
      have hrest : printkWritefn fuel (fun i => data (i + 1)) =
          some ((List.range n).map fun i => data (i + 1)) :=
        ih hend (fun i hi => hfree (i + 1) (Nat.succ_lt_succ hi)) (Nat.lt_of_succ_lt_succ hfuel)
      rw [printkWritefn, if_neg (hfree 0 (Nat.succ_pos n)), hrest, Option.map_some,
        List.range_succ_eq_map, List.map_cons, List.map_map]
      rfl

/-- The length-driven and the NUL-driven consumer see the same. -/
theorem Write.CString.printkWritefn {w : Write} (h : w.CString) {fuel : Nat}
    (hfuel : bufSize ≤ fuel) : printkWritefn fuel w.data = some w.text := by
  have hlen := BitVec.le_def.mp h.len
  have h31 : (31 : Word).toNat = 31 := rfl
  have hsize : bufSize = 32 := rfl
  exact printkWritefn_eq h.terminated h.nulFree (by omega)

theorem mapM_printkWritefn {calls : List Write} (h : ∀ w ∈ calls, w.CString) {fuel : Nat}
    (hfuel : bufSize ≤ fuel) :
    (calls.mapM fun w => Printf.printkWritefn fuel w.data) = some (calls.map Write.text) := by
  induction calls with
  | nil => rfl
  | cons w calls ih =>
      rw [List.forall_mem_cons] at h
      rw [List.mapM_cons, h.1.printkWritefn hfuel, ih h.2]
      rfl

/-! ## The call -/

/-- The arguments are what C lets a caller pass for the format. -/
structure Callable (fmt : List Char) (args : List Arg) : Prop where
  format : '\x00' ∉ fmt
  strings : ∀ a ∈ args, a.count '\x00' = 0
  typed : WellTyped false fmt args = true

/-- What the buffer holds after `out` has been pushed and flushed. -/
def outputBuffer (mem : Nat → Char) (out : List Char) : Buffer :=
  printfFlush (out.foldl printfPushChar (emptyBuffer (Vector.ofFn fun i => mem i)))

theorem sealed_outputBuffer (mem : Nat → Char) (out : List Char) :
    Sealed (outputBuffer mem out).chunks (outputBuffer mem out).written := by
  have hempty : Sealed (emptyBuffer (Vector.ofFn fun i => mem i)).chunks 0 :=
    ⟨fun c hc => absurd hc List.not_mem_nil, rfl⟩
  exact (Sealed.foldl hempty out).flush _

theorem refines_outputBuffer (mem : Nat → Char) (out : List Char) :
    (out.foldl Output.printfPushChar ⟨mem, 0, 0, [], []⟩).printfFlush.Refines (outputBuffer mem out) := by
  have hempty : Output.Refines ⟨mem, 0, 0, [], []⟩ (emptyBuffer (Vector.ofFn fun i => mem i)) := by
    refine ⟨fun i hi => ?_, rfl, rfl, .nil, fun i hi => absurd hi List.not_mem_nil⟩
    rw [emptyBuffer, Vector.getElem_ofFn]
  exact (hempty.foldl out).flush _

/-- A call that runs leaves the machine as the buffer, and counts what it
pushes in a `size_t`. -/
theorem Output.genericPrintf_of_run (mem : Nat → Char) {fmt out : List Char} {args : List Arg}
    {pr : PrintfRunner} (hrun : run printfStep fmt (printfRunner args) = some (pr, out)) :
    ∃ o, Output.genericPrintf mem fmt args = some o ∧ o.Refines (outputBuffer mem out) ∧
      o.written = .ofNat 64 out.length := by
  have hrefines := refines_outputBuffer mem out
  have hwritten := hrefines.written.trans (sealed_outputBuffer mem out).written
  rw [show (outputBuffer mem out).chunks.flatMap Chunk.text = out from text_printfFlush _ out]
    at hwritten
  refine ⟨_, ?_, hrefines, hwritten⟩
  rw [Output.genericPrintf, Output.loop_eq, hrun]
  rfl

/-- **The output buffer is unobservable.**  The chunks are the characters
pushed, cut into C strings that fit the array; no access leaves the array;
the count is the number of characters as a `size_t`; and `printk` sends the
same characters although it does not look at the lengths. -/
theorem genericPrintf_output (mem : Nat → Char) {fmt : List Char} {args : List Arg}
    (h : Callable fmt args) : ∃ o pr out, Output.genericPrintf mem fmt args = some o ∧
      run printfStep fmt (printfRunner args) = some (pr, out) ∧
      o.calls.flatMap Write.text = out ∧ (∀ w ∈ o.calls, w.CString) ∧
      (∀ i ∈ o.accesses, i < bufSize) ∧ o.written = .ofNat 64 out.length ∧
      ∀ fuel, bufSize ≤ fuel → vprintk fuel mem fmt args = some out := by
  have hready : Ready (printfRunner args) fmt := ⟨h.typed, h.format, h.strings⟩
  obtain ⟨pr, out, hrun, hfree⟩ := hready.run
  obtain ⟨o, hcall, hrefines, hwritten⟩ := Output.genericPrintf_of_run mem hrun
  have hsealed := sealed_outputBuffer mem out
  have htext : o.calls.flatMap Write.text = out :=
    (flatMap_text hrefines.calls hsealed.terminated).trans (text_printfFlush _ out)
  have hstrings : ∀ w ∈ o.calls, w.CString :=
    cString_of_mem hrefines.calls hsealed.terminated (by rw [htext]; exact hfree)
  refine ⟨o, pr, out, hcall, hrun, htext, hstrings, hrefines.inside, hwritten, ?_⟩
  intro fuel hfuel
  rw [vprintk, hcall, Option.bind_eq_bind, Option.bind_some, mapM_printkWritefn hstrings hfuel,
    Option.bind_eq_bind, Option.bind_some, ← List.flatMap_def, htext]
  rfl

/-- A call with two chunks: 28 spaces and four characters. -/
theorem genericPrintf_output_two_chunks : Callable ['%', '2', '9', 's', '%', 'd', '!'] [.str ['k'], .word 42] ∧
    ∃ o pr out, Output.genericPrintf (fun _ => 'z') ['%', '2', '9', 's', '%', 'd', '!']
        [.str ['k'], .word 42] = some o ∧
      run printfStep ['%', '2', '9', 's', '%', 'd', '!'] (printfRunner [.str ['k'], .word 42]) =
        some (pr, out) ∧
      o.calls.flatMap Write.text = out ∧ (∀ w ∈ o.calls, w.CString) ∧
      (∀ i ∈ o.accesses, i < bufSize) ∧ o.written = .ofNat 64 out.length ∧
      ∀ fuel, bufSize ≤ fuel → vprintk fuel (fun _ => 'z') ['%', '2', '9', 's', '%', 'd', '!']
        [.str ['k'], .word 42] = some out :=
  have h : Callable ['%', '2', '9', 's', '%', 'd', '!'] [.str ['k'], .word 42] :=
    ⟨by decide, by decide, by decide⟩
  ⟨h, genericPrintf_output (fun _ => 'z') h⟩

/-- The digits of the largest `size_t`. -/
def sizeMaxDigits : List Char := ['1', '8', '4', '4', '6', '7', '4', '4', '0', '7', '3', '7', '0',
  '9', '5', '5', '1', '6', '1', '5']

/-- `a%.18446744073709551615s`. -/
def widestFormat : List Char := ['a', '%', '.'] ++ (sizeMaxDigits ++ ['s'])

/-- The runner before the conversion of `widestFormat`. -/
def widestRunner (va : List Arg) : PrintfRunner :=
  ⟨va, true, false, 10, 0, 18446744073709551615, true, false, false⟩

theorem run_sizeMaxDigits (va : List Arg) :
    run printfStep sizeMaxDigits { widestRunner va with precision := 0 } =
      some (widestRunner va, []) := by
  have hvalue : appendDigits 0 sizeMaxDigits = 18446744073709551615 := by decide
  rw [run_precision rfl rfl (by simp [sizeMaxDigits]), hvalue]
  rfl

/-- Without a field width, a precision above the length is filled with zeroes. -/
theorem length_printfDoPrint {pr : PrintfRunner} {what : List Char} (hwidth : pr.fieldWidth = 0)
    (hright : pr.rightPad = false) (hlt : BitVec.ofNat 64 what.length < pr.precision) :
    (printfDoPrint pr [] [] what).2.length =
      (pr.precision - .ofNat 64 what.length).toNat + what.length := by
  simp [printfDoPrint, hwidth, hright, hlt]

/-- One character and the largest precision: 2^64 characters, of which the
count keeps nothing. -/
theorem genericPrintf_count_wraps : Callable widestFormat [.str ['b']] ∧
    ∃ o pr out, Output.genericPrintf (fun _ => 'z') widestFormat [.str ['b']] = some o ∧
      run printfStep widestFormat (printfRunner [.str ['b']]) = some (pr, out) ∧
      o.written.toNat ≠ out.length := by
  have hopen : run printfStep ['a', '%', '.'] (printfRunner [.str ['b']]) =
      some ({ widestRunner [.str ['b']] with precision := 0 }, ['a']) := rfl
  have hconvert : printfStep (widestRunner [.str ['b']]) 's' =
      some (printfDoPrint (widestRunner []) [] [] ['b']) := rfl
  obtain ⟨p, hp⟩ : ∃ p, p = printfDoPrint (widestRunner []) [] [] ['b'] := ⟨_, rfl⟩
  have hlength : p.2.length = 18446744073709551615 := by
    rw [hp, length_printfDoPrint rfl rfl (by decide)]
    decide
  rw [← hp] at hconvert
  have hs := run_append_eq_some.mpr ⟨_, _, _, run_sizeMaxDigits [.str ['b']],
    run_cons (l := []) hconvert, rfl⟩
  have hrun := run_append_eq_some.mpr ⟨_, _, _, hopen, hs, rfl⟩
  obtain ⟨o, hcall, -, hwritten⟩ := Output.genericPrintf_of_run (fun _ => 'z') hrun
  refine ⟨⟨by decide, by decide, by decide⟩, o, _, _, hcall, hrun, ?_⟩
  rw [hwritten, List.length_append, List.nil_append, List.append_nil, hlength]
  decide

end TeachingOs.Printf
