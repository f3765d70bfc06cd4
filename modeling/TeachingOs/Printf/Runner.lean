import TeachingOs.Basic
import TeachingOs.Lib.Transducer

/-!
# TeachingOs.Printf.Runner

`generic_printf` of `lib/libc/printf.c`.  A C string is the list of the
characters before its NUL.  No decision of a step looks at the output
buffer, so a step is modelled by the characters it gives to
`printf_push_char`, in order, and the buffer is a machine of its own that
receives them.
-/

namespace TeachingOs.Printf

/-! ## The variable arguments -/

/-- An argument: a 64-bit word or a string. -/
inductive Arg where
  | word (value : Word)
  | str (s : List Char)

/-- `va_arg` at `long long` or `void*`; `none` where the arguments are used
up or of another type, which C leaves undefined. -/
def vaWord : List Arg → Option (Word × List Arg)
  | .word value :: va => some (value, va)
  | _ => none

/-- `va_arg` at `const char*`. -/
def vaString : List Arg → Option (List Char × List Arg)
  | .str s :: va => some (s, va)
  | _ => none

/-! ## The runner -/

/-- `struct printf_runner` without the output. -/
structure PrintfRunner where
  va : List Arg
  inFmt : Bool
  enableBasePrefix : Bool
  base : Nat
  fieldWidth : Word
  precision : Word
  inPrecision : Bool
  zeroPad : Bool
  rightPad : Bool

/-- `printf_do_print`, with the characters it pushes. -/
def printfDoPrint (pr : PrintfRunner) (prefix1 prefix2 what : List Char) :
    PrintfRunner × List Char :=
  let prefix1Len : Word := .ofNat 64 prefix1.length
  let prefix2Len : Word := .ofNat 64 prefix2.length
  let whatLen : Word := .ofNat 64 what.length
  let totalLen := prefix1Len + prefix2Len + whatLen
  let totalLen := if whatLen < pr.precision then totalLen + (pr.precision - whatLen) else totalLen
  let leftPad := if totalLen < pr.fieldWidth ∧ !pr.rightPad then
    List.replicate (pr.fieldWidth - totalLen).toNat (if pr.zeroPad then '0' else ' ') else []
  let zeroes := if whatLen < pr.precision then
    List.replicate (pr.precision - whatLen).toNat '0' else []
  let rightPad := if pr.rightPad then
    List.replicate (pr.fieldWidth - totalLen).toNat ' ' else []
  ({ pr with inFmt := false }, leftPad ++ prefix1 ++ prefix2 ++ zeroes ++ what ++ rightPad)

/-- `numerals`. -/
def numerals : List Char :=
  ['0', '1', '2', '3', '4', '5', '6', '7', '8', '9', 'a', 'b', 'c', 'd', 'e', 'f']

/-- `INT_BUF_SIZE`. -/
def intBufSize : Nat := 64 / 3

/-- The loop of `printf_do_uint`, with `at` characters left below the
pointer and `text` from the pointer on; `none` when it leaves the buffer. -/
def digitLoop (base : Nat) : Nat → Nat → List Char → Option (List Char)
  | _, 0, text => some text
  | 0, _ + 1, _ => none
  | at' + 1, value, text => do
    let numeral ← numerals[value % base]?
    digitLoop base at' (value / base) (numeral :: text)

/-- `printf_do_uint`. -/
def printfDoUint (pr : PrintfRunner) (value : Word) (signPrefix : List Char) :
    Option (PrintfRunner × List Char) := do
  let text ← digitLoop pr.base (intBufSize - 1) value.toNat []
  let basePrefix := if pr.enableBasePrefix ∧ pr.base = 16 then ['0', 'x'] else []
  return printfDoPrint pr signPrefix basePrefix text

/-- `printf_do_int`. -/
def printfDoInt (pr : PrintfRunner) (value : Word) : Option (PrintfRunner × List Char) :=
  if value.toInt < 0 then printfDoUint pr (-value) ['-'] else printfDoUint pr value []

/-- `printf_begin_fmt`. -/
def printfBeginFmt (pr : PrintfRunner) : PrintfRunner :=
  { pr with
    inFmt := true
    enableBasePrefix := false
    base := 10
    fieldWidth := 0
    precision := 1
    inPrecision := false
    zeroPad := false
    rightPad := false }

/-- A digit of the format, in the precision or in the field width. -/
def formatDigit (pr : PrintfRunner) (next : Char) : PrintfRunner :=
  let digit : Word := .ofNat 64 (next.toNat - '0'.toNat)
  if pr.inPrecision then { pr with precision := pr.precision * 10 + digit }
  else if pr.fieldWidth = 0 ∧ next = '0' then { pr with zeroPad := true }
  else { pr with fieldWidth := pr.fieldWidth * 10 + digit }

/-- The conversion `d`, `p`, `x` or `s`. -/
def convert (pr : PrintfRunner) (next : Char) : Option (PrintfRunner × List Char) :=
  if next = 'd' then do
    let (value, va) ← vaWord pr.va
    printfDoInt { pr with va, base := 10 } value
  else if next = 'p' then do
    let (arg, va) ← vaWord pr.va
    if arg = 0 then return printfDoPrint { pr with va } [] [] ['(', 'n', 'u', 'l', 'l', ')']
    else printfDoUint { pr with va, enableBasePrefix := true, base := 16 } arg []
  else if next = 'x' then do
    let (value, va) ← vaWord pr.va
    printfDoInt { pr with va, base := 16 } value
  else do
    let (s, va) ← vaString pr.va
    return printfDoPrint { pr with va } [] [] s

/-- The characters that end a conversion. -/
def isConversion (c : Char) : Bool := c = 'd' || c = 'p' || c = 'x' || c = 's'

/-- The characters that `printf_step` takes for options inside a format. -/
def isOption (c : Char) : Bool := c = '#' || c = '-' || c = '.' || c.isDigit

/-- An option inside a format. -/
def setOption (pr : PrintfRunner) (next : Char) : PrintfRunner :=
  if next = '#' then { pr with enableBasePrefix := true }
  else if next = '-' then { pr with rightPad := true }
  else if next = '.' then { pr with precision := 0, inPrecision := true }
  else formatDigit pr next

/-- `printf_step`, with the characters it pushes.  The last case, which
prints the character, stays inside the format. -/
def printfStep (pr : PrintfRunner) (next : Char) : Option (PrintfRunner × List Char) :=
  if !pr.inFmt then
    if next = '%' then some (printfBeginFmt pr, []) else some (pr, [next])
  else if isOption next then some (setOption pr next, [])
  else if isConversion next then convert pr next
  else some (pr, [next])

/-! ## The output buffer -/

/-- `PRINTF_RUNNER_BUFSIZE`. -/
abbrev bufSize : Nat := 32

/-- What one call of the write function receives. -/
structure Chunk where
  data : Vector Char bufSize
  bytes : Nat

/-- The output half of `struct printf_runner`: between pushes there is room
for a character and its terminator. -/
structure Buffer where
  buf : Vector Char bufSize
  buflen : Nat
  room : buflen + 1 < bufSize
  written : Word
  chunks : List Chunk

/-- `printf_flush` of the first `buflen` characters of `buf`. -/
def flush (buf : Vector Char bufSize) (buflen : Nat) (h : buflen < bufSize) (written : Word)
    (chunks : List Chunk) : Buffer where
  buf := buf.set buflen '\x00'
  buflen := 0
  room := by decide
  written := written + .ofNat 64 buflen
  chunks := chunks ++ [⟨buf.set buflen '\x00', buflen⟩]

/-- `printf_push_char`. -/
def printfPushChar (b : Buffer) (c : Char) : Buffer :=
  have := b.room
  let buf := b.buf.set b.buflen c
  if h : b.buflen + 1 + 1 ≥ bufSize then
    flush buf (b.buflen + 1) (by omega) b.written b.chunks
  else { b with buf, buflen := b.buflen + 1, room := by omega }

/-- `printf_flush`. -/
def printfFlush (b : Buffer) : Buffer :=
  have := b.room
  flush b.buf b.buflen (by omega) b.written b.chunks

/-- Nothing written yet, over whatever the stack holds. -/
def emptyBuffer (garbage : Vector Char bufSize) : Buffer :=
  ⟨garbage, 0, by decide, 0, []⟩

/-- A step of the runner and the pushes it makes. -/
def loop : List Char → PrintfRunner × Buffer → Option (PrintfRunner × Buffer)
  | [], s => some s
  | c :: fmt, (pr, b) => do
    let (pr, out) ← printfStep pr c
    loop fmt (pr, out.foldl printfPushChar b)

/-- The runner as `generic_printf` initialises it. -/
def printfRunner (va : List Arg) : PrintfRunner :=
  ⟨va, false, false, 0, 0, 0, false, false, false⟩

/-- What `generic_printf` passes to its write function and returns, and the
arguments it has not read. -/
structure Printed where
  chunks : List Chunk
  written : Word
  va : List Arg

/-- `generic_printf`. -/
def genericPrintf (garbage : Vector Char bufSize) (fmt : List Char) (args : List Arg) :
    Option Printed := do
  let (pr, b) ← loop fmt (printfRunner args, emptyBuffer garbage)
  let b := printfFlush b
  return ⟨b.chunks, b.written, pr.va⟩

end TeachingOs.Printf
