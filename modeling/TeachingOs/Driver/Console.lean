import TeachingOs.Device.List
import TeachingOs.Driver.Uart
import TeachingOs.Printf.Output
import TeachingOs.Printf.Plain

/-!
# TeachingOs.Driver.Console

From `printk` to the serial line: `kern/lib/printk.c` calls `console_dev`,
which is `drivers/generic/con_vt100.c` once that is installed, which calls
`con_vt100_dev` in turn.  Tasks that print share the line and are preempted
between any two accesses.

* `console_ordered`: in every run what the line carries of a task is in the
  order in which the task printed it, nothing twice;
* `console_lossless`: all of it, while no task is between its look and its
  write when another one writes;
* `console_completes`: under a fair schedule every `printk` returns.
-/

namespace TeachingOs.Driver

open Device Port Printf Transducer

/-! ## The code -/

/-- The devices, by name. -/
inductive DeviceName where
  | console
  | conVt100
deriving DecidableEq

/-- The drivers, and the drivers before any is installed. -/
inductive ConsoleDriver where
  | consoleNulldev
  | conVt100
  | conVt100Nulldev
  | miniuart
deriving DecidableEq

/-- `DEFINE_DEVICE(console, ...)` and `DEFINE_DEVICE(con_vt100)`. -/
def consoleNulldevs : DeviceName → ConsoleDriver
  | .console => .consoleNulldev
  | .conVt100 => .conVt100Nulldev

/-- `con_vt100_init`. -/
def conVt100Init (s : Devices DeviceName ConsoleDriver) : Devices DeviceName ConsoleDriver :=
  installDevice .console .conVt100 s

/-- `miniuart_init`. -/
def miniuartInit (s : Devices DeviceName ConsoleDriver) : Devices DeviceName ConsoleDriver :=
  installDevice .conVt100 .miniuart (conVt100Init s)

/-- `con_vt100_dev->putc(c)`; `none` is a call of a null pointer, or of a driver
without that function. -/
def vt100Putc (dev : DeviceName → ConsoleDriver) (c : Char) : Option (Access Unit) :=
  match dev .conVt100 with
  | .miniuart => some (uartWriteByteBlockingActual c)
  | _ => none

/-- `console_dev->con_putc(c)`. -/
def conPutc (dev : DeviceName → ConsoleDriver) (c : Char) : Option (Access Unit) :=
  match dev .console with
  | .consoleNulldev => some (pure ())
  | .conVt100 => vt100Putc dev c
  | _ => none

/-- Character after character. -/
def conPutAll (dev : DeviceName → ConsoleDriver) : List Char → Option (Access Unit)
  | [] => some (pure ())
  | c :: text => do
      let putc ← conPutc dev c
      let rest ← conPutAll dev text
      some (putc >>= fun _ => rest)

/-- The arguments of a call of `printk`, and what its stack frame holds. -/
structure PrintkCall where
  fmt : List Char
  args : List Arg
  stack : Nat → Char

/-- `printk`. -/
def printk (fuel : Nat) (dev : DeviceName → ConsoleDriver) (c : PrintkCall) :
    Option (Access Unit) := do
  let text ← vprintk fuel c.stack c.fmt c.args
  conPutAll dev text

/-- One call after another. -/
def printkAll (fuel : Nat) (dev : DeviceName → ConsoleDriver) :
    List PrintkCall → Option (Access Unit)
  | [] => some (pure ())
  | c :: calls => do
      let first ← printk fuel dev c
      let rest ← printkAll fuel dev calls
      some (first >>= fun _ => rest)

/-- `CON_ACT_CHAR`. -/
def conActChar : BitVec 16 := 0x0000

/-- `vt100_poll` with the serial line behind it: what it stores in `*out`, if
anything.  A `char` is unsigned on the target. -/
def vt100Poll : Access (Option (BitVec 16)) := do
  match ← uartReadByte with
  | some buf => pure (some (conActChar ||| buf.setWidth 16))
  | none => pure none

/-- `n` calls of `vt100_poll`. -/
def polls : Nat → Access (List (Option (BitVec 16)))
  | 0 => pure []
  | n + 1 => do
      let first ← vt100Poll
      let rest ← polls n
      pure (first :: rest)

/-! ## What a task prints -/

/-- What a call formats. -/
def PrintkCall.text (c : PrintkCall) : List Char :=
  ((run printfStep c.fmt (printfRunner c.args)).map Prod.snd).getD []

/-- What C lets a caller pass. -/
def PrintkCall.Ok (c : PrintkCall) : Prop := Callable c.fmt c.args

/-- The bytes of a text on the line. -/
def lineBytes (text : List Char) : List (BitVec 8) := text.map charByte

theorem vprintk_of_ok {c : PrintkCall} (h : c.Ok) {fuel : Nat} (hfuel : bufSize ≤ fuel) :
    vprintk fuel c.stack c.fmt c.args = some c.text := by
  have hready : Ready (printfRunner c.args) c.fmt := ⟨h.typed, h.format, h.strings⟩
  obtain ⟨pr, out, hrun, hfree⟩ := hready.run
  obtain ⟨o, hcall, hrefines, -⟩ := Output.genericPrintf_of_run c.stack hrun
  have hsealed := sealed_outputBuffer c.stack out
  have htext : o.calls.flatMap Write.text = out :=
    (flatMap_text hrefines.calls hsealed.terminated).trans (text_printfFlush _ out)
  have hstrings : ∀ w ∈ o.calls, w.CString :=
    cString_of_mem hrefines.calls hsealed.terminated (by rw [htext]; exact hfree)
  rw [vprintk, hcall, Option.bind_eq_bind, Option.bind_some, mapM_printkWritefn hstrings hfuel,
    Option.bind_eq_bind, Option.bind_some, ← List.flatMap_def, htext, PrintkCall.text, hrun]
  rfl

/-- The call's format and arguments, in pieces. -/
structure PrintkCall.Plain (c : PrintkCall) (pieces : List Piece) : Prop where
  fmt : c.fmt = formatOf pieces
  args : c.args = argsOf pieces
  ok : ∀ piece ∈ pieces, piece.Ok

theorem PrintkCall.Plain.text {c : PrintkCall} {pieces : List Piece} (h : c.Plain pieces) :
    c.text = textOfPieces pieces := by
  obtain ⟨r', hrun, -, -⟩ := run_pieces (r := printfRunner c.args) h.ok rfl
    (by rw [List.append_nil, ← h.args]; rfl)
  rw [PrintkCall.text, h.fmt, hrun]
  rfl

theorem PrintkCall.Plain.callable {c : PrintkCall} {pieces : List Piece} (h : c.Plain pieces) :
    c.Ok := by
  refine ⟨fun hmem => ?_, fun a ha => ?_, ?_⟩
  · rw [h.fmt, formatOf, List.mem_flatMap] at hmem
    obtain ⟨piece, hpiece, hmem⟩ := hmem
    have hok := h.ok piece hpiece
    cases piece with
    | lit text => exact hok.2 hmem
    | d v => exact absurd hmem (by simp [Piece.format])
    | p v => exact absurd hmem (by simp [Piece.format])
    | s text => exact absurd hmem (by simp [Piece.format])
    | column ds text =>
        have hdigits : '\x00' ∈ ds := by simpa [Piece.format] using hmem
        exact absurd (hok.1 _ hdigits) (by decide)
  · rw [h.args, argsOf, List.mem_flatMap] at ha
    obtain ⟨piece, hpiece, ha⟩ := ha
    have hok := h.ok piece hpiece
    cases piece with
    | lit text => cases ha
    | d v => rw [List.mem_singleton.mp ha]; rfl
    | p v => rw [List.mem_singleton.mp ha]; rfl
    | s text => rw [List.mem_singleton.mp ha]; exact List.count_eq_zero.mpr hok.2.1
    | column ds text => rw [List.mem_singleton.mp ha]; exact List.count_eq_zero.mpr hok.2.2.1
  · rw [h.fmt, h.args]
    exact wellTyped_pieces h.ok

/-- The text of several calls. -/
def textOf (calls : List PrintkCall) : List Char := calls.flatMap PrintkCall.text

theorem uartWrite_append (text text' : List Char) :
    (uartWrite text >>= fun _ => uartWrite text') = uartWrite (text ++ text') := by
  induction text with
  | nil => rfl
  | cons c text ih =>
      rw [uartWrite, List.cons_append, uartWrite, ← ih]
      rfl

/-- With both drivers installed, characters go to the serial line. -/
theorem conPutAll_of_installed {dev : DeviceName → ConsoleDriver}
    (hconsole : dev .console = .conVt100) (hvt100 : dev .conVt100 = .miniuart) (text : List Char) :
    conPutAll dev text = some (uartWrite text) := by
  induction text with
  | nil => rfl
  | cons c text ih => simp [conPutAll, conPutc, vt100Putc, hconsole, hvt100, ih, uartWrite]

theorem printkAll_of_installed {dev : DeviceName → ConsoleDriver}
    (hconsole : dev .console = .conVt100) (hvt100 : dev .conVt100 = .miniuart) {fuel : Nat}
    (hfuel : bufSize ≤ fuel) {calls : List PrintkCall} (h : ∀ c ∈ calls, c.Ok) :
    printkAll fuel dev calls = some (uartWrite (textOf calls)) := by
  induction calls with
  | nil => rfl
  | cons c calls ih =>
      rw [List.forall_mem_cons] at h
      rw [printkAll, printk, vprintk_of_ok h.1 hfuel, ih h.2]
      simp [conPutAll_of_installed hconsole hvt100, uartWrite_append, textOf]

/-! ## What is read -/

theorem uartIsReadByteReady_lsr (depth : Nat) (u : Uart) :
    uartIsReadByteReady (u.lsr depth) = decide (u.received ≠ []) := by
  by_cases hroom : u.fifo.length < depth <;> by_cases hnil : u.received = [] <;>
    simp [uartIsReadByteReady, Uart.lsr, hroom, hnil]

theorem exec_uartReadByte (depth : Nat) (u : Uart) : uartReadByte.exec (uartBus depth) u =
    some (u.received.head?, { u with received := u.received.tail }) := by
  have hlsr : (mmioRead auxMuLsrReg).exec (uartBus depth) u = some (u.lsr depth, u) := rfl
  rw [uartReadByte, Mmio.exec_bind, hlsr, Option.bind_some, uartIsReadByteReady_lsr]
  obtain ⟨fifo, line, received, regs⟩ := u
  cases received with
  | nil => rfl
  | cons byte received =>
      have hbyte : (byte.setWidth 32).setWidth 8 = byte := by
        rw [BitVec.setWidth_setWidth_of_le _ (by decide), BitVec.setWidth_eq]
      have hio : (mmioRead auxMuIoReg).exec (uartBus depth) ⟨fifo, line, byte :: received, regs⟩ =
          some (byte.setWidth 32, ⟨fifo, line, received, regs⟩) := rfl
      rw [if_pos (by simp), Mmio.exec_bind, hio, Option.bind_some]
      simp [Mmio.exec, hbyte]

/-- One call: the oldest byte, if there is one. -/
theorem exec_vt100Poll (depth : Nat) (u : Uart) : vt100Poll.exec (uartBus depth) u =
    some (u.received.head?.map (·.setWidth 16), { u with received := u.received.tail }) := by
  rw [vt100Poll, Mmio.exec_bind, exec_uartReadByte, Option.bind_some]
  cases u.received with
  | nil => rfl
  | cons byte received => simp [Mmio.exec, conActChar]

/-- **Input**: calls of `vt100_poll` give the bytes received, in order and each
once, as characters without a tag, and then nothing. -/
theorem exec_polls (depth n : Nat) (u : Uart) : (polls n).exec (uartBus depth) u =
    some ((List.range n).map fun i => u.received[i]?.map (·.setWidth 16),
      { u with received := u.received.drop n }) := by
  induction n generalizing u with
  | zero => rfl
  | succ n ih =>
      have hfirst : u.received.head?.map (·.setWidth 16) =
          (u.received[0]?.map (·.setWidth 16) : Option (BitVec 16)) := by
        rw [List.head?_eq_getElem?]
      rw [polls, Mmio.exec_bind, exec_vt100Poll, Option.bind_some, Mmio.exec_bind, ih,
        Option.bind_some, List.range_succ_eq_map, List.map_cons, List.map_map, hfirst]
      simp [Mmio.exec, Function.comp_def]

/-! ## Tasks that print -/

variable {T : Type} {fuel depth : Nat} {devs : Devices DeviceName ConsoleDriver}
  {calls : T → List PrintkCall} {m : Mmio.Machine T Word (BitVec 32) Uart}

/-- The tasks are about to make their calls, with the drivers of the board
installed and nothing on the line. -/
structure Printing (fuel : Nat) (devs : Devices DeviceName ConsoleDriver)
    (calls : T → List PrintkCall) (m : Mmio.Machine T Word (BitVec 32) Uart) : Prop where
  ok : ∀ t, ∀ c ∈ calls t, c.Ok
  enough : bufSize ≤ fuel
  prog : ∀ t, printkAll fuel (miniuartInit devs).dev (calls t) = some (m.prog t)
  fifo : m.dev.fifo = []
  line : m.dev.line = []
  transmits : m.dev.Transmits

/-- The port that the tasks share. -/
def startPort (calls : T → List PrintkCall) : System T Char :=
  ⟨⟨[], []⟩, fun t => .polling (textOf (calls t))⟩

theorem starts_startPort (calls : T → List PrintkCall) :
    Starts (fun t => textOf (calls t)) (startPort calls) := ⟨rfl, rfl, fun _ => rfl⟩

theorem Printing.shows (h : Printing fuel devs calls m) : Shows m (startPort calls) := by
  refine ⟨by simp [h.fifo, startPort], by simp [h.line, startPort], fun t => ?_, h.transmits⟩
  have hprog : printkAll fuel (miniuartInit devs).dev (calls t) = _ :=
    printkAll_of_installed rfl rfl h.enough (h.ok t)
  exact Option.some_inj.mp ((h.prog t).symm.trans hprog)

/-- The line carries these characters, in this order; each is named with the
task that wrote it. -/
def Carries (m : Mmio.Machine T Word (BitVec 32) Uart) (sent : List (T × Char)) : Prop :=
  m.dev.line ++ m.dev.fifo = sent.map fun p => charByte p.2

theorem Shows.carries {s : System T Char} (h : Shows m s) : Carries m s.port.passed := by
  rw [Carries, h.line, h.fifo, Fifo.passed, List.map_append]

variable [DecidableEq T]

/-- What a task has on the line. -/
def ofTask (sent : List (T × Char)) (t : T) : List Char := (sent.filter (·.1 = t)).map Prod.snd

/-- Two tasks, one of which prints `B` and the other `C`. -/
def lettersCalls (t : Bool) : List PrintkCall := [⟨[if t then 'B' else 'C'], [], fun _ => 'z'⟩]

def lettersMachine : Mmio.Machine Bool Word (BitVec 32) Uart where
  prog t := uartWrite [if t then 'B' else 'C']
  dev := ⟨[], [], [], fun _ => 3⟩

theorem textOf_letters (t : Bool) : textOf (lettersCalls t) = [if t then 'B' else 'C'] := by
  cases t <;> decide

theorem printing_letters :
    Printing 32 (Devices.start consoleNulldevs) lettersCalls lettersMachine := by
  have hok : ∀ t, ∀ c ∈ lettersCalls t, c.Ok := by
    intro t c hc
    rw [lettersCalls, List.mem_singleton] at hc
    subst hc
    cases t
    · exact ⟨by decide, by decide, by decide⟩
    · exact ⟨by decide, by decide, by decide⟩
  refine ⟨hok, by decide, fun t => ?_, rfl, rfl, by decide⟩
  rw [printkAll_of_installed rfl rfl (by decide) (hok t), textOf_letters]
  rfl

/-- **Order**: however the tasks are preempted, what the line carries of a task
is a sublist of what the task has printed so far: nothing is invented, doubled
or overtaken. -/
theorem console_ordered (h : Printing fuel devs calls m) (turns : List (Turn T)) :
    ∃ sent, Carries (m.run (uartBus depth) turns) sent ∧ ∀ t, ∃ printed w,
      textOf (calls t) = printed ++ Writer.pending w ∧
      (m.run (uartBus depth) turns).prog t = program w ∧
      (ofTask sent t).Sublist printed := by
  have hshows := h.shows.run depth turns
  have hordered := (starts_startPort calls).ordered.run depth turns
  refine ⟨_, hshows.carries, fun t => ?_⟩
  obtain ⟨printed, heq, hsub⟩ := hordered t
  exact ⟨printed, _, heq, hshows.prog t, hsub⟩

/-- Both tasks look before one of them writes. -/
theorem console_ordered_letters :
    ∃ sent,
      Carries (lettersMachine.run (uartBus 8) [.run true, .run false, .run true, .tick]) sent ∧
      ∀ t, ∃ printed w, textOf (lettersCalls t) = printed ++ Writer.pending w ∧
        (lettersMachine.run (uartBus 8) [.run true, .run false, .run true, .tick]).prog t =
          program w ∧
        (ofTask sent t).Sublist printed :=
  console_ordered printing_letters _

/-! ## No loss -/

/-- The next access of a program is a write. -/
def AtWrite : Access Unit → Prop
  | .write .. => True
  | _ => False

theorem atWrite_program_iff {w : Writer Char} :
    AtWrite (program w) ↔ ∃ ch rest, w = .writing ch rest := by
  cases w with
  | polling rest => cases rest <;> simp [program, uartWrite, AtWrite, uartWriteByteBlockingActual]
  | writing ch rest => simp [program, AtWrite]

/-- When a task writes, no other task has seen room and not yet written. -/
def Exclusive (m : Mmio.Machine T Word (BitVec 32) Uart) (turn : Turn T) : Prop :=
  ∀ t, turn = .run t → AtWrite (m.prog t) → ∀ t' ≠ t, ¬ AtWrite (m.prog t')

omit [DecidableEq T] in
theorem Shows.alone {s : System T Char} (h : Shows m s) {turn : Turn T} (hexcl : Exclusive m turn) :
    Port.Alone s turn := by
  intro t ch rest hturn hw t' ht
  have hat : AtWrite (m.prog t) := by
    rw [h.prog, atWrite_program_iff]
    exact ⟨ch, rest, hw⟩
  have hnot := hexcl t hturn hat t' ht
  rw [h.prog, atWrite_program_iff] at hnot
  cases hw' : s.writer t' with
  | polling rest' => exact ⟨rest', rfl⟩
  | writing ch' rest' => exact absurd ⟨ch', rest', hw'⟩ hnot

theorem Shows.along {s : System T Char} (h : Shows m s) {turns : List (Turn T)}
    (hexcl : Fair.Along (Mmio.Machine.step (uartBus depth)) Exclusive m turns) :
    Fair.Along (System.step depth) Port.Alone s turns := by
  induction turns generalizing m s with
  | nil => trivial
  | cons turn turns ih => exact ⟨h.alone hexcl.1, ih (h.step turn) hexcl.2⟩

/-- **No loss**: while the tasks' looks and writes do not overlap, the line
carries all that every task has printed so far. -/
theorem console_lossless (h : Printing fuel devs calls m) {turns : List (Turn T)}
    (hexcl : Fair.Along (Mmio.Machine.step (uartBus depth)) Exclusive m turns) :
    ∃ sent, Carries (m.run (uartBus depth) turns) sent ∧ ∀ t, ∃ w,
      textOf (calls t) = ofTask sent t ++ Writer.pending w ∧
      (m.run (uartBus depth) turns).prog t = program w := by
  have hshows := h.shows.run depth turns
  have hlossless := (starts_startPort calls).lossless.run (h.shows.along hexcl)
  exact ⟨_, hshows.carries, fun t => ⟨_, hlossless.all t, hshows.prog t⟩⟩

/-- One task after the other. -/
theorem console_lossless_letters :
    ∃ sent, Carries (lettersMachine.run (uartBus 8) [.run true, .run true, .run false, .run false])
      sent ∧ ∀ t, ∃ w, textOf (lettersCalls t) = ofTask sent t ++ Writer.pending w ∧
        (lettersMachine.run (uartBus 8) [.run true, .run true, .run false, .run false]).prog t =
          program w := by
  refine console_lossless printing_letters ⟨?_, ?_, ?_, ?_, trivial⟩
  all_goals
    rintro (_ | _) hturn hat (_ | _) hne
    all_goals first
      | exact absurd rfl hne
      | exact id
      | cases hturn

/-! ## Progress -/

section

variable {schedule : Nat → Turn T}

theorem Shows.runOf {s : System T Char} (h : Shows m s) (schedule : Nat → Turn T) (n : Nat) :
    Shows (Fair.runOf (Mmio.Machine.step (uartBus depth)) schedule m n)
      (Fair.runOf (System.step depth) schedule s n) := by
  induction n with
  | zero => exact h
  | succ n ih => exact ih.step (schedule n)

/-- With nothing left to write, a program has returned. -/
theorem program_of_pending {w : Writer Char} (h : w.pending = []) : program w = .ret () := by
  cases w with
  | polling rest =>
      rw [Writer.pending] at h
      subst h
      rfl
  | writing ch rest => cases h

/-- **Progress**: if the device and every task that prints get their turn again
and again, every `printk` returns, and the FIFO runs empty, for good. -/
theorem console_completes [Fintype T] (h : Printing fuel devs calls m) (hdepth : 0 < depth)
    (htick : Fair.Recurs schedule .tick)
    (hrun : ∀ t, textOf (calls t) ≠ [] → Fair.Recurs schedule (.run t)) :
    ∃ n, ∀ k ≥ n,
      (∀ t, (Fair.runOf (Mmio.Machine.step (uartBus depth)) schedule m k).prog t = .ret ()) ∧
      (Fair.runOf (Mmio.Machine.step (uartBus depth)) schedule m k).dev.fifo = [] := by
  obtain ⟨n, hn⟩ := eventually_idle (s := startPort calls) hdepth htick
    fun t n hne => hrun t (pending_of_runOf hne) n
  refine ⟨n, fun k hk => ⟨fun t => ?_, ?_⟩⟩
  · rw [(h.shows.runOf schedule k).prog, program_of_pending ((hn k hk).1 t)]
  · rw [(h.shows.runOf schedule k).fifo, (hn k hk).2, List.map_nil]

/-- The tasks and the device in turn. -/
def inTurn (n : Nat) : Turn Bool :=
  if n % 3 = 0 then .run true else if n % 3 = 1 then .run false else .tick

theorem recurs_inTurn : Fair.Recurs inTurn .tick ∧ ∀ t, Fair.Recurs inTurn (.run t) := by
  refine ⟨fun n => ⟨3 * n + 2, by omega, by simp [inTurn]⟩, fun t n => ?_⟩
  cases t with
  | true => exact ⟨3 * n, by omega, by simp [inTurn]⟩
  | false => exact ⟨3 * n + 1, by omega, by simp [inTurn]⟩

theorem console_completes_letters :
    ∃ n, ∀ k ≥ n,
      (∀ t, (Fair.runOf (Mmio.Machine.step (uartBus 8)) inTurn lettersMachine k).prog t = .ret ()) ∧
      (Fair.runOf (Mmio.Machine.step (uartBus 8)) inTurn lettersMachine k).dev.fifo = [] :=
  console_completes printing_letters (by decide) recurs_inTurn.1 fun t _ => recurs_inTurn.2 t

/-- The character that is a byte on the line. -/
def byteChar (byte : BitVec 8) : Char := .ofNat byte.toNat

omit [DecidableEq T] in
theorem charByte_byteChar (byte : BitVec 8) : charByte (byteChar byte) = byte := by
  have hvalid : byte.toNat.isValidChar := .inl (by have := byte.isLt; omega)
  have hnat : (byteChar byte).toNat = byte.toNat := by
    rw [byteChar, Char.ofNat, dif_pos hvalid]
    rfl
  rw [charByte, hnat, BitVec.ofNat_toNat, BitVec.setWidth_eq]

/-- **One program alone**, from any state of the device: it returns, and the line
has what was sent before and then the program's text. -/
theorem alone_prints {u : Uart} (htransmits : u.Transmits) (hdepth : 0 < depth)
    {schedule : Nat → Turn Unit} (htick : Fair.Recurs schedule .tick)
    (hrun : Fair.Recurs schedule (.run ())) (text : List Char) :
    ∃ n, ∀ k ≥ n, ∀ m : Mmio.Machine Unit Word (BitVec 32) Uart,
      m = Fair.runOf (Mmio.Machine.step (uartBus depth)) schedule ⟨fun _ => uartWrite text, u⟩ k →
      m.prog () = .ret () ∧ m.dev.fifo = [] ∧ m.dev.line = u.line ++ u.fifo ++ lineBytes text := by
  -- what is on its way already counts as the program's own
  have hbytes : ∀ bytes : List (BitVec 8),
      (bytes.map fun byte => ((), byteChar byte)).map (fun p => charByte p.2) = bytes := by
    intro bytes
    simp [Function.comp_def, charByte_byteChar]
  let s : System Unit Char := ⟨⟨u.fifo.map fun byte => ((), byteChar byte),
    u.line.map fun byte => ((), byteChar byte)⟩, fun _ => .polling text⟩
  have hshows : Shows ⟨fun _ => uartWrite text, u⟩ s :=
    ⟨(hbytes u.fifo).symm, (hbytes u.line).symm, fun _ => rfl, htransmits⟩
  have hstart : Lossless depth (fun _ => s.passedBy () ++ text) s :=
    ⟨fun _ => rfl, fun t ch rest hw => by cases hw⟩
  have hlossless : ∀ k, Lossless depth (fun _ => s.passedBy () ++ text)
      (Fair.runOf (System.step depth) schedule s k) := by
    intro k
    induction k with
    | zero => exact hstart
    | succ k ih => exact ih.step fun _ _ _ _ _ t' ht' => absurd rfl ht'
  obtain ⟨n, hn⟩ := eventually_idle (s := s) hdepth htick fun _ n _ => hrun n
  refine ⟨n, fun k hk m hm => ?_⟩
  have hm' : Shows m (Fair.runOf (System.step depth) schedule s k) := hm ▸ hshows.runOf schedule k
  obtain ⟨hpending, hqueue⟩ := hn k hk
  have hall := (hlossless k).all ()
  rw [hpending, List.append_nil] at hall
  have hpassed : ∀ s : System Unit Char,
      (s.passedBy ()).map charByte = s.port.passed.map fun p => charByte p.2 := by
    intro s
    simp [System.passedBy, Function.comp_def]
  refine ⟨by rw [hm'.prog, program_of_pending (hpending ())], ?_, ?_⟩
  · rw [hm'.fifo, hqueue, List.map_nil]
  · have hsent := congrArg (List.map charByte) hall
    rw [List.map_append, hpassed, hpassed, Fifo.passed, Fifo.passed, hqueue, List.append_nil,
      List.map_append, hbytes, hbytes] at hsent
    rw [hm'.line, ← hsent, lineBytes]

end

end TeachingOs.Driver
