import TeachingOs.Driver.Console

/-!
# TeachingOs.Fatal.Trap

`aarch64_trapentry` for a trap that is an error: it prints a report with
several calls of `printk` and hangs, with interrupts off, so that nothing else
uses the serial line.

`trap_reported` is about the line: it ends with the whole report, whatever was
on its way before.  `trap_identified` is about the report: the trap frame can
be read off it.
-/

namespace TeachingOs.Trap

open Driver Printf Transducer

/-! ## The code -/

/-- `struct trapframe`, without the registers that no report shows. -/
structure Trapframe where
  vectorId : Word
  esr : Word
  elr : Word
  spsr : Word
  far : Word

/-- `switch(tf->vector_id & 3)`; `none` is an interrupt. -/
def kindName (tf : Trapframe) : Option String :=
  if tf.vectorId &&& 3 = 0 then some "Synchronous"
  else if tf.vectorId &&& 3 = 3 then some "SError"
  else none

/-- `switch(type)`. -/
def typeName (type : Word) : String :=
  if type = 0b000000 then "Unknown"
  else if type = 0b000001 then "Trapped WFI/WFE"
  else if type = 0b001110 then "Illegal execution"
  else if type = 0b010101 then "System call"
  else if type = 0b100000 then "Instruction abort, lower EL"
  else if type = 0b100001 then "Instruction abort, same EL"
  else if type = 0b100010 then "Instruction alignment fault"
  else if type = 0b100100 then "Data abort, lower EL"
  else if type = 0b100101 then "Data abort, same EL"
  else if type = 0b100110 then "Stack alignment fault"
  else if type = 0b101100 then "Floating point"
  else "Unknown"

/-- `switch((tf->esr >> 2) & 3)`. -/
def faultName (fault : Word) : String :=
  if fault = 0 then "Address size fault"
  else if fault = 1 then "Translation fault"
  else if fault = 2 then "Access flag fault"
  else "Permission fault"

/-- The class of the exception. -/
def Trapframe.type (tf : Trapframe) : Word := tf.esr >>> 26

/-- A data abort, which has a fault status. -/
def Trapframe.IsDataAbort (tf : Trapframe) : Prop := tf.type = 0b100100 ∨ tf.type = 0b100101

instance (tf : Trapframe) : Decidable tf.IsDataAbort := inferInstanceAs (Decidable (_ ∨ _))

/-- The formats and arguments of the calls of `printk`. -/
def messages (kind : String) (tf : Trapframe) : List (String × List Arg) :=
  [(kind, []), (": ", []), (typeName tf.type, [])] ++
  (if tf.IsDataAbort then
    [(", ", []), (faultName (tf.esr >>> 2 &&& 3), []), (" at level %d", [.word (tf.esr &&& 3)])]
  else [(" ", [])]) ++
  [("\n\nESR = %p\n", [.word tf.esr]),
    ("\nESR_EL1 = %p ELR_EL1 = %p\nSPSR_EL1 = %p FAR_EL1 = %p",
      [.word tf.esr, .word tf.elr, .word tf.spsr, .word tf.far])]

/-- The calls of `printk`; `mem i` is what call `i` finds in its stack frame. -/
def calls (mem : Nat → Nat → Char) (kind : String) (tf : Trapframe) : List PrintkCall :=
  (messages kind tf).mapIdx fun i m => ⟨m.1.toList, m.2, mem i⟩

/-- `aarch64_trapentry` up to the loop at its end; `none` is an interrupt. -/
def aarch64Trapentry (fuel : Nat) (dev : DeviceName → ConsoleDriver) (mem : Nat → Nat → Char)
    (tf : Trapframe) : Option (Access Unit) := do
  let kind ← kindName tf
  printkAll fuel dev (calls mem kind tf)

/-! ## The report -/

/-- The first line. -/
def headline (kind : String) (tf : Trapframe) : List Char :=
  kind.toList ++ ": ".toList ++ (typeName tf.type).toList ++
    if tf.IsDataAbort then
      ", ".toList ++ (faultName (tf.esr >>> 2 &&& 3)).toList ++ " at level ".toList ++
        decimalText (tf.esr &&& 3)
    else " ".toList

/-- The report. -/
def report (kind : String) (tf : Trapframe) : List Char :=
  headline kind tf ++ "\n\nESR = ".toList ++ pointerText tf.esr ++ "\n".toList ++
    "\nESR_EL1 = ".toList ++ pointerText tf.esr ++ " ELR_EL1 = ".toList ++ pointerText tf.elr ++
    "\nSPSR_EL1 = ".toList ++ pointerText tf.spsr ++ " FAR_EL1 = ".toList ++ pointerText tf.far

/-- The messages, piece by piece. -/
def pieces (kind : String) (tf : Trapframe) : List (List Piece) :=
  let fault : List (List Piece) :=
    if tf.IsDataAbort then
      [[.lit ", ".toList], [.lit (faultName (tf.esr >>> 2 &&& 3)).toList],
        [.lit " at level ".toList, .d (tf.esr &&& 3)]]
    else [[.lit " ".toList]]
  [[.lit kind.toList], [.lit ": ".toList], [.lit (typeName tf.type).toList]] ++ fault ++
  [[.lit "\n\nESR = ".toList, .p tf.esr, .lit "\n".toList],
    [.lit "\nESR_EL1 = ".toList, .p tf.esr, .lit " ELR_EL1 = ".toList, .p tf.elr,
      .lit "\nSPSR_EL1 = ".toList, .p tf.spsr, .lit " FAR_EL1 = ".toList, .p tf.far]]

theorem formatOf_lit (text : List Char) : formatOf [.lit text] = text := List.append_nil text

theorem messages_eq (kind : String) (tf : Trapframe) :
    (messages kind tf).map (fun m => (m.1.toList, m.2)) =
      (pieces kind tf).map fun p => (formatOf p, argsOf p) := by
  by_cases h : tf.IsDataAbort
  · rw [messages, pieces, if_pos h, if_pos h]
    simp only [List.map_append, List.map_cons, List.map_nil, formatOf_lit]
    rfl
  · rw [messages, pieces, if_neg h, if_neg h]
    simp only [List.map_append, List.map_cons, List.map_nil, formatOf_lit]
    rfl

theorem flatMap_pieces (kind : String) (tf : Trapframe) :
    (pieces kind tf).flatMap textOfPieces = report kind tf := by
  by_cases h : tf.IsDataAbort
  · rw [pieces, if_pos h, report, headline, if_pos h]
    simp only [List.flatMap_append, List.flatMap_cons, List.flatMap_nil, textOfPieces, Piece.out,
      List.append_assoc, List.append_nil]
  · rw [pieces, if_neg h, report, headline, if_neg h]
    simp only [List.flatMap_append, List.flatMap_cons, List.flatMap_nil, textOfPieces, Piece.out,
      List.append_assoc, List.append_nil]

/-! ## What it prints -/

variable {kind kind' : String} {tf tf' : Trapframe} {mem : Nat → Nat → Char}

/-- An ASCII character that stands for itself in a format. -/
def plainChar (c : Char) : Bool := c ≠ '%' && c ≠ '\x00' && decide (c.toNat < 128)

/-- One that does not end a line. -/
def inlineChar (c : Char) : Bool := plainChar c && c ≠ '\n'

theorem kindName_cases (h : kindName tf = some kind) : kind = "Synchronous" ∨ kind = "SError" := by
  rw [kindName] at h
  split at h
  · exact .inl (Option.some.inj h).symm
  · split at h
    · exact .inr (Option.some.inj h).symm
    · cases h

theorem inline_kindName (h : kindName tf = some kind) : kind.toList.all inlineChar = true := by
  rcases kindName_cases h with rfl | rfl <;> decide

theorem inline_ite {p : Prop} [Decidable p] {name name' : String}
    (h : name.toList.all inlineChar = true) (h' : name'.toList.all inlineChar = true) :
    (if p then name else name').toList.all inlineChar = true := by
  split
  · exact h
  · exact h'

theorem inline_typeName (type : Word) : (typeName type).toList.all inlineChar = true := by
  unfold typeName
  repeat refine inline_ite (by decide) ?_
  decide

theorem inline_faultName (fault : Word) : (faultName fault).toList.all inlineChar = true := by
  unfold faultName
  repeat refine inline_ite (by decide) ?_
  decide

theorem plain_of_inline {text : List Char} (h : text.all inlineChar = true) :
    text.all plainChar = true := by
  rw [List.all_eq_true] at h ⊢
  exact fun c hc => (Bool.and_eq_true_iff.mp (h c hc)).1

/-- The text of a piece stands for itself. -/
def plainPiece : Piece → Bool
  | .lit text => text.all plainChar
  | .d _ | .p _ => true
  | .s _ | .column .. => false

theorem ok_of_plain {piece : Piece} (h : plainPiece piece = true) : piece.Ok := by
  cases piece with
  | lit text =>
      rw [plainPiece, List.all_eq_true] at h
      exact ⟨fun hc => absurd (h _ hc) (by decide), fun hc => absurd (h _ hc) (by decide)⟩
  | d v | p v => trivial
  | s text | column ds text => cases h

theorem plain_pieces (h : kindName tf = some kind) :
    ((pieces kind tf).all fun p => p.all plainPiece) = true := by
  have hkind := plain_of_inline (inline_kindName h)
  have htype := plain_of_inline (inline_typeName tf.type)
  have hfault := plain_of_inline (inline_faultName (tf.esr >>> 2 &&& 3))
  by_cases hd : tf.IsDataAbort
  · rw [pieces, if_pos hd]
    simp only [List.all_append, List.all_cons, List.all_nil, plainPiece, hkind, htype, hfault,
      Bool.and_true, Bool.true_and]
    decide
  · rw [pieces, if_neg hd]
    simp only [List.all_append, List.all_cons, List.all_nil, plainPiece, hkind, htype,
      Bool.and_true, Bool.true_and]
    decide

/-- A message, as a call, is its pieces. -/
theorem plain_call (h : kindName tf = some kind) {p : List Piece} (hp : p ∈ pieces kind tf)
    (stack : Nat → Char) : PrintkCall.Plain ⟨formatOf p, argsOf p, stack⟩ p := by
  refine ⟨rfl, rfl, fun piece hpiece => ok_of_plain ?_⟩
  exact List.all_eq_true.mp (List.all_eq_true.mp (plain_pieces h) p hp) piece hpiece

/-- The calls are the messages, each with its own stack frame. -/
theorem exists_pieces {c : PrintkCall} (hc : c ∈ calls mem kind tf) :
    ∃ p ∈ pieces kind tf, ∃ stack, c = ⟨formatOf p, argsOf p, stack⟩ := by
  rw [calls, List.mem_mapIdx] at hc
  obtain ⟨i, hi, rfl⟩ := hc
  have hm : ((messages kind tf)[i].1.toList, (messages kind tf)[i].2) ∈
      (messages kind tf).map fun m => (m.1.toList, m.2) :=
    List.mem_map_of_mem (List.getElem_mem hi)
  rw [messages_eq, List.mem_map] at hm
  obtain ⟨p, hp, heq⟩ := hm
  obtain ⟨hfmt, hargs⟩ := Prod.mk.inj heq
  exact ⟨p, hp, mem i, by rw [hfmt, hargs]⟩

theorem calls_ok (h : kindName tf = some kind) : ∀ c ∈ calls mem kind tf, c.Ok := by
  intro c hc
  obtain ⟨p, hp, stack, rfl⟩ := exists_pieces hc
  exact (plain_call h hp stack).callable

/-- A call prints the same whatever its stack frame holds. -/
theorem textOf_mapIdx (messages : List (String × List Arg)) (mem : Nat → Nat → Char) :
    textOf (messages.mapIdx fun i m => ⟨m.1.toList, m.2, mem i⟩) =
      (messages.map fun m => (m.1.toList, m.2)).flatMap fun m =>
        PrintkCall.text ⟨m.1, m.2, mem 0⟩ := by
  induction messages generalizing mem with
  | nil => rfl
  | cons m messages ih =>
      rw [List.mapIdx_cons]
      exact congrArg (_ ++ ·) (ih fun i => mem (i + 1))

/-- **The calls print the report.** -/
theorem textOf_calls (h : kindName tf = some kind) : textOf (calls mem kind tf) =
    report kind tf := by
  rw [calls, textOf_mapIdx, messages_eq, List.flatMap_map, ← flatMap_pieces]
  exact List.flatMap_congr fun p hp => (plain_call h hp _).text

/-- With both drivers installed the report goes to the serial line. -/
theorem aarch64Trapentry_eq {fuel : Nat} {dev : DeviceName → ConsoleDriver}
    (hconsole : dev .console = .conVt100) (hvt100 : dev .conVt100 = .miniuart)
    (hfuel : bufSize ≤ fuel) (h : kindName tf = some kind) :
    aarch64Trapentry fuel dev mem tf = some (uartWrite (report kind tf)) := by
  rw [aarch64Trapentry, h, Option.bind_eq_bind, Option.bind_some,
    printkAll_of_installed hconsole hvt100 hfuel (calls_ok h), textOf_calls h]

/-- **A fatal trap is reported in full.**  Once the drivers are installed, and
from any state of the line, `aarch64_trapentry` gets to its last loop, and the
line has what was sent before and then the whole report. -/
theorem trap_reported {fuel depth : Nat} {devs : Device.Devices DeviceName ConsoleDriver} {u : Uart}
    {schedule : Nat → Turn Unit} (h : kindName tf = some kind) (hfuel : bufSize ≤ fuel)
    (htransmits : u.Transmits) (hdepth : 0 < depth) (htick : Fair.Recurs schedule .tick)
    (hrun : Fair.Recurs schedule (.run ())) :
    ∃ prog, aarch64Trapentry fuel (miniuartInit devs).dev mem tf = some prog ∧ ∃ n, ∀ k ≥ n,
      ∀ m : Mmio.Machine Unit Word (BitVec 32) Uart,
        m = Fair.runOf (Mmio.Machine.step (uartBus depth)) schedule ⟨fun _ => prog, u⟩ k →
        m.prog () = .ret () ∧ m.dev.fifo = [] ∧
          m.dev.line = u.line ++ u.fifo ++ lineBytes (report kind tf) := by
  exact ⟨uartWrite (report kind tf), aarch64Trapentry_eq rfl rfl hfuel h,
    alone_prints htransmits hdepth htick hrun _⟩

/-- A store to a page of `.rodata`, at the kernel's own exception level. -/
def rodataStore : Trapframe := ⟨4, 0x9600004F, 0xFFFF000000080040, 0x5, 0xFFFF000000090010⟩

/-- The trap handler and the device in turn. -/
def alone (n : Nat) : Turn Unit := if n % 2 = 0 then .run () else .tick

theorem recurs_alone : Fair.Recurs alone .tick ∧ Fair.Recurs alone (.run ()) :=
  ⟨fun n => ⟨2 * n + 1, by omega, by simp [alone]⟩, fun n => ⟨2 * n, by omega, by simp [alone]⟩⟩

/-- With three bytes of another task in the FIFO. -/
theorem trap_reported_rodata :
    ∃ prog, aarch64Trapentry 32 (miniuartInit (Device.Devices.start consoleNulldevs)).dev
        (fun _ _ => 'z') rodataStore = some prog ∧ ∃ n, ∀ k ≥ n,
      ∀ m : Mmio.Machine Unit Word (BitVec 32) Uart,
        m = Fair.runOf (Mmio.Machine.step (uartBus 8)) alone
          ⟨fun _ => prog, ⟨[66, 66, 66], [], [], fun _ => 3⟩⟩ k →
        m.prog () = .ret () ∧ m.dev.fifo = [] ∧
          m.dev.line = [] ++ [66, 66, 66] ++ lineBytes (report "Synchronous" rodataStore) :=
  trap_reported (u := ⟨[66, 66, 66], [], [], fun _ => 3⟩) rfl (by decide) (by decide) (by decide)
    recurs_alone.1 recurs_alone.2

/-! ## What it says -/

theorem ascii_pointerText {v : Word} {c : Char} (h : c ∈ pointerText v) : c.toNat < 128 := by
  have hall : (numerals ++ ['x', '(', 'n', 'u', 'l', ')']).all (·.toNat < 128) = true := rfl
  exact of_decide_eq_true (List.all_eq_true.mp hall c (mem_pointerText h))

theorem ascii_decimalText {v : Word} {c : Char} (h : c ∈ decimalText v) : c.toNat < 128 := by
  have hall : ('-' :: numerals).all (·.toNat < 128) = true := rfl
  exact of_decide_eq_true (List.all_eq_true.mp hall c (mem_decimalText h))

theorem ascii_report (h : kindName tf = some kind) {c : Char} (hc : c ∈ report kind tf) :
    c.toNat < 128 := by
  rw [← flatMap_pieces, List.mem_flatMap] at hc
  obtain ⟨p, hp, hc⟩ := hc
  rw [textOfPieces, List.mem_flatMap] at hc
  obtain ⟨piece, hpiece, hc⟩ := hc
  have hall := List.all_eq_true.mp (List.all_eq_true.mp (plain_pieces h) p hp) _ hpiece
  cases piece with
  | lit text =>
      rw [plainPiece, List.all_eq_true] at hall
      have hchar := hall c hc
      rw [plainChar, Bool.and_eq_true, decide_eq_true_eq] at hchar
      exact hchar.2
  | d v => exact ascii_decimalText hc
  | p v => exact ascii_pointerText hc
  | s text | column ds text => cases hall

/-- ASCII text is on the line as it is. -/
theorem lineBytes_injective {text text' : List Char} (h : ∀ c ∈ text, c.toNat < 128)
    (h' : ∀ c ∈ text', c.toNat < 128) (heq : lineBytes text = lineBytes text') : text = text' := by
  induction text generalizing text' with
  | nil => exact (List.map_eq_nil_iff.mp heq.symm).symm
  | cons c text ih =>
      cases text' with
      | nil => cases heq
      | cons c' text' =>
          rw [List.forall_mem_cons] at h h'
          obtain ⟨hbyte, htail⟩ := List.cons.inj heq
          have hnat := congrArg BitVec.toNat hbyte
          rw [charByte, charByte, BitVec.toNat_ofNat, BitVec.toNat_ofNat,
            Nat.mod_eq_of_lt (by omega), Nat.mod_eq_of_lt (by omega)] at hnat
          rw [Char.toNat_inj.mp hnat, ih h.2 h'.2 htail]

theorem newline_notMem_pointerText {v : Word} : '\n' ∉ pointerText v :=
  fun hc => absurd (mem_pointerText hc) (by decide)

theorem blank_notMem_pointerText {v : Word} : ' ' ∉ pointerText v :=
  fun hc => absurd (mem_pointerText hc) (by decide)

theorem newline_notMem_headline (h : kindName tf = some kind) : '\n' ∉ headline kind tf := by
  have hinline : ∀ {text : List Char}, text.all inlineChar = true → '\n' ∉ text := fun htext hc =>
    absurd (List.all_eq_true.mp htext _ hc) (by decide)
  intro hc
  rw [headline, List.mem_append, List.mem_append, List.mem_append] at hc
  rcases hc with ((hc | hc) | hc) | hc
  · exact hinline (inline_kindName h) hc
  · exact absurd hc (by decide)
  · exact hinline (inline_typeName tf.type) hc
  · split at hc
    · rw [List.mem_append, List.mem_append, List.mem_append] at hc
      rcases hc with ((hc | hc) | hc) | hc
      · exact absurd hc (by decide)
      · exact hinline (inline_faultName _) hc
      · exact absurd hc (by decide)
      · exact absurd (mem_decimalText hc) (by decide)
    · exact absurd hc (by decide)

/-- The report, cut where its lines and its fields end. -/
theorem report_eq (kind : String) (tf : Trapframe) : report kind tf =
    headline kind tf ++ '\n' :: ("\nESR = ".toList ++ (pointerText tf.esr ++ '\n' ::
      ("\nESR_EL1 = ".toList ++ (pointerText tf.esr ++ ' ' :: ("ELR_EL1 = ".toList ++
        (pointerText tf.elr ++ '\n' :: ("SPSR_EL1 = ".toList ++ (pointerText tf.spsr ++ ' ' ::
          ("FAR_EL1 = ".toList ++ pointerText tf.far))))))))) := by
  simp only [report, List.append_assoc]
  rfl

theorem kind_of_headline (h : kindName tf = some kind) (h' : kindName tf' = some kind')
    (heq : headline kind tf = headline kind' tf') : kind = kind' := by
  have hprefix : ∀ kind tf, ∃ rest, headline kind tf = kind.toList ++ rest := fun kind tf =>
    ⟨_, by rw [headline, List.append_assoc, List.append_assoc]⟩
  have hdiffer : ∀ rest rest' : List Char,
      "Synchronous".toList ++ rest ≠ "SError".toList ++ rest' := by
    intro rest rest' heq
    have hcons : 'S' :: 'y' :: ("nchronous".toList ++ rest) =
        'S' :: 'E' :: ("rror".toList ++ rest') := heq
    cases hcons
  obtain ⟨rest, hrest⟩ := hprefix kind tf
  obtain ⟨rest', hrest'⟩ := hprefix kind' tf'
  rw [hrest, hrest'] at heq
  rcases kindName_cases h with rfl | rfl <;> rcases kindName_cases h' with rfl | rfl
  · rfl
  · exact absurd heq (hdiffer rest rest')
  · exact absurd heq.symm (hdiffer rest' rest)
  · rfl

/-- **The report identifies the trap**: two fatal traps leave the same bytes on
the line exactly when they are of the same kind and agree in every register
that the report shows. -/
theorem trap_identified (h : kindName tf = some kind) (h' : kindName tf' = some kind') :
    lineBytes (report kind tf) = lineBytes (report kind' tf') ↔
      kind = kind' ∧ tf.esr = tf'.esr ∧ tf.elr = tf'.elr ∧ tf.spsr = tf'.spsr ∧
        tf.far = tf'.far := by
  constructor
  · intro heq
    have htext := lineBytes_injective (fun c hc => ascii_report h hc)
      (fun c hc => ascii_report h' hc) heq
    rw [report_eq, report_eq] at htext
    obtain ⟨hheadline, htext⟩ := append_cons_inj (newline_notMem_headline h)
      (newline_notMem_headline h') htext
    obtain ⟨hesr, htext⟩ := append_cons_inj newline_notMem_pointerText newline_notMem_pointerText
      (List.append_cancel_left htext)
    obtain ⟨-, htext⟩ := append_cons_inj blank_notMem_pointerText blank_notMem_pointerText
      (List.append_cancel_left htext)
    obtain ⟨helr, htext⟩ := append_cons_inj newline_notMem_pointerText newline_notMem_pointerText
      (List.append_cancel_left htext)
    obtain ⟨hspsr, htext⟩ := append_cons_inj blank_notMem_pointerText blank_notMem_pointerText
      (List.append_cancel_left htext)
    exact ⟨kind_of_headline h h' hheadline, pointerText_injective hesr, pointerText_injective helr,
      pointerText_injective hspsr, pointerText_injective (List.append_cancel_left htext)⟩
  · obtain ⟨vectorId, esr, elr, spsr, far⟩ := tf
    rintro ⟨rfl, rfl, rfl, rfl, rfl⟩
    rfl

/-- A store and the read of the same address differ in bit 6 of `ESR_EL1`. -/
theorem trap_identified_rodata :
    lineBytes (report "Synchronous" rodataStore) =
        lineBytes (report "Synchronous" { rodataStore with esr := 0x9600000F }) ↔
      "Synchronous" = "Synchronous" ∧ rodataStore.esr = 0x9600000F ∧
        rodataStore.elr = rodataStore.elr ∧ rodataStore.spsr = rodataStore.spsr ∧
        rodataStore.far = rodataStore.far :=
  have hread : kindName { rodataStore with esr := 0x9600000F } = some "Synchronous" := rfl
  trap_identified (show kindName rodataStore = some "Synchronous" from rfl) hread

end TeachingOs.Trap
