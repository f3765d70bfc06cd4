import TeachingOs.Fatal.Abort
import TeachingOs.Fatal.Early
import TeachingOs.Irq.Timer
import TeachingOs.Mmu.Dump

/-!
# TeachingOs.Boot.Main

`main` of `kern/main/main.c` to its end: the boot sequence, the lines that it
prints, and its store to a string constant, which is in `.rodata`.

`main_reports` says what is on the serial line in the end: the pages that
`mmu_init` has mapped, the drivers of `load_devices`, the string as the
compiler has put it into the image, and then the report on the store, which
the MMU refuses.  The line of a store that went through is never printed.
-/

namespace TeachingOs.Boot

open Device Driver Fatal Printf Transducer

/-! ## The code -/

/-- The linked image, and what else `main` shows of it: `__FILE__` and
`__LINE__` of each driver, the address of the string constant, and that of the
store to it with the processor state there. -/
structure Program where
  image : Image
  file : String → String
  line : String → Word
  heads : FramePtr → Word
  testdata : Word
  store : Word
  spsr : Word

/-- The header of a driver; `own_name` is its name. -/
def Program.header (p : Program) (ownName : String) : DevHeader :=
  ⟨ownName, p.file ownName, p.line ownName⟩

/-- The name that `DEFINE_DEVICE` makes up. -/
def nulldev (devName : String) : String := devName ++ "_nulldev"

/-- The statics of the drivers, after the calls of `INSTALL_DEVICE` so far. -/
def installed (s : BootState) : Devices String String := installAll nulldev s.devices.reverse

/-- The console's part of them. -/
def consoleDriver (ownName : String) : ConsoleDriver :=
  if ownName = "con_vt100" then .conVt100
  else if ownName = "miniuart" then .miniuart
  else if ownName = "con_vt100_nulldev" then .conVt100Nulldev
  else .consoleNulldev

def consoleDevs (devs : Devices String String) : DeviceName → ConsoleDriver
  | .console => consoleDriver (devs.dev "console")
  | .conVt100 => consoleDriver (devs.dev "con_vt100")

/-- The arguments of a call of `printk` in `device_print_all`. -/
def printkArgs : Device.Printk → String × List Arg
  | .text fmt => (fmt, [])
  | .device fmt name file line => (fmt, [.str name.toList, .str file.toList, .word line])

/-- The calls of `printk` in `main` up to the store; `device_print_all` has `n`
rounds for its loop. -/
def messages (p : Program) (memoryMap : PhysicalMemoryMap) (n : Nat) (s : BootState) :
    Option (List (String × List Arg)) := do
  let array := frameArrayStart p.image.layout.kernEnd memoryMap
  let dump ← (mmuDump array p.heads s.mmu).toOption
  let drivers ← devicePrintAll p.header n (installed s)
  let testdata := "test const string".toList
  some (dump ++ [("Welcome to the kernel.\n", [])] ++ drivers.map printkArgs ++
    [("kern> \n", []), ("test string = %s\n", [.str testdata]), ("performing write...\n", [])])

/-- Calls of `printk`; `mem i` is what call `i` finds in its stack frame. -/
def calls (mem : Nat → Nat → Char) (messages : List (String × List Arg)) : List PrintkCall :=
  messages.mapIdx fun i m => ⟨m.1.toList, m.2, mem i⟩

/-- `main` after `load_devices`, up to its last loop or that of
`aarch64_trapentry`. -/
def mainRest (fuel n : Nat) (mem mem' : Nat → Nat → Char) (p : Program)
    (memoryMap : PhysicalMemoryMap) (s : BootState) : Option (Access Unit) := do
  let dev := consoleDevs (installed s)
  let messages ← messages p memoryMap n s
  let before ← printkAll fuel dev (calls mem messages)
  let after ←
    match abortOf s.mmu.mmu.mem s.mmu.kPageTable p.testdata .store with
    | some esr => Trap.aarch64Trapentry fuel dev mem' ⟨4, esr, p.store, p.spsr, p.testdata⟩
    | none =>
      printkAll fuel dev (calls mem' [("test string = %s\n", [.str "best const string".toList])])
  some (before >>= fun _ => after)

/-! ## What it prints -/

/-- The messages print the text. -/
inductive Prints : List (String × List Arg) → List Char → Prop where
  | nil : Prints [] []
  | cons {m : String × List Arg} {ms : List (String × List Arg)} {text : List Char}
      (pieces : List Piece) (hok : ∀ piece ∈ pieces, piece.Ok) (hfmt : m.1.toList = formatOf pieces)
      (hargs : m.2 = argsOf pieces) (h : Prints ms text) :
      Prints (m :: ms) (textOfPieces pieces ++ text)

section Prints

variable {ms ms' : List (String × List Arg)} {text text' : List Char} {mem : Nat → Nat → Char}

theorem Prints.append (h : Prints ms text) (h' : Prints ms' text') :
    Prints (ms ++ ms') (text ++ text') := by
  induction h with
  | nil => exact h'
  | cons pieces hok hfmt hargs _ ih =>
      rw [List.append_assoc]
      exact .cons pieces hok hfmt hargs ih

/-- One message. -/
theorem Prints.single {m : String × List Arg} (pieces : List Piece)
    (hok : ∀ piece ∈ pieces, piece.Ok) (hfmt : m.1.toList = formatOf pieces)
    (hargs : m.2 = argsOf pieces) : Prints [m] (textOfPieces pieces) := by
  have h := Prints.cons pieces hok hfmt hargs .nil
  rwa [List.append_nil] at h

/-- One message for each element. -/
theorem Prints.map {α : Type} {message : α → String × List Arg} {line : α → List Char} {l : List α}
    (h : ∀ a ∈ l, Prints [message a] (line a)) : Prints (l.map message) (l.flatMap line) := by
  induction l with
  | nil => exact .nil
  | cons a l ih =>
      rw [List.forall_mem_cons] at h
      exact h.1.append (ih h.2)

theorem Prints.calls_ok (h : Prints ms text) : ∀ c ∈ calls mem ms, c.Ok := by
  induction h generalizing mem with
  | nil => exact fun c hc => absurd hc List.not_mem_nil
  | @cons m ms text pieces hok hfmt hargs _ ih =>
      rw [calls, List.mapIdx_cons, List.forall_mem_cons]
      have hplain : PrintkCall.Plain ⟨m.1.toList, m.2, mem 0⟩ pieces := ⟨hfmt, hargs, hok⟩
      exact ⟨hplain.callable, ih⟩

theorem Prints.textOf (h : Prints ms text) : textOf (calls mem ms) = text := by
  induction h generalizing mem with
  | nil => rfl
  | @cons m ms text pieces hok hfmt hargs _ ih =>
      rw [calls, List.mapIdx_cons, Driver.textOf, List.flatMap_cons]
      have hplain : PrintkCall.Plain ⟨m.1.toList, m.2, mem 0⟩ pieces := ⟨hfmt, hargs, hok⟩
      rw [hplain.text]
      exact congrArg _ (@ih fun i => mem (i + 1))

end Prints

/-! ## After the boot sequence -/

/-- The calls of `INSTALL_DEVICE` in a statement. -/
def installs : BootStmt → List (String × String)
  | .miniuartInit => [("console", "con_vt100"), ("con_vt100", "miniuart")]
  | .gic400Init => [("intc", "aarch64_gic_400")]
  | .wdogInit => [("power", "bcm2711_watchdog")]
  | .el1TimerSetup => [("preempt", "aarch64_el1_pns_timer")]
  | _ => []

section Booted

variable {img : Image} {memoryMap : PhysicalMemoryMap} {st : BootStmt} {rest : List BootStmt}
  {s s' : BootState}

theorem devices_exec (h : st.exec img memoryMap s = .ok s') :
    s'.devices = (installs st).reverse ++ s.devices := by
  cases st with
  | mmuInit | irqInit | gic400Init | el1TimerSetup =>
      simp only [BootStmt.exec, bind_eq_ok, pure_eq_ok, Except.ok.injEq] at h
      obtain ⟨-, -, rfl⟩ := h
      rfl
  | kzallocKmain | initKmain | setCurtask | miniuartInit | gic400InstallPpi | wdogInit =>
      cases h
      rfl

theorem mmu_exec (hst : st ≠ .mmuInit) (h : st.exec img memoryMap s = .ok s') :
    s'.mmu = s.mmu := by
  cases st with
  | mmuInit => exact absurd rfl hst
  | irqInit | gic400Init | el1TimerSetup =>
      simp only [BootStmt.exec, bind_eq_ok, pure_eq_ok, Except.ok.injEq] at h
      obtain ⟨-, -, rfl⟩ := h
      rfl
  | kzallocKmain | initKmain | setCurtask | miniuartInit | gic400InstallPpi | wdogInit =>
      cases h
      rfl

/-- What is installed and what is still to be installed make up the whole. -/
theorem devices_booting (h : Booting img memoryMap rest s) :
    s.devices.reverse ++ rest.flatMap installs = mainBody.flatMap installs := by
  induction h with
  | start => rfl
  | @stmt st rest s s' _ hs ih =>
      rw [List.flatMap_cons] at ih
      rw [devices_exec hs, List.reverse_append, List.reverse_reverse, List.append_assoc, ih]
  | interrupt _ _ _ ih => exact ih

/-- The address space is that of `mmu_init`, whatever interrupts there were. -/
theorem mmu_booting (h : Booting img memoryMap rest s) :
    .mmuInit ∈ rest ∨ mmuInit img.layout memoryMap img.start.mmu = .ok s.mmu := by
  induction h with
  | start => exact .inl (by decide)
  | @stmt st rest s s' hb hs ih =>
      by_cases hst : st = .mmuInit
      · subst hst
        cases hb.inv with
        | mmuInit _ _ hstart =>
            simp only [BootStmt.exec, bind_eq_ok, pure_eq_ok, Except.ok.injEq] at hs
            obtain ⟨mmu, hmmu, rfl⟩ := hs
            rw [hstart] at hmmu
            exact .inr hmmu
        | loadDevices hrest _ => exact absurd rfl (ne_of_suffix_loadDevices hrest (by decide))
      · rw [mmu_exec hst hs]
        exact ih.imp (fun hmem => (List.mem_cons.mp hmem).resolve_left (Ne.symm hst)) id
  | interrupt _ _ _ ih => exact ih

/-- There is a task to save the interrupt level of. -/
theorem errorPath_booted (h : Booting img memoryMap [] s) :
    (Fault.exception.errorPath s.kernel).isSome := by
  rw [Fault.isSome_errorPath]
  cases h.inv with
  | loadDevices _ hk => exact hk.curtask

/-- The heap is not used up. -/
theorem wordHeap_isSome {h : Mem.BumpHeap} {used : Nat} {heap : Mem.Heap}
    (hu : h.Used used heap) (size : Word) : (wordHeap heap size).isSome = true := by
  have hne : (Mem.kzalloc size heap).1 ≠ 0 := hu.heapNext_ne_zero
  simp only [wordHeap, if_neg hne, Option.isSome_some]

/-- The statements up to the driver of the interrupt controller. -/
theorem booting_gic {mmu : KernelMmu}
    (hmmu : mmuInit img.layout memoryMap img.start.mmu = .ok mmu) :
    ∃ s, Booting img memoryMap [.gic400Init, .gic400InstallPpi, .wdogInit, .el1TimerSetup] s ∧
      Irq.Blank s.irqMap ∧ img.bumpHeap.Used 240 s.heap := by
  have hexec : BootStmt.mmuInit.exec img memoryMap img.start = .ok { img.start with mmu } := by
    simp only [BootStmt.exec, hmmu, ok_bind, pure_eq_ok]
  have hstart : img.bumpHeap.Used 0 { img.start with mmu }.heap :=
    img.bumpHeap.used_boot img.bytes
  obtain ⟨s₁, hirq⟩ := exec_irqInit_ok img memoryMap hstart
  have hexec₁ := hirq
  simp only [BootStmt.exec, bind_eq_ok, pure_eq_ok, Except.ok.injEq] at hexec₁
  obtain ⟨m, hm, rfl⟩ := hexec₁
  have hfit : 0 + Mem.roundUp (8 * sizeofIrqMapEntry) ≤ Mem.bumpHeapSize := by decide
  have hused : img.bumpHeap.Used 192 (Mem.kzalloc (8 * sizeofIrqMapEntry) img.start.heap).2 :=
    hstart.kzalloc hfit
  have hfit' : 192 + Mem.roundUp sizeofTask ≤ Mem.bumpHeapSize := by decide
  have hused' : img.bumpHeap.Used 240
      (Mem.kzalloc sizeofTask (Mem.kzalloc (8 * sizeofIrqMapEntry) img.start.heap).2).2 :=
    hused.kzalloc hfit'
  have hbooting := (((((Booting.start.stmt hexec).stmt hirq).stmt rfl).stmt rfl).stmt rfl).stmt rfl
  exact ⟨_, hbooting, Irq.blank_of_irqInit hm, hused'⟩

/-- If `mmu_init` returns, the boot sequence runs to its end. -/
theorem booting_nil {mmu : KernelMmu} (hmmu : mmuInit img.layout memoryMap img.start.mmu = .ok mmu)
    (hfn : img.el1TimerIrq ≠ 0) : ∃ s, Booting img memoryMap [] s := by
  obtain ⟨s, hs, hblank, hused⟩ := booting_gic hmmu
  obtain ⟨d, hd, -⟩ := Irq.installed (wordHeap_isSome hused _)
  obtain ⟨m', hm', -⟩ := hblank.register_timer
    (irqHeap (Mem.kzalloc ((32 + 96) * 8) s.heap).2) hfn
  have hgic : ∃ s', BootStmt.gic400Init.exec img memoryMap s = .ok s' ∧ s'.irqMap = s.irqMap ∧
      s'.heap = (Mem.kzalloc ((32 + 96) * 8) s.heap).2 := by
    have hd' : Irq.gic400Init (wordHeap s.heap) (0x40000000 + (0xFF840000 - 0xC0000000)) (32 + 96) =
        .ok d := hd
    simp only [BootStmt.exec, hd', ok_bind, pure_eq_ok, Except.ok.injEq]
    exact ⟨_, rfl, rfl, rfl⟩
  obtain ⟨s', hs', hmap, hheap⟩ := hgic
  have htimer : ∃ s'', BootStmt.el1TimerSetup.exec img memoryMap
      { s' with
        gic := Irq.gic400InstallPpi s'.gic 30 (BitVec.ofNat 64 irqEl1PhysicalTimer)
        devices := ("power", "bcm2711_watchdog") :: s'.devices } = .ok s'' := by
    have hm'' : Irq.irqRegister (irqHeap s'.heap) s'.irqMap irqEl1PhysicalTimer img.el1TimerIrq 0 =
        .ok m' := by
      rw [hmap, hheap]
      exact hm'
    simp only [BootStmt.exec, hm'', ok_bind, pure_eq_ok, Except.ok.injEq, exists_eq']
  obtain ⟨s'', hs''⟩ := htimer
  exact ⟨s'', (((hs.stmt hs').stmt rfl).stmt rfl).stmt hs''⟩

end Booted

/-! ## The text -/

/-- The drivers of the board, the last one installed first. -/
def drivers : List String :=
  ["aarch64_el1_pns_timer", "bcm2711_watchdog", "aarch64_gic_400", "miniuart", "con_vt100"]

/-- The line of `mmu_dump` about a page. -/
def pagePieces (k : KernelLayout) (endAddr page : Word) : List Piece :=
  [.lit "page ".toList, .p page, .lit " : frame object ".toList, .p (frameObject k endAddr page),
    .lit " - ".toList, .p page, .lit "\n".toList]

/-- The line of `device_print_all` about a driver. -/
def driverPieces (dev : DevHeader) : List Piece :=
  [.lit "  ".toList, .column ['2', '4'] dev.name.toList, .lit " (".toList, .s dev.file.toList,
    .lit ":".toList, .d dev.line, .lit ")\n".toList]

/-- What `main` prints before the store. -/
def transcript (p : Program) (endAddr : Word) (pages : List Word) : List Char :=
  pages.flatMap (fun page => textOfPieces (pagePieces p.image.layout endAddr page)) ++
    "Welcome to the kernel.\n".toList ++ "loaded drivers:\n".toList ++
    drivers.flatMap (fun d => textOfPieces (driverPieces (p.header d))) ++
    "kern> \ntest string = test const string\nperforming write...\n".toList

/-- A string that `%s` prints as it is. -/
structure Printable (text : String) : Prop where
  nonempty : text.toList ≠ []
  noNul : '\x00' ∉ text.toList
  length : text.toList.length < 2 ^ 64

section Text

variable {k : KernelLayout} {endAddr page : Word} {dev : DevHeader}

theorem ok_lit {text : List Char} (h : text.all Trap.plainChar = true) : (Piece.lit text).Ok :=
  Trap.ok_of_plain h

/-- A message without a directive. -/
theorem prints_lit {fmt : String} (h : fmt.toList.all Trap.plainChar = true) :
    Prints [(fmt, [])] fmt.toList := by
  have hprints := Prints.single (m := (fmt, [])) [.lit fmt.toList]
    (fun piece hpiece => List.mem_singleton.mp hpiece ▸ ok_lit h) (by simp [formatOf, Piece.format])
    (by simp [argsOf, Piece.args])
  simpa [textOfPieces, Piece.out] using hprints

theorem prints_dumpLine :
    Prints [dumpLine k endAddr page] (textOfPieces (pagePieces k endAddr page)) := by
  refine .single _ ?_ ?_ rfl
  · simp only [pagePieces, List.forall_mem_cons, List.not_mem_nil, false_implies, implies_true,
      and_true]
    exact ⟨ok_lit rfl, trivial, ok_lit rfl, trivial, ok_lit rfl, trivial, ok_lit rfl⟩
  · simp only [dumpLine, pagePieces, formatOf, List.flatMap_cons, List.flatMap_nil, Piece.format]
    rfl

theorem prints_printDevice (hname : Printable dev.name) (hwidth : dev.name.toList.length ≤ 24)
    (hfile : Printable dev.file) :
    Prints [printkArgs (printDevice dev)] (textOfPieces (driverPieces dev)) := by
  have hdigits : ∀ d ∈ ['2', '4'], d.isDigit = true := List.all_eq_true.mp rfl
  refine .single _ ?_ ?_ rfl
  · simp only [driverPieces, List.forall_mem_cons, List.not_mem_nil, false_implies, implies_true,
      and_true]
    exact ⟨ok_lit rfl, ⟨hdigits, hname.nonempty, hname.noNul, hwidth, by decide⟩, ok_lit rfl,
      ⟨hfile.nonempty, hfile.noNul, hfile.length⟩, ok_lit rfl, trivial, ok_lit rfl⟩
  · simp only [printkArgs, printDevice, driverPieces, formatOf, List.flatMap_cons,
      List.flatMap_nil, Piece.format]
    rfl

/-- The last messages before the store. -/
theorem prints_test : Prints
    [("kern> \n", []), ("test string = %s\n", [.str "test const string".toList]),
      ("performing write...\n", [])]
    "kern> \ntest string = test const string\nperforming write...\n".toList := by
  have hstring := Prints.single (m := ("test string = %s\n", [.str "test const string".toList]))
    [.lit "test string = ".toList, .s "test const string".toList, .lit "\n".toList] ?_ rfl rfl
  · exact ((prints_lit rfl).append hstring).append (prints_lit rfl)
  · simp only [List.forall_mem_cons, List.not_mem_nil, false_implies, implies_true, and_true]
    exact ⟨ok_lit rfl, ⟨by decide, by decide, by decide⟩, ok_lit rfl⟩

end Text

/-! ## The end of main -/

/-- What the image and the area of RAM have to be for `main` to get to its
store: zero-filled RAM in the first gigabyte with room for what `mmu_init`
allocates, and names of files that can be printed. -/
structure Program.Fits (p : Program) (endAddr : Word) : Prop where
  bound : endAddr.toNat ≤ 2 ^ 30
  aligned : endAddr.toNat % 4096 = 0
  zero : ∀ w : Word, p.image.layout.imageEnd ≤ w.toNat → p.image.physMem w = 0
  room : p.image.layout.imageEnd + 4096 * initFrames p.image.layout endAddr ≤ endAddr.toNat
  timer : p.image.el1TimerIrq ≠ 0
  low : p.image.layout.kernRodataStart ≤ p.testdata
  high : p.testdata < p.image.layout.kernRodataEnd
  files : ∀ d ∈ drivers, Printable (p.file d)

/-- The trap frame of the store: a permission fault at level 3. -/
def Program.refused (p : Program) : Trap.Trapframe := ⟨4, 0x9600004F, p.store, p.spsr, p.testdata⟩

section Main

variable {p : Program} {endAddr : Word} {s : BootState} {root : Frame} {arrays : List MapCall}
  {fuel depth : Nat} {mem mem' : Nat → Nat → Char} {u : Uart} {schedule : Nat → Turn Unit}

theorem reverse_devices {img : Image} {memoryMap : PhysicalMemoryMap}
    (h : Booting img memoryMap [] s) : s.devices.reverse = mainBody.flatMap installs := by
  have hall := devices_booting h
  rwa [List.flatMap_nil, List.append_nil] at hall

/-- Characters go to the serial line. -/
theorem consoleDevs_installed {img : Image} {memoryMap : PhysicalMemoryMap}
    (h : Booting img memoryMap [] s) :
    consoleDevs (installed s) .console = .conVt100 ∧
      consoleDevs (installed s) .conVt100 = .miniuart := by
  have hdev : ∀ name, (installed s).dev name =
      lastInstalled nulldev (mainBody.flatMap installs) name := by
    intro name
    rw [installed, reverse_devices h, dev_installAll]
  refine ⟨?_, ?_⟩
  · rw [consoleDevs, hdev]
    rfl
  · rw [consoleDevs, hdev]
    rfl

/-- `device_print_all` ends, and lists the drivers. -/
theorem devicePrintAll_installed {img : Image} {memoryMap : PhysicalMemoryMap}
    (h : Booting img memoryMap [] s) (header : String → DevHeader) :
    ∃ n, devicePrintAll header n (installed s) =
      some (.text "loaded drivers:\n" :: drivers.map fun d => printDevice (header d)) := by
  have hchain : Chain (installed s).next (installed s).deviceList drivers := by
    rw [installed, reverse_devices h]
    exact chain_installAll_iff.mpr ⟨rfl, by decide⟩
  exact devicePrintAll_of_chain hchain

theorem printable_drivers : ∀ d ∈ drivers, Printable d ∧ d.toList.length ≤ 24 := by
  simp only [drivers, List.forall_mem_cons, List.not_mem_nil, false_implies, implies_true, and_true]
  refine ⟨⟨⟨?_, ?_, ?_⟩, ?_⟩, ⟨⟨?_, ?_, ?_⟩, ?_⟩, ⟨⟨?_, ?_, ?_⟩, ?_⟩, ⟨⟨?_, ?_, ?_⟩, ?_⟩,
    ⟨⟨?_, ?_, ?_⟩, ?_⟩⟩ <;> decide

/-- The messages before the store, and what they print. -/
theorem messages_eq (hp : p.Fits endAddr) (h : Booting p.image ⟨[⟨0, endAddr⟩]⟩ [] s)
    (hrun : mmuInit p.image.layout ⟨[⟨0, endAddr⟩]⟩ p.image.start.mmu = .ok s.mmu)
    (harrays : ArrayCalls p.image.layout endAddr arrays)
    (hspace : KernelSpace p.image.layout endAddr s.mmu.mmu root
      (p.image.layout.imageCalls ++ arrays)) (hroot : s.mmu.kPageTable = root.addr) :
    ∃ n ms, messages p ⟨[⟨0, endAddr⟩]⟩ n s = some ms ∧
      Prints ms (transcript p endAddr (mappedPages s.mmu.mmu.mem s.mmu.kPageTable)) := by
  have hroom : p.image.layout.imageEnd ≤ endAddr.toNat := by
    have hfits := hp.room
    omega
  have hdump := mmuDump_eq p.heads harrays hspace hroot hp.aligned hroom hrun
  rw [← hroot] at hdump
  obtain ⟨n, hdrivers⟩ := devicePrintAll_installed h p.header
  have hpages : Prints
      ((mappedPages s.mmu.mmu.mem s.mmu.kPageTable).map (dumpLine p.image.layout endAddr))
      ((mappedPages s.mmu.mmu.mem s.mmu.kPageTable).flatMap fun page =>
        textOfPieces (pagePieces p.image.layout endAddr page)) := .map fun page _ => prints_dumpLine
  have hlist : Prints (drivers.map fun d => printkArgs (printDevice (p.header d)))
      (drivers.flatMap fun d => textOfPieces (driverPieces (p.header d))) :=
    .map fun d hd => prints_printDevice (printable_drivers d hd).1 (printable_drivers d hd).2
      (hp.files d hd)
  have hwelcome : Prints [("Welcome to the kernel.\n", [])] "Welcome to the kernel.\n".toList :=
    prints_lit rfl
  have hloaded : Prints [("loaded drivers:\n", [])] "loaded drivers:\n".toList := prints_lit rfl
  refine ⟨n, _, ?_, (((hpages.append hwelcome).append hloaded).append hlist).append prints_test⟩
  rw [messages]
  simp only [hdump, hdrivers, Except.toOption, Option.bind_eq_bind, Option.bind_some,
    List.map_cons, List.map_map, List.append_assoc, List.singleton_append]
  rfl

/-- The store to the string, which is on a page of `.rodata`. -/
theorem abortOf_testdata (hp : p.Fits endAddr)
    (harrays : ArrayCalls p.image.layout endAddr arrays)
    (hspace : KernelSpace p.image.layout endAddr s.mmu.mmu root
      (p.image.layout.imageCalls ++ arrays)) :
    abortOf s.mmu.mmu.mem root.addr p.testdata .store = some p.refused.esr := by
  have hlow : p.image.layout.rodata.start ≤ p.testdata := hp.low
  have hhigh : p.testdata < p.image.layout.rodata.endPtr := hp.high
  have hmaps : Maps p.image.layout endAddr p.testdata PROT_READ :=
    .image (r := p.image.layout.rodata) (by simp [KernelLayout.ranges]) hlow hhigh rfl
  have hbase := p.image.layout.rodata.low
  have hlimit := p.image.layout.rodata.high
  have hhalf : LowerHalf (index p.testdata 39) := lowerHalf_of_kernel (by bv_omega) (by bv_omega)
  rw [abortOf_of_maps harrays hspace hhalf hmaps]
  rfl

/-- What `main` does after the boot sequence, as one text for the line. -/
theorem mainRest_eq (hp : p.Fits endAddr) (hfuel : bufSize ≤ fuel)
    (h : Booting p.image ⟨[⟨0, endAddr⟩]⟩ [] s) :
    ∃ n, mainRest fuel n mem mem' p ⟨[⟨0, endAddr⟩]⟩ s = some (uartWrite
      (transcript p endAddr (mappedPages s.mmu.mmu.mem s.mmu.kPageTable) ++
        Trap.report "Synchronous" p.refused)) := by
  have hend : endAddr.toNat ≤ 2 ^ 48 := by
    have hbound := hp.bound
    omega
  have hinit := (mmu_booting h).resolve_left List.not_mem_nil
  obtain ⟨root, arrays, hroot, harrays, hspace⟩ := KernelSpace.of_mmuInit hend hp.zero hinit
  obtain ⟨n, ms, hms, hprints⟩ := messages_eq hp h hinit harrays hspace hroot
  obtain ⟨hconsole, hvt100⟩ := consoleDevs_installed h
  have hstore := abortOf_testdata hp harrays hspace
  rw [← hroot] at hstore
  have hzero : p.refused.vectorId &&& 3 = 0 := by
    show (4 : Word) &&& 3 = 0
    decide
  have htrap : Trap.aarch64Trapentry fuel (consoleDevs (installed s)) mem' p.refused =
      some (uartWrite (Trap.report "Synchronous" p.refused)) :=
    Trap.aarch64Trapentry_eq hconsole hvt100 hfuel (if_pos hzero)
  refine ⟨n, ?_⟩
  rw [mainRest, hms]
  simp only [Option.bind_eq_bind, Option.bind_some,
    printkAll_of_installed hconsole hvt100 hfuel hprints.calls_ok, hprints.textOf, hstore]
  rw [Program.refused] at htrap ⊢
  rw [htrap, Option.bind_some, uartWrite_append]

/-- **The end of `main`**: the boot sequence gets to its end, and then, however
the timer interrupts it before and after, `main` prints the pages that are
mapped, the drivers and the string, and the store to the string ends in the
report of a permission fault.  Nothing follows it on the line. -/
theorem main_reports (hp : p.Fits endAddr) (hfuel : bufSize ≤ fuel) (htransmits : u.Transmits)
    (hdepth : 0 < depth) (htick : Fair.Recurs schedule .tick)
    (hrun : Fair.Recurs schedule (.run ())) :
    (∃ s, Booting p.image ⟨[⟨0, endAddr⟩]⟩ [] s) ∧
    ∀ s, Booting p.image ⟨[⟨0, endAddr⟩]⟩ [] s → (Fault.exception.errorPath s.kernel).isSome ∧
      ∃ n prog, mainRest fuel n mem mem' p ⟨[⟨0, endAddr⟩]⟩ s = some prog ∧ ∃ i, ∀ k ≥ i,
        ∀ m : Mmio.Machine Unit Word (BitVec 32) Uart,
          m = Fair.runOf (Mmio.Machine.step (uartBus depth)) schedule ⟨fun _ => prog, u⟩ k →
          m.prog () = .ret () ∧ m.dev.fifo = [] ∧
            m.dev.line = u.line ++ u.fifo ++ lineBytes
              (transcript p endAddr (mappedPages s.mmu.mmu.mem s.mmu.kPageTable) ++
                Trap.report "Synchronous" p.refused) := by
  have hend : endAddr.toNat ≤ 2 ^ 48 := by
    have hbound := hp.bound
    omega
  obtain ⟨mmu, hmmu⟩ : ∃ mmu, mmuInit p.image.layout ⟨[⟨0, endAddr⟩]⟩ p.image.start.mmu = .ok mmu :=
    mmuInit_ok hend hp.zero hp.room
  refine ⟨booting_nil hmmu hp.timer, fun s hs => ⟨errorPath_booted hs, ?_⟩⟩
  obtain ⟨n, hmain⟩ := mainRest_eq hp hfuel hs
  exact ⟨n, _, hmain, alone_prints htransmits hdepth htick hrun _⟩

/-- The image of `rpiLayout`, as the sources name its drivers. -/
def rpiProgram : Program where
  image := rpiImage
  file d :=
    if d = "con_vt100" then "drivers/generic/con_vt100.c"
    else if d = "miniuart" then "drivers/rpi4b/rpi4os_uart.c"
    else if d = "aarch64_gic_400" then "drivers/aarch64/gic_400.c"
    else if d = "bcm2711_watchdog" then "drivers/rpi4b/watchdog.c"
    else "drivers/aarch64/el1_physical_timer.c"
  line d :=
    if d = "con_vt100" then 61 else if d = "miniuart" then 121
    else if d = "aarch64_gic_400" then 80 else if d = "bcm2711_watchdog" then 70 else 34
  heads := fun _ => 0xFFFF000000190000
  testdata := 0xFFFF000000188010
  store := 0xFFFF000000183040
  spsr := 0x5

theorem layout_rpiProgram : rpiProgram.image.layout = rpiLayout := rfl

theorem fits_rpiProgram : rpiProgram.Fits 0x40000000 where
  bound := by decide
  aligned := by decide
  zero := fun _ _ => rfl
  room := by
    rw [layout_rpiProgram]
    exact rpiLayout_room
  timer := by decide
  low := by decide
  high := by decide
  files := by
    simp only [drivers, List.forall_mem_cons, List.not_mem_nil, false_implies, implies_true,
      and_true]
    refine ⟨⟨?_, ?_, ?_⟩, ⟨?_, ?_, ?_⟩, ⟨?_, ?_, ?_⟩, ⟨?_, ?_, ?_⟩, ⟨?_, ?_, ?_⟩⟩ <;> decide

/-- With three bytes of an earlier line in the FIFO. -/
theorem main_reports_rpi :
    (∃ s, Booting rpiProgram.image ⟨[⟨0, 0x40000000⟩]⟩ [] s) ∧
    ∀ s, Booting rpiProgram.image ⟨[⟨0, 0x40000000⟩]⟩ [] s →
      (Fault.exception.errorPath s.kernel).isSome ∧
      ∃ n prog, mainRest 32 n (fun _ _ => 'z') (fun _ _ => 'z') rpiProgram
          ⟨[⟨0, 0x40000000⟩]⟩ s = some prog ∧ ∃ i, ∀ k ≥ i,
        ∀ m : Mmio.Machine Unit Word (BitVec 32) Uart,
          m = Fair.runOf (Mmio.Machine.step (uartBus 8)) Trap.alone
            ⟨fun _ => prog, ⟨[66, 66, 66], [], [], fun _ => 3⟩⟩ k →
          m.prog () = .ret () ∧ m.dev.fifo = [] ∧
            m.dev.line = [] ++ [66, 66, 66] ++ lineBytes
              (transcript rpiProgram 0x40000000
                (mappedPages s.mmu.mmu.mem s.mmu.kPageTable) ++
                Trap.report "Synchronous" rpiProgram.refused) :=
  main_reports (u := ⟨[66, 66, 66], [], [], fun _ => 3⟩) fits_rpiProgram (by decide) (by decide)
    (by decide) Trap.recurs_alone.1 Trap.recurs_alone.2

end Main

end TeachingOs.Boot
