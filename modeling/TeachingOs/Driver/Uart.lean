import TeachingOs.Driver.Gpio
import TeachingOs.Lib.Port

/-!
# TeachingOs.Driver.Uart

The serial line: the mini UART half of `drivers/rpi4b/rpi4os_uart.c`, and the
device it drives, with transmit and receive FIFOs and a line status register.

A task that prints reads the status until there is room and writes in an
access of its own, so that it may lose the room to a task that runs in
between.  `Shows.run`: the tasks and the device are a shared port in the
sense of `Lib.Port`.
-/

namespace TeachingOs.Driver

open Port (System Writer)

/-! ## The code -/

def auxBase : BitVec 32 := peripheralBase + 0x215000

def auxEnables : Word := (auxBase + 4).setWidth 64

def auxMuIoReg : Word := (auxBase + 64).setWidth 64

def auxMuIerReg : Word := (auxBase + 68).setWidth 64

def auxMuIirReg : Word := (auxBase + 72).setWidth 64

def auxMuLcrReg : Word := (auxBase + 76).setWidth 64

def auxMuMcrReg : Word := (auxBase + 80).setWidth 64

def auxMuLsrReg : Word := (auxBase + 84).setWidth 64

def auxMuCntlReg : Word := (auxBase + 96).setWidth 64

def auxMuBaudReg : Word := (auxBase + 104).setWidth 64

/-- `AUX_MU_BAUD`, with `AUX_UART_CLOCK`. -/
def auxMuBaud (baud : BitVec 32) : BitVec 32 := 500000000 / (baud * 8) - 1

/-- `uart_init`. -/
def uartInit : Access Unit := do
  mmioWrite auxEnables 1
  mmioWrite auxMuIerReg 0
  mmioWrite auxMuCntlReg 0
  mmioWrite auxMuLcrReg 3
  mmioWrite auxMuMcrReg 0
  mmioWrite auxMuIerReg 0
  mmioWrite auxMuIirReg 0xC6
  mmioWrite auxMuBaudReg (auxMuBaud 115200)
  gpioUseAsAlt5 14
  gpioUseAsAlt5 15
  mmioWrite auxMuCntlReg 3

/-- `uart_isWriteByteReady`, of a value read from `AUX_MU_LSR_REG`. -/
def uartIsWriteByteReady (lsr : BitVec 32) : Bool := lsr &&& 0x20 != 0

/-- `uart_isReadByteReady`, of a value read from `AUX_MU_LSR_REG`. -/
def uartIsReadByteReady (lsr : BitVec 32) : Bool := lsr &&& 0x01 != 0

/-- `uart_writeByteBlockingActual`. -/
def uartWriteByteBlockingActual (ch : Char) : Access Unit :=
  .await auxMuLsrReg uartIsWriteByteReady (mmioWrite auxMuIoReg (.ofNat 32 ch.toNat))

/-- `uart_readByte`: the byte stored in `*out`, if any. -/
def uartReadByte : Access (Option (BitVec 8)) := do
  let lsr ← mmioRead auxMuLsrReg
  if uartIsReadByteReady lsr then
    let byte ← mmioRead auxMuIoReg
    pure (some (byte.setWidth 8))
  else pure none

/-- Character after character. -/
def uartWrite : List Char → Access Unit
  | [] => pure ()
  | ch :: text => do
      uartWriteByteBlockingActual ch
      uartWrite text

/-! ## The device -/

/-- The bytes to send, those sent, those received and not yet read, and what
was last written to each register. -/
structure Uart where
  fifo : List (BitVec 8)
  line : List (BitVec 8)
  received : List (BitVec 8)
  regs : Word → BitVec 32

/-- `AUX_MU_LSR_REG`: bit 5 for room, bit 0 for a byte received. -/
def Uart.lsr (depth : Nat) (u : Uart) : BitVec 32 :=
  (if u.fifo.length < depth then 0x20 else 0) ||| if u.received = [] then 0 else 0x01

/-- `AUX_MU_IIR_REG`, read: the FIFOs are on (bits 6 and 7), and bit 0 says that
neither interrupt of `AUX_MU_IER_REG` is enabled and waits. -/
def Uart.iir (u : Uart) : BitVec 32 :=
  if u.regs auxMuIerReg &&& 1 ≠ 0 ∧ u.received ≠ [] then 0xC4
  else if u.regs auxMuIerReg &&& 2 ≠ 0 ∧ u.fifo = [] then 0xC2
  else 0xC1

/-- `AUX_MU_IIR_REG`, written: bit 1 clears the receive FIFO and bit 2 the
transmit FIFO. -/
def Uart.clear (val : BitVec 32) (u : Uart) : Uart :=
  { u with
    received := if val &&& 2 ≠ 0 then [] else u.received
    fifo := if val &&& 4 ≠ 0 then [] else u.fifo }

/-- Bit 1 of `AUX_MU_CNTL_REG` enables the transmitter. -/
def Uart.Transmits (u : Uart) : Prop := u.regs auxMuCntlReg &&& 2 ≠ 0

instance : DecidablePred Uart.Transmits := fun _ => inferInstanceAs (Decidable (_ ≠ _))

/-- The device, with FIFOs of `depth` bytes. -/
def uartBus (depth : Nat) : Bus Word (BitVec 32) Uart where
  read reg u :=
    if reg = auxMuLsrReg then (u.lsr depth, u)
    else if reg = auxMuIirReg then (u.iir, u)
    else if reg = auxMuIoReg then
      match u.received with
      | [] => (0, u)
      | byte :: received => (byte.setWidth 32, { u with received := received })
    else (u.regs reg, u)
  write reg val u :=
    if reg = auxMuIoReg then
      if u.fifo.length < depth then { u with fifo := u.fifo ++ [val.setWidth 8] } else u
    else if reg = auxMuIirReg then u.clear val
    else { u with regs := Function.update u.regs reg val }
  tick u :=
    match u.fifo with
    | byte :: fifo => if u.Transmits then { u with fifo := fifo, line := u.line ++ [byte] } else u
    | [] => u

/-- The byte of a character on the line. -/
def charByte (ch : Char) : BitVec 8 := .ofNat 8 ch.toNat

/-! ## Setting it up -/

/-- A register that holds what was written. -/
def Plain (reg : Word) : Prop := reg ≠ auxMuIoReg ∧ reg ≠ auxMuLsrReg ∧ reg ≠ auxMuIirReg

instance : DecidablePred Plain := fun _ => inferInstanceAs (Decidable (_ ∧ _))

theorem Plain.read {reg : Word} (h : Plain reg) (depth : Nat) (u : Uart) :
    (uartBus depth).read reg u = (u.regs reg, u) := by
  simp [uartBus, h.1, h.2.1, h.2.2]

theorem Plain.write {reg : Word} (h : Plain reg) (depth : Nat) (val : BitVec 32) (u : Uart) :
    (uartBus depth).write reg val u = { u with regs := Function.update u.regs reg val } := by
  simp [uartBus, h.1, h.2.2]

/-- Programs on plain registers leave the FIFOs alone. -/
theorem exec_plain {α : Type} {x : Access α} (hx : x.Within Plain) (depth : Nat) (u : Uart) :
    x.exec (uartBus depth) u =
      (x.exec (.registers Word (BitVec 32)) u.regs).map fun r => (r.1, { u with regs := r.2 }) :=
  Mmio.exec_within (fun m => { u with regs := m }) hx (fun _ _ hreg => hreg.read ..)
    (fun _ _ _ hreg => hreg.write ..) u.regs

/-- A write by itself. -/
theorem exec_mmioWrite (depth : Nat) (reg : Word) (val : BitVec 32) (u : Uart) :
    (mmioWrite reg val).exec (uartBus depth) u = some ((), (uartBus depth).write reg val u) := rfl

/-- The two calls of `gpio_useAsAlt5`. -/
def alt5Calls (pinNumber : BitVec 32) : List GpioCall :=
  [.pull pinNumber pullNone, .function pinNumber gpioFunctionAlt5]

theorem exec_gpioUseAsAlt5 (pinNumber : BitVec 32) (m : Word → BitVec 32) :
    (gpioUseAsAlt5 pinNumber).exec (.registers Word (BitVec 32)) m =
      some ((), (alt5Calls pinNumber).foldl GpioCall.write m) := by
  have hpull : (gpioPull pinNumber pullNone).exec (.registers Word (BitVec 32)) m = _ :=
    exec_program (.pull pinNumber pullNone) m
  have hfunction (m : Word → BitVec 32) : (gpioFunction pinNumber gpioFunctionAlt5).exec
      (.registers Word (BitVec 32)) m = _ := exec_program (.function pinNumber gpioFunctionAlt5) m
  rw [gpioUseAsAlt5, Mmio.exec_bind, hpull, Option.bind_some, Mmio.exec_bind, hfunction]
  rfl

theorem within_gpioUseAsAlt5 (pinNumber : BitVec 32) : (gpioUseAsAlt5 pinNumber).Within Plain := by
  have hpull : (gpioPull pinNumber pullNone).Within Plain :=
    within_gpioCall (show 0 < 2 by decide) (by decide) pinNumber pullNone gppuppdn0
      fun hpin => pullTable_addr (by decide) hpin
  have hfunction : (gpioFunction pinNumber gpioFunctionAlt5).Within Plain :=
    within_gpioCall (show 0 < 3 by decide) (by decide) pinNumber gpioFunctionAlt5 gpfsel0
      fun hpin => functionTable_addr (by decide) hpin
  exact hpull.bind fun _ => hfunction.bind fun _ => trivial

/-- The plain registers that `uart_init` writes before it sets up the pins. -/
def uartWrites : List (Word × BitVec 32) :=
  [(auxEnables, 1), (auxMuIerReg, 0), (auxMuCntlReg, 0), (auxMuLcrReg, 3), (auxMuMcrReg, 0),
    (auxMuIerReg, 0), (auxMuBaudReg, 541)]

/-- The registers that `uart_init` sets, with what is read from them after it. -/
def uartSettings : List (Word × BitVec 32) :=
  [(auxEnables, 1), (auxMuIerReg, 0), (auxMuLcrReg, 3), (auxMuMcrReg, 0), (auxMuIirReg, 0xC1),
    (auxMuBaudReg, 541), (auxMuCntlReg, 3)]

/-- Write after write. -/
def writeAll (writes : List (Word × BitVec 32)) (m : Word → BitVec 32) : Word → BitVec 32 :=
  writes.foldl (fun m p => Function.update m p.1 p.2) m

theorem writeAll_of_notMem {writes : List (Word × BitVec 32)} {reg : Word}
    (h : reg ∉ writes.map Prod.fst) (m : Word → BitVec 32) : writeAll writes m reg = m reg := by
  induction writes generalizing m with
  | nil => rfl
  | cons p writes ih =>
      rw [List.map_cons, List.mem_cons, not_or] at h
      exact (ih h.2 _).trans (Function.update_of_ne h.1 ..)

theorem pins_writeAll {writes : List (Word × BitVec 32)} (h : ∀ p ∈ writes, OffTable p.1)
    (m : Word → BitVec 32) : pins (writeAll writes m) = pins m := by
  induction writes generalizing m with
  | nil => rfl
  | cons p writes ih =>
      rw [List.forall_mem_cons] at h
      exact (ih h.2 _).trans (h.1.pins m p.2)

/-- A plain setting is written before the pins are set up, or it is the last
write. -/
theorem writeAll_settings (m : Word → BitVec 32) : ∀ p ∈ uartSettings,
    p = (auxMuIirReg, 0xC1) ∨ p = (auxMuCntlReg, 3) ∨
      Plain p.1 ∧ p.1 ≠ auxMuCntlReg ∧ writeAll uartWrites m p.1 = p.2 := by
  intro p hp
  simp only [uartSettings, List.mem_cons, List.not_mem_nil, or_false] at hp
  rcases hp with rfl | rfl | rfl | rfl | rfl | rfl | rfl
  all_goals first
    | exact .inl rfl
    | exact .inr (.inl rfl)
    | exact .inr (.inr ⟨by decide, by decide, rfl⟩)

theorem uartWrites_subset : uartWrites.map Prod.fst ⊆ uartSettings.map Prod.fst := by
  simp [uartWrites, uartSettings]

theorem offTable_settings : ∀ reg ∈ uartSettings.map Prod.fst, OffTable reg := by
  intro reg hreg
  simp only [uartSettings, List.map_cons, List.map_nil, List.mem_cons, List.not_mem_nil,
    or_false] at hreg
  rcases hreg with rfl | rfl | rfl | rfl | rfl | rfl | rfl <;> decide

/-- The registers after `uart_init`. -/
def uartInitRegs (m : Word → BitVec 32) : Word → BitVec 32 :=
  Function.update ((alt5Calls 14 ++ alt5Calls 15).foldl GpioCall.write (writeAll uartWrites m))
    auxMuCntlReg 3

/-- `uart_init` by itself: the write of 0xC6 clears both FIFOs. -/
theorem exec_uartInit (depth : Nat) (u : Uart) : uartInit.exec (uartBus depth) u =
    some ((), { u with fifo := [], received := [], regs := uartInitRegs u.regs }) := by
  have halt5 (pinNumber : BitVec 32) (u : Uart) :
      (gpioUseAsAlt5 pinNumber).exec (uartBus depth) u =
        some ((), { u with regs := (alt5Calls pinNumber).foldl GpioCall.write u.regs }) := by
    rw [exec_plain (within_gpioUseAsAlt5 pinNumber), exec_gpioUseAsAlt5]
    rfl
  simp only [uartInit, Mmio.exec_bind, exec_mmioWrite, halt5, Option.bind_some, uartInitRegs,
    List.foldl_append]
  rfl

theorem uartInitRegs_of_setting (m : Word → BitVec 32) {p : Word × BitVec 32}
    (hp : p ∈ uartSettings) : p = (auxMuIirReg, 0xC1) ∨ Plain p.1 ∧ uartInitRegs m p.1 = p.2 := by
  have hreg := offTable_settings p.1 (List.mem_map_of_mem hp)
  rcases writeAll_settings m p hp with hiir | rfl | ⟨hplain, hcntl, hwritten⟩
  · exact .inl hiir
  · exact .inr ⟨by decide, Function.update_self ..⟩
  · obtain ⟨-, -, hoff⟩ := foldl_write (alt5Calls 14 ++ alt5Calls 15) (writeAll uartWrites m)
    refine .inr ⟨hplain, ?_⟩
    rw [uartInitRegs, Function.update_of_ne hcntl, hoff p.1 hreg, hwritten]

theorem pins_uartInitRegs (m : Word → BitVec 32) :
    pins (uartInitRegs m) = (alt5Calls 14 ++ alt5Calls 15).foldl GpioCall.apply (pins m) := by
  obtain ⟨hpins, -, -⟩ := foldl_write (alt5Calls 14 ++ alt5Calls 15) (writeAll uartWrites m)
  have hwrites : ∀ p ∈ uartWrites, OffTable p.1 := fun p hp =>
    offTable_settings p.1 (uartWrites_subset (List.mem_map_of_mem hp))
  rw [uartInitRegs, OffTable.pins (by decide), hpins, pins_writeAll hwrites]

theorem uartInitRegs_spare (m : Word → BitVec 32) {reg : Word}
    (hreg : reg ∉ uartSettings.map Prod.fst) {b : Nat} (hb : b < 32) (hs : Spare reg b) :
    (uartInitRegs m reg).getLsbD b = (m reg).getLsbD b := by
  obtain ⟨-, hspare, -⟩ := foldl_write (alt5Calls 14 ++ alt5Calls 15) (writeAll uartWrites m)
  have hcntl : reg ≠ auxMuCntlReg := by
    rintro rfl
    exact hreg (by decide)
  have hwrites : reg ∉ uartWrites.map Prod.fst := fun hmem => hreg (uartWrites_subset hmem)
  rw [uartInitRegs, Function.update_of_ne hcntl, hspare reg b hb hs, writeAll_of_notMem hwrites]

/-- **`uart_init`**, on any state of the device: both FIFOs are empty and the
line is as it was, the transmitter is on, every register reads its setting,
pins 14 and 15 are the UART's own, and no other pin or register has changed. -/
theorem uartInit_configures (depth : Nat) (u : Uart) :
    ∃ u', uartInit.exec (uartBus depth) u = some ((), u') ∧
      u'.fifo = [] ∧ u'.received = [] ∧ u'.line = u.line ∧ u'.Transmits ∧
      (∀ p ∈ uartSettings, (uartBus depth).read p.1 u' = (p.2, u')) ∧
      pins u'.regs = (alt5Calls 14 ++ alt5Calls 15).foldl GpioCall.apply (pins u.regs) ∧
      ∀ reg, reg ∉ uartSettings.map Prod.fst → ∀ b < 32, Spare reg b →
        (u'.regs reg).getLsbD b = (u.regs reg).getLsbD b := by
  refine ⟨_, exec_uartInit depth u, rfl, rfl, rfl, ?_, ?_, pins_uartInitRegs u.regs,
    fun reg hreg b hb hs => uartInitRegs_spare u.regs hreg hb hs⟩
  · simp [Uart.Transmits, uartInitRegs]
  · intro p hp
    rcases uartInitRegs_of_setting u.regs hp with rfl | ⟨hplain, hsetting⟩
    · have hier : uartInitRegs u.regs auxMuIerReg = 0 := by
        have hmem : (auxMuIerReg, (0 : BitVec 32)) ∈ uartSettings := by decide
        rcases uartInitRegs_of_setting u.regs hmem with h | ⟨-, h⟩
        · exact absurd h (by decide)
        · exact h
      simp [uartBus, Uart.iir, hier, show auxMuIirReg ≠ auxMuLsrReg by decide]
    · rw [hplain.read, ← hsetting]

/-! ## The port -/

variable {depth : Nat} {u : Uart} {T : Type}

theorem uartIsWriteByteReady_lsr (depth : Nat) (u : Uart) :
    uartIsWriteByteReady (u.lsr depth) = decide (u.fifo.length < depth) := by
  by_cases hroom : u.fifo.length < depth <;> by_cases hnil : u.received = [] <;>
    simp [uartIsWriteByteReady, Uart.lsr, hroom, hnil]

/-- What is left of a task that prints: `rest`, or a write for which it has
seen room. -/
def program : Writer Char → Access Unit
  | .polling rest => uartWrite rest
  | .writing ch rest => .write auxMuIoReg (.ofNat 32 ch.toNat) (uartWrite rest)

/-- The device and the tasks, as a port and its writers. -/
structure Shows (m : Mmio.Machine T Word (BitVec 32) Uart) (s : System T Char) : Prop where
  fifo : m.dev.fifo = s.port.queue.map fun p => charByte p.2
  line : m.dev.line = s.port.line.map fun p => charByte p.2
  prog : ∀ t, m.prog t = program (s.writer t)
  transmits : m.dev.Transmits

variable [DecidableEq T] {m : Mmio.Machine T Word (BitVec 32) Uart} {s : System T Char}

omit [DecidableEq T] in
theorem Shows.length_fifo (h : Shows m s) : m.dev.fifo.length = s.port.queue.length := by
  rw [h.fifo, List.length_map]

/-- A look at the status register. -/
theorem next_polling (depth : Nat) (u : Uart) (ch : Char) (rest : List Char) :
    (program (.polling (ch :: rest))).next (uartBus depth) u =
      (program (if u.fifo.length < depth then .writing ch rest else .polling (ch :: rest)), u) := by
  have hnext : (program (.polling (ch :: rest))).next (uartBus depth) u =
      (if uartIsWriteByteReady (u.lsr depth) then program (.writing ch rest)
        else program (.polling (ch :: rest)), u) := rfl
  rw [hnext, uartIsWriteByteReady_lsr, apply_ite program]
  simp only [decide_eq_true_eq]

/-- A write to the data register. -/
theorem next_writing (depth : Nat) (u : Uart) (ch : Char) (rest : List Char) :
    (program (.writing ch rest)).next (uartBus depth) u =
      (program (.polling rest),
        if u.fifo.length < depth then { u with fifo := u.fifo ++ [charByte ch] } else u) := by
  rw [charByte, ← BitVec.setWidth_ofNat_of_le (show 8 ≤ 32 by decide) ch.toNat]
  rfl

omit [DecidableEq T] in
/-- A program that has moved on, beside a writer that has. -/
theorem Shows.prog_update [DecidableEq T] (h : Shows m s) (t : T) (w : Writer Char) (t' : T) :
    Function.update m.prog t (program w) t' = program (Function.update s.writer t w t') := by
  by_cases ht : t' = t
  · subst ht
    rw [Function.update_self, Function.update_self]
  · rw [Function.update_of_ne ht, Function.update_of_ne ht, h.prog]

/-- The device's step is the port's. -/
theorem Shows.tick (h : Shows m s) :
    Shows (m.step (uartBus depth) .tick) (s.step depth .tick) := by
  cases hqueue : s.port.queue with
  | nil =>
      have hfifo : m.dev.fifo = [] := by rw [h.fifo, hqueue, List.map_nil]
      have hm : m.step (uartBus depth) .tick = m := by
        simp [Mmio.Machine.step, uartBus, hfifo]
      have hs : s.step depth .tick = s := by simp [System.step, Port.Fifo.drain, hqueue]
      rwa [hm, hs]
  | cons p queue =>
      have hfifo : m.dev.fifo = charByte p.2 :: queue.map fun p => charByte p.2 := by
        rw [h.fifo, hqueue, List.map_cons]
      have hm : m.step (uartBus depth) .tick =
          { m with dev := { m.dev with
              fifo := queue.map fun p => charByte p.2
              line := m.dev.line ++ [charByte p.2] } } := by
        simp [Mmio.Machine.step, uartBus, hfifo, h.transmits]
      have hs : s.step depth .tick = { s with port := ⟨queue, s.port.line ++ [p]⟩ } := by
        simp [System.step, Port.Fifo.drain, hqueue]
      rw [hm, hs]
      exact ⟨rfl, by simp [h.line], h.prog, h.transmits⟩

/-- **One step** of the tasks or the device is one of the port. -/
theorem Shows.step (h : Shows m s) (turn : Turn T) :
    Shows (m.step (uartBus depth) turn) (s.step depth turn) := by
  cases turn with
  | tick => exact h.tick
  | idle => exact h
  | run t =>
      cases hw : s.writer t with
      | polling rest =>
          cases rest with
          | nil =>
              have hm : m.step (uartBus depth) (.run t) = m := by
                have hprog : m.prog t = .ret () := by
                  rw [h.prog, hw]
                  rfl
                have hupdate : Function.update m.prog t (.ret ()) = m.prog := by
                  rw [← hprog, Function.update_eq_self]
                simp only [Mmio.Machine.step, hprog, Mmio.next, hupdate]
              have hs : s.step depth (.run t) = s := by simp [System.step, hw]
              rwa [hm, hs]
          | cons ch rest =>
              have hm : m.step (uartBus depth) (.run t) = { m with
                  prog := Function.update m.prog t (program
                    (if s.port.queue.length < depth then .writing ch rest
                      else .polling (ch :: rest))) } := by
                rw [Mmio.Machine.step, h.prog, hw, next_polling, h.length_fifo]
              have hs : s.step depth (.run t) = { s with
                  writer := Function.update s.writer t
                    (if s.port.queue.length < depth then .writing ch rest
                      else .polling (ch :: rest)) } := by
                by_cases hroom : s.port.queue.length < depth
                · simp [System.step, hw, hroom]
                · have hupdate : Function.update s.writer t (.polling (ch :: rest)) = s.writer := by
                    rw [← hw, Function.update_eq_self]
                  simp only [System.step, hw, if_neg hroom, hupdate]
              rw [hm, hs]
              exact ⟨h.fifo, h.line, h.prog_update t _, h.transmits⟩
      | writing ch rest =>
          have hm : m.step (uartBus depth) (.run t) =
              { prog := Function.update m.prog t (program (.polling rest))
                dev := if s.port.queue.length < depth then
                  { m.dev with fifo := m.dev.fifo ++ [charByte ch] } else m.dev } := by
            rw [Mmio.Machine.step, h.prog, hw, next_writing, h.length_fifo]
          have hs : s.step depth (.run t) = ⟨s.port.write depth (t, ch),
              Function.update s.writer t (.polling rest)⟩ := by
            simp [System.step, hw]
          rw [hm, hs]
          by_cases hroom : s.port.queue.length < depth
          · rw [if_pos hroom, Port.Fifo.write_of_room hroom]
            exact ⟨by simp [h.fifo], h.line, h.prog_update t _, h.transmits⟩
          · rw [if_neg hroom, Port.Fifo.write_of_full hroom]
            exact ⟨h.fifo, h.line, h.prog_update t _, h.transmits⟩

/-- **A run** of the tasks and the device is one of the port. -/
theorem Shows.run (h : Shows m s) (depth : Nat) (turns : List (Turn T)) :
    Shows (m.run (uartBus depth) turns) (s.run depth turns) := by
  induction turns generalizing m s with
  | nil => exact h
  | cons turn turns ih => exact ih (h.step turn)

end TeachingOs.Driver
