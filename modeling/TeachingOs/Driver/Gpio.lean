import TeachingOs.Basic
import TeachingOs.Lib.BitField
import TeachingOs.Lib.Mmio

/-!
# TeachingOs.Driver.Gpio

The pins: `gpio_call` of `drivers/rpi4b/rpi4os_uart.c`, which writes a field
of a register by reading and writing the register as a whole.

`gpioCalls_refines`: calls in any order, with any arguments, do to the
registers what they say about the pins, and nothing else.
-/

namespace TeachingOs.Driver

open BitField

/-! ## The code -/

/-- A program of accesses to 32-bit registers. -/
abbrev Access (α : Type) := Mmio Word (BitVec 32) α

/-- `PERIPHERAL_BASE`. -/
def peripheralBase : BitVec 32 := 0x40000000 + (0xFE000000 - 0xC0000000)

def gpfsel0 : BitVec 32 := peripheralBase + 0x200000

def gpset0 : BitVec 32 := peripheralBase + 0x20001C

def gpclr0 : BitVec 32 := peripheralBase + 0x200028

def gppuppdn0 : BitVec 32 := peripheralBase + 0x2000E4

/-- `GPIO_MAX_PIN`. -/
def gpioMaxPin : BitVec 32 := 53

/-- `GPIO_FUNCTION_ALT5`. -/
def gpioFunctionAlt5 : BitVec 32 := 2

/-- `Pull_None`. -/
def pullNone : BitVec 32 := 0

/-- `mmio_write`. -/
def mmioWrite (reg : Word) (val : BitVec 32) : Access Unit := .write reg val (.ret ())

/-- `mmio_read`. -/
def mmioRead (reg : Word) : Access (BitVec 32) := .read reg .ret

/-- `gpio_call`. -/
def gpioCall (pinNumber value base fieldSize fieldMax : BitVec 32) : Access (BitVec 32) :=
  let fieldMask := 1#32 <<< fieldSize - 1#32
  if pinNumber > fieldMax then pure 0
  else if value > fieldMask then pure 0
  else
    let numFields := 32 / fieldSize
    let reg := (base + pinNumber / numFields * 4).setWidth 64
    let shift := pinNumber % numFields * fieldSize
    do
      let curval ← mmioRead reg
      let curval := curval &&& ~~~(fieldMask <<< shift)
      let curval := curval ||| value <<< shift
      mmioWrite reg curval
      pure 1

def gpioSet (pinNumber value : BitVec 32) : Access (BitVec 32) :=
  gpioCall pinNumber value gpset0 1 gpioMaxPin

def gpioClear (pinNumber value : BitVec 32) : Access (BitVec 32) :=
  gpioCall pinNumber value gpclr0 1 gpioMaxPin

def gpioPull (pinNumber value : BitVec 32) : Access (BitVec 32) :=
  gpioCall pinNumber value gppuppdn0 2 gpioMaxPin

def gpioFunction (pinNumber value : BitVec 32) : Access (BitVec 32) :=
  gpioCall pinNumber value gpfsel0 3 gpioMaxPin

/-- `gpio_useAsAlt5`. -/
def gpioUseAsAlt5 (pinNumber : BitVec 32) : Access Unit := do
  let _ ← gpioPull pinNumber pullNone
  let _ ← gpioFunction pinNumber gpioFunctionAlt5
  pure ()

/-! ## The registers as tables of fields -/

theorem word_inj (base : BitVec 32) {i j : Nat} (hi : i < 2 ^ 30) (hj : j < 2 ^ 30)
    (h : (base + BitVec.ofNat 32 i * 4).setWidth 64 = (base + BitVec.ofNat 32 j * 4).setWidth 64) :
    i = j := by
  have h32 : base + BitVec.ofNat 32 i * 4 = base + BitVec.ofNat 32 j * 4 := by
    have h' := congrArg (BitVec.setWidth 32) h
    simpa using h'
  have hmul := congrArg BitVec.toNat ((BitVec.add_right_inj base).mp h32)
  rw [BitVec.toNat_mul, BitVec.toNat_mul, BitVec.toNat_ofNat, BitVec.toNat_ofNat,
    show BitVec.toNat (4 : BitVec 32) = 4 from rfl] at hmul
  omega

/-- The fields that `gpio_call` finds from `base` on. -/
def gpioTable (base : BitVec 32) (size : Nat) (hpos : 0 < size) (hle : size ≤ 32) :
    Table Word 32 where
  word i := (base + BitVec.ofNat 32 i * 4).setWidth 64
  size := size
  perWord := 32 / size
  count := 54
  pos := Nat.div_pos hle hpos
  fits := Nat.div_mul_le_self 32 size
  distinct := by
    intro i hi j hj h
    have hi' := Nat.div_le_self i (32 / size)
    have hj' := Nat.div_le_self j (32 / size)
    exact word_inj base (by omega) (by omega) h

def functionTable : Table Word 32 := gpioTable gpfsel0 3 (by decide) (by decide)

def pullTable : Table Word 32 := gpioTable gppuppdn0 2 (by decide) (by decide)

section

variable {size : Nat} (hpos : 0 < size) (hle : size ≤ 32)

theorem toNat_numFields (hle : size ≤ 32) : (32 / BitVec.ofNat 32 size).toNat = 32 / size := by
  rw [BitVec.toNat_udiv, BitVec.toNat_ofNat, show BitVec.toNat (32 : BitVec 32) = 32 from rfl,
    Nat.mod_eq_of_lt (by omega)]

/-- `reg` of `gpio_call`. -/
theorem reg_eq_addr (pinNumber base : BitVec 32) :
    (base + pinNumber / (32 / BitVec.ofNat 32 size) * 4).setWidth 64 =
      (gpioTable base size hpos hle).addr pinNumber.toNat := by
  have hdiv : pinNumber / (32 / BitVec.ofNat 32 size) =
      .ofNat 32 (pinNumber.toNat / (32 / size)) := by
    apply BitVec.eq_of_toNat_eq
    have hlt := Nat.lt_of_le_of_lt (Nat.div_le_self pinNumber.toNat (32 / size)) pinNumber.isLt
    rw [BitVec.toNat_udiv, toNat_numFields hle, BitVec.toNat_ofNat, Nat.mod_eq_of_lt hlt]
  rw [hdiv]
  rfl

/-- `shift` of `gpio_call`. -/
theorem toNat_shift (hpos : 0 < size) (hle : size ≤ 32) (pinNumber : BitVec 32) :
    (pinNumber % (32 / BitVec.ofNat 32 size) * BitVec.ofNat 32 size).toNat =
      pinNumber.toNat % (32 / size) * size := by
  have hfits := (gpioTable 0 size hpos hle).fits_mod pinNumber.toNat
  have hshift : pinNumber.toNat % (32 / size) * size + size ≤ 32 := hfits
  rw [BitVec.toNat_mul, BitVec.toNat_umod, toNat_numFields hle, BitVec.toNat_ofNat,
    Nat.mod_eq_of_lt (show size < 2 ^ 32 by omega), Nat.mod_eq_of_lt (by omega)]

/-- **The driver's arithmetic**: a valid call writes its field, on any device,
and any other call touches no register. -/
theorem exec_gpioCall {σ : Type} (bus : Bus Word (BitVec 32) σ) (pinNumber value base : BitVec 32)
    (d : σ) :
    (gpioCall pinNumber value base (.ofNat 32 size) gpioMaxPin).exec bus d =
      let t := gpioTable base size hpos hle
      let reg := t.addr pinNumber.toNat
      if pinNumber.toNat < 54 ∧ value ≤ mask 32 size then
        some (1, bus.write reg (BitField.set size (bus.read reg d).1 (pinNumber.toNat % t.perWord)
          value) (bus.read reg d).2)
      else some (0, d) := by
  have hmask : 1#32 <<< (BitVec.ofNat 32 size).toNat - 1#32 = mask 32 size := by
    rw [BitVec.toNat_ofNat, Nat.mod_eq_of_lt (by omega), mask]
  have hpin : pinNumber > gpioMaxPin ↔ ¬ pinNumber.toNat < 54 := by
    rw [gt_iff_lt, BitVec.lt_def, show gpioMaxPin.toNat = 53 from rfl]
    omega
  simp only [gpioCall, BitVec.shiftLeft_eq', hmask, hpin, gt_iff_lt, toNat_shift hpos hle,
    reg_eq_addr hpos hle]
  by_cases hlt : pinNumber.toNat < 54
  · by_cases hvalue : value ≤ mask 32 size
    · rw [if_neg (not_not.mpr hlt), if_neg (BitVec.not_lt.mpr hvalue), if_pos ⟨hlt, hvalue⟩]
      rfl
    · rw [if_neg (not_not.mpr hlt), if_pos (BitVec.not_le.mp hvalue), if_neg fun h => hvalue h.2]
      rfl
  · rw [if_pos hlt, if_neg fun h => hlt h.1]
    rfl

/-- The only register that a call accesses. -/
theorem within_gpioCall {R : Word → Prop} (pinNumber value base : BitVec 32)
    (h : pinNumber.toNat < 54 → R ((gpioTable base size hpos hle).addr pinNumber.toNat)) :
    (gpioCall pinNumber value base (.ofNat 32 size) gpioMaxPin).Within R := by
  rw [gpioCall]
  split
  · trivial
  · next hpin =>
      split
      · trivial
      · have hlt : pinNumber.toNat < 54 := by
          rw [gt_iff_lt, BitVec.lt_def, show gpioMaxPin.toNat = 53 from rfl] at hpin
          omega
        simp only [reg_eq_addr hpos hle]
        exact ⟨h hlt, fun _ => ⟨h hlt, trivial⟩⟩

/-- The same on registers. -/
theorem exec_gpioCall_registers (pinNumber value base : BitVec 32) (m : Word → BitVec 32) :
    (gpioCall pinNumber value base (.ofNat 32 size) gpioMaxPin).exec (.registers Word (BitVec 32))
      m = some (if pinNumber.toNat < 54 ∧ value ≤ mask 32 size then
        (1, (gpioTable base size hpos hle).set m pinNumber.toNat value) else (0, m)) := by
  rw [exec_gpioCall hpos hle]
  split <;> rfl

end

/-! ## What the calls are for -/

/-- What every pin does, and how it is pulled. -/
structure Pins where
  function : Fin 54 → BitVec 3
  pull : Fin 54 → BitVec 2

/-- The pins as the registers have them. -/
def pins (m : Word → BitVec 32) : Pins where
  function i := (functionTable.get m i).setWidth 3
  pull i := (pullTable.get m i).setWidth 2

inductive GpioCall where
  | pull (pinNumber value : BitVec 32)
  | function (pinNumber value : BitVec 32)

namespace GpioCall

/-- The pin exists, and the value fits. -/
def Valid : GpioCall → Prop
  | pull pinNumber value => pinNumber.toNat < 54 ∧ value ≤ 3
  | function pinNumber value => pinNumber.toNat < 54 ∧ value ≤ 7

instance : DecidablePred Valid := fun c => by
  cases c <;> exact inferInstanceAs (Decidable (_ ∧ _))

/-- The code's call. -/
def program : GpioCall → Access (BitVec 32)
  | pull pinNumber value => gpioPull pinNumber value
  | function pinNumber value => gpioFunction pinNumber value

/-- What a call says about the pins. -/
def apply (p : Pins) : GpioCall → Pins
  | pull pinNumber value =>
      if h : pinNumber.toNat < 54 ∧ value ≤ 3 then
        { p with pull := Function.update p.pull ⟨pinNumber.toNat, h.1⟩ (value.setWidth 2) }
      else p
  | function pinNumber value =>
      if h : pinNumber.toNat < 54 ∧ value ≤ 7 then
        { p with function := Function.update p.function ⟨pinNumber.toNat, h.1⟩ (value.setWidth 3) }
      else p

/-- What a call does to the registers. -/
def write (m : Word → BitVec 32) : GpioCall → Word → BitVec 32
  | pull pinNumber value =>
      if pinNumber.toNat < 54 ∧ value ≤ 3 then pullTable.set m pinNumber.toNat value else m
  | function pinNumber value =>
      if pinNumber.toNat < 54 ∧ value ≤ 7 then functionTable.set m pinNumber.toNat value else m

/-- Call after call, with the results. -/
def programs : List GpioCall → Access (List (BitVec 32))
  | [] => pure []
  | c :: cs => do
      let result ← c.program
      let results ← programs cs
      pure (result :: results)

end GpioCall

/-- A bit of a register that belongs to no pin. -/
def Spare (reg : Word) (b : Nat) : Prop :=
  ∀ i < 54, ¬ functionTable.Covers i reg b ∧ ¬ pullTable.Covers i reg b

/-- A property of the four words of the one table. -/
theorem pullTable_addr {P : Word → Prop} (h : ∀ a < 4, P (pullTable.word a)) {i : Nat}
    (hi : i < 54) : P (pullTable.addr i) := by
  refine h (i / 16) ?_
  omega

/-- A property of the six words of the other. -/
theorem functionTable_addr {P : Word → Prop} (h : ∀ a < 6, P (functionTable.word a)) {i : Nat}
    (hi : i < 54) : P (functionTable.addr i) := by
  refine h (i / 10) ?_
  omega

/-- The two tables have no word in common. -/
theorem addr_ne {i j : Nat} (hi : i < 54) (hj : j < 54) :
    pullTable.addr i ≠ functionTable.addr j := by
  have hwords : ∀ a < 4, ∀ b < 6, pullTable.word a ≠ functionTable.word b := by decide
  refine pullTable_addr (P := fun a => a ≠ functionTable.addr j) (fun a ha => ?_) hi
  exact functionTable_addr (P := fun b => pullTable.word a ≠ b) (hwords a ha) hj

variable {m : Word → BitVec 32}

theorem exec_program (c : GpioCall) (m : Word → BitVec 32) :
    c.program.exec (.registers Word (BitVec 32)) m =
      some (if c.Valid then 1 else 0, c.write m) := by
  cases c with
  | pull pinNumber value =>
      have hexec := exec_gpioCall_registers (show 0 < 2 by decide) (by decide) pinNumber value
        gppuppdn0 m
      rw [show mask 32 2 = 3 from rfl] at hexec
      rw [GpioCall.program, gpioPull, show (2 : BitVec 32) = .ofNat 32 2 from rfl, hexec]
      by_cases h : pinNumber.toNat < 54 ∧ value ≤ 3
      · have hvalid : (GpioCall.pull pinNumber value).Valid := h
        rw [if_pos h, if_pos hvalid, GpioCall.write, if_pos h]
        rfl
      · have hvalid : ¬ (GpioCall.pull pinNumber value).Valid := h
        rw [if_neg h, if_neg hvalid, GpioCall.write, if_neg h]
  | function pinNumber value =>
      have hexec := exec_gpioCall_registers (show 0 < 3 by decide) (by decide) pinNumber value
        gpfsel0 m
      rw [show mask 32 3 = 7 from rfl] at hexec
      rw [GpioCall.program, gpioFunction, show (3 : BitVec 32) = .ofNat 32 3 from rfl, hexec]
      by_cases h : pinNumber.toNat < 54 ∧ value ≤ 7
      · have hvalid : (GpioCall.function pinNumber value).Valid := h
        rw [if_pos h, if_pos hvalid, GpioCall.write, if_pos h]
        rfl
      · have hvalid : ¬ (GpioCall.function pinNumber value).Valid := h
        rw [if_neg h, if_neg hvalid, GpioCall.write, if_neg h]

/-- A field of one table, seen from a table with other words. -/
theorem get_set_of_addr_ne {t t' : Table Word 32} {i j : Nat} (h : t.addr i ≠ t'.addr j)
    (value : BitVec 32) : t'.get (t.set m i value) j = t'.get m j :=
  Table.get_update_of_ne h _

/-- **One call**: what it says is what it does. -/
theorem pins_write (c : GpioCall) (m : Word → BitVec 32) : pins (c.write m) = c.apply (pins m) := by
  cases c with
  | pull pinNumber value =>
      simp only [GpioCall.write, GpioCall.apply]
      by_cases h : pinNumber.toNat < 54 ∧ value ≤ 3
      · rw [if_pos h, dif_pos h, pins, pins]
        congr 1
        · funext j
          rw [get_set_of_addr_ne (addr_ne h.1 j.isLt)]
        · funext j
          by_cases hj : j = ⟨pinNumber.toNat, h.1⟩
          · subst hj
            rw [Function.update_self, Table.get_set_self h.2]
          · have hne : pinNumber.toNat ≠ j := fun he => hj (Fin.ext he.symm)
            rw [Function.update_of_ne hj, Table.get_set_of_ne h.2 h.1 j.isLt hne]
      · rw [if_neg h, dif_neg h]
  | function pinNumber value =>
      simp only [GpioCall.write, GpioCall.apply]
      by_cases h : pinNumber.toNat < 54 ∧ value ≤ 7
      · rw [if_pos h, dif_pos h, pins, pins]
        congr 1
        · funext j
          by_cases hj : j = ⟨pinNumber.toNat, h.1⟩
          · subst hj
            rw [Function.update_self, Table.get_set_self h.2]
          · have hne : pinNumber.toNat ≠ j := fun he => hj (Fin.ext he.symm)
            rw [Function.update_of_ne hj, Table.get_set_of_ne h.2 h.1 j.isLt hne]
        · funext j
          rw [get_set_of_addr_ne (addr_ne j.isLt h.1).symm]
      · rw [if_neg h, dif_neg h]

/-- A call keeps the bits of no pin. -/
theorem getLsbD_write {reg : Word} {b : Nat} (c : GpioCall) (hspare : Spare reg b) (hb : b < 32) :
    (c.write m reg).getLsbD b = (m reg).getLsbD b := by
  cases c with
  | pull pinNumber value =>
      rw [GpioCall.write]
      split
      · next h => exact Table.getLsbD_set_of_not_covers h.2 hb (hspare _ h.1).2
      · rfl
  | function pinNumber value =>
      rw [GpioCall.write]
      split
      · next h => exact Table.getLsbD_set_of_not_covers h.2 hb (hspare _ h.1).1
      · rfl

/-- A register of neither table. -/
def OffTable (reg : Word) : Prop :=
  (∀ a < 4, reg ≠ pullTable.word a) ∧ ∀ a < 6, reg ≠ functionTable.word a

instance : DecidablePred OffTable := fun _ => inferInstanceAs (Decidable (_ ∧ _))

theorem OffTable.write {reg : Word} (h : OffTable reg) (c : GpioCall) (m : Word → BitVec 32) :
    c.write m reg = m reg := by
  cases c with
  | pull pinNumber value =>
      rw [GpioCall.write]
      split
      · next hvalid =>
          exact Function.update_of_ne (pullTable_addr (P := fun a => reg ≠ a) h.1 hvalid.1) ..
      · rfl
  | function pinNumber value =>
      rw [GpioCall.write]
      split
      · next hvalid =>
          exact Function.update_of_ne (functionTable_addr (P := fun a => reg ≠ a) h.2 hvalid.1) ..
      · rfl

theorem OffTable.pins {reg : Word} (h : OffTable reg) (m : Word → BitVec 32) (val : BitVec 32) :
    pins (Function.update m reg val) = Driver.pins m := by
  rw [Driver.pins, Driver.pins]
  congr 1
  · funext i
    rw [Table.get_update_of_ne (functionTable_addr (P := fun a => reg ≠ a) h.2 i.isLt)]
  · funext i
    rw [Table.get_update_of_ne (pullTable_addr (P := fun a => reg ≠ a) h.1 i.isLt)]

/-- Several calls, on the pins and on the bits of no pin. -/
theorem foldl_write (calls : List GpioCall) (m : Word → BitVec 32) :
    pins (calls.foldl GpioCall.write m) = calls.foldl GpioCall.apply (pins m) ∧
      (∀ reg, ∀ b < 32, Spare reg b →
        (calls.foldl GpioCall.write m reg).getLsbD b = (m reg).getLsbD b) ∧
      ∀ reg, OffTable reg → calls.foldl GpioCall.write m reg = m reg := by
  induction calls generalizing m with
  | nil => exact ⟨rfl, fun _ _ _ _ => rfl, fun _ _ => rfl⟩
  | cons c calls ih =>
      obtain ⟨hpins, hspare, hoff⟩ := ih (c.write m)
      refine ⟨?_, fun reg b hb hs => ?_, fun reg hreg => ?_⟩
      · rw [List.foldl_cons, hpins, pins_write, List.foldl_cons]
      · rw [List.foldl_cons, hspare reg b hb hs, getLsbD_write c hs hb]
      · rw [List.foldl_cons, hoff reg hreg, hreg.write]

/-- The program of several calls. -/
theorem exec_programs (calls : List GpioCall) (m : Word → BitVec 32) :
    (GpioCall.programs calls).exec (.registers Word (BitVec 32)) m =
      some (calls.map fun c => if c.Valid then 1 else 0, calls.foldl GpioCall.write m) := by
  induction calls generalizing m with
  | nil => rfl
  | cons c calls ih =>
      rw [GpioCall.programs, Mmio.exec_bind, exec_program, Option.bind_some, Mmio.exec_bind, ih]
      rfl

/-- **The pins**: calls in any order and with any arguments run through; each
returns 1 exactly if its pin exists and its value fits, the pins are then what
the valid calls say, and the bits of no pin are as they were. -/
theorem gpioCalls_refines (calls : List GpioCall) (m : Word → BitVec 32) :
    ∃ m', (GpioCall.programs calls).exec (.registers Word (BitVec 32)) m =
        some (calls.map fun c => if c.Valid then 1 else 0, m') ∧
      pins m' = calls.foldl GpioCall.apply (pins m) ∧
      ∀ reg, ∀ b < 32, Spare reg b → (m' reg).getLsbD b = (m reg).getLsbD b := by
  obtain ⟨hpins, hspare, -⟩ := foldl_write calls m
  exact ⟨_, exec_programs calls m, hpins, hspare⟩

end TeachingOs.Driver
