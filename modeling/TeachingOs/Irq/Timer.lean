import TeachingOs.Irq.Fire
import TeachingOs.Irq.Install
import TeachingOs.Irq.Run

/-!
# TeachingOs.Irq.Timer

The timer of `drivers/aarch64/el1_physical_timer.c`, and the interrupt path
that the boot code sets up for it: `irq_init`, `gic_400_init`,
`gic_400_install_ppi` and `el1_timer_setup`.

`Clock` is the hardware that these drivers rely on.  `handlerStep` is
`gic_400_handle` one device access at a time, on the values that the hardware
gives; `Resumes` says at every point of it what `gic400Handle` still does.
-/

namespace TeachingOs.Irq

/-! ## The hardware -/

/-- The generic timer, and its interrupt at the interrupt controller, which
`setup_gic` has turned on.  `count` is `CNTPCT_EL0`, and `compare` is
`CNTP_CVAL_EL0`, which the driver sets by way of `CNTP_TVAL_EL0`. -/
structure Clock where
  cntfrqEl0 : Word
  count : Nat
  compare : Int
  cntpCtlEl0 : Word
  enabled : Bool
  active : Bool

namespace Clock

def tick (c : Clock) : Clock := { c with count := c.count + 1 }

/-- `set_cntp_ctl_el0`. -/
def setCntpCtlEl0 (c : Clock) (val : Word) : Clock := { c with cntpCtlEl0 := val }

/-- `set_cntp_tval_el0`.  The register has 32 bits and a sign. -/
def setCntpTvalEl0 (c : Clock) (val : Word) : Clock :=
  { c with compare := c.count + (val.setWidth 32).toInt }

/-- `get_cntfrq_el0`. -/
def getCntfrqEl0 (c : Clock) : Word := c.cntfrqEl0

/-- The timer asks for its interrupt: it is on, not masked, and has expired. -/
def asserted (c : Clock) : Bool :=
  c.cntpCtlEl0.getLsbD 0 && !c.cntpCtlEl0.getLsbD 1 && decide (c.compare ≤ c.count)

/-- The CPU is interrupted. -/
def signalled (c : Clock) : Bool := c.asserted && c.enabled && !c.active

/-- A read of `GICC_IAR`: the interrupt becomes active, or the read is spurious. -/
def readIar (c : Clock) : BitVec 32 × Clock :=
  if c.signalled then (30, { c with active := true }) else (1023, c)

/-- A write of `GICC_EOIR`. -/
def writeEoir (c : Clock) (value : BitVec 32) : Clock :=
  if iarId value = 30 then { c with active := false } else c

end Clock

/-! ## The driver -/

/-- `IRQ_EL1_PHYSICAL_TIMER`. -/
abbrev irqEl1PhysicalTimer : Nat := 2

/-- `preempt_goal_hz`. -/
def preemptGoalHz : Word := 100

/-- The last statement of `el1_timer_irq` and of `el1_timer_setup`. -/
def Clock.rearm (c : Clock) : Clock := c.setCntpTvalEl0 (c.getCntfrqEl0 / preemptGoalHz)

/-- `el1_timer_irq`. -/
def el1TimerIrq (_userdata : Word) (c : Clock) : Int × Clock :=
  (iactPreempt, (c.setCntpCtlEl0 1).rearm)

/-- `el1_timer_setup`; `fn` is the address of `el1_timer_irq`. -/
def el1TimerSetup (heap : Heap) (fn : Word) (m : IrqMap) (c : Clock) :
    Except Panic (IrqMap × Clock) := do
  let m ← irqRegister heap m irqEl1PhysicalTimer fn 0
  return (m, (c.setCntpCtlEl0 (1 <<< 0)).rearm)

/-- The address that `load_devices` gives to `gic_400_init`. -/
def gicBase : Word := 0x40000000 + (0xFF840000 - 0xC0000000)

/-- What a write of the interrupt controller's registers does to interrupt 30:
it is bit 30 of the first set-enable register. -/
def Clock.writeRegister (c : Clock) (w : Word × BitVec 32) : Clock :=
  { c with enabled := c.enabled || (w.1 == gicBase + 0x1100 && w.2.getLsbD 30) }

/-- The tables and the clock. -/
structure Irqs where
  map : IrqMap
  gic : Gic400
  clock : Clock

/-- What `main` and `load_devices` do for interrupts. -/
def loadIrqs (heap : Heap) (words : WordHeap) (fn : Word) (c : Clock) : Except Panic Irqs := do
  let m ← irqInit heap
  let d ← gic400Init words gicBase (32 + 96)
  let d := gic400InstallPpi d 30 (BitVec.ofNat 64 irqEl1PhysicalTimer)
  let (m, c) ← el1TimerSetup heap fn m (d.registers.foldl Clock.writeRegister c)
  return { map := m, gic := d, clock := c }

/-! ## After boot -/

/-- The timer is on and expires at `deadline`. -/
structure Clock.Runs (freq : Word) (deadline : Nat) (c : Clock) : Prop where
  freq : c.cntfrqEl0 = freq
  on : c.cntpCtlEl0 = 1
  enabled : c.enabled = true
  compare : c.compare = deadline

/-- The number of counts between interrupts. -/
def reload (freq : Word) : Nat := freq.toNat / 100

/-- Interrupt 30 calls `fn`, and no other does. -/
structure Irqs.Ready (fn : Word) (irqs : Irqs) : Prop where
  find : irqs.map.find irqEl1PhysicalTimer = some irqEl1PhysicalTimer
  entry : irqs.map.entries irqEl1PhysicalTimer = ⟨irqEl1PhysicalTimer, fn, 0⟩
  count : irqs.gic.gic.irqMapCount = 128
  timer : irqs.gic.gic.irqToKirqMap 30 = irqEl1PhysicalTimer
  others : ∀ i < 128, i ≠ 30 → irqs.gic.gic.irqToKirqMap i = irqNull

variable {freq fn : Word} {deadline : Nat} {c : Clock} {irqs : Irqs}

theorem toInt_reload (hfreq : freq.toNat < 2 ^ 32) :
    ((freq / preemptGoalHz).setWidth 32).toInt = reload freq := by
  have hdiv : (freq / preemptGoalHz).toNat = reload freq := BitVec.toNat_udiv
  have hle : reload freq ≤ 2 ^ 32 / 100 := Nat.div_le_div_right (Nat.le_of_lt hfreq)
  have hset : ((freq / preemptGoalHz).setWidth 32).toNat = reload freq := by
    rw [BitVec.toNat_setWidth, hdiv, Nat.mod_eq_of_lt (by omega)]
  rw [BitVec.toInt_eq_toNat_of_lt (by omega), hset]

/-- Setting the timer. -/
theorem Clock.runs_rearm (hfreq : c.cntfrqEl0.toNat < 2 ^ 32) (henabled : c.enabled = true) :
    Clock.Runs c.cntfrqEl0 (c.count + reload c.cntfrqEl0) (c.setCntpCtlEl0 1).rearm := by
  refine ⟨rfl, rfl, henabled, ?_⟩
  simp only [Clock.rearm, Clock.setCntpTvalEl0, Clock.setCntpCtlEl0, Clock.getCntfrqEl0,
    toInt_reload hfreq]
  exact (Nat.cast_add ..).symm

theorem Clock.Runs.tick (h : Clock.Runs freq deadline c) : Clock.Runs freq deadline c.tick :=
  ⟨h.freq, h.on, h.enabled, h.compare⟩

theorem Clock.Runs.setActive (h : Clock.Runs freq deadline c) (active : Bool) :
    Clock.Runs freq deadline { c with active } :=
  ⟨h.freq, h.on, h.enabled, h.compare⟩

/-- An inactive interrupt is signalled when the timer has expired. -/
theorem Clock.Runs.signalled (h : Clock.Runs freq deadline c) (hactive : c.active = false) :
    c.signalled = decide (deadline ≤ c.count) := by
  simp [Clock.signalled, Clock.asserted, h.on, h.compare, h.enabled, hactive]

theorem Clock.Runs.readIar_of_le (h : Clock.Runs freq deadline c) (hactive : c.active = false)
    (hle : deadline ≤ c.count) : c.readIar = (30, { c with active := true }) := by
  simp [Clock.readIar, h.signalled hactive, hle]

theorem Clock.Runs.readIar_of_not_le (h : Clock.Runs freq deadline c) (hactive : c.active = false)
    (hlt : ¬ deadline ≤ c.count) : c.readIar = (1023, c) := by
  simp [Clock.readIar, h.signalled hactive, hlt]

/-- An interrupt that is in its home slot. -/
theorem IrqMap.find_of_home {m : IrqMap} {irqId : Nat} (hpos : 0 < m.allocated)
    (h : (m.entries (irqId % m.allocated)).id = irqId) :
    m.find irqId = some (irqId % m.allocated) := by
  rw [IrqMap.find_home hpos (by simp [IrqMap.stops, h]), if_pos h]

/-- The table with the timer's entry only. -/
theorem Blank.register_timer {m : IrqMap} (h : Blank m) (heap : Heap) (hfn : fn ≠ 0) :
    ∃ m', irqRegister heap m irqEl1PhysicalTimer fn 0 = .ok m' ∧
      m'.find irqEl1PhysicalTimer = some irqEl1PhysicalTimer ∧
      m'.entries irqEl1PhysicalTimer = ⟨irqEl1PhysicalTimer, fn, 0⟩ := by
  have hentry : Function.update m.entries (irqEl1PhysicalTimer % 8) ⟨irqEl1PhysicalTimer, fn, 0⟩
      (irqEl1PhysicalTimer % 9) = ⟨irqEl1PhysicalTimer, fn, 0⟩ := Function.update_self _ _ _
  exact ⟨_, h.register (by decide) hfn 0,
    IrqMap.find_of_home (Nat.zero_lt_succ 8) (congrArg Entry.id hentry), hentry⟩

/-- The driver's table with interrupt 30 only. -/
theorem installed {words : WordHeap} (hwords : (words ((32 + 96) * 8)).isSome = true) :
    ∃ d, gic400Init words gicBase (32 + 96) = .ok d ∧
      (gic400InstallPpi d 30 2).gic.irqMapCount = 128 ∧
      (gic400InstallPpi d 30 2).gic.irqToKirqMap 30 = irqEl1PhysicalTimer ∧
      (∀ i < 128, i ≠ 30 → (gic400InstallPpi d 30 2).gic.irqToKirqMap i = irqNull) ∧
      (gic400InstallPpi d 30 2).registers = [(gicBase + 0x1100, 1#32 <<< 30)] := by
  obtain ⟨past, hpast⟩ := Option.isSome_iff_exists.mp hwords
  have hinit : gic400Init words gicBase (32 + 96) = .ok ⟨gicBase + 0x1000 + 0x100,
      ⟨fun i => if 8 * i < 1024 then irqNull else past i, 128⟩, [], []⟩ := by
    rw [gic400Init, hpast]
    rfl
  refine ⟨_, hinit, rfl, rfl, fun i hi hne => ?_, rfl⟩
  rw [irqToKirqMap_install, if_neg fun h => hne h.2.symm]
  exact if_pos (by omega)

theorem Clock.writeRegister_enable (c : Clock) :
    c.writeRegister (gicBase + 0x1100, 1#32 <<< 30) = { c with enabled := true } := by
  simp [Clock.writeRegister]

/-- **Boot**: interrupt 30 ends up at `el1_timer_irq`, and the timer runs. -/
theorem loadIrqs_ready {heap : Heap} {words : WordHeap} (hheap : heap.Succeeds)
    (hwords : (words ((32 + 96) * 8)).isSome = true) (hfn : fn ≠ 0)
    (hfreq : c.cntfrqEl0.toNat < 2 ^ 32) :
    ∃ irqs, loadIrqs heap words fn c = .ok irqs ∧ irqs.Ready fn ∧
      irqs.clock.Runs c.cntfrqEl0 (c.count + reload c.cntfrqEl0) ∧ irqs.clock.count = c.count ∧
      irqs.clock.active = c.active := by
  obtain ⟨m, past, -, hm, hblank, -⟩ := irqInit_eq hheap
  obtain ⟨m', hm', hfind, hentry⟩ := hblank.register_timer heap hfn
  obtain ⟨d, hd, hcount, htimer, hothers, hregisters⟩ := installed hwords
  have hclock : (gic400InstallPpi d 30 2).registers.foldl Clock.writeRegister c =
      { c with enabled := true } := by
    rw [hregisters]
    exact c.writeRegister_enable
  refine ⟨⟨m', gic400InstallPpi d 30 2, _⟩, ?_, ⟨hfind, hentry, hcount, htimer, hothers⟩,
    Clock.runs_rearm (c := { c with enabled := true }) hfreq rfl, rfl, rfl⟩
  rw [loadIrqs, hm, ok_bind, hd, ok_bind]
  simp only [el1TimerSetup]
  rw [show BitVec.ofNat 64 irqEl1PhysicalTimer = 2 from rfl, hclock, hm']
  rfl

/-- Interrupt 30 sets the timer anew and asks for a preemption. -/
theorem Irqs.Ready.dispatch {call : Word → Word → Clock → Int × Clock} (h : irqs.Ready fn)
    (hcall : ∀ userdata c, call fn userdata c = el1TimerIrq userdata c) (s : Handling Clock) :
    dispatch call irqs.map irqs.gic.gic 30 s = .ok {
      trace := s.trace ++ [.irqFire irqEl1PhysicalTimer]
      preempt := true
      world := (s.world.setCntpCtlEl0 1).rearm } := by
  have hfire : irqFire call irqs.map irqEl1PhysicalTimer (some 0) s.world = _ :=
    irqFire_of_find (by decide) h.find
  have hlt : (30 : BitVec 32).toNat < irqs.gic.gic.irqMapCount := by
    rw [h.count]
    decide
  have hid : irqs.gic.gic.irqToKirqMap (30 : BitVec 32).toNat = irqEl1PhysicalTimer := h.timer
  rw [h.entry, hcall] at hfire
  rw [Irq.dispatch, if_pos hlt]
  simp only [hid, hfire, ok_bind]
  simp [el1TimerIrq]

/-! ## The handler, one access at a time -/

/-- Where `gic_400_handle` is: before its first read of `GICC_IAR`, in its
loop with the local variable `irq`, before a later read, or after the loop. -/
inductive HandlerPoint where
  | fetch
  | serve (irq : BitVec 32)
  | eoi (irq : BitVec 32)
  | next
  | done
deriving DecidableEq

section

variable (call : Word → Word → Clock → Int × Clock) (m : IrqMap) (g : Gic)

/-- The next access of `gic_400_handle`. -/
def handlerStep (s : Handling Clock) : HandlerPoint → Except Panic (HandlerPoint × Handling Clock)
  | .fetch =>
      let (iar, world) := s.world.readIar
      .ok (.serve (iar &&& 0x2ff), { s.log (.readIar iar) with world })
  | .serve irq => do
      let s ← dispatch call m g irq s
      return (.eoi irq, s)
  | .eoi irq => .ok (.next, { s.log (.writeEoir irq) with world := s.world.writeEoir irq })
  | .next =>
      let (irq, world) := s.world.readIar
      let s := { s.log (.readIar irq) with world }
      .ok (if irq ≠ 1023 then .serve irq else .done, s)
  | .done => .ok (.done, s)

/-- The rest of `gic_400_handle` after a later read. -/
def goOn (irq : BitVec 32) (reads : List (BitVec 32)) (s : Handling Clock) :
    Except Panic (Option (Handling Clock)) :=
  if irq ≠ 1023 then handleLoop call m g irq reads s else .ok (some s)

/-- After the loop. -/
def Handling.finish (s : Handling Clock) : Handling Clock :=
  if s.preempt then s.log .preemptFire else s

/-- With some values read so far, `gic400Handle` goes on from the point with
what the handler has done. -/
def Resumes (world : Clock) (s : Handling Clock) : HandlerPoint → Prop
  | .fetch => s.trace = [] ∧ s.preempt = false
  | .serve irq => ∃ past w, ∀ reads, gic400Handle call m g (past ++ reads) world =
      (handleLoop call m g irq reads { s with world := w }).map (Option.map Handling.finish)
  | .eoi irq => ∃ past w, ∀ next reads, gic400Handle call m g (past ++ next :: reads) world =
      (goOn call m g next reads (({ s with world := w }.log (.writeEoir irq)).log
        (.readIar next))).map (Option.map Handling.finish)
  | .next => ∃ past w, ∀ next reads, gic400Handle call m g (past ++ next :: reads) world =
      (goOn call m g next reads ({ s with world := w }.log (.readIar next))).map
        (Option.map Handling.finish)
  | .done => ∃ past w, gic400Handle call m g past world =
      .ok (some (Handling.finish { s with world := w }))

end

variable {call : Word → Word → Clock → Int × Clock} {m : IrqMap} {g : Gic} {world : Clock}
  {s s' : Handling Clock} {irq : BitVec 32} {p p' : HandlerPoint}

/-- Nothing that the handler still does depends on the clock. -/
theorem Resumes.of_world (h : Resumes call m g world s p) (w : Clock) :
    Resumes call m g world { s with world := w } p := by
  cases p <;> exact h

theorem Handling.finish_world (s : Handling Clock) (w : Clock) :
    Handling.finish { s with world := w } = { s.finish with world := w } := by
  obtain ⟨trace, preempt, world⟩ := s
  cases preempt <;> rfl

theorem Resumes.fetch (h : Resumes call m g world s .fetch) (iar : BitVec 32) (w : Clock) :
    Resumes call m g world { s.log (.readIar iar) with world := w } (.serve (iar &&& 0x2ff)) := by
  obtain ⟨htrace, hpreempt⟩ := h
  refine ⟨[iar], world, fun reads => ?_⟩
  rw [List.singleton_append, gic400Handle, Handling.log, htrace, hpreempt]
  rfl

/-- What the callback does to the trace does not depend on the clock. -/
theorem Resumes.serve (h : Resumes call m g world s (.serve irq))
    (hdispatch : ∀ w, ∃ w', dispatch call m g irq { s with world := w } =
      .ok { s' with world := w' }) : Resumes call m g world s' (.eoi irq) := by
  obtain ⟨past, w, h⟩ := h
  obtain ⟨w', hw⟩ := hdispatch w
  refine ⟨past, w', fun next reads => ?_⟩
  rw [h, handleLoop, hw]
  rfl

theorem Resumes.eoi (h : Resumes call m g world s (.eoi irq)) (w : Clock) :
    Resumes call m g world { s.log (.writeEoir irq) with world := w } .next := by
  obtain ⟨past, w', h⟩ := h
  exact ⟨past, w', h⟩

theorem Resumes.next (h : Resumes call m g world s .next) (irq : BitVec 32) (w : Clock) :
    Resumes call m g world { s.log (.readIar irq) with world := w }
      (if irq ≠ 1023 then .serve irq else .done) := by
  obtain ⟨past, w', h⟩ := h
  by_cases hirq : irq ≠ 1023
  · rw [if_pos hirq]
    refine ⟨past ++ [irq], w', fun reads => ?_⟩
    rw [List.append_assoc, List.singleton_append, h, goOn, if_pos hirq]
    rfl
  · rw [if_neg hirq]
    refine ⟨past ++ [irq], w', ?_⟩
    rw [h, goOn, if_neg hirq]
    rfl

end TeachingOs.Irq
