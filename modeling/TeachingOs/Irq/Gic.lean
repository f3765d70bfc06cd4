import Mathlib.Tactic.IntervalCases
import TeachingOs.Irq.Table

/-!
# TeachingOs.Irq.Gic

The interrupt handler of `drivers/aarch64/gic_400.c` against the values that
successive reads of `GICC_IAR` return, and what a handler of that interrupt
controller has to do with them.  The code decodes the first read with the
mask `0x2ff`, which drops bit 8, and the later reads with none, and its
`do`/`while` loop serves the first read before comparing it with 1023.
`onlySpec_iff` names the streams on which this makes no difference.
-/

namespace TeachingOs.Irq

/-! ## The handler -/

/-- `irq_to_kirq_map` and `irq_map_count`. -/
structure Gic where
  irqToKirqMap : Nat → Nat
  irqMapCount : Nat

/-- What `gic_400_handle` does that others see. -/
inductive Event where
  | readIar (value : BitVec 32)
  | irqFire (irqId : Nat)
  | writeEoir (value : BitVec 32)
  | preemptFire

/-- The events so far, the flag `preempt`, and the world of the callbacks. -/
structure Handling (σ : Type) where
  trace : List Event
  preempt : Bool
  world : σ

/-- One more event. -/
def Handling.log {σ : Type} (s : Handling σ) (e : Event) : Handling σ :=
  { s with trace := s.trace ++ [e] }

/-- `IACT_PREEMPT`. -/
def iactPreempt : Int := 1

section

variable {σ : Type} (call : Word → Word → σ → Int × σ) (m : IrqMap) (g : Gic)

/-- Fire any interrupt that the kernel knows of.  `iact` is not initialised,
and looked at only after `irq_fire` has stored it. -/
def dispatch (irq : BitVec 32) (s : Handling σ) : Except Panic (Handling σ) :=
  if irq.toNat < g.irqMapCount then do
    let irqId := g.irqToKirqMap irq.toNat
    let fired ← irqFire call m irqId (some 0) s.world
    return {
      trace := s.trace ++ [.irqFire irqId]
      preempt := s.preempt || (fired.found && fired.result == some iactPreempt)
      world := fired.world }
  else .ok s

/-- The loop of `gic_400_handle`, entered with `irq`; `none` when it waits
for a read that `reads` does not answer. -/
def handleLoop (irq : BitVec 32) : List (BitVec 32) → Handling σ →
    Except Panic (Option (Handling σ))
  | [], s => do
    let _ ← dispatch call m g irq s
    return none
  | next :: reads, s => do
    let s ← dispatch call m g irq s
    let s := (s.log (.writeEoir irq)).log (.readIar next)
    if next ≠ 1023 then handleLoop next reads s else return some s

/-- `gic_400_handle`. -/
def gic400Handle (reads : List (BitVec 32)) (world : σ) : Except Panic (Option (Handling σ)) :=
  match reads with
  | [] => .ok none
  | iar :: reads => do
    let irq := iar &&& 0x2ff
    let s ← handleLoop call m g irq reads { trace := [.readIar iar], preempt := false, world }
    return s.map fun s => if s.preempt then s.log .preemptFire else s

end

/-! ## What it has to do -/

/-- The interrupt id that a read of `GICC_IAR` gives. -/
def iarId (value : BitVec 32) : BitVec 32 := value &&& 0x3ff

/-- Fire the interrupt if it is mapped, then end it. -/
def serve (g : Gic) (id : BitVec 32) : List Event :=
  (if id.toNat < g.irqMapCount then [.irqFire (g.irqToKirqMap id.toNat)] else []) ++
    [.writeEoir id]

/-- Serve every interrupt up to the first spurious read, in order. -/
def specTrace (g : Gic) : List (BitVec 32) → List Event
  | [] => []
  | iar :: reads =>
    .readIar iar :: if iarId iar = 1023 then [] else serve g (iarId iar) ++ specTrace g reads

/-- The events of the interrupt controller. -/
def Event.onGic : Event → Bool
  | .preemptFire => false
  | _ => true

/-- The handler ends, having done exactly what the spec says. -/
def OnlySpec {σ : Type} (call : Word → Word → σ → Int × σ) (m : IrqMap) (g : Gic)
    (reads : List (BitVec 32)) (world : σ) : Prop :=
  ∃ s, gic400Handle call m g reads world = .ok (some s) ∧
    s.trace.filter Event.onGic = specTrace g reads

/-- No read up to the first spurious one has a bit above the interrupt id. -/
def Bare : List (BitVec 32) → Prop
  | [] => False
  | iar :: reads => iar.toNat < 1024 ∧ (iarId iar = 1023 ∨ Bare reads)

/-- The first read is not spurious and its id is below 256 or has bit 8
clear, and the later ones are bare ids. -/
def Plain : List (BitVec 32) → Prop
  | [] => False
  | iar :: reads => iarId iar ≠ 1023 ∧ iar.getLsbD 8 = false ∧ Bare reads

/-! ## Decoding -/

/-- The mask `0x2ff` loses bit 8 and nothing else of the id. -/
theorem and_0x2ff_eq_iarId_iff {iar : BitVec 32} :
    iar &&& 0x2ff = iarId iar ↔ iar.getLsbD 8 = false := by
  constructor
  · intro h
    have hbit := congrArg (fun v => v.getLsbD 8) h
    simpa [iarId] using hbit.symm
  · intro h
    have hbit : iar[8] = false := h
    refine BitVec.eq_of_getLsbD_eq fun i hi => ?_
    interval_cases i <;> simp [iarId, hbit]

/-- A value is its own id if it has no bit above. -/
theorem eq_iarId_iff {iar : BitVec 32} : iar = iarId iar ↔ iar.toNat < 1024 := by
  have hid : (iarId iar).toNat = iar.toNat % 1024 := by
    rw [iarId, BitVec.toNat_and]
    exact Nat.and_two_pow_sub_one_eq_mod iar.toNat 10
  constructor
  · intro h
    rw [h, hid]
    exact Nat.mod_lt _ (by decide)
  · intro h
    exact BitVec.eq_of_toNat_eq (hid.trans (Nat.mod_eq_of_lt h)).symm

/-! ## The trace of the code -/

/-- The events of `handleLoop`, when it ends. -/
def loopTrace (g : Gic) (irq : BitVec 32) : List (BitVec 32) → Option (List Event)
  | [] => none
  | next :: reads =>
    if next ≠ 1023 then (loopTrace g next reads).map fun t => serve g irq ++ .readIar next :: t
    else some (serve g irq ++ [.readIar next])

variable {σ : Type} {call : Word → Word → σ → Int × σ} {m : IrqMap} {g : Gic}
  {irq id : BitVec 32} {reads : List (BitVec 32)}

/-- The map names no interrupt `IRQ_TOMBSTONE`, on which `irq_fire` panics. -/
def Gic.NoTombstone (g : Gic) : Prop :=
  ∀ irq < g.irqMapCount, g.irqToKirqMap irq ≠ irqTombstone

theorem irqFire_ok (call : Word → Word → σ → Int × σ) (m : IrqMap) {irqId : Nat}
    (h : irqId ≠ irqTombstone) (result : Option Int) (world : σ) :
    ∃ fired, irqFire call m irqId result world = .ok fired := by
  rw [irqFire]
  split
  · exact ⟨_, rfl⟩
  · rw [assert_of_true h, ok_bind]
    cases m.find irqId <;> exact ⟨_, rfl⟩

theorem dispatch_ok (call : Word → Word → σ → Int × σ) (m : IrqMap) (hg : g.NoTombstone)
    (irq : BitVec 32) (s : Handling σ) :
    ∃ preempt world, dispatch call m g irq s = .ok {
      trace := s.trace ++ (serve g irq).dropLast
      preempt, world } := by
  rw [dispatch, serve, List.dropLast_concat]
  split
  · next hlt =>
      obtain ⟨fired, hfired⟩ := irqFire_ok call m (hg _ hlt) (some 0) s.world
      exact ⟨_, _, by simp only [hfired]; rfl⟩
  · exact ⟨s.preempt, s.world, by rw [List.append_nil]⟩

/-- The loop does what its trace says, whatever the table and the callbacks. -/
theorem handleLoop_eq (call : Word → Word → σ → Int × σ) (m : IrqMap) (hg : g.NoTombstone)
    (irq : BitVec 32) (reads : List (BitVec 32)) (s : Handling σ) :
    ∃ preempt world, handleLoop call m g irq reads s = .ok ((loopTrace g irq reads).map fun t => {
      trace := s.trace ++ t
      preempt, world }) := by
  induction reads generalizing irq s with
  | nil =>
      obtain ⟨preempt, world, h⟩ := dispatch_ok call m hg irq s
      exact ⟨preempt, world, by rw [handleLoop, h]; rfl⟩
  | cons next reads ih =>
      obtain ⟨preempt, world, h⟩ := dispatch_ok call m hg irq s
      have hserve : (s.trace ++ (serve g irq).dropLast) ++ [.writeEoir irq] =
          s.trace ++ serve g irq := by simp [serve]
      rw [handleLoop, h, ok_bind, loopTrace]
      simp only [Handling.log, hserve]
      split
      · next hne =>
          obtain ⟨preempt', world', h'⟩ := ih next {
            trace := (s.trace ++ serve g irq) ++ [.readIar next], preempt, world }
          refine ⟨preempt', world', h'.trans ?_⟩
          cases loopTrace g next reads with
          | none => rfl
          | some t => simp
      · exact ⟨preempt, world, by simp⟩

/-! ## Comparing the two -/

/-- Serving is prefix free: it ends at the first write of `GICC_EOIR`. -/
theorem serve_append_inj {t t' : List Event} (h : serve g irq ++ t = serve g id ++ t') :
    irq = id ∧ t = t' := by
  unfold serve at h
  by_cases hirq : irq.toNat < g.irqMapCount <;> by_cases hid : id.toNat < g.irqMapCount <;>
    simp_all

/-- An ended loop has at least one event. -/
theorem loopTrace_ne_nil : loopTrace g irq reads ≠ some [] := by
  cases reads with
  | nil => nofun
  | cons next reads =>
      rw [loopTrace]
      split <;> simp [serve]

/-- The loop does as the spec says when entered with the right id, and if all
later reads are bare. -/
theorem loopTrace_eq_spec_iff :
    loopTrace g irq reads = some (serve g id ++ specTrace g reads) ↔ irq = id ∧ Bare reads := by
  induction reads generalizing irq id with
  | nil => simp [loopTrace, Bare]
  | cons next reads ih =>
      rw [loopTrace, specTrace, Bare, ← eq_iarId_iff]
      by_cases hraw : next = 1023
      · have hid : iarId next = 1023 := by rw [hraw]; rfl
        rw [if_neg (not_not.mpr hraw), if_pos hid, hid]
        constructor
        · intro h
          exact ⟨(serve_append_inj (Option.some.inj h)).1, hraw, Or.inl rfl⟩
        · rintro ⟨rfl, -⟩
          rfl
      · rw [if_pos hraw, Option.map_eq_some_iff]
        by_cases hid : iarId next = 1023
        · -- the spec ends here, and the code serves the value once more
          rw [if_pos hid]
          constructor
          · rintro ⟨t, ht, h⟩
            have hnil : t = [] := (List.cons.inj (serve_append_inj h).2).2
            exact absurd (hnil ▸ ht) loopTrace_ne_nil
          · rintro ⟨-, hbare, -⟩
            exact absurd (hbare.trans hid) hraw
        · rw [if_neg hid]
          constructor
          · rintro ⟨t, ht, h⟩
            obtain ⟨hirq, hrest⟩ := serve_append_inj h
            obtain ⟨hbare, hreads⟩ := ih.mp (ht.trans (congrArg some (List.cons.inj hrest).2))
            exact ⟨hirq, hbare, Or.inr hreads⟩
          · rintro ⟨rfl, hbare, hreads⟩
            exact ⟨_, ih.mpr ⟨hbare, hreads.resolve_left hid⟩, rfl⟩

/-- No event of the loop is a preemption. -/
theorem filter_onGic_loopTrace {t : List Event} (h : loopTrace g irq reads = some t) :
    t.filter Event.onGic = t := by
  induction reads generalizing irq t with
  | nil => cases h
  | cons next reads ih =>
      have hserve : ∀ e ∈ serve g irq, e.onGic = true := by
        unfold serve
        split <;> simp [Event.onGic]
      rw [loopTrace] at h
      split at h
      · obtain ⟨t', ht', rfl⟩ := Option.map_eq_some_iff.mp h
        rw [List.filter_append, List.filter_eq_self.mpr hserve, List.filter_cons_of_pos rfl, ih ht']
      · cases h
        rw [List.filter_append, List.filter_eq_self.mpr hserve, List.filter_cons_of_pos rfl,
          List.filter_nil]

/-- The handler's events are those of its loop. -/
theorem gic400Handle_trace (call : Word → Word → σ → Int × σ) (m : IrqMap)
    (hg : g.NoTombstone) (iar : BitVec 32) (reads : List (BitVec 32)) (world : σ) :
    ∃ out, gic400Handle call m g (iar :: reads) world = .ok out ∧
      out.map (fun s => s.trace.filter Event.onGic) =
        (loopTrace g (iar &&& 0x2ff) reads).map (.readIar iar :: ·) := by
  obtain ⟨preempt, world', hloop⟩ := handleLoop_eq call m hg
    (iar &&& 0x2ff) reads { trace := [.readIar iar], preempt := false, world }
  refine ⟨_, by rw [gic400Handle, hloop]; rfl, ?_⟩
  cases htrace : loopTrace g (iar &&& 0x2ff) reads with
  | none => rfl
  | some t =>
      have hgic : (Event.readIar iar :: t).filter Event.onGic = .readIar iar :: t := by
        rw [List.filter_cons_of_pos rfl, filter_onGic_loopTrace htrace]
      cases preempt with
      | false => exact congrArg some hgic
      | true =>
          refine congrArg some ((List.filter_append _ _).trans ?_)
          exact (congrArg (· ++ _) hgic).trans (List.append_nil _)

/-- **The handler serves every interrupt once, with its own id**, exactly
when the first read is no spurious one and has bit 8 clear, and the later
reads carry nothing above the id. -/
theorem onlySpec_iff (hg : g.NoTombstone) (world : σ) :
    OnlySpec call m g reads world ↔ Plain reads := by
  cases reads with
  | nil =>
      constructor
      · rintro ⟨s, hs, -⟩
        cases hs
      · exact False.elim
  | cons iar reads =>
      obtain ⟨out, hout, htrace⟩ := gic400Handle_trace call m hg iar reads world
      have hspec : OnlySpec call m g (iar :: reads) world ↔
          out.map (fun s => s.trace.filter Event.onGic) = some (specTrace g (iar :: reads)) := by
        rw [OnlySpec, hout, Option.map_eq_some_iff]
        simp only [Except.ok.injEq]
      rw [hspec, htrace, specTrace, Plain, Option.map_eq_some_iff, ← and_0x2ff_eq_iarId_iff]
      by_cases hid : iarId iar = 1023
      · -- the code serves the spurious value
        rw [if_pos hid]
        constructor
        · rintro ⟨t, ht, h⟩
          exact absurd ((List.cons.inj h).2 ▸ ht) loopTrace_ne_nil
        · exact fun h => absurd hid h.1
      · rw [if_neg hid]
        constructor
        · rintro ⟨t, ht, h⟩
          exact ⟨hid, loopTrace_eq_spec_iff.mp (ht.trans (congrArg some (List.cons.inj h).2))⟩
        · rintro ⟨-, h⟩
          exact ⟨_, loopTrace_eq_spec_iff.mpr h, rfl⟩

/-- The timer, interrupt 30, and an unmapped interrupt behind it. -/
theorem onlySpec_iff_timer :
    OnlySpec (fun _ _ world => (iactPreempt, world))
      ⟨fun _ => .zero, 8, 8, 0⟩ ⟨fun irq => if irq = 30 then 2 else 0, 256⟩
      [30, 27, 1023] () := by
  refine (onlySpec_iff ?_ ()).mpr ⟨by decide, by decide, by decide, Or.inr ⟨by decide, Or.inl rfl⟩⟩
  intro irq _
  simp only
  split <;> decide

/-- A spurious first read is ended as interrupt 767. -/
theorem not_onlySpec_spurious :
    ¬ OnlySpec (fun _ _ world => (iactPreempt, world))
      ⟨fun _ => .zero, 8, 8, 0⟩ ⟨fun irq => if irq = 30 then 2 else 0, 256⟩ [1023, 1023] () := by
  rintro ⟨s, hs, htrace⟩
  cases hs
  cases htrace

end TeachingOs.Irq
