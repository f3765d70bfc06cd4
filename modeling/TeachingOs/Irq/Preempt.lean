import TeachingOs.Irq.Gic

/-!
# TeachingOs.Irq.Preempt

When `gic_400_handle` lets other tasks run.  The handler is run with
callbacks that record what they return (`recording`), which changes nothing
else, and the flag `preempt` follows the record through the loop.
-/

namespace TeachingOs.Irq

/-! ## Recording what callbacks return -/

section

variable {σ : Type} (call : Word → Word → σ → Int × σ)

/-- The callbacks of `call`, next to a record of what they have returned. -/
def recording (fn userdata : Word) (s : σ × List Int) : Int × σ × List Int :=
  let (iact, world) := call fn userdata s.1
  (iact, world, s.2 ++ [iact])

/-- The handler's state without the record. -/
def Handling.forget (s : Handling (σ × List Int)) : Handling σ where
  trace := s.trace
  preempt := s.preempt
  world := s.world.1

/-- The flag says that `IACT_PREEMPT` was returned. -/
def Handling.Faithful (s : Handling (σ × List Int)) : Prop :=
  s.preempt = true ↔ iactPreempt ∈ s.world.2

end

variable {σ : Type} {call : Word → Word → σ → Int × σ} {m : IrqMap} {g : Gic}
  {irq : BitVec 32} {irqId : Nat} {reads : List (BitVec 32)} {s s' : Handling (σ × List Int)}

/-- `irq_fire` stores the result of the one callback that it calls. -/
theorem of_irqFire_recording {init : Int} {w : σ × List Int} {fired : Fired (σ × List Int)}
    (h : irqFire (recording call) m irqId (some init) w = .ok fired) :
    irqFire call m irqId (some init) w.1 = .ok ⟨fired.found, fired.result, fired.world.1⟩ ∧
      (fired.found = false ∧ fired.world.2 = w.2 ∨
        ∃ iact, fired.found = true ∧ fired.result = some iact ∧ fired.world.2 = w.2 ++ [iact]) := by
  rw [irqFire] at h ⊢
  by_cases hnull : irqId = irqNull
  · rw [if_pos hnull] at h ⊢
    cases h
    exact ⟨rfl, Or.inl ⟨rfl, rfl⟩⟩
  · rw [if_neg hnull] at h ⊢
    obtain ⟨_, hassert, h⟩ := bind_eq_ok.mp h
    rw [hassert, ok_bind]
    cases hfind : m.find irqId with
    | none =>
        simp only [hfind] at h
        cases h
        exact ⟨rfl, Or.inl ⟨rfl, rfl⟩⟩
    | some idx =>
        simp only [hfind] at h
        cases h
        exact ⟨rfl, Or.inr ⟨_, rfl, rfl, rfl⟩⟩

/-- Dispatching an interrupt keeps the flag faithful, whether or not it is
mapped, registered or asks for a preemption. -/
theorem dispatch_recording (h : dispatch (recording call) m g irq s = .ok s') :
    dispatch call m g irq s.forget = .ok s'.forget ∧ (s.Faithful → s'.Faithful) := by
  rw [dispatch] at h ⊢
  by_cases hlt : irq.toNat < g.irqMapCount
  · rw [if_pos hlt] at h ⊢
    obtain ⟨fired, hfired, h⟩ := bind_eq_ok.mp h
    obtain ⟨hplain, hrecord⟩ := of_irqFire_recording hfired
    cases h
    refine ⟨by simp only [Handling.forget, hplain]; rfl, fun hs => ?_⟩
    unfold Handling.Faithful at hs ⊢
    rcases hrecord with ⟨hfound, hrest⟩ | ⟨iact, hfound, hresult, hrest⟩
    · simp [hfound, hrest, hs]
    · simp [hfound, hresult, hrest, hs, eq_comm (a := iactPreempt)]
  · rw [if_neg hlt] at h ⊢
    cases h
    exact ⟨rfl, id⟩

/-- The loop keeps it faithful, over any number of interrupts. -/
theorem handleLoop_recording (h : handleLoop (recording call) m g irq reads s = .ok (some s')) :
    handleLoop call m g irq reads s.forget = .ok (some s'.forget) ∧ (s.Faithful → s'.Faithful) := by
  induction reads generalizing irq s with
  | nil =>
      obtain ⟨_, -, h⟩ := bind_eq_ok.mp h
      cases h
  | cons next reads ih =>
      rw [handleLoop] at h ⊢
      obtain ⟨s₁, h₁, h⟩ := bind_eq_ok.mp h
      obtain ⟨hplain, hkeep⟩ := dispatch_recording h₁
      rw [hplain, ok_bind]
      by_cases hnext : next ≠ 1023
      · rw [if_pos hnext] at h ⊢
        obtain ⟨hloop, hkeep'⟩ := ih h
        exact ⟨hloop, fun hs => hkeep' (hkeep hs)⟩
      · rw [if_neg hnext] at h ⊢
        cases h
        exact ⟨rfl, hkeep⟩

/-! ## The end of the handler -/

/-- A read of 1023 behind the first ends the loop. -/
theorem exists_loopTrace (g : Gic) (irq : BitVec 32) (h : 1023 ∈ reads) :
    ∃ t, loopTrace g irq reads = some t := by
  induction reads generalizing irq with
  | nil => cases h
  | cons next reads ih =>
      rw [loopTrace]
      by_cases hnext : next ≠ 1023
      · obtain ⟨t, ht⟩ := ih next ((List.mem_cons.mp h).resolve_left (Ne.symm hnext))
        exact ⟨_, by rw [if_pos hnext, ht]; rfl⟩
      · exact ⟨_, if_neg hnext⟩

/-- What the handler does after its loop. -/
theorem gic400Handle_of_loop {iar : BitVec 32} {world : σ} {s : Handling σ}
    (h : handleLoop call m g (iar &&& 0x2ff) reads
      { trace := [.readIar iar], preempt := false, world } = .ok (some s)) :
    gic400Handle call m g (iar :: reads) world =
      .ok (some (if s.preempt then s.log .preemptFire else s)) := by
  rw [gic400Handle, h]
  rfl

/-- **The handler preempts at most once, last of all, and exactly when a
callback asked for it**, on every stream of reads on which it ends. -/
theorem gic400Handle_preempt (hg : g.NoTombstone) (iar : BitVec 32) (hends : 1023 ∈ reads)
    (world : σ) :
    ∃ s t, gic400Handle (recording call) m g (iar :: reads) (world, []) = .ok (some s) ∧
      gic400Handle call m g (iar :: reads) world = .ok (some s.forget) ∧
      s.trace = t ++ (if iactPreempt ∈ s.world.2 then [.preemptFire] else []) ∧
      .preemptFire ∉ t := by
  obtain ⟨t, ht⟩ := exists_loopTrace g (iar &&& 0x2ff) hends
  obtain ⟨preempt, world', hloop⟩ := handleLoop_eq (recording call) m hg (iar &&& 0x2ff) reads
    { trace := [.readIar iar], preempt := false, world := (world, []) }
  rw [ht, Option.map_some] at hloop
  obtain ⟨hplain, hkeep⟩ := handleLoop_recording hloop
  have hfaithful : preempt = true ↔ iactPreempt ∈ world'.2 := hkeep ⟨nofun, nofun⟩
  have hquiet : .preemptFire ∉ Event.readIar iar :: t := by
    rintro (_ | ⟨_, hmem⟩)
    cases (List.filter_eq_self.mp (filter_onGic_loopTrace ht)) _ hmem
  refine ⟨_, .readIar iar :: t, gic400Handle_of_loop hloop,
    (gic400Handle_of_loop hplain).trans ?_, ?_, hquiet⟩
  · cases preempt <;> rfl
  · cases preempt with
    | false => simp [← hfaithful]
    | true => simp [Handling.log, ← hfaithful]

/-- The timer asks for a preemption, and an unmapped interrupt comes after it. -/
theorem gic400Handle_preempt_timer :
    ∃ s, gic400Handle (fun _ _ world => (iactPreempt, world))
      ⟨fun i => if i = 2 then ⟨2, 1, 0⟩ else .zero, 8, 8, 0⟩
      ⟨fun irq => if irq = 30 then 2 else 0, 128⟩ [30, 200, 1023] () = .ok (some s) ∧
      ∃ t, s.trace = t ++ [.preemptFire] ∧ .preemptFire ∉ t := by
  have hg : Gic.NoTombstone ⟨fun irq => if irq = 30 then 2 else 0, 128⟩ := by
    intro irq _
    simp only
    split <;> decide
  have hends : 1023 ∈ ([200, 1023] : List (BitVec 32)) := by decide
  obtain ⟨s, t, hrecord, hplain, htrace, hquiet⟩ := @gic400Handle_preempt Unit
    (fun _ _ world => (iactPreempt, world)) ⟨fun i => if i = 2 then ⟨2, 1, 0⟩ else .zero, 8, 8, 0⟩
    _ _ hg 30 hends ()
  refine ⟨_, hplain, t, ?_, hquiet⟩
  cases hrecord
  exact htrace

end TeachingOs.Irq
