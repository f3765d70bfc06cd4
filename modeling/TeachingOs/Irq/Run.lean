import Mathlib.Data.List.Induction
import TeachingOs.Irq.Table

/-!
# TeachingOs.Irq.Run

Runs of `irq_register`, `irq_unregister` and `irq_fire` from `irq_init`.
`irq_register` counts up the wrong counter: from its first call on,
`irq_map.allocated` is larger than the block, probes use another modulus
than the one an entry was stored under, and they leave the block.  The
table is a finite map, and its counters are right, exactly in the runs
without `irq_register` (`implementsMap_iff`, `consistent_iff`).
-/

namespace TeachingOs.Irq

open Probe

/-! ## Runs -/

/-- A call into `irq.c`. -/
inductive Call where
  | register (irqId : Nat) (fn userdata : Word)
  | unregister (irqId : Nat)
  | fire (irqId : Nat) (result : Option Int)

/-- The call is one of `irq_register`. -/
def Call.isRegister : Call → Bool
  | .register .. => true
  | _ => false

section

variable {σ : Type} (call : Word → Word → σ → Int × σ) (heap : Heap)

/-- The table and the world after a call. -/
def perform (s : IrqMap × σ) : Call → Except Panic (IrqMap × σ)
  | .register irqId fn userdata => do
    let m ← irqRegister heap s.1 irqId fn userdata
    return (m, s.2)
  | .unregister irqId => .ok (irqUnregister s.1 irqId, s.2)
  | .fire irqId result => do
    let fired ← irqFire call s.1 irqId result s.2
    return (s.1, fired.world)

/-- The table and the world after `irq_init` and some calls. -/
def run (world : σ) (calls : List Call) : Except Panic (IrqMap × σ) := do
  let m ← irqInit heap
  calls.foldlM (perform call heap) (m, world)

end

/-! ## What the table is for -/

/-- A callback and its userdata. -/
abbrev Handler := Word × Word

/-- The finite map that the table stands for, after one more call. -/
def Call.update (reg : Nat → Option Handler) : Call → Nat → Option Handler
  | .register irqId fn userdata => Function.update reg irqId (some (fn, userdata))
  | .unregister irqId => Function.update reg irqId none
  | .fire .. => reg

/-- The latest registration of every interrupt. -/
def registered (calls : List Call) : Nat → Option Handler :=
  calls.foldl Call.update fun _ => none

/-- `P` holds of every call and the registrations before it. -/
def Respects (P : (Nat → Option Handler) → Call → Prop) (calls : List Call) : Prop :=
  ∀ pre c, pre ++ [c] <+: calls → P (registered pre) c

/-- Ids from 2 on, real callbacks, and no second registration of an id. -/
def Call.Fresh (reg : Nat → Option Handler) : Call → Prop
  | .register irqId fn _ => 2 ≤ irqId ∧ fn ≠ 0 ∧ reg irqId = none
  | .unregister irqId => 2 ≤ irqId
  | .fire irqId _ => 2 ≤ irqId

/-- Registered ids from 2 on, and only registered ids unregistered. -/
def Call.Paired (reg : Nat → Option Handler) : Call → Prop
  | .register irqId _ _ => 2 ≤ irqId
  | .unregister irqId => reg irqId ≠ none
  | .fire .. => True

/-- What `irq_fire` does for an interrupt with this registration. -/
def fireSpec {σ : Type} (call : Word → Word → σ → Int × σ) (handler : Option Handler)
    (result : Option Int) (world : σ) : Fired σ :=
  match handler with
  | some (fn, userdata) =>
    let (err, world) := call fn userdata world
    ⟨true, result.map fun _ => err, world⟩
  | none => ⟨false, result, world⟩

/-- The heap never runs out. -/
def Heap.Succeeds (heap : Heap) : Prop := ∀ n, (heap n).isSome

/-- At every point of the run nothing has panicked and `irq_fire` behaves as
the latest registration says. -/
def ImplementsMap (heap : Heap) (calls : List Call) : Prop :=
  ∀ (σ : Type) (call : Word → Word → σ → Int × σ) (world : σ) (pre : List Call), pre <+: calls →
    ∃ s, run call heap world pre = .ok s ∧
      ∀ irqId, 2 ≤ irqId → ∀ result now,
        irqFire call s.1 irqId result now = .ok (fireSpec call (registered pre irqId) result now)

/-! ## What the counters are for -/

/-- The number of live entries of the block. -/
def IrqMap.liveCount (m : IrqMap) : Nat := (List.range m.slots).countP fun i => (m.entries i).live

/-- Every slot index that a call computes is inside the block it indexes. -/
structure SlotsInside (m : IrqMap) : Prop where
  /-- `irq_fire` and `irq_unregister` -/
  find : ∀ irqId, ∀ i ∈ visited m.allocated (m.stops irqId) m.allocated (irqId % m.allocated),
    i < m.slots
  /-- `irq_register` in the block at hand -/
  register : ∀ irqId, ∀ i ∈ visited m.allocated m.free m.allocated (irqId % m.allocated),
    i < m.slots
  /-- `irq_rehash`, reading the old block -/
  old : ∀ oldIdx < m.allocated, oldIdx < m.slots
  /-- `irq_rehash`, and `irq_register` after it, in the new block -/
  new : ∀ irqId stop, ∀ i ∈ visited (newAlloc m.allocated) stop (newAlloc m.allocated)
    (irqId % newAlloc m.allocated), i < newAlloc m.allocated

/-- The counters agree with the block, and indices stay inside it. -/
structure Consistent (m : IrqMap) : Prop where
  allocated_eq : m.allocated = m.slots
  used_eq : m.used = m.liveCount
  load : m.used * 2 ≤ m.allocated
  inside : SlotsInside m

/-- The slot that `irq_fire` or `irq_unregister` settles on is inside. -/
theorem SlotsInside.find_lt {m : IrqMap} (h : SlotsInside m) {irqId i : Nat}
    (hi : m.find irqId = some i) : i < m.slots :=
  h.find irqId i (mem_visited_of_probe (IrqMap.probe_of_find hi).1)

/-! ## The table before the first registration -/

/-- The table as `irq_init` leaves it. -/
structure Blank (m : IrqMap) : Prop where
  slots : m.slots = 8
  allocated : m.allocated = 8
  used : m.used = 0
  entries : ∀ i < 8, m.entries i = .zero

variable {σ : Type} {call : Word → Word → σ → Int × σ} {heap : Heap} {m : IrqMap} {world : σ}
  {pre calls : List Call}

/-- `irq_init` leaves the memory past the block alone. -/
theorem irqInit_eq (h : heap.Succeeds) : ∃ m past, heap 8 = some past ∧
    irqInit heap = .ok m ∧ Blank m ∧ ∀ i, 8 ≤ i → m.entries i = past i := by
  obtain ⟨past, hpast⟩ := Option.isSome_iff_exists.mp (h 8)
  refine ⟨_, past, hpast, by simp only [irqInit, kzallocOrDie, hpast]; rfl, ⟨rfl, rfl, rfl, ?_⟩, ?_⟩
  · exact fun i hi => if_pos hi
  · exact fun i hi => if_neg (Nat.not_lt.mpr hi)

theorem blank_of_irqInit (h : irqInit heap = .ok m) : Blank m := by
  simp only [irqInit, kzallocOrDie] at h
  split at h
  · cases h
    exact ⟨rfl, rfl, rfl, fun i hi => if_pos hi⟩
  · cases h

/-- The home slot of every interrupt is `IRQ_NULL`. -/
theorem Blank.home (h : Blank m) (irqId : Nat) : m.entries (irqId % m.allocated) = .zero := by
  rw [h.allocated]
  exact h.entries _ (Nat.mod_lt _ (by decide))

/-- A probe that ends where it starts. -/
theorem IrqMap.find_home {irqId : Nat} (hpos : 0 < m.allocated)
    (hstop : m.stops irqId (irqId % m.allocated) = true) :
    m.find irqId = if (m.entries (irqId % m.allocated)).id = irqId then
      some (irqId % m.allocated) else none := by
  rw [IrqMap.find_eq_probe, probe_start hpos hstop]
  by_cases h : (m.entries (irqId % m.allocated)).id = irqId <;> simp [h]

theorem Blank.find_eq_none (h : Blank m) {irqId : Nat} (hid : irqId ≠ irqNull) :
    m.find irqId = none := by
  have hstop : m.stops irqId (irqId % m.allocated) = true := by
    simp [IrqMap.stops, h.home, Entry.zero]
  have hpos : 0 < m.allocated := by simp [h.allocated]
  rw [IrqMap.find_home hpos hstop, h.home]
  exact if_neg hid.symm

theorem Blank.fire (h : Blank m) {irqId : Nat} (hid : 2 ≤ irqId) (result : Option Int) :
    irqFire call m irqId result world = .ok ⟨false, result, world⟩ := by
  obtain ⟨hnull, htomb⟩ := ne_reserved hid
  simp [irqFire, hnull, htomb, h.find_eq_none hnull]

theorem Blank.unregister (h : Blank m) {irqId : Nat} (hid : irqId ≠ irqNull) :
    irqUnregister m irqId = m := by
  rw [irqUnregister, h.find_eq_none hid]

/-- The first registration: the entry goes into its home slot, and
`allocated` no longer is the size of the block. -/
theorem Blank.register (h : Blank m) {irqId : Nat} {fn : Word} (hid : 2 ≤ irqId) (hfn : fn ≠ 0)
    (userdata : Word) : irqRegister heap m irqId fn userdata = .ok { m with
      entries := Function.update m.entries (irqId % 8) ⟨irqId, fn, userdata⟩
      allocated := 9 } := by
  obtain ⟨hnull, htomb⟩ := ne_reserved hid
  have hfree : m.free (irqId % m.allocated) = true := by simp [IrqMap.free, h.home, Entry.zero]
  have hpos : 0 < m.allocated := by simp [h.allocated]
  have hload : ¬ (m.used + 1) * 2 ≥ m.allocated := by simp [h.used, h.allocated]
  simp only [irqRegister, assert_of_true hfn, assert_of_true hnull, assert_of_true htomb,
    if_neg hload, pure_bind, ok_bind, probe_start hpos hfree]
  rw [h.allocated]
  rfl

theorem Blank.consistent (h : Blank m) : Consistent m := by
  have hall : m.allocated = m.slots := h.allocated.trans h.slots.symm
  have hpos : 0 < m.allocated := by simp [h.allocated]
  have hnew : 0 < newAlloc m.allocated := by simp [h.allocated, newAlloc]
  have hlive : m.liveCount = 0 := by
    rw [IrqMap.liveCount, List.countP_eq_zero, h.slots]
    intro i hi
    simp [h.entries i (List.mem_range.mp hi), Entry.live, Entry.zero]
  refine ⟨hall, h.used.trans hlive.symm, by simp [h.used], ?_, ?_, ?_, ?_⟩
  · exact fun irqId i hi => hall ▸ lt_of_mem_visited (Nat.mod_lt _ hpos) hi
  · exact fun irqId i hi => hall ▸ lt_of_mem_visited (Nat.mod_lt _ hpos) hi
  · exact fun i hi => hall ▸ hi
  · exact fun irqId stop i hi => lt_of_mem_visited (Nat.mod_lt _ hnew) hi

/-! ## Call lists -/

/-- One more call at the end of a run. -/
theorem run_append {c : Call} : run call heap world (pre ++ [c]) = (do
    let s ← run call heap world pre
    perform call heap s c) := by
  simp only [run, List.foldlM_append, List.foldlM_cons, List.foldlM_nil, bind_assoc, bind_pure]

/-- A run that completes has completed at every point before. -/
theorem run_prefix {s : IrqMap × σ} (h : run call heap world calls = .ok s) (hpre : pre <+: calls) :
    ∃ s', run call heap world pre = .ok s' := by
  obtain ⟨post, rfl⟩ := hpre
  obtain ⟨m, hm, h⟩ := bind_eq_ok.mp h
  rw [List.foldlM_append, bind_eq_ok] at h
  obtain ⟨s', hs', -⟩ := h
  exact ⟨s', by rw [run, hm, ok_bind, hs']⟩

theorem registered_append (pre : List Call) (c : Call) :
    registered (pre ++ [c]) = c.update (registered pre) := by
  simp [registered]

/-- Nothing is registered without a call of `irq_register`. -/
theorem registered_eq_none (hno : ∀ c ∈ calls, c.isRegister = false) (irqId : Nat) :
    registered calls irqId = none := by
  induction calls using List.reverseRecOn with
  | nil => rfl
  | append_singleton pre c ih =>
      have hc : c.isRegister = false := hno c (by simp)
      have hpre := ih fun c hc => hno c (List.mem_append_left _ hc)
      rw [registered_append]
      cases c with
      | register => cases hc
      | unregister i =>
          by_cases hi : irqId = i
          · rw [Call.update, hi, Function.update_self]
          · rw [Call.update, Function.update_of_ne hi, hpre]
      | fire => exact hpre

theorem Respects.nil {P : (Nat → Option Handler) → Call → Prop} : Respects P [] := by
  intro pre c h
  simp at h

theorem Respects.append {P : (Nat → Option Handler) → Call → Prop} {c : Call}
    (h : Respects P calls) (hc : P (registered calls) c) : Respects P (calls ++ [c]) := by
  intro pre c' hpre
  rcases List.prefix_concat_iff.mp hpre with heq | hpre
  · obtain ⟨rfl, rfl⟩ := List.append_singleton_inj.mp heq
    exact hc
  · exact h pre c' hpre

/-- The calls up to the first registration. -/
theorem exists_first_register (h : ¬ ∀ c ∈ calls, c.isRegister = false) :
    ∃ pre irqId fn userdata, pre ++ [.register irqId fn userdata] <+: calls ∧
      ∀ c ∈ pre, c.isRegister = false := by
  have hsome : (calls.find? Call.isRegister).isSome := by
    rw [List.find?_isSome]
    simpa using h
  obtain ⟨c, hc⟩ := Option.isSome_iff_exists.mp hsome
  obtain ⟨hreg, pre, post, rfl, hpre⟩ := List.find?_eq_some_iff_append.mp hc
  cases c with
  | register irqId fn userdata =>
      exact ⟨pre, irqId, fn, userdata, ⟨post, by simp⟩, fun c hc => by simpa using hpre c hc⟩
  | unregister => cases hreg
  | fire => cases hreg

/-! ## Runs without registrations -/

/-- Calls with proper ids that register nothing change nothing. -/
theorem Blank.foldlM_perform (h : Blank m) (hno : ∀ c ∈ calls, c.isRegister = false)
    (hv : ∀ c ∈ calls, ∃ reg, Call.Fresh reg c) :
    calls.foldlM (perform call heap) (m, world) = .ok (m, world) := by
  induction calls with
  | nil => rfl
  | cons c calls ih =>
      have hc : perform call heap (m, world) c = .ok (m, world) := by
        obtain ⟨reg, hreg⟩ := hv c List.mem_cons_self
        cases c with
        | register => cases hno _ List.mem_cons_self
        | unregister irqId => rw [perform, h.unregister (ne_reserved hreg).1]
        | fire irqId result => rw [perform, h.fire hreg]; rfl
      rw [List.foldlM_cons, hc, ok_bind]
      exact ih (fun c hc => hno c (List.mem_cons_of_mem _ hc))
        fun c hc => hv c (List.mem_cons_of_mem _ hc)

/-- The run up to a point without registrations: the table of `irq_init`. -/
theorem run_eq_of_no_register (call : Word → Word → σ → Int × σ) (world : σ)
    (hheap : heap.Succeeds) (hpre : pre <+: calls)
    (hno : ∀ c ∈ pre, c.isRegister = false) (hv : Respects Call.Fresh calls) :
    ∃ m past, heap 8 = some past ∧ run call heap world pre = .ok (m, world) ∧ Blank m ∧
      ∀ i, 8 ≤ i → m.entries i = past i := by
  obtain ⟨m, past, hpast, hm, hblank, hout⟩ := irqInit_eq hheap
  refine ⟨m, past, hpast, ?_, hblank, hout⟩
  have hfresh : ∀ c ∈ pre, ∃ reg, Call.Fresh reg c := by
    intro c hc
    obtain ⟨before, after, rfl⟩ := List.append_of_mem hc
    exact ⟨_, hv before c (List.IsPrefix.trans ⟨after, by simp⟩ hpre)⟩
  rw [run, hm, ok_bind, hblank.foldlM_perform hno hfresh]

/-- Whatever the ids, without a registration and with only registered ids
unregistered the table stays that of `irq_init`. -/
theorem blank_of_run {s : IrqMap × σ} (h : run call heap world calls = .ok s)
    (hno : ∀ c ∈ calls, c.isRegister = false) (hv : Respects Call.Paired calls) : Blank s.1 := by
  obtain ⟨m, hm, h⟩ := bind_eq_ok.mp h
  refine foldlM_inv (P := fun s => Blank s.1) ?_ h (blank_of_irqInit hm)
  intro s c s' hc hs hstep
  obtain ⟨before, after, rfl⟩ := List.append_of_mem hc
  cases c with
  | register => cases hno _ hc
  | unregister irqId =>
      refine absurd (registered_eq_none (fun c hc => ?_) irqId)
        (hv before (.unregister irqId) ⟨after, by simp⟩)
      exact hno c (List.mem_append_left _ hc)
  | fire irqId result =>
      obtain ⟨fired, -, hstep⟩ := bind_eq_ok.mp hstep
      cases hstep
      exact hs

/-! ## When the table works -/

/-- **The table is a finite map**, whatever follows its block in memory,
exactly in the runs that never register an interrupt. -/
theorem implementsMap_iff (hv : Respects Call.Fresh calls) :
    (∀ heap : Heap, heap.Succeeds → ImplementsMap heap calls) ↔
      ∀ c ∈ calls, c.isRegister = false := by
  constructor
  · intro hmap
    by_contra hreg
    obtain ⟨pre, irqId, fn, userdata, hpre, hno⟩ := exists_first_register hreg
    obtain ⟨hid, hfn, -⟩ := hv pre _ hpre
    -- an unregistered id whose probe starts at slot 8 of the 8 slots
    obtain ⟨stray, hstray, hmod, hne⟩ : ∃ stray, 2 ≤ stray ∧ stray % 9 = 8 ∧ stray ≠ irqId := by
      by_cases h8 : irqId = 8
      · exact ⟨17, by omega⟩
      · exact ⟨8, by omega⟩
    have hheap : Heap.Succeeds fun _ => some fun _ => ⟨stray, 1, 0⟩ := fun _ => rfl
    obtain ⟨m, past, hpast, hm, hblank, hout⟩ := run_eq_of_no_register
      (fun _ _ world => (0, world)) () hheap ((List.prefix_append _ _).trans hpre) hno hv
    cases hpast
    obtain ⟨s, hs, hfire⟩ := hmap _ hheap Unit (fun _ _ world => (0, world)) () _ hpre
    rw [run_append, hm, ok_bind, perform, hblank.register hid hfn] at hs
    cases hs
    have hslot : Function.update m.entries (irqId % 8) ⟨irqId, fn, userdata⟩ 8 = ⟨stray, 1, 0⟩ := by
      rw [Function.update_of_ne (by omega), hout 8 (Nat.le_refl 8)]
    have hfind : IrqMap.find { m with
        entries := Function.update m.entries (irqId % 8) ⟨irqId, fn, userdata⟩
        allocated := 9 } stray = some 8 := by
      rw [IrqMap.find_home] <;> simp [IrqMap.stops, hmod, hslot]
    have hfound := hfire stray hstray none ()
    obtain ⟨hnull, htomb⟩ := ne_reserved hstray
    simp only [irqFire, if_neg hnull, assert_of_true htomb, ok_bind, hfind, pure_eq_ok] at hfound
    rw [registered_append, Call.update, Function.update_of_ne hne, registered_eq_none hno] at hfound
    cases hfound
  · intro hno heap hheap σ call world pre hpre
    have hno' : ∀ c ∈ pre, c.isRegister = false := fun c hc => hno c (hpre.subset hc)
    obtain ⟨m, past, -, hm, hblank, -⟩ :=
      run_eq_of_no_register call world hheap hpre hno' hv
    refine ⟨_, hm, fun irqId hid result now => ?_⟩
    rw [hblank.fire hid, registered_eq_none hno']
    rfl

/-- **The counters agree with the block** in every state of a run, and every
slot index is inside it, exactly when the run never registers an interrupt. -/
theorem consistent_iff {s : IrqMap × σ} (hv : Respects Call.Paired calls)
    (h : run call heap world calls = .ok s) :
    (∀ pre s', pre <+: calls → run call heap world pre = .ok s' → Consistent s'.1) ↔
      ∀ c ∈ calls, c.isRegister = false := by
  constructor
  · intro hall
    by_contra hreg
    obtain ⟨pre, irqId, fn, userdata, hpre, hno⟩ := exists_first_register hreg
    obtain ⟨s', hs'⟩ := run_prefix h hpre
    have hcons := (hall _ _ hpre hs').allocated_eq
    rw [run_append, bind_eq_ok] at hs'
    obtain ⟨s₀, hs₀, hs'⟩ := hs'
    have hblank : Blank s₀.1 := by
      refine blank_of_run hs₀ hno fun before c hc => hv before c (hc.trans ?_)
      exact (List.prefix_append _ _).trans hpre
    obtain ⟨m, hm, hs'⟩ := bind_eq_ok.mp hs'
    cases hs'
    by_cases hfn : fn = 0
    · simp [irqRegister, hfn] at hm
    · rw [hblank.register (hv pre _ hpre) hfn] at hm
      cases hm
      have hnine : 9 = 8 := hcons.trans hblank.slots
      omega
  · intro hno pre s' hpre hs'
    refine (blank_of_run hs' (fun c hc => hno c (hpre.subset hc)) ?_).consistent
    exact fun before c hc => hv before c (hc.trans hpre)

/-- A run of three lookups in the table of `irq_init`. -/
theorem consistent_iff_lookups :
    ∃ s, run (fun _ _ world => (0, world)) (fun _ => some fun _ => .zero) ()
        [.fire 0 none, .fire 2 none, .fire 30 (some 0)] = .ok s ∧ Consistent s.1 := by
  have hv : Respects Call.Paired [.fire 0 none, .fire 2 none, .fire 30 (some 0)] :=
    ((Respects.nil.append (c := .fire 0 none) trivial).append (c := .fire 2 none) trivial).append
      (c := .fire 30 (some 0)) trivial
  obtain ⟨s, hs⟩ : ∃ s, run (fun _ _ world => (0, world)) (fun _ => some fun _ => .zero) ()
      [.fire 0 none, .fire 2 none, .fire 30 (some 0)] = .ok s := ⟨_, rfl⟩
  refine ⟨s, hs, (consistent_iff hv hs).mpr ?_ _ s (List.prefix_refl _) hs⟩
  simp [Call.isRegister]

/-- One registration: `allocated` is 9 for a block of 8 slots. -/
theorem not_consistent_register :
    ¬ ∀ pre s', pre <+: [.register 2 1 0] →
      run (fun _ _ world => (0, world)) (fun _ => some fun _ => .zero) () pre = .ok s' →
      Consistent s'.1 := by
  intro h
  have hcons := (h _ _ (List.prefix_refl _) rfl).allocated_eq
  cases hcons

/-- Lookups and a removal, nothing registered. -/
theorem implementsMap_iff_lookups :
    ImplementsMap (fun _ => some fun _ => .zero) [.fire 2 none, .unregister 9, .fire 9 none] := by
  have hv : Respects Call.Fresh [.fire 2 none, .unregister 9, .fire 9 none] :=
    ((Respects.nil.append (c := .fire 2 none) (Nat.le_refl 2)).append
      (c := .unregister 9) (show 2 ≤ 9 by decide)).append (c := .fire 9 none) (show 2 ≤ 9 by decide)
  exact (implementsMap_iff hv).mpr (by simp [Call.isRegister]) _ fun _ => rfl

/-- Interrupt 9 is stored in slot 9 % 8 = 1 and looked up from slot 9 % 9 = 0,
which is empty: right after its registration it is not found. -/
theorem not_implementsMap_register :
    Respects Call.Fresh [.register 9 1 0] ∧
      ¬ ImplementsMap (fun _ => some fun _ => .zero) [.register 9 1 0] := by
  refine ⟨Respects.nil.append (c := .register 9 1 0) ⟨by decide, by decide, rfl⟩, fun h => ?_⟩
  obtain ⟨s, hs, hfire⟩ := h Unit (fun _ _ world => (0, world)) () _ (List.prefix_refl _)
  cases hs
  cases hfire 9 (by decide) none ()

end TeachingOs.Irq
