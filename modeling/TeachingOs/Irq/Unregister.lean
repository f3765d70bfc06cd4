import TeachingOs.Irq.Rehash
import TeachingOs.Irq.Run

/-!
# TeachingOs.Irq.Unregister

What `irq_unregister` removes, and what it leaves behind.  It compares the
ids of the slots with its argument before it looks for `IRQ_NULL`, so it
also removes the empty slot it is asked to stop at
(`irqUnregister_eq_self_iff`).  `irq_register` takes the first free slot and
does not look for an older entry with its id further on, which then is the
handler after `irq_unregister` (`oneHandlerEach_iff`).
-/

namespace TeachingOs.Irq

open Probe

variable {σ : Type} {call : Word → Word → σ → Int × σ} {heap : Heap} {world : σ}
  {m m' : IrqMap} {irqId i : Nat} {fn userdata : Word} {calls : List Call}

/-! ## Ids that are not there -/

/-- From the home slot of `irqId` on, no slot holds `irqId` before the first
`IRQ_NULL`. -/
def Unreached (m : IrqMap) (irqId : Nat) : Prop :=
  ∀ d < m.allocated, (m.entries ((irqId + d) % m.allocated)).id = irqId →
    ∃ e < d, (m.entries ((irqId + e) % m.allocated)).id = irqNull

theorem find_eq_none_iff : m.find irqId = none ↔ Unreached m irqId := by
  rcases Nat.eq_zero_or_pos m.allocated with hzero | hpos
  · simp [IrqMap.find_eq_probe, Unreached, hzero, probe]
  have hhome : irqId % m.allocated < m.allocated := Nat.mod_lt _ hpos
  rw [IrqMap.find_eq_probe, Option.filter_eq_none_iff]
  constructor
  · intro h d hd hid
    have hstop : m.stops irqId ((irqId + d) % m.allocated) = true := by simp [IrqMap.stops, hid]
    obtain ⟨i, hi⟩ := exists_probe hhome (Nat.mod_lt _ hpos) hstop
    obtain ⟨e, he, rfl, hstope, hbefore⟩ := (probe_eq_some_iff hhome).mp hi
    rw [Nat.mod_add_mod] at hi hstope
    have hne : (m.entries ((irqId + e) % m.allocated)).id ≠ irqId :=
      fun heq => h _ hi (decide_eq_true heq)
    refine ⟨e, ?_, by simpa [IrqMap.stops, hne] using hstope⟩
    rcases Nat.lt_trichotomy e d with hlt | rfl | hgt
    · exact hlt
    · exact absurd hid hne
    · have hfalse := hbefore d hgt
      rw [Nat.mod_add_mod, hstop] at hfalse
      cases hfalse
  · intro h i hi hid
    obtain ⟨d, hd, rfl, -, hbefore⟩ := (probe_eq_some_iff hhome).mp hi
    rw [Nat.mod_add_mod] at hid
    obtain ⟨e, he, hnull⟩ := h d hd (of_decide_eq_true hid)
    have hfalse := hbefore e he
    simp [IrqMap.stops, hnull] at hfalse

/-- For `IRQ_NULL` itself: no slot is empty. -/
theorem unreached_irqNull_iff :
    Unreached m irqNull ↔ ∀ i < m.allocated, (m.entries i).id ≠ irqNull := by
  constructor
  · intro h i hi
    -- by strong induction, an empty slot needs one before it
    induction i using Nat.strong_induction_on with
    | h i ih =>
      intro hnull
      obtain ⟨j, hj, hnullj⟩ := h i hi (by rwa [Nat.zero_add, Nat.mod_eq_of_lt hi])
      have hlt := Nat.lt_trans hj hi
      rw [Nat.zero_add, Nat.mod_eq_of_lt hlt] at hnullj
      exact ih j hj hlt hnullj
  · intro h d hd hnull
    exact absurd hnull (h _ (Nat.mod_lt _ (Nat.zero_lt_of_lt hd)))

/-- **Removing an id leaves the table as it was** exactly when probing
finds no slot that holds it, and an empty slot holds `IRQ_NULL`. -/
theorem irqUnregister_eq_self_iff (m : IrqMap) (irqId : Nat) :
    irqUnregister m irqId = m ↔ Unreached m irqId := by
  rw [← find_eq_none_iff, irqUnregister]
  cases hfind : m.find irqId with
  | none => simp
  | some i =>
      have hpos : 0 < m.allocated := Nat.zero_lt_of_lt (find_some hfind).1
      constructor
      · intro h
        have hallocated : m.allocated - 1 = m.allocated := congrArg IrqMap.allocated h
        omega
      · intro h
        cases h

/-- In the table of `irq_init`, `irq_unregister(IRQ_NULL)` takes a slot away. -/
theorem irqUnregister_irqNull :
    ∃ s, run (fun _ _ world => (0, world)) (fun _ => some fun _ => .zero) () [] = .ok s ∧
      registered [] irqNull = none ∧ irqUnregister s.1 irqNull ≠ s.1 := by
  refine ⟨_, rfl, rfl, fun h => ?_⟩
  have hallocated : 7 = 8 := congrArg IrqMap.allocated h
  cases hallocated

/-! ## One entry for an id -/

/-- The ids of the live entries of the table. -/
def IrqMap.ids (m : IrqMap) : List Nat := (liveEntries m.entries m.allocated).map Entry.id

/-- The entry behind the table that `irq_register` registers in: counting up
`allocated` makes it an entry of the table. -/
def incoming (heap : Heap) (m : IrqMap) : Entry :=
  if (m.used + 1) * 2 ≥ m.allocated then
    match heap (newAlloc m.allocated) with
    | some past => past (newAlloc m.allocated)
    | none => .zero
  else m.entries m.allocated

/-- The table has no entry for the id, and the entry that comes in with it,
if live, is for an id of its own. -/
structure Accepts (heap : Heap) (m : IrqMap) (irqId : Nat) : Prop where
  new : irqId ∉ m.ids
  incoming : (incoming heap m).live = true →
    (incoming heap m).id ≠ irqId ∧ (Irq.incoming heap m).id ∉ m.ids

/-- At most one live entry for every id, so that none is left once
`irq_unregister` has removed it. -/
structure OneHandlerEach (m : IrqMap) : Prop where
  nodup : m.ids.Nodup
  removed : ∀ irqId, 2 ≤ irqId → ∀ (σ : Type) (call : Word → Word → σ → Int × σ) result world,
    irqFire call (irqUnregister m irqId) irqId result world = .ok ⟨false, result, world⟩

/-- The table that `irq_register` registers in. -/
def opened (heap : Heap) (m : IrqMap) : Except Panic IrqMap :=
  if (m.used + 1) * 2 ≥ m.allocated then irqRehash heap m else .ok m

/-- What it does to that table. -/
def enter (m : IrqMap) (irqId : Nat) (fn userdata : Word) : Except Panic IrqMap :=
  match probe m.allocated m.free m.allocated (irqId % m.allocated) with
  | some idx => .ok { m with
      entries := Function.update m.entries idx ⟨irqId, fn, userdata⟩
      allocated := m.allocated + 1 }
  | none => .error (.message "irq_register: failed to find an empty hashmap slot")

theorem of_irqRegister (h : irqRegister heap m irqId fn userdata = .ok m') :
    irqId ≠ irqNull ∧ irqId ≠ irqTombstone ∧
      ∃ m₁, opened heap m = .ok m₁ ∧ enter m₁ irqId fn userdata = .ok m' := by
  have hassert : ∀ {condition p} [Decidable p], assert "irq_register" condition p = .ok () → p := by
    intro condition p _ hp
    by_contra hnot
    rw [assert_of_false hnot] at hp
    cases hp
  simp only [irqRegister, bind_eq_ok] at h
  obtain ⟨_, -, _, hnull, _, htomb, h⟩ := h
  have hopened : (do
      let m₁ ← opened heap m
      enter m₁ irqId fn userdata) = .ok m' := by
    rw [opened, ← h]
    split <;> rfl
  exact ⟨hassert hnull, hassert htomb, bind_eq_ok.mp hopened⟩

theorem opened_spec {m₁ : IrqMap} (h : opened heap m = .ok m₁) :
    (liveEntries m₁.entries m₁.allocated).Perm (liveEntries m.entries m.allocated) ∧
      m₁.entries m₁.allocated = incoming heap m := by
  rw [opened] at h
  by_cases hfull : (m.used + 1) * 2 ≥ m.allocated
  · rw [if_pos hfull] at h
    cases hheap : heap (newAlloc m.allocated) with
    | none =>
        rw [irqRehash_error hheap] at h
        cases h
    | some past =>
        obtain ⟨entries, hrehash, -, hpast, hperm⟩ := irqRehash_spec hheap
        cases hrehash.symm.trans h
        refine ⟨hperm, (hpast _ (Nat.le_refl _)).trans ?_⟩
        rw [incoming, if_pos hfull, hheap]
  · rw [if_neg hfull] at h
    cases h
    exact ⟨List.Perm.refl _, by rw [incoming, if_neg hfull]⟩

/-- The slot that `irq_register` takes is free. -/
theorem of_enter (h : enter m irqId fn userdata = .ok m') :
    ∃ idx < m.allocated, (m.entries idx).live = false ∧ m' = { m with
      entries := Function.update m.entries idx ⟨irqId, fn, userdata⟩
      allocated := m.allocated + 1 } := by
  rw [enter] at h
  cases hprobe : probe m.allocated m.free m.allocated (irqId % m.allocated) with
  | none =>
      rw [hprobe] at h
      cases h
  | some idx =>
      rw [hprobe] at h
      cases h
      have hhome := Nat.mod_lt irqId (pos_of_probe hprobe)
      have hstop := stop_of_probe hhome hprobe
      refine ⟨idx, lt_of_probe hhome hprobe, ?_, rfl⟩
      rw [← Bool.not_eq_true, live_iff]
      simp only [IrqMap.free, Bool.or_eq_true, decide_eq_true_eq] at hstop
      tauto

/-- `irq_register` adds its entry, and the incoming one. -/
theorem liveEntries_irqRegister (h : irqRegister heap m irqId fn userdata = .ok m') :
    (liveEntries m'.entries m'.allocated).Perm (⟨irqId, fn, userdata⟩ ::
      (liveEntries m.entries m.allocated ++
        if (incoming heap m).live then [incoming heap m] else [])) := by
  obtain ⟨hnull, htomb, m₁, hopened, henter⟩ := of_irqRegister h
  obtain ⟨hperm, hnext⟩ := opened_spec hopened
  obtain ⟨idx, hlt, hfree, rfl⟩ := of_enter henter
  have hnew : Entry.live ⟨irqId, fn, userdata⟩ = true := live_iff.mpr ⟨hnull, htomb⟩
  refine (List.Perm.of_eq stored_succ).trans ?_
  simp only [Function.update_of_ne (Nat.ne_of_gt hlt), hnext]
  refine ((stored_update hlt hfree hnew).append_right _).trans ?_
  exact (hperm.append_right _).cons _

theorem nodup_ids_irqRegister_iff (h : irqRegister heap m irqId fn userdata = .ok m') :
    m'.ids.Nodup ↔ m.ids.Nodup ∧ Accepts heap m irqId := by
  have hids : m'.ids.Perm (irqId ::
      (m.ids ++ if (incoming heap m).live then [(incoming heap m).id] else [])) := by
    refine ((liveEntries_irqRegister h).map Entry.id).trans (List.Perm.of_eq ?_)
    rw [List.map_cons, List.map_append, IrqMap.ids]
    split <;> rfl
  have haccepts : Accepts heap m irqId ↔ irqId ∉ m.ids ∧ ((incoming heap m).live = true →
      (incoming heap m).id ≠ irqId ∧ (incoming heap m).id ∉ m.ids) :=
    ⟨fun h => ⟨h.new, h.incoming⟩, fun h => ⟨h.1, h.2⟩⟩
  rw [hids.nodup_iff, List.nodup_cons, haccepts]
  cases (incoming heap m).live with
  | false => simp [and_comm]
  | true =>
      rw [if_pos rfl, (List.perm_append_singleton _ _).nodup_iff, List.nodup_cons, List.mem_append,
        List.mem_singleton, eq_comm]
      tauto

theorem irqUnregister_of_find (h : m.find irqId = some i) : irqUnregister m irqId = { m with
    entries := Function.update m.entries i ⟨irqTombstone, 0, 0⟩
    allocated := m.allocated - 1 } := by
  rw [irqUnregister, h]

/-- `irq_unregister` adds nothing. -/
theorem liveEntries_irqUnregister (m : IrqMap) (irqId : Nat) :
    (liveEntries (irqUnregister m irqId).entries (irqUnregister m irqId).allocated).Sublist
      (liveEntries m.entries m.allocated) := by
  cases hfind : m.find irqId with
  | none =>
      rw [irqUnregister, hfind]
  | some idx =>
      rw [irqUnregister_of_find hfind]
      refine (stored_mono (Nat.sub_le _ 1)).trans (stored_sublist fun i _ hlive => ?_)
      by_cases hi : i = idx
      · simp only [hi, Function.update_self] at hlive
        cases hlive
      · exact Function.update_of_ne hi _ _

/-- What has one entry at most has none once it is removed. -/
theorem find_irqUnregister (h : m.ids.Nodup) (hid : 2 ≤ irqId) :
    (irqUnregister m irqId).find irqId = none := by
  cases hfind : m.find irqId with
  | none => rw [irqUnregister, hfind, hfind]
  | some idx =>
      rw [irqUnregister_of_find hfind, Option.eq_none_iff_forall_ne_some]
      intro i hi
      obtain ⟨hlt, hidi⟩ := find_some hi
      obtain ⟨hltidx, hididx⟩ := find_some hfind
      have hne : i ≠ idx := by
        rintro rfl
        simp only [Function.update_self] at hidi
        exact (ne_reserved hid).2 hidi.symm
      simp only [Function.update_of_ne hne] at hidi
      refine hne (eq_of_nodup_stored h (Nat.lt_of_lt_of_le hlt (Nat.sub_le _ 1)) hltidx
        (live_iff_two_le.mpr (hidi ▸ hid)) (live_iff_two_le.mpr (hididx ▸ hid)) ?_)
      exact hidi.trans hididx.symm

theorem oneHandlerEach_of_nodup (h : m.ids.Nodup) : OneHandlerEach m := by
  refine ⟨h, fun irqId hid σ call result world => ?_⟩
  obtain ⟨hnull, htomb⟩ := ne_reserved hid
  simp only [irqFire, if_neg hnull, assert_of_true htomb, ok_bind, find_irqUnregister h hid,
    pure_eq_ok]

/-! ## Runs -/

theorem Blank.ids_eq (h : Blank m) : m.ids = [] := by
  rw [IrqMap.ids, liveEntries_zero fun i hi => h.entries i (h.allocated ▸ hi), List.map_nil]

/-- **Every id has one handler at most** in every state of a run, and none
after its removal, exactly when every registration finds no entry for its
id and brings in none for an id that has one. -/
theorem oneHandlerEach_iff {s : IrqMap × σ} (h : run call heap world calls = .ok s) :
    (∀ pre s', pre <+: calls → run call heap world pre = .ok s' → OneHandlerEach s'.1) ↔
      ∀ pre s' irqId fn userdata, pre ++ [.register irqId fn userdata] <+: calls →
        run call heap world pre = .ok s' → Accepts heap s'.1 irqId := by
  constructor
  · intro hall pre s' irqId fn userdata hpre hs'
    obtain ⟨s'', hs''⟩ := run_prefix h hpre
    have hnodup := (hall _ _ hpre hs'').nodup
    rw [run_append, hs', ok_bind] at hs''
    obtain ⟨m, hm, hs''⟩ := bind_eq_ok.mp hs''
    cases hs''
    exact ((nodup_ids_irqRegister_iff hm).mp hnodup).2
  · intro haccepts pre s' hpre hs'
    refine oneHandlerEach_of_nodup ?_
    induction pre using List.reverseRecOn generalizing s' with
    | nil =>
        obtain ⟨m, hm, hs'⟩ := bind_eq_ok.mp hs'
        cases hs'
        rw [(blank_of_irqInit hm).ids_eq]
        exact List.nodup_nil
    | append_singleton pre c ih =>
        obtain ⟨s₀, hs₀⟩ := run_prefix h ((List.prefix_append pre [c]).trans hpre)
        have hnodup := ih s₀ ((List.prefix_append pre [c]).trans hpre) hs₀
        rw [run_append, hs₀, ok_bind] at hs'
        cases c with
        | register irqId fn userdata =>
            obtain ⟨m, hm, hs'⟩ := bind_eq_ok.mp hs'
            cases hs'
            exact (nodup_ids_irqRegister_iff hm).mpr ⟨hnodup, haccepts _ _ _ _ _ hpre hs₀⟩
        | unregister irqId =>
            cases hs'
            exact ((liveEntries_irqUnregister s₀.1 irqId).map Entry.id).nodup hnodup
        | fire irqId result =>
            obtain ⟨fired, -, hs'⟩ := bind_eq_ok.mp hs'
            cases hs'
            exact hnodup

/-- The timer interrupt, registered once. -/
theorem oneHandlerEach_iff_once :
    ∃ s, run (fun _ _ world => (0, world)) (fun _ => some fun _ => .zero) ()
        [.register 2 1 0, .unregister 2] = .ok s ∧ OneHandlerEach s.1 := by
  obtain ⟨s, hs⟩ : ∃ s, run (fun _ _ world => (0, world)) (fun _ => some fun _ => .zero) ()
      [.register 2 1 0, .unregister 2] = .ok s := ⟨_, rfl⟩
  refine ⟨s, hs, (oneHandlerEach_iff hs).mpr ?_ _ s (List.prefix_refl _) hs⟩
  intro pre s' irqId fn userdata hpre hs'
  cases pre with
  | nil =>
      obtain ⟨m, hm, hs'⟩ := bind_eq_ok.mp hs'
      cases hs'
      refine ⟨(blank_of_irqInit hm).ids_eq ▸ List.not_mem_nil, fun hlive => ?_⟩
      cases hm
      cases hlive
  | cons c pre =>
      -- the second call is no registration
      cases pre <;> simp [List.cons_prefix_cons] at hpre

/-- Registered twice, interrupt 2 is in slots 2 and 3; removing it once
leaves the later callback, 3, for `irq_fire`. -/
theorem not_oneHandlerEach_twice :
    ∃ s, run (fun fn _ log => (0, log ++ [fn])) (fun _ => some fun _ => .zero) []
        [.register 2 1 0, .register 2 3 0] = .ok s ∧ ¬ s.1.ids.Nodup ∧
      irqFire (fun fn _ log => (0, log ++ [fn])) (irqUnregister s.1 2) 2 none [] =
        .ok ⟨true, none, [3]⟩ := by
  refine ⟨_, rfl, by decide, rfl⟩

end TeachingOs.Irq
