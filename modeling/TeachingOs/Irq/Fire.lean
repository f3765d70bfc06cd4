import TeachingOs.Irq.Rehash

/-!
# TeachingOs.Irq.Fire

`irq_fire` on any table that linear probing can search (`Searchable`): the
table may have tombstones, and it need not have an `IRQ_NULL` left.  The
probe stops early only where the interrupt cannot be, and it goes around at
most once, so that `irq_fire` calls the callback of every live interrupt and
nothing for the others (`irqFire_searchable`).
-/

namespace TeachingOs.Irq

open Probe

/-- A table that probes can search. -/
structure Searchable (m : IrqMap) : Prop where
  allocated_eq : m.allocated = m.slots
  slots_pos : 1 ≤ m.slots
  ids : ((liveEntries m.entries m.slots).map Entry.id).Nodup
  /-- no `IRQ_NULL` between an entry and its home slot -/
  reached : ∀ i < m.slots, (m.entries i).live = true →
    Reached m.slots (fun j => (m.entries j).id ≠ irqNull) ((m.entries i).id % m.slots) i

variable {σ : Type} {call : Word → Word → σ → Int × σ} {m : IrqMap} {irqId i : Nat}
  {result : Option Int} {world : σ}

/-! ## The probe -/

theorem Searchable.home_lt (h : Searchable m) (irqId : Nat) : irqId % m.allocated < m.allocated :=
  Nat.mod_lt _ (h.allocated_eq ▸ h.slots_pos)

/-- No slot is examined twice, and none outside the block. -/
theorem Searchable.examined (h : Searchable m) (irqId : Nat) :
    (m.examined irqId).Nodup ∧ ∀ i ∈ m.examined irqId, i < m.slots := by
  rw [IrqMap.examined_eq]
  refine ⟨nodup_visited (h.home_lt irqId) (Nat.le_refl _), fun i hi => ?_⟩
  rw [← h.allocated_eq]
  exact lt_of_mem_visited (h.home_lt irqId) hi

/-- **Completeness**: a live interrupt is found where it is. -/
theorem Searchable.find_eq (h : Searchable m) (hid : 2 ≤ irqId) (hi : i < m.slots)
    (hentry : (m.entries i).id = irqId) : m.find irqId = some i := by
  subst hentry
  have hlive := live_iff_two_le.mpr hid
  have hreached := h.reached i hi hlive
  have hids := h.ids
  rw [← h.allocated_eq] at hi hids hreached
  exact find_eq_of_reached hids hi hlive hreached

/-- **Soundness**: what is not in the table is not found. -/
theorem Searchable.find_eq_none (h : Searchable m)
    (habsent : ∀ i < m.slots, (m.entries i).id ≠ irqId) : m.find irqId = none := by
  rw [Option.eq_none_iff_forall_ne_some]
  intro i hfind
  obtain ⟨hi, hentry⟩ := find_some hfind
  exact habsent i (h.allocated_eq ▸ hi) hentry

/-! ## The call -/

theorem irqFire_of_find (hid : 2 ≤ irqId) (hfind : m.find irqId = some i) :
    irqFire call m irqId result world = .ok
      ⟨true, result.map fun _ => (call (m.entries i).fn (m.entries i).userdata world).1,
        (call (m.entries i).fn (m.entries i).userdata world).2⟩ := by
  obtain ⟨hnull, htomb⟩ := ne_reserved hid
  simp [irqFire, hnull, htomb, hfind]

theorem irqFire_of_find_none (hid : 2 ≤ irqId) (hfind : m.find irqId = none) :
    irqFire call m irqId result world = .ok ⟨false, result, world⟩ := by
  obtain ⟨hnull, htomb⟩ := ne_reserved hid
  simp [irqFire, hnull, htomb, hfind]

/-- **`irq_fire` looks at every slot at most once, calls the callback of a
live interrupt with its userdata, and nothing for any other id**. -/
theorem irqFire_searchable (h : Searchable m) (hid : 2 ≤ irqId)
    (call : Word → Word → σ → Int × σ) (result : Option Int) (world : σ) :
    (m.examined irqId).Nodup ∧ (∀ i ∈ m.examined irqId, i < m.slots) ∧
    (∀ i < m.slots, (m.entries i).id = irqId →
      irqFire call m irqId result world = .ok
        ⟨true, result.map fun _ => (call (m.entries i).fn (m.entries i).userdata world).1,
          (call (m.entries i).fn (m.entries i).userdata world).2⟩) ∧
    ((∀ i < m.slots, (m.entries i).id ≠ irqId) →
      irqFire call m irqId result world = .ok ⟨false, result, world⟩) := by
  obtain ⟨hnodup, hinside⟩ := h.examined irqId
  refine ⟨hnodup, hinside, fun i hi hentry => ?_, fun habsent => ?_⟩
  · exact irqFire_of_find hid (h.find_eq hid hi hentry)
  · exact irqFire_of_find_none hid (h.find_eq_none habsent)

/-- A full table of three slots: two interrupts that collide, one of them
around the end, and a tombstone. -/
def fullTable : IrqMap :=
  ⟨fun i => if i = 0 then ⟨5, 0x30, 0x31⟩ else if i = 2 then ⟨2, 0x20, 0x21⟩ else ⟨1, 0, 0⟩,
    3, 3, 0⟩

theorem searchable_fullTable : Searchable fullTable := by
  refine ⟨rfl, by decide, by decide, fun i hi hlive => ?_⟩
  have hcases : i = 0 ∨ i = 1 ∨ i = 2 := by
    change i < 3 at hi
    omega
  rcases hcases with rfl | rfl | rfl
  · exact ⟨1, by decide, rfl, by decide⟩
  · cases hlive
  · exact ⟨0, by decide, rfl, by decide⟩

/-- In that table the id 5 fires and 8, with the same home slot, does not. -/
theorem irqFire_searchable_full :
    irqFire (fun fn userdata log => (7, log ++ [(fn, userdata)])) fullTable 5 (some 0) [] =
      .ok ⟨true, some 7, [(0x30, 0x31)]⟩ ∧
    irqFire (fun fn userdata log => (7, log ++ [(fn, userdata)])) fullTable 8 (some 0) [] =
      .ok ⟨false, some 0, []⟩ := by
  have h5 := @irqFire_searchable (List (Word × Word)) fullTable 5 searchable_fullTable
    (by decide) (fun fn userdata log => (7, log ++ [(fn, userdata)])) (some 0) []
  have h8 := @irqFire_searchable (List (Word × Word)) fullTable 8 searchable_fullTable
    (by decide) (fun fn userdata log => (7, log ++ [(fn, userdata)])) (some 0) []
  exact ⟨h5.2.2.1 0 (by decide) rfl, h8.2.2.2 (by decide)⟩

end TeachingOs.Irq
