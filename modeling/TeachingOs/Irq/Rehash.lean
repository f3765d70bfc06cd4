import TeachingOs.Irq.Table

/-!
# TeachingOs.Irq.Rehash

`irq_rehash` builds a table in which linear probing works: every entry is
reached from its home slot under the new modulus, and the block has more
slots than there are entries to hash in, so the panic of the loop is never
reached (`foldlM_rehashEntry`).  `irqRehash_lossless` puts this together.
-/

namespace TeachingOs.Irq

open Probe

/-! ## What the loop builds -/

/-- The live entries of the first `n` slots. -/
abbrev liveEntries (entries : Nat → Entry) (n : Nat) : List Entry := stored Entry.live entries n

/-- A block of `n` entries as linear probing wants it. -/
structure Hashed (n : Nat) (entries : Nat → Entry) : Prop where
  /-- no entry was removed -/
  noTombstone : ∀ i < n, (entries i).id ≠ irqTombstone
  /-- no `IRQ_NULL` between an entry and its home slot -/
  reached : ∀ i < n, (entries i).live = true →
    Reached n (fun j => (entries j).id ≠ irqNull) ((entries i).id % n) i

variable {newEntries : Nat → Entry} {n : Nat} {e : Entry}

theorem live_iff : e.live = true ↔ e.id ≠ irqNull ∧ e.id ≠ irqTombstone := by
  simp [Entry.live]

theorem live_iff_two_le : e.live = true ↔ 2 ≤ e.id := by
  rw [live_iff, irqNull, irqTombstone]
  omega

theorem liveEntries_zero (h : ∀ i < n, newEntries i = .zero) : liveEntries newEntries n = [] := by
  refine List.eq_nil_iff_forall_not_mem.mpr fun e he => ?_
  obtain ⟨⟨i, hi, rfl⟩, hlive⟩ := mem_stored.mp he
  rw [h i hi] at hlive
  cases hlive

/-- An empty block. -/
theorem hashed_zero (h : ∀ i < n, newEntries i = .zero) : Hashed n newEntries := by
  constructor
  · intro i hi
    rw [h i hi]
    decide
  · intro i hi hlive
    rw [h i hi] at hlive
    cases hlive

/-- In such a block only live entries are not `IRQ_NULL`. -/
theorem Hashed.live_eq (h : Hashed n newEntries) {i : Nat} (hi : i < n) :
    (newEntries i).live = false ↔ (newEntries i).id = irqNull := by
  rw [← Bool.not_eq_true, live_iff]
  have htomb := h.noTombstone i hi
  tauto

/-- A live entry goes to the first `IRQ_NULL` from its home slot on. -/
theorem Hashed.update (h : Hashed n newEntries) (hlive : e.live = true) {i : Nat} (hn : 0 < n)
    (hi : probe n (fun j => (newEntries j).id = irqNull) n (e.id % n) = some i) :
    Hashed n (Function.update newEntries i e) := by
  obtain ⟨hnull, htomb⟩ := live_iff.mp hlive
  have hhome : e.id % n < n := Nat.mod_lt _ hn
  have htaken : ∀ j, (newEntries j).id ≠ irqNull →
      (Function.update newEntries i e j).id ≠ irqNull := by
    intro j hj
    by_cases hji : j = i
    · rw [hji, Function.update_self]
      exact hnull
    · rwa [Function.update_of_ne hji]
  constructor
  · intro j hj
    by_cases hji : j = i
    · rw [hji, Function.update_self]
      exact htomb
    · rw [Function.update_of_ne hji]
      exact h.noTombstone j hj
  · intro j hj hlivej
    by_cases hji : j = i
    · rw [hji, Function.update_self]
      exact (reached_of_probe hhome hi).mono fun j hj => htaken j (of_decide_eq_false hj)
    · rw [Function.update_of_ne hji] at hlivej ⊢
      exact (h.reached j hj hlivej).mono htaken

/-- One round hashes its entry in, if it is live, as long as the block has
room. -/
theorem rehashEntry_spec (entries : Nat → Entry) (oldIdx : Nat) (h : Hashed n newEntries)
    (hroom : (liveEntries newEntries n).length < n) :
    ∃ newEntries', rehashEntry entries n newEntries oldIdx = .ok newEntries' ∧
      Hashed n newEntries' ∧ (∀ i, n ≤ i → newEntries' i = newEntries i) ∧
      (liveEntries newEntries' n).Perm
        (liveEntries newEntries n ++ if (entries oldIdx).live then [entries oldIdx] else []) := by
  rw [rehashEntry]
  by_cases hlive : (entries oldIdx).live = true
  · have hn : 0 < n := Nat.zero_lt_of_lt hroom
    have hhome : (entries oldIdx).id % n < n := Nat.mod_lt _ hn
    obtain ⟨free, hfree, hdead⟩ := exists_free hroom
    have hnull := (h.live_eq hfree).mp hdead
    obtain ⟨newIdx, hprobe⟩ : ∃ newIdx, probe n (fun i => (newEntries i).id = irqNull) n
        ((entries oldIdx).id % n) = some newIdx :=
      exists_probe hhome hfree (decide_eq_true hnull)
    have hlt := lt_of_probe hhome hprobe
    refine ⟨_, by rw [if_pos hlive, hprobe], h.update hlive hn hprobe, ?_, ?_⟩
    · exact fun i hi => Function.update_of_ne (Nat.ne_of_gt (Nat.lt_of_lt_of_le hlt hi)) _ _
    · rw [if_pos hlive]
      refine (stored_update hlt ?_ hlive).trans (List.perm_append_singleton _ _).symm
      exact (h.live_eq hlt).mpr (of_decide_eq_true (stop_of_probe hhome hprobe))
  · refine ⟨newEntries, if_neg hlive, h, fun _ _ => rfl, ?_⟩
    rw [if_neg hlive, List.append_nil]

/-- The loop over fewer old slots than the new block has: the entries
hashed in are the live ones of the slots gone through. -/
theorem foldlM_rehashEntry (entries : Nat → Entry) {old : Nat} (hold : old < n)
    (hzero : ∀ i < n, newEntries i = .zero) :
    ∃ newEntries', (List.range old).foldlM (rehashEntry entries n) newEntries = .ok newEntries' ∧
      Hashed n newEntries' ∧ (∀ i, n ≤ i → newEntries' i = newEntries i) ∧
      (liveEntries newEntries' n).Perm (liveEntries entries old) := by
  induction old with
  | zero =>
      refine ⟨newEntries, rfl, hashed_zero hzero, fun _ _ => rfl, ?_⟩
      rw [liveEntries_zero hzero]
      rfl
  | succ old ih =>
      obtain ⟨entries₁, h₁, hhashed, hpast, hperm⟩ := ih (Nat.lt_of_succ_lt hold)
      have hroom : (liveEntries entries₁ n).length < n := by
        rw [hperm.length_eq]
        exact Nat.lt_of_le_of_lt length_stored_le (Nat.lt_of_succ_lt hold)
      obtain ⟨entries₂, h₂, hhashed₂, hpast₂, hperm₂⟩ :=
        rehashEntry_spec entries old hhashed hroom
      refine ⟨entries₂, ?_, hhashed₂, fun i hi => (hpast₂ i hi).trans (hpast i hi), ?_⟩
      · rw [List.range_succ, List.foldlM_append, h₁, ok_bind, List.foldlM_cons, h₂]
        rfl
      · refine (hperm₂.trans (hperm.append_right _)).trans (List.Perm.of_eq ?_)
        exact stored_succ.symm

/-! ## The function -/

variable {heap : Heap} {m m' : IrqMap} {irqId i : Nat}

theorem newAlloc_eq (allocated : Nat) : newAlloc allocated = 2 * max 8 allocated := by
  unfold newAlloc
  split <;> omega

theorem lt_newAlloc (allocated : Nat) : allocated < newAlloc allocated := by
  rw [newAlloc_eq]
  omega

theorem irqRehash_spec {past : Nat → Entry} (hheap : heap (newAlloc m.allocated) = some past) :
    ∃ entries, irqRehash heap m = .ok { m with
        entries, slots := newAlloc m.allocated, allocated := newAlloc m.allocated } ∧
      Hashed (newAlloc m.allocated) entries ∧ (∀ i, newAlloc m.allocated ≤ i → entries i = past i) ∧
      (liveEntries entries (newAlloc m.allocated)).Perm (liveEntries m.entries m.allocated) := by
  have hzero : ∀ i < newAlloc m.allocated,
      (fun i => if i < newAlloc m.allocated then Entry.zero else past i) i = .zero :=
    fun i hi => if_pos hi
  obtain ⟨entries, hloop, hhashed, hpast, hperm⟩ :=
    foldlM_rehashEntry m.entries (lt_newAlloc m.allocated) hzero
  refine ⟨entries, ?_, hhashed, fun i hi => ?_, hperm⟩
  · simp only [irqRehash, kzallocOrDie, hheap, ok_bind, hloop, pure_eq_ok]
  · rw [hpast i hi, if_neg (Nat.not_lt.mpr hi)]

theorem irqRehash_error (hheap : heap (newAlloc m.allocated) = none) :
    irqRehash heap m =
      .error (.message "failed to allocate new entries for irq_map rehash") := by
  simp only [irqRehash, kzallocOrDie, hheap, error_bind]

/-! ## Looking up -/

/-- What a lookup finds is there. -/
theorem find_some (h : m.find irqId = some i) : i < m.allocated ∧ (m.entries i).id = irqId := by
  obtain ⟨hprobe, hid⟩ := IrqMap.probe_of_find h
  exact ⟨lt_of_probe (Nat.mod_lt _ (pos_of_probe hprobe)) hprobe, hid⟩

/-- And what is there is found, if its probe may get to it and ids are
distinct. -/
theorem find_eq_of_reached (hids : ((liveEntries m.entries m.allocated).map Entry.id).Nodup)
    (hi : i < m.allocated) (hlive : (m.entries i).live = true)
    (hreached : Reached m.allocated (fun j => (m.entries j).id ≠ irqNull)
      ((m.entries i).id % m.allocated) i) : m.find (m.entries i).id = some i := by
  have hhome : (m.entries i).id % m.allocated < m.allocated :=
    Nat.mod_lt _ (Nat.zero_lt_of_lt hi)
  have hprobe : probe m.allocated (m.stops (m.entries i).id) m.allocated
      ((m.entries i).id % m.allocated) = some i := by
    refine hreached.probe_eq hhome (by simp [IrqMap.stops]) fun j hj hji htaken => ?_
    have hother : (m.entries j).id ≠ (m.entries i).id := by
      intro hsame
      have hlivej : (m.entries j).live = true := by rwa [Entry.live, hsame]
      exact hji (eq_of_nodup_stored hids hj hi hlivej hlive hsame)
    simp [IrqMap.stops, hother, htaken]
  rw [IrqMap.find_eq_probe, hprobe, Option.filter_some, if_pos (decide_eq_true rfl)]

theorem Hashed.find_eq (h : Hashed m.allocated m.entries)
    (hids : ((liveEntries m.entries m.allocated).map Entry.id).Nodup) (hi : i < m.allocated)
    (hlive : (m.entries i).live = true) : m.find (m.entries i).id = some i :=
  find_eq_of_reached hids hi hlive (h.reached i hi hlive)

/-- **Rehashing loses nothing**: unless the heap is out of memory, which is
the only panic, the grown table stores the live entries and no others, and
`irq_fire` finds each under its id. -/
theorem irqRehash_lossless (hsize : m.allocated = m.slots)
    (hids : ((liveEntries m.entries m.slots).map Entry.id).Nodup) :
    (heap (newAlloc m.allocated) = none ∧ irqRehash heap m =
      .error (.message "failed to allocate new entries for irq_map rehash")) ∨
    ∃ m', irqRehash heap m = .ok m' ∧
      m'.slots = 2 * max 8 m.allocated ∧ m'.allocated = m'.slots ∧
      (liveEntries m'.entries m'.slots).Perm (liveEntries m.entries m.slots) ∧
      (∀ i < m'.slots, (m'.entries i).id ≠ irqTombstone) ∧
      ∀ irqId, 2 ≤ irqId → ∀ e, (∃ i, m'.find irqId = some i ∧ m'.entries i = e) ↔
        e ∈ liveEntries m.entries m.slots ∧ e.id = irqId := by
  rw [← hsize] at hids ⊢
  cases hheap : heap (newAlloc m.allocated) with
  | none => exact Or.inl ⟨rfl, irqRehash_error hheap⟩
  | some past =>
      obtain ⟨entries, hrehash, hhashed, -, hperm⟩ := irqRehash_spec hheap
      refine Or.inr ⟨_, hrehash, newAlloc_eq _, rfl, hperm, hhashed.noTombstone, ?_⟩
      have hids' : ((liveEntries entries (newAlloc m.allocated)).map Entry.id).Nodup :=
        (hperm.map Entry.id).nodup_iff.mpr hids
      intro irqId hid e
      rw [← hperm.mem_iff]
      constructor
      · rintro ⟨i, hfind, rfl⟩
        obtain ⟨hi, hidi⟩ := find_some hfind
        exact ⟨mem_stored.mpr ⟨⟨i, hi, rfl⟩, live_iff_two_le.mpr (hidi ▸ hid)⟩, hidi⟩
      · rintro ⟨hmem, rfl⟩
        obtain ⟨⟨i, hi, rfl⟩, hlive⟩ := mem_stored.mp hmem
        exact ⟨i, hhashed.find_eq hids' hi hlive, rfl⟩

/-- A removed entry between two that collide in the new block. -/
theorem irqRehash_lossless_collision :
    ∃ m', irqRehash (fun _ => some fun _ => .zero) ⟨fun i =>
        if i = 0 then ⟨18, 3, 4⟩ else if i = 1 then ⟨1, 0, 0⟩
        else if i = 2 then ⟨2, 5, 6⟩ else .zero, 3, 3, 0⟩ = .ok m' ∧ m'.slots = 16 ∧
      ∃ i, m'.find 18 = some i ∧ m'.entries i = ⟨18, 3, 4⟩ := by
  have h := @irqRehash_lossless (fun _ => some fun _ => .zero) ⟨fun i =>
    if i = 0 then ⟨18, 3, 4⟩ else if i = 1 then ⟨1, 0, 0⟩
    else if i = 2 then ⟨2, 5, 6⟩ else .zero, 3, 3, 0⟩ rfl (by decide)
  rcases h with ⟨hheap, -⟩ | ⟨m', hm', hslots, -, -, -, hfind⟩
  · cases hheap
  · refine ⟨m', hm', hslots, (hfind 18 (by decide) ⟨18, 3, 4⟩).mpr ⟨?_, rfl⟩⟩
    exact mem_stored.mpr ⟨⟨0, by decide, rfl⟩, by decide⟩

end TeachingOs.Irq
