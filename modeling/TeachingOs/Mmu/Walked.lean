import TeachingOs.Mmu.WalkPages
import TeachingOs.Mmu.FrameLists

/-!
# TeachingOs.Mmu.Walked

`walk_pages` reads back what `mmu_map` has written: on a table that a run of
`mmu_map` calls has built, its callback sees the physical address of every
mapped page, in the order of the virtual addresses (`walkPages_mmuMapAll`).

`reports` lists the addresses that the four loops come to, table by table.
Read as a single list it runs through the page numbers in order.
-/

namespace TeachingOs

open RadixTree

/-! ## The order of the pages -/

/-- The virtual address of a page number. -/
def pageAddress (n : Nat) : Word := .ofNat 64 (n * 4096)

/-- The page numbers of 48-bit virtual addresses, in order. -/
def pageNumbers : List Nat := List.range (2 ^ 36)

/-- Slot `i` of a table. -/
def slotOf (i : Nat) : Fin 512 := Fin.ofNat 512 i

/-- Counting to a product is counting in two nested loops. -/
theorem range_mul (a b : Nat) : List.range (a * b) =
    (List.range a).flatMap fun i => (List.range b).map fun j => i * b + j := by
  induction a with
  | zero => simp
  | succ a ih =>
      rw [Nat.succ_mul, List.range_add, ih, List.range_succ, List.flatMap_append]
      simp

theorem index_pageAddress {i j k l : Nat} (hi : i < 512) (hj : j < 512) (hk : k < 512)
    (hl : l < 512) :
    tablePath (pageAddress (((i * 512 + j) * 512 + k) * 512 + l)) =
        [slotOf i, slotOf j, slotOf k] ∧
      index (pageAddress (((i * 512 + j) * 512 + k) * 512 + l)) 12 = slotOf l := by
  have hlt : (pageAddress (((i * 512 + j) * 512 + k) * 512 + l)).toNat =
      (((i * 512 + j) * 512 + k) * 512 + l) * 4096 := by
    rw [pageAddress, BitVec.toNat_ofNat]
    omega
  simp only [tablePath, index, slotOf, Fin.ofNat, hlt, List.cons.injEq, Fin.mk.injEq, and_true]
  omega

/-! ## What the loops report -/

section Reports

variable {σ : Type} {m : PhysMem} {a : PageTableAlloc} {root t : Frame}
  {callback : σ → Word → Except Panic σ}

/-- What the callback is given for a leaf descriptor. -/
def reported (d : Word) : Word := d &&& ~~~(0xFFF ||| UXN ||| PXN)

/-- What is reported under the first `n` slots of the table at path `p`, with
`k` levels of tables below. -/
def reports (m : PhysMem) (root : Frame) : Nat → Nat → List (Fin 512) → List Word
  | 0, n, p => (List.range n).filterMap fun i => (pteAt m root p (slotOf i)).map reported
  | k + 1, n, p => (List.range n).flatMap fun i => reports m root k 512 (p ++ [slotOf i])

/-- Nothing is reported under a table that does not exist. -/
theorem reports_of_none {k n : Nat} {p : List (Fin 512)}
    (hp : pageLayout.descend m root p = none) : reports m root k n p = [] := by
  induction k generalizing n p with
  | zero => simp [reports, pteAt, hp]
  | succ k ih =>
      rw [reports, List.flatMap_eq_nil_iff]
      intro i _
      refine ih ?_
      rw [Layout.descend_concat, hp]
      rfl

/-- The loop over a table, slot by slot. -/
theorem walkTable_slots {visit : σ → Word → Except Panic σ} {n : Nat} (hn : n ≤ 512) (s : σ) :
    walkTable m n visit t.addr s = (List.range n).foldlM (fun s i =>
      if m (t.slot (slotOf i)) &&& 1 ≠ 0 then visit s (m (t.slot (slotOf i))) else pure s) s := by
  refine foldlM_congr (fun s i hi => ?_) s
  have hin : i < n := List.mem_range.mp hi
  have hslot : t.addr + BitVec.ofNat 64 i * 8 = t.slot (slotOf i) := by
    simp only [Frame.slot, slotOf, Fin.ofNat]
    bv_omega
  simp only [load_logicalMap, hslot]

/-- The innermost loop. -/
theorem walkTable_leaf {p : List (Fin 512)} (hp : pageLayout.descend m root p = some t) (s : σ) :
    walkTable m 512 (fun s d => callback s (reported d)) t.addr s =
      (reports m root 0 512 p).foldlM callback s := by
  rw [walkTable_slots (Nat.le_refl 512), reports, List.foldlM_filterMap]
  refine foldlM_congr (fun s i _ => ?_) s
  rw [pteAt, hp, Option.bind_some]
  by_cases hvalid : m (t.slot (slotOf i)) &&& 1 = 0
  · rw [if_neg (not_not.mpr hvalid), if_pos hvalid]
    rfl
  · rw [if_pos hvalid, if_neg hvalid]
    rfl

/-- An outer loop, given what its body reports for every table below. -/
theorem walkTable_inner {S : Fin 512 → Prop} {visit : σ → Word → Except Panic σ}
    {p : List (Fin 512)} {k n : Nat} (hinv : TreeInv m a root S)
    (hS : ∀ i < n, Starts S (p ++ [slotOf i])) (hlen : p.length < 3) (hn : n ≤ 512)
    (hp : pageLayout.descend m root p = some t)
    (hvisit : ∀ (f : Frame) (i : Nat), i < n →
      pageLayout.descend m root (p ++ [slotOf i]) = some f →
      ∀ s d, d &&& ~~~0xFFF = f.addr →
        visit s d = (reports m root k 512 (p ++ [slotOf i])).foldlM callback s) (s : σ) :
    walkTable m n visit t.addr s = (reports m root (k + 1) n p).foldlM callback s := by
  rw [walkTable_slots hn, reports, foldlM_flatMap]
  refine foldlM_congr (fun s i hi => ?_) s
  have hin : i < n := List.mem_range.mp hi
  by_cases hvalid : m (t.slot (slotOf i)) &&& 1 = 0
  · have hnone : pageLayout.descend m root (p ++ [slotOf i]) = none := by
      rw [Layout.descend_concat, hp]
      exact childTable_of_invalid hvalid
    rw [if_neg (not_not.mpr hvalid), reports_of_none hnone]
    rfl
  · obtain ⟨f, hf, hdesc⟩ := hinv.child_of_valid (hS i hin) hlen hp hvalid
    rw [if_pos hvalid, hvisit f i hin hdesc s _ hf]

/-- **`walk_pages` reports the leaves of its table**, whatever the callback. -/
theorem walkPages_reports {S : Fin 512 → Prop} (hinv : TreeInv m a root S)
    (hS : ∀ i < 256, S (slotOf i)) (s : σ) :
    walkPages m root.addr callback s = (reports m root 3 256 []).foldlM callback s := by
  refine walkTable_inner (p := []) hinv hS (by simp) (by decide) rfl ?_ s
  intro f₁ i hi h₁ s d hd
  rw [hd]
  refine walkTable_inner (p := [slotOf i]) hinv (fun _ _ => hS i hi) (by simp) (Nat.le_refl 512) h₁
    ?_ s
  intro f₂ j _ h₂ s d hd
  rw [hd]
  refine walkTable_inner (p := [slotOf i, slotOf j]) hinv (fun _ _ => hS i hi) (by simp)
    (Nat.le_refl 512) h₂ ?_ s
  intro f₃ k _ h₃ s d hd
  rw [hd]
  exact walkTable_leaf h₃ s

end Reports

/-! ## One list of pages -/

/-- Four nested loops over slots run through the page numbers in order. -/
theorem reports_eq (m : PhysMem) (root : Frame) : reports m root 3 256 [] =
    (List.range (256 * 512 * 512 * 512)).filterMap fun n =>
      (pteAt m root (tablePath (pageAddress n)) (index (pageAddress n) 12)).map reported := by
  simp only [range_mul, List.filterMap_flatMap, List.filterMap_map, List.flatMap_assoc,
    List.flatMap_map, reports]
  refine List.flatMap_congr fun i hi => List.flatMap_congr fun j hj =>
    List.flatMap_congr fun k hk => List.filterMap_congr fun l hl => ?_
  rw [List.mem_range] at hi hj hk hl
  obtain ⟨hpath, hindex⟩ := index_pageAddress (Nat.lt_trans hi (by decide)) hj hk hl
  simp only [Function.comp_apply, hpath, hindex, List.nil_append, List.cons_append]

/-- A page number names a page. -/
theorem index_pageAddress_39 {n : Nat} (hn : n < 2 ^ 36) :
    (index (pageAddress n) 39).val = n / 2 ^ 27 := by
  simp only [index, pageAddress, BitVec.toNat_ofNat]
  omega

/-- The address reported for a mapped page is the one it was mapped to. -/
theorem reported_leafDescriptor {pa : Word} (hpa : IsFrame pa) (flags : MapFlags) :
    reported (leafDescriptor pa flags) = pa :=
  leafDescriptor_and_page ⟨pa, hpa.masked⟩ flags

theorem mem_of_lastCall {calls : List MapCall} {v : Word} {c : MapCall}
    (h : lastCall calls v = some c) :
    c ∈ calls ∧ pageNumber c.virtualAddress = pageNumber v := by
  have hmem := List.mem_of_getLast? h
  rw [List.mem_filter, decide_eq_true_eq] at hmem
  exact hmem

/-- No call for the lower half maps a page of the upper half. -/
theorem lastCall_upper {calls : List MapCall}
    (hva : ∀ c ∈ calls, (index c.virtualAddress 39).val < 256) {n : Nat} (hlow : 2 ^ 35 ≤ n)
    (hn : n < 2 ^ 36) : lastCall calls (pageAddress n) = none := by
  cases h : lastCall calls (pageAddress n) with
  | none => rfl
  | some c =>
      obtain ⟨hmem, hpage⟩ := mem_of_lastCall h
      have hpath := ((pageNumber_eq_iff _ _).mp hpage).1
      have hindex : index c.virtualAddress 39 = index (pageAddress n) 39 := (List.cons.inj hpath).1
      have hlt := hva c hmem
      rw [hindex, index_pageAddress_39 hn] at hlt
      omega

/-- **`walk_pages` agrees with `mmu_map`**: on the table that a run of
`mmu_map` calls for the lower half has built from a root without valid slots,
the callback is called for the pages of the address space in order, once for
every page that some call has mapped, with the physical address of the last
such call. -/
theorem walkPages_mmuMapAll {σ : Type} (s : Mmu) (root : Frame) (calls : List MapCall)
    (hroot : ∀ i, s.mem (root.slot i) &&& 1 = 0) (hfresh : FreshFrames s.mem s.alloc root)
    (hva : ∀ c ∈ calls, (index c.virtualAddress 39).val < 256)
    (hpa : ∀ c ∈ calls, IsFrame c.physicalAddress) {s' : Mmu}
    (h : mmuMapAll root.addr s calls = .ok s') (callback : σ → Word → Except Panic σ) (t : σ) :
    walkPages s'.mem root.addr callback t =
      (pageNumbers.filterMap fun n => (lastCall calls (pageAddress n)).map (·.physicalAddress)).foldlM
        callback t := by
  have hall : ∀ p : List (Fin 512), Starts (fun _ => True) p := by
    intro p
    cases p <;> trivial
  have hempty : ∀ i, (fun _ : Fin 512 => True) i → s.mem (root.slot i) &&& 1 = 0 :=
    fun i _ => hroot i
  obtain ⟨hinv, hpte⟩ := (mmuMapAll_spec (TreeInv.of_invalid hempty hfresh) calls
    (fun _ _ => trivial)).of_eq_ok h
  have hleaf : ∀ n, (pteAt s'.mem root (tablePath (pageAddress n))
      (index (pageAddress n) 12)).map reported =
      (lastCall calls (pageAddress n)).map (·.physicalAddress) := by
    intro n
    rw [hpte _ trivial, pteAt_of_invalid hempty (hall _) rfl, Option.or_none, Option.map_map]
    refine Option.map_congr fun c hc => ?_
    exact reported_leafDescriptor (hpa c (mem_of_lastCall hc).1) c.flags
  have hhalves : 2 ^ 36 = 256 * 512 * 512 * 512 + 2 ^ 35 := by norm_num
  have hupper : ((List.range (2 ^ 35)).map (256 * 512 * 512 * 512 + ·)).filterMap
      (fun n => (lastCall calls (pageAddress n)).map (·.physicalAddress)) = [] := by
    rw [List.filterMap_eq_nil_iff]
    intro n hn
    obtain ⟨i, hi, rfl⟩ := List.mem_map.mp hn
    rw [List.mem_range] at hi
    rw [lastCall_upper hva (by omega) (by omega)]
    rfl
  rw [walkPages_reports hinv (fun _ _ => trivial), reports_eq, pageNumbers, hhalves,
    List.range_add, List.filterMap_append, hupper, List.append_nil]
  simp only [hleaf]

/-- Two pages, the second one mapped twice. -/
theorem walkPages_mmuMapAll_twoPages :
    let s : Mmu := ⟨fun _ => 0, ⟨fun _ => 0, 64, some ⟨[⟨0, 0x90000⟩]⟩, 0x80000⟩⟩
    let calls : List MapCall := [⟨0x0000123456789000, 0x90000, PROT_READ ||| PROT_WRITE⟩,
      ⟨0xFFFF000000080000, 0x80000, PROT_READ⟩, ⟨0xFFFF000000080000, 0xA0000, PROT_EXEC⟩]
    ∃ s', mmuMapAll 0x80000 s calls = .ok s' ∧
      walkPages s'.mem 0x80000 (fun l pa => .ok (l ++ [pa])) [] =
        (pageNumbers.filterMap fun n =>
          (lastCall calls (pageAddress n)).map (·.physicalAddress)).foldlM
            (fun l pa => .ok (l ++ [pa])) [] := by
  intro s calls
  have hzero : (0 : Word) &&& 1 = 0 := by decide
  have harea : s.alloc.earlySrc = some ⟨[⟨0, 0x90000⟩]⟩ := rfl
  have hfresh : FreshFrames s.mem s.alloc ⟨0x80000, by decide⟩ :=
    FreshFrames.of_single harea (by decide) (by decide) (by decide) (by decide)
      (fun _ _ _ _ => rfl)
  obtain ⟨s', l, h, -⟩ := (mmuMapAll_spec (S := fun _ => True)
    (TreeInv.of_invalid (fun _ _ => hzero) hfresh) calls (fun _ _ => trivial)).exists_ok
      (Hands.single_room harea (by decide) (by decide))
  exact ⟨s', h, walkPages_mmuMapAll s ⟨0x80000, by decide⟩ calls (fun _ => hzero) hfresh
    (by decide) (by decide) h _ []⟩

end TeachingOs
