import TeachingOs.Mmu.Tree

/-!
# TeachingOs.Mmu.Denote

What a page-table tree means.  The hardware walk of a tree is `pteAt` read
as a translation (`hwWalk_eq`), one `mmu_map` is one point update of it
(`mmuMap_spec`), and a whole run of `mmu_map` calls on an empty root is the
last-writer-wins map of its calls (`mmuMapAll_denotes`).
-/

namespace TeachingOs

open RadixTree

variable {root : Frame} {S : Fin 512 → Prop} {s : Mmu}

/-! ## One call -/

/-- `mmu_map` allocates at most three frames, keeps the invariant, and
updates the map of leaf descriptors at the page of its address only. -/
theorem mmuMap_spec {va : Word} (pa : Word) (flags : MapFlags)
    (hinv : TreeInv s.mem s.alloc root S) (hS : S (index va 39)) :
    Allocates 3 s.alloc (·.alloc) (mmuMap s root.addr va pa flags) fun s' =>
      TreeInv s'.mem s'.alloc root S ∧
      ∀ q j, Starts S q → q.length = 3 → pteAt s'.mem root q j =
        if q = tablePath va ∧ j = index va 12 then some (leafDescriptor pa flags)
        else pteAt s.mem root q j := by
  unfold mmuMap
  have hroot : pageLayout.descend s.mem root [] = some root := rfl
  refine Allocates.bind (n := 1) (k := 2) (walkOrCreate_spec (p := []) hinv hS (by simp) hroot) ?_
  rintro ⟨level1, s1⟩ ⟨hinv1, ⟨f1, rfl, h1⟩, e1⟩
  refine Allocates.bind (n := 1) (k := 1) (walkOrCreate_spec (p := [_]) hinv1 hS (by simp) h1) ?_
  rintro ⟨level2, s2⟩ ⟨hinv2, ⟨f2, rfl, h2⟩, e2⟩
  refine Allocates.bind (n := 1) (k := 0) (walkOrCreate_spec (p := [_, _]) hinv2 hS (by simp) h2) ?_
  rintro ⟨level3, s3⟩ ⟨hinv3, ⟨f3, rfl, h3⟩, e3⟩
  have hpath : Starts S (tablePath va) := hS
  have hpt : pageLayout.descend s3.mem root (tablePath va) = some f3 := h3
  have hthree : leafDescriptor pa flags &&& 3 = 3 := leafDescriptor_and_three pa flags
  have hvalid : leafDescriptor pa flags &&& 1 ≠ 0 := by
    have h13 : (1 : Word) = 3 &&& 1 := by decide
    rw [h13, ← BitVec.and_assoc, hthree]
    decide
  simp only [walk_frame, store_logicalMap, pure_eq_ok]
  refine Allocates.of_ok rfl ⟨hinv3.setPage hpath rfl hpt hthree, ?_⟩
  intro q j hq hqn
  have hset := hinv3.pteAt_setPage (i := index va 12) hpath rfl hpt hvalid hq hqn j
  rw [e3 q j hq hqn, e2 q j hq hqn, e1 q j hq hqn] at hset
  exact hset

/-! ## The hardware -/

/-- What the hardware makes of a valid leaf descriptor. -/
def pageTranslation (v d : Word) : Translation :=
  ⟨(d &&& addrMask) ||| (v &&& 0xFFF), d &&& ~~~addrMask⟩

/-- One level of the hardware walk on a slot that obeys the invariant. -/
theorem hwWalkFrom_table {m : PhysMem} {t : Frame} {v : Word} {k : Nat}
    (hd : TableDesc (m (t.slot (index v (12 + 9 * (k + 1)))))) :
    hwWalkFrom m v (k + 1) t.addr =
      (childTable (m (t.slot (index v (12 + 9 * (k + 1)))))).bind fun f =>
        hwWalkFrom m v k f.addr := by
  rw [hwWalkFrom]
  simp only [t.add_slotIndex]
  rcases hd with hd | ⟨f, hd⟩
  · rw [if_pos hd, childTable_of_invalid hd]
    rfl
  · have hvalid : (f.addr ||| 3) &&& 1 ≠ 0 := by
      rw [f.or_and_attr 3 (by decide)]; decide
    have htable : (f.addr ||| 3) &&& 2 ≠ 0 := by
      rw [f.or_and_attr 3 (by decide)]; decide
    rw [hd, if_neg hvalid, if_pos htable, f.or_and_addrMask (by decide), childTable_table]
    rfl

/-- The last level of the hardware walk. -/
theorem hwWalkFrom_page {m : PhysMem} {t : Frame} {v : Word}
    (hd : PageDesc (m (t.slot (index v 12)))) :
    hwWalkFrom m v 0 t.addr =
      (if m (t.slot (index v 12)) &&& 1 = 0 then none else some (m (t.slot (index v 12)))).map
        (pageTranslation v) := by
  rw [hwWalkFrom]
  simp only [t.add_slotIndex]
  have hone : ∀ d : Word, d &&& 1 = d &&& 3 &&& 1 := by
    intro d
    rw [BitVec.and_assoc]
    rfl
  rcases hd with hinvalid | hpage
  · have hne : m (t.slot (index v 12)) &&& 3 ≠ 3 := by
      intro h
      rw [hone, h] at hinvalid
      exact absurd hinvalid (by decide)
    rw [if_neg hne, if_pos hinvalid]
    rfl
  · have hne : m (t.slot (index v 12)) &&& 1 ≠ 0 := by
      rw [hone, hpage]
      decide
    rw [if_pos hpage, if_neg hne]
    rfl

/-- Above the leaves the hardware walk is `descend`. -/
theorem hwWalk_eq_descend {m : PhysMem} {a : PageTableAlloc} {v : Word}
    (hinv : TreeInv m a root S) (hS : S (index v 39)) :
    hwWalk m root.addr v =
      (pageLayout.descend m root (tablePath v)).bind fun t => hwWalkFrom m v 0 t.addr := by
  have h0 : pageLayout.descend m root [] = some root := rfl
  have hstep : ∀ {p : List (Fin 512)} {t f : Frame} {i : Fin 512},
      pageLayout.descend m root p = some t → childTable (m (t.slot i)) = some f →
      pageLayout.descend m root (p ++ [i]) = some f := by
    intro p t f i hp hf
    rw [Layout.descend_concat, hp]
    exact hf
  simp only [hwWalk, tablePath, Layout.descend, Option.bind_assoc, Option.bind_some]
  rw [hwWalkFrom_table (k := 2) (hinv.table (p := []) _ hS (by simp) h0)]
  refine Option.bind_congr fun f1 hf1 => ?_
  have h1 := hstep h0 hf1
  rw [hwWalkFrom_table (k := 1) (hinv.table (p := [_]) _ hS (by simp) h1)]
  refine Option.bind_congr fun f2 hf2 => ?_
  have h2 := hstep h1 hf2
  rw [hwWalkFrom_table (k := 0) (hinv.table (p := [_, _]) _ hS (by simp) h2)]
  rfl

/-- The hardware walk reads the leaf descriptor at the address's slots. -/
theorem hwWalk_eq {m : PhysMem} {a : PageTableAlloc} {v : Word} (hinv : TreeInv m a root S)
    (hS : S (index v 39)) :
    hwWalk m root.addr v = (pteAt m root (tablePath v) (index v 12)).map (pageTranslation v) := by
  rw [hwWalk_eq_descend hinv hS, pteAt]
  cases h : pageLayout.descend m root (tablePath v) with
  | none => rfl
  | some t =>
      rw [Option.bind_some, Option.bind_some]
      exact hwWalkFrom_page (hinv.page (p := tablePath v) _ hS rfl h)

/-! ## Runs -/

/-- The arguments of one call of `mmu_map`, apart from the table. -/
structure MapCall where
  virtualAddress : Word
  physicalAddress : Word
  flags : MapFlags

/-- A sequence of `mmu_map` calls on one table. -/
def mmuMapAll (table : Word) (s : Mmu) (calls : List MapCall) : Except Panic Mmu :=
  calls.foldlM (fun s c => mmuMap s table c.virtualAddress c.physicalAddress c.flags) s

/-- The last call for the page of `v`. -/
def lastCall (calls : List MapCall) (v : Word) : Option MapCall :=
  (calls.filter fun c => pageNumber c.virtualAddress = pageNumber v).getLast?

theorem lastCall_concat (calls : List MapCall) (c : MapCall) (v : Word) :
    lastCall (calls ++ [c]) v =
      if pageNumber c.virtualAddress = pageNumber v then some c else lastCall calls v := by
  by_cases h : pageNumber c.virtualAddress = pageNumber v <;> simp [lastCall, h]

/-- After a run of calls the leaf descriptor of every page is the one its
last call wrote, or the one that was there before. -/
theorem mmuMapAll_spec (hinv : TreeInv s.mem s.alloc root S) (calls : List MapCall)
    (hcalls : ∀ c ∈ calls, S (index c.virtualAddress 39)) :
    Allocates (3 * calls.length) s.alloc (·.alloc) (mmuMapAll root.addr s calls) fun s' =>
      TreeInv s'.mem s'.alloc root S ∧
      ∀ v, S (index v 39) → pteAt s'.mem root (tablePath v) (index v 12) =
        ((lastCall calls v).map fun c => leafDescriptor c.physicalAddress c.flags).or
          (pteAt s.mem root (tablePath v) (index v 12)) := by
  refine Allocates.foldlM (P := fun pre (s' : Mmu) => TreeInv s'.mem s'.alloc root S ∧
    ∀ v, S (index v 39) → pteAt s'.mem root (tablePath v) (index v 12) =
      ((lastCall pre v).map fun c => leafDescriptor c.physicalAddress c.flags).or
        (pteAt s.mem root (tablePath v) (index v 12))) ?_ ⟨hinv, fun v _ => rfl⟩
  rintro pre c s₁ hc ⟨hinv₁, hpte⟩
  refine (mmuMap_spec c.physicalAddress c.flags hinv₁ (hcalls c hc)).mono (Nat.le_refl 3) ?_
  rintro s₂ ⟨hinv₂, hupd⟩
  refine ⟨hinv₂, fun v hv => ?_⟩
  rw [hupd (tablePath v) (index v 12) hv rfl, hpte v hv, lastCall_concat]
  have hsame := pageNumber_eq_iff v c.virtualAddress
  by_cases h : pageNumber c.virtualAddress = pageNumber v
  · rw [if_pos (hsame.mp h.symm), if_pos h]
    rfl
  · rw [if_neg (fun h' => h (hsame.mpr h').symm), if_neg h]

/-! ## Last writer wins -/

/-- The attribute bits that a call of `mmu_map` gives to its page. -/
def leafAttributes (flags : MapFlags) : Word := pteFlags flags ||| AF ||| SH_INNER_SHAREABLE ||| 3

/-- No attribute bit lies in the address field. -/
theorem leafAttributes_and_addrMask (flags : MapFlags) :
    leafAttributes flags &&& addrMask = 0 := by
  simp only [leafAttributes, pteFlags, decide_eq_true_eq]
  split_ifs <;> decide

/-- The translation that a call of `mmu_map` asks for. -/
def MapCall.translation (c : MapCall) (v : Word) : Translation :=
  ⟨c.physicalAddress ||| (v &&& 0xFFF), leafAttributes c.flags⟩

theorem pageTranslation_leafDescriptor (f : Frame) (flags : MapFlags) (v : Word) :
    pageTranslation v (leafDescriptor f.addr flags) =
      ⟨f.addr ||| (v &&& 0xFFF), leafAttributes flags⟩ := by
  have hd : leafDescriptor f.addr flags = f.addr ||| leafAttributes flags := by
    simp only [leafDescriptor, leafAttributes, BitVec.or_assoc]
  have hz := leafAttributes_and_addrMask flags
  have hattr : leafAttributes flags &&& ~~~addrMask = leafAttributes flags := by
    have hsplit : leafAttributes flags &&& (addrMask ||| ~~~addrMask) = leafAttributes flags := by
      have hones : addrMask ||| ~~~addrMask = BitVec.allOnes 64 := by decide
      rw [hones, BitVec.and_allOnes]
    rw [BitVec.and_or_distrib_left, hz] at hsplit
    simpa using hsplit
  rw [pageTranslation, hd, f.or_and_addrMask hz, f.or_and_attr _ (by decide), hattr]

/-- No table is reached through two different slots of the tree. -/
def NoSharedTable (m : PhysMem) (root : Frame) : Prop :=
  ∀ ⦃p q : List (Fin 512)⦄ ⦃t : Frame⦄, p.length ≤ 3 → q.length ≤ 3 →
    pageLayout.descend m root p = some t → pageLayout.descend m root q = some t → p = q

/-- **Last writer wins**: on a root whose slots are all invalid, with fresh
frames from the allocator, any sequence of `mmu_map` calls ends in a tree
whose hardware walk is the finite map of the last call for each page, and in
which no two slots share a table.  The only panic is the allocator's own,
after fewer than three frames a call. -/
theorem mmuMapAll_denotes (s : Mmu) (root : Frame) (calls : List MapCall)
    (hroot : ∀ i, s.mem (root.slot i) &&& 1 = 0) (hfresh : FreshFrames s.mem s.alloc root)
    (hpa : ∀ c ∈ calls, IsFrame c.physicalAddress) :
    match mmuMapAll root.addr s calls with
    | .ok s' => (∀ v, hwWalk s'.mem root.addr v = (lastCall calls v).map (·.translation v)) ∧
        NoSharedTable s'.mem root
    | .error e => ∃ l a, l.length < 3 * calls.length ∧ Hands s.alloc l a ∧
        allocatePageTable a = .error e := by
  have hall : ∀ p : List (Fin 512), Starts (fun _ => True) p := by
    intro p; cases p <;> trivial
  have hempty : ∀ i, (fun _ : Fin 512 => True) i → s.mem (root.slot i) &&& 1 = 0 :=
    fun i _ => hroot i
  have hinv : TreeInv s.mem s.alloc root (fun _ => True) := TreeInv.of_invalid hempty hfresh
  have hrun := mmuMapAll_spec hinv calls (fun _ _ => trivial)
  cases h : mmuMapAll root.addr s calls with
  | error e => rw [h] at hrun; exact hrun
  | ok s' =>
      rw [h] at hrun
      obtain ⟨-, -, -, hinv', hpte⟩ := hrun
      refine ⟨fun v => ?_, fun p q t hp hq => hinv'.owned (hall p) (hall q) hp hq⟩
      rw [hwWalk_eq hinv' trivial, hpte v trivial,
        pteAt_of_invalid hempty (hall _) rfl, Option.or_none, Option.map_map]
      apply Option.map_congr
      intro c hc
      have hmem : c ∈ calls := List.mem_of_mem_filter (List.mem_of_getLast? hc)
      exact pageTranslation_leafDescriptor ⟨_, (hpa c hmem).masked⟩ c.flags v

/-- A run on seven free frames: two calls for one page and one for a page
that shares no table with it below the root. -/
theorem mmuMapAll_denotes_sevenFrames :
    let s : Mmu := ⟨fun _ => 0, ⟨fun _ => 0, 64, some ⟨[⟨0, 0x88000⟩]⟩, 0x80000⟩⟩
    let calls : List MapCall := [⟨0xFFFF000000080000, 0x80000, PROT_READ⟩,
      ⟨0x0000123456789000, 0x90000, PROT_READ ||| PROT_WRITE⟩,
      ⟨0xFFFF000000080000, 0xA0000, PROT_EXEC⟩]
    match mmuMapAll 0x80000 s calls with
    | .ok s' => (∀ v, hwWalk s'.mem 0x80000 v = (lastCall calls v).map (·.translation v)) ∧
        NoSharedTable s'.mem ⟨0x80000, by decide⟩
    | .error e => ∃ l a, l.length < 3 * calls.length ∧ Hands s.alloc l a ∧
        allocatePageTable a = .error e := by
  intro s calls
  have hzero : (0 : Word) &&& 1 = 0 := by decide
  have harea : s.alloc.earlySrc = some ⟨[⟨0, 0x88000⟩]⟩ := rfl
  exact mmuMapAll_denotes s ⟨0x80000, by decide⟩ calls (fun _ => hzero)
    (FreshFrames.of_single harea (by decide) (by decide) (by decide) (by decide)
      (fun _ _ _ _ => rfl))
    (by decide)

end TeachingOs
