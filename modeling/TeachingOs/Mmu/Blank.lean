import TeachingOs.Mmu.Scrawl

/-!
# TeachingOs.Mmu.Blank

The calls of `mmu_init` beside the same calls on blank RAM.  The run on blank
RAM shows which words are written: they hold the same in both, and every other
word is the old one (`Over`).  As long as no old table descriptor stands where
a table is linked, the two take the same pages (`exists_staining`).
-/

namespace TeachingOs

open RadixTree

/-! ## Slots -/

namespace KernelLayout

variable (k : KernelLayout)

/-- Slot `i` of the table at path `q`. -/
def tableSlot (q : List (Fin 512)) (i : Fin 512) : Word :=
  BitVec.ofNat 64 (k.imageEnd + 4096 * place k.tables q + i * 8)

/-- The slots that the lower half is translated through. -/
def Slot (q : List (Fin 512)) (i : Fin 512) : Prop := q ∈ k.tables ∧ (q = [] → LowerHalf i)

end KernelLayout

/-- Some of the tables of the image, each at its place. -/
def Early (k : KernelLayout) (l : List (List (Fin 512))) : Prop :=
  ∀ q ∈ l, q ∈ k.tables ∧ place l q = place k.tables q

section Early

variable {k : KernelLayout} {l : List (List (Fin 512))} {q : List (Fin 512)}

theorem Early.of_addTable (h : Early k (addTable q l)) : Early k l := by
  intro r hr
  rw [← place_addTable hr q]
  exact h r (mem_addTable.mpr (.inr hr))

theorem early_of_createAll {calls : List MapCall} (h : createAll calls l = k.tables) :
    Early k l := by
  intro r hr
  rw [← h, place_createAll hr]
  exact ⟨(sublist_createAll calls l).subset hr, rfl⟩

theorem KernelLayout.toNat_tableSlot (hq : q ∈ k.tables) (i : Fin 512) :
    (k.tableSlot q i).toNat = k.imageEnd + 4096 * place k.tables q + i * 8 := by
  have hplace := place_lt hq
  have hbound := k.tablesEnd_le.2
  have hi := i.isLt
  rw [k.length_tables] at hplace
  rw [tableSlot, BitVec.toNat_ofNat]
  unfold tablesEnd at hbound
  omega

/-- The tables are the root and those that the pages of the image need. -/
theorem KernelLayout.mem_tables :
    q ∈ k.tables ↔ q = [] ∨ ∃ c ∈ k.imageCalls, q ∈ tablesOf c.virtualAddress := by
  rw [tables, ← List.mem_toFinset, toFinset_createAll, Finset.mem_union, mem_callTables, or_comm]
  simp

/-- They have at most three indices, and start in the lower half. -/
theorem KernelLayout.tables_spec (hq : q ∈ k.tables) :
    Starts LowerHalf q ∧ q.length ≤ 3 := by
  rcases KernelLayout.mem_tables.mp hq with rfl | ⟨c, hc, hq⟩
  · exact ⟨trivial, by simp⟩
  · have hhalf := KernelLayout.lowerHalf_call hc
    simp only [tablesOf, tablePath, Finset.mem_insert, Finset.mem_singleton] at hq
    rcases hq with rfl | rfl | rfl <;> exact ⟨hhalf, by simp⟩

end Early

/-! ## Beside the run on blank RAM -/

/-- The run `t` on the RAM `mem` beside the run `s` on blank tables: a word that
is valid in `s` has been written in both, and any other is the old one. -/
structure Over (k : KernelLayout) (mem : PhysMem) (area : MemArea) (areas : List MemArea)
    (s t : Mmu) : Prop where
  written : ∀ w, s.mem w &&& 1 ≠ 0 → t.mem w = s.mem w
  old : ∀ w, s.mem w &&& 1 = 0 → t.mem w = mem w
  below : SameBelow k mem t.mem
  last : t.alloc.earlyLast = s.alloc.earlyLast
  src : t.alloc.earlySrc = some ⟨area :: areas⟩

section Alloc

variable {a a' : PageTableAlloc} {area : MemArea} {areas : List MemArea} {r : Word}

/-- The next page of the first area. -/
theorem allocatePageTable_of_fits (hsrc : a.earlySrc = some ⟨area :: areas⟩)
    (hfits : a.earlyLast + 4096 + PAGE_SIZE - 1 < area.endAddr) :
    allocatePageTable a =
      .ok (a.earlyLast + 4096, { a with earlyLast := a.earlyLast + 4096 }) := by
  unfold allocatePageTable
  split
  · next src hsome =>
    obtain rfl := Option.some.inj (hsome.symm.trans hsrc)
    simp only [earlyCandidate, if_pos hfits]
  · next hnone =>
    rw [hsrc] at hnone
    cases hnone

/-- There is no other, as long as no other area is tried. -/
theorem allocatePageTable_first (hsrc : a.earlySrc = some ⟨area :: areas⟩)
    (hfirst : areas = [] ∨ a.earlyLast + 4096 + PAGE_SIZE - 1 < area.endAddr)
    (hok : allocatePageTable a = .ok (r, a')) :
    r = a.earlyLast + 4096 ∧ a' = { a with earlyLast := a.earlyLast + 4096 } := by
  by_cases hfits : a.earlyLast + 4096 + PAGE_SIZE - 1 < area.endAddr
  · rw [allocatePageTable_of_fits hsrc hfits] at hok
    exact (Prod.mk.inj (Except.ok.inj hok)).imp Eq.symm Eq.symm
  · obtain rfl := hfirst.resolve_right hfits
    rw [allocatePageTable_single hsrc, if_neg hfits] at hok
    cases hok

end Alloc

/-- A table descriptor is valid. -/
theorem and_one_of_and_three {d : Word} (h : d &&& 3 = 3) : d &&& 1 ≠ 0 := by
  have hmask : d &&& 3 &&& 1 = d &&& 1 := by
    rw [BitVec.and_assoc]
    rfl
  rw [← hmask, h]
  decide

/-- A link is valid. -/
theorem or_three_and_one (w : Word) : (w ||| 3) &&& 1 ≠ 0 := by
  have hone : (w ||| 3) &&& 3 &&& 1 = (w ||| 3) &&& 1 := by rw [BitVec.and_assoc]; rfl
  rw [← hone, or_and_self]
  decide

namespace Over

variable {k : KernelLayout} {mem : PhysMem} {area : MemArea} {areas : List MemArea}
  {s s' t t' : Mmu} {f : Frame} {r r' v p d : Word} {shift : Nat}

/-- The same valid word in both. -/
theorem update (h : Over k mem area areas s t) (hp : k.imageEnd ≤ p.toNat) (hd : d &&& 1 ≠ 0) :
    Over k mem area areas { s with mem := Function.update s.mem p d }
      { t with mem := Function.update t.mem p d } := by
  refine ⟨fun w hw => ?_, fun w hw => ?_, h.below.update hp d, h.last, h.src⟩
  · by_cases hwp : w = p
    · subst hwp
      simp only [Function.update_self]
    · simp only [Function.update_of_ne hwp] at hw ⊢
      exact h.written w hw
  · by_cases hwp : w = p
    · subst hwp
      simp only [Function.update_self] at hw
      exact absurd hw hd
    · simp only [Function.update_of_ne hwp] at hw ⊢
      exact h.old w hw

/-- A page that the run on blank RAM takes fits into a first area with room. -/
theorem next (h : Over k mem area areas s t) {alloc : PageTableAlloc}
    (hsrc : s.alloc.earlySrc = some ⟨[k.tablesArea]⟩)
    (hok : allocatePageTable s.alloc = .ok (r, alloc)) :
    (k.tablesEnd ≤ area.endAddr.toNat →
        t.alloc.earlyLast + 4096 + PAGE_SIZE - 1 < area.endAddr) ∧
      r = s.alloc.earlyLast + 4096 ∧
      alloc = { s.alloc with earlyLast := s.alloc.earlyLast + 4096 } := by
  have hend := k.toNat_tablesArea
  rw [allocatePageTable_single hsrc] at hok
  split at hok
  · next hfits =>
    obtain ⟨rfl, rfl⟩ := Prod.mk.inj (Except.ok.inj hok)
    refine ⟨fun hroom => ?_, rfl, rfl⟩
    rw [h.last]
    rw [BitVec.lt_def] at hfits ⊢
    omega
  · cases hok

/-- `walk_or_create` in both, at a slot that holds no stale table descriptor: it
takes the same table, if it returns. -/
theorem walkOrCreateAt (h : Over k mem area areas s t) (hboot : Booted k.boot mem)
    (hlow : k.imageEnd ≤ f.addr.toNat) (hhigh : f.addr.toNat + 4096 ≤ 2 ^ 30)
    (hstale : mem (f.slot (index v shift)) &&& 3 ≠ 3)
    (hsrc : s.alloc.earlySrc = some ⟨[k.tablesArea]⟩)
    (hfirst : areas = [] ∨ k.tablesEnd ≤ area.endAddr.toNat)
    (hok : walkOrCreate s f.addr v shift = .ok (r, s'))
    (hok' : TeachingOs.walkOrCreateAt k.boot.initPagetableLevel0 t f.addr v shift = .ok (r', t')) :
    r' = r ∧ Over k mem area areas s' t' := by
  have hslot := f.toNat_slot (index v shift)
  obtain ⟨p, hp, hdone⟩ := walkOrCreateAt_eq_ok hok'
  rw [walk_frame, (h.below.booted hboot).access_slot hhigh] at hp
  obtain rfl := Except.ok.inj hp
  simp only [walkOrCreate, walk_frame, load_logicalMap, store_logicalMap] at hok
  split at hok
  · next hempty =>
    have hold := h.old _ hempty
    obtain ⟨⟨w, alloc⟩, halloc, hok⟩ := bind_eq_ok.mp hok
    cases hok
    obtain ⟨-, alloc', halloc', rfl⟩ := hdone.resolve_right fun hread => hstale (hold ▸ hread.1)
    obtain ⟨hfits, rfl, rfl⟩ := h.next hsrc halloc
    obtain ⟨rfl, rfl⟩ := allocatePageTable_first h.src (hfirst.imp_right hfits) halloc'
    have hlast : t.alloc.earlyLast + 4096 = s.alloc.earlyLast + 4096 := by rw [h.last]
    have hnext : Over k mem area areas
        { s with alloc := { s.alloc with earlyLast := s.alloc.earlyLast + 4096 } }
        { t with alloc := { t.alloc with earlyLast := t.alloc.earlyLast + 4096 } } :=
      ⟨h.written, h.old, h.below, hlast, h.src⟩
    rw [hlast] at hnext ⊢
    exact ⟨rfl, hnext.update (by omega) (or_three_and_one _)⟩
  · next hvalid =>
    have hsame := h.written _ hvalid
    obtain ⟨u, hassert, hok⟩ := bind_eq_ok.mp hok
    cases hok
    obtain ⟨-, rfl, rfl⟩ := hdone.resolve_left fun hcreate => hvalid (hsame ▸ hcreate.1)
    exact ⟨by rw [hsame], h⟩

/-- It returns when the slot is not valid and there is room. -/
theorem exists_walkOrCreateAt (h : Over k mem area areas s t) (hboot : Booted k.boot mem)
    (hhigh : f.addr.toNat + 4096 ≤ 2 ^ 30) (hclear : mem (f.slot (index v shift)) &&& 1 = 0)
    (hsrc : s.alloc.earlySrc = some ⟨[k.tablesArea]⟩) (hroom : k.tablesEnd ≤ area.endAddr.toNat)
    (hok : walkOrCreate s f.addr v shift = .ok (r, s')) :
    ∃ r' t', TeachingOs.walkOrCreateAt k.boot.initPagetableLevel0 t f.addr v shift =
      .ok (r', t') := by
  simp only [TeachingOs.walkOrCreateAt, walk_frame, loadAt, storeAt,
    (h.below.booted hboot).access_slot hhigh, ok_bind, pure_eq_ok]
  simp only [walkOrCreate, walk_frame, load_logicalMap, store_logicalMap] at hok
  split at hok
  · next hempty =>
    obtain ⟨⟨w, alloc⟩, halloc, -⟩ := bind_eq_ok.mp hok
    obtain ⟨hfits, -, -⟩ := h.next hsrc halloc
    rw [h.old _ hempty, if_pos hclear, allocatePageTable_of_fits h.src (hfits hroom)]
    exact ⟨_, _, rfl⟩
  · next hvalid =>
    obtain ⟨u, hassert, -⟩ := bind_eq_ok.mp hok
    rw [h.written _ hvalid, if_neg hvalid, hassert]
    exact ⟨_, _, rfl⟩

end Over

/-- No stale table descriptor where a table is linked. -/
def LinksUnstale (k : KernelLayout) (mem : PhysMem) : Prop :=
  ∀ q i, k.Slot q i → q ++ [i] ∈ k.tables → mem (k.tableSlot q i) &&& 3 ≠ 3

/-- No valid descriptor there either. -/
def LinksClear (k : KernelLayout) (mem : PhysMem) : Prop :=
  ∀ q i, k.Slot q i → q ++ [i] ∈ k.tables → mem (k.tableSlot q i) &&& 1 = 0

/-- The tables of the run on blank RAM under the root that both fill. -/
structure Staining (k : KernelLayout) (mem : PhysMem) (area : MemArea) (areas : List MemArea)
    (s t : Mmu) (root : Frame) (l : List (List (Fin 512))) : Prop
    extends Over k mem area areas s t where
  tabled : Tabled s root LowerHalf k.tablesArea l
  base : root.addr.toNat = k.imageEnd

section Slots

variable {k : KernelLayout} {s : Mmu} {root f : Frame} {area : MemArea}
  {l : List (List (Fin 512))} {q : List (Fin 512)}

/-- A table of the run lies where the layout says. -/
theorem Tabled.slot_eq (h : Tabled s root LowerHalf area l) (hbase : root.addr.toNat = k.imageEnd)
    (hearly : Early k l) (hq : Starts LowerHalf q) (hlen : q.length ≤ 3)
    (hf : pageLayout.descend s.mem root q = some f) (i : Fin 512) :
    f.slot i = k.tableSlot q i ∧ q ∈ k.tables := by
  have hmem : q ∈ l := (h.paths hq hlen).mp (by rw [hf]; rfl)
  obtain ⟨htables, hplace⟩ := hearly q hmem
  refine ⟨BitVec.eq_of_toNat_eq ?_, htables⟩
  rw [f.toNat_slot, KernelLayout.toNat_tableSlot htables, h.place hq hlen hf, hbase, hplace]

/-- A slot on the way to a page of the image. -/
theorem Tabled.link (h : Tabled s root LowerHalf area l) (hbase : root.addr.toNat = k.imageEnd)
    {i : Fin 512} (hearly : Early k (addTable (q ++ [i]) l)) (hq : Starts LowerHalf (q ++ [i]))
    (hlen : q.length < 3) (hf : pageLayout.descend s.mem root q = some f) :
    f.slot i = k.tableSlot q i ∧ k.Slot q i ∧ q ++ [i] ∈ k.tables := by
  obtain ⟨hslot, hmem⟩ := h.slot_eq hbase hearly.of_addTable hq.of_append hlen.le hf i
  refine ⟨hslot, ⟨hmem, ?_⟩, (hearly _ (mem_addTable.mpr (.inl rfl))).1⟩
  rintro rfl
  exact hq

variable {mem : PhysMem} {areas : List MemArea} {t s' : Mmu} {first : MemArea} {v r : Word}
  {shift : Nat}

/-- `walk_or_create` in both, on the way to a page of the image. -/
theorem Over.level (h : Over k mem first areas s t)
    (htabled : Tabled s root LowerHalf k.tablesArea l) (hbase : root.addr.toNat = k.imageEnd)
    (hboot : Booted k.boot mem) (hlow : k.tablesEnd ≤ 2 ^ 30)
    (hfirst : areas = [] ∨ k.tablesEnd ≤ first.endAddr.toNat) (hlinks : LinksUnstale k mem)
    (hearly : Early k (addTable (q ++ [index v shift]) l))
    (hroom : Room root k.tablesArea l) (hq : Starts LowerHalf (q ++ [index v shift]))
    (hlen : q.length < 3) (hf : pageLayout.descend s.mem root q = some f)
    (hok : walkOrCreate s f.addr v shift = .ok (r, s')) :
    (∀ r' t', TeachingOs.walkOrCreateAt k.boot.initPagetableLevel0 t f.addr v shift =
        .ok (r', t') → r' = r ∧ Over k mem first areas s' t') ∧
      (LinksClear k mem → k.tablesEnd ≤ first.endAddr.toNat → ∃ r' t',
        TeachingOs.walkOrCreateAt k.boot.initPagetableLevel0 t f.addr v shift = .ok (r', t')) := by
  have hend := k.toNat_tablesArea
  obtain ⟨hslot, hS, hmem⟩ := htabled.link hbase hearly hq hlen hf
  -- the table lies between the end of the image and 1 GB
  obtain ⟨hstart, hstop⟩ := htabled.bounds hq.of_append hlen.le hf
  unfold Room at hroom
  refine ⟨fun r' t' hok' => ?_, fun hclear harea => ?_⟩
  · exact h.walkOrCreateAt hboot (by omega) (by omega) (hslot ▸ hlinks _ _ hS hmem) htabled.src
      hfirst hok hok'
  · exact h.exists_walkOrCreateAt hboot (by omega) (hslot ▸ hclear _ _ hS hmem) htabled.src harea
      hok

end Slots

theorem leafDescriptor_and_one (pa : Word) (flags : MapFlags) :
    leafDescriptor pa flags &&& 1 ≠ 0 := by
  have hone : leafDescriptor pa flags &&& 3 &&& 1 = leafDescriptor pa flags &&& 1 := by
    rw [BitVec.and_assoc]
    rfl
  rw [← hone, leafDescriptor_and_three]
  decide

namespace Staining

variable {k : KernelLayout} {mem : PhysMem} {area : MemArea} {areas : List MemArea}
  {s s' t t' : Mmu} {root f : Frame} {l : List (List (Fin 512))} {q : List (Fin 512)} {v : Word}

/-- `mmu_map` in both. -/
theorem mmuMapAt (h : Staining k mem area areas s t root l) (hboot : Booted k.boot mem)
    (hlow : k.tablesEnd ≤ 2 ^ 30) (hfirst : areas = [] ∨ k.tablesEnd ≤ area.endAddr.toNat)
    (hlinks : LinksUnstale k mem) (hv : LowerHalf (index v 39))
    (hearly : Early k (createTables v l)) (hroom : Room root k.tablesArea (createTables v l))
    (pa : Word) (flags : MapFlags) :
    ∃ s', mmuMap s root.addr v pa flags = .ok s' ∧
      (∀ t', TeachingOs.mmuMapAt k.boot.initPagetableLevel0 t root.addr v pa flags = .ok t' →
        Staining k mem area areas s' t' root (createTables v l)) ∧
      (LinksClear k mem → k.tablesEnd ≤ area.endAddr.toNat →
        ∃ t', TeachingOs.mmuMapAt k.boot.initPagetableLevel0 t root.addr v pa flags = .ok t') := by
  have hend := k.toNat_tablesArea
  have hbound := k.tablesEnd_le.2
  have hbase := h.base
  obtain ⟨f₁, f₂, f₃, s₁, s₂, s₃, ⟨h₁, ht₁, hf₁⟩, ⟨h₂, ht₂, hf₂⟩, h₃, ht₃, hf₃⟩ :=
    h.tabled.walk hv (by omega) hroom
  have hearly₂ : Early k (addTable [index v 39, index v 30] (addTable [index v 39] l)) :=
    hearly.of_addTable
  have hroom₂ := hroom.mono (sublist_addTable (tablePath v) _)
  have hroom₁ := hroom₂.mono (sublist_addTable [index v 39, index v 30] _)
  have hroom₀ := hroom₁.mono (sublist_addTable [index v 39] _)
  have level₁ := fun t (ho : Over k mem area areas s t) => ho.level h.tabled hbase hboot hlow
    hfirst hlinks (q := []) hearly₂.of_addTable hroom₀ hv (by simp) rfl h₁
  have level₂ := fun t (ho : Over k mem area areas s₁ t) => ho.level ht₁ hbase hboot hlow hfirst
    hlinks (q := [_]) hearly₂ hroom₁ hv (by simp) hf₁ h₂
  have level₃ := fun t (ho : Over k mem area areas s₂ t) => ho.level ht₂ hbase hboot hlow hfirst
    hlinks (q := [_, _]) hearly hroom₂ hv (by simp) hf₂ h₃
  obtain ⟨hb₃, hb₃'⟩ := ht₃.bounds (p := tablePath v) hv (Nat.le_refl 3) hf₃
  have hhigh : f₃.addr.toNat + 4096 ≤ 2 ^ 30 := by
    unfold Room at hroom
    omega
  refine ⟨{ s₃ with
      mem := Function.update s₃.mem (f₃.slot (index v 12)) (leafDescriptor pa flags) },
    ?_, fun t' ht' => ?_, fun hclear harea => ?_⟩
  · simp only [mmuMap, h₁, h₂, h₃, ok_bind, walk_frame, store_logicalMap]
    rfl
  · obtain ⟨level1, level2, level3, t₁, t₂, t₃, p, h₁', h₂', h₃', hp, rfl⟩ := mmuMapAt_eq_ok ht'
    obtain ⟨rfl, ho₁⟩ := (level₁ t h.toOver).1 _ _ h₁'
    obtain ⟨rfl, ho₂⟩ := (level₂ t₁ ho₁).1 _ _ h₂'
    obtain ⟨rfl, ho₃⟩ := (level₃ t₂ ho₂).1 _ _ h₃'
    rw [walk_frame, (ho₃.below.booted hboot).access_slot hhigh] at hp
    obtain rfl := Except.ok.inj hp
    have hslot := f₃.toNat_slot (index v 12)
    exact ⟨ho₃.update (by omega) (leafDescriptor_and_one pa flags),
      ht₃.setPage (p := tablePath v) hv rfl hf₃ (leafDescriptor_and_three pa flags) _, hbase⟩
  · obtain ⟨level1, t₁, h₁'⟩ := (level₁ t h.toOver).2 hclear harea
    obtain ⟨rfl, ho₁⟩ := (level₁ t h.toOver).1 _ _ h₁'
    obtain ⟨level2, t₂, h₂'⟩ := (level₂ t₁ ho₁).2 hclear harea
    obtain ⟨rfl, ho₂⟩ := (level₂ t₁ ho₁).1 _ _ h₂'
    obtain ⟨level3, t₃, h₃'⟩ := (level₃ t₂ ho₂).2 hclear harea
    obtain ⟨rfl, ho₃⟩ := (level₃ t₂ ho₂).1 _ _ h₃'
    simp only [TeachingOs.mmuMapAt, h₁', h₂', h₃', ok_bind, storeAt, walk_frame,
      (ho₃.below.booted hboot).access_slot hhigh]
    exact ⟨_, rfl⟩

/-- The rest of the calls in both. -/
theorem mmuMapAllAt {calls : List MapCall} (h : Staining k mem area areas s t root l)
    (hboot : Booted k.boot mem) (hlow : k.tablesEnd ≤ 2 ^ 30)
    (hfirst : areas = [] ∨ k.tablesEnd ≤ area.endAddr.toNat) (hlinks : LinksUnstale k mem)
    (hcalls : ∀ c ∈ calls, LowerHalf (index c.virtualAddress 39))
    (hall : createAll calls l = k.tables) (hs : mmuMapAll root.addr s calls = .ok s') :
    (∀ t', TeachingOs.mmuMapAllAt k.boot.initPagetableLevel0 root.addr t calls = .ok t' →
        Staining k mem area areas s' t' root k.tables) ∧
      (LinksClear k mem → k.tablesEnd ≤ area.endAddr.toNat →
        ∃ t', TeachingOs.mmuMapAllAt k.boot.initPagetableLevel0 root.addr t calls = .ok t') := by
  induction calls generalizing s t l with
  | nil =>
      obtain rfl : l = k.tables := hall
      cases hs
      refine ⟨fun t' ht' => ?_, fun _ _ => ⟨t, rfl⟩⟩
      cases ht'
      exact h
  | cons c calls ih =>
      rw [List.forall_mem_cons] at hcalls
      have hrest : createAll calls (createTables c.virtualAddress l) = k.tables := hall
      have hroom : Room root k.tablesArea (createTables c.virtualAddress l) :=
        (room_tables k.toNat_tablesArea h.base).mono (hrest ▸ sublist_createAll calls _)
      obtain ⟨s₁, hs₁, hback, hforth⟩ := h.mmuMapAt hboot hlow hfirst hlinks hcalls.1
        (early_of_createAll hrest) hroom c.physicalAddress c.flags
      rw [mmuMapAll, List.foldlM_cons, hs₁, ok_bind] at hs
      simp only [TeachingOs.mmuMapAllAt, List.foldlM_cons]
      refine ⟨fun t' ht' => ?_, fun hclear harea => ?_⟩
      · obtain ⟨t₁, ht₁, ht'⟩ := bind_eq_ok.mp ht'
        exact (ih (hback t₁ ht₁) hcalls.2 hrest hs).1 t' ht'
      · obtain ⟨t₁, ht₁⟩ := hforth hclear harea
        rw [ht₁, ok_bind]
        exact (ih (hback t₁ ht₁) hcalls.2 hrest hs).2 hclear harea

end Staining

section Run

variable {k : KernelLayout} {mem : PhysMem} {area : MemArea} {areas : List MemArea}
  {a : PageTableAlloc}

end Run

end TeachingOs
