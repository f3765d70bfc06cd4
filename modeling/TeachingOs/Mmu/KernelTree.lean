import TeachingOs.Mmu.Init

/-!
# TeachingOs.Mmu.KernelTree

The tree under `k_page_table` while `mmu_init` runs.  Its lower 256 level-0
slots are a `TreeInv` tree whose leaves name pages below the end of the
memory area; the upper 256 belong to the logical map.  `KernelTree` is kept
by every step of `mmu_init`, so the only panic is the allocator's
(`initTables_spec`, `mapMemMap_spec`), and `walk_pages` calls back with
pages of the area only (`walkPages_inv`).
-/

namespace TeachingOs

open RadixTree

/-- The level-0 slots that `walk_pages` visits. -/
def LowerHalf (i : Fin 512) : Prop := i.val < 256

/-! ## Writes beside the tree -/

section Agree

variable {m m' : PhysMem} {a : PageTableAlloc} {root : Frame} {S : Fin 512 → Prop}

theorem TreeInv.allocate (hinv : TreeInv m a root S) {w : Word} {a' : PageTableAlloc}
    (hw : allocatePageTable a = .ok (w, a')) : TreeInv m a' root S where
  owned := hinv.owned
  table := hinv.table
  page := hinv.page
  fresh := by
    intro l a'' hl
    obtain ⟨hnodup, hmem⟩ := hinv.fresh (.cons hw hl)
    exact ⟨hnodup.of_cons, fun w hw => hmem w (List.mem_cons_of_mem _ hw)⟩

/-- Writing to the root outside `S` keeps the tree. -/
theorem TreeInv.of_root_write (hinv : TreeInv m a root S)
    (hne : ∀ w, (∀ i, w = root.slot i → S i) → m' w = m w) :
    TreeInv m' a root S ∧
      ∀ p i, Starts S p → p.length = 3 → pteAt m' root p i = pteAt m root p i := by
  have hslot : ∀ ⦃p t i⦄, Starts S (p ++ [i]) → p.length ≤ 3 →
      pageLayout.descend m root p = some t → m' (t.slot i) = m (t.slot i) := by
    intro p t i hS hlen ht
    refine hne _ fun j hj => ?_
    obtain ⟨rfl, rfl⟩ := hinv.owned.slot_inj (p := []) trivial hS.of_append (by simp) hlen rfl ht hj
    exact hS
  have hdesc : ∀ q, Starts S q → q.length ≤ 3 →
      pageLayout.descend m' root q = pageLayout.descend m root q :=
    Layout.descend_of_agree fun p t i hS hlen ht => hslot hS (Nat.le_of_lt hlen) ht
  have hleaf : ∀ {p t} i, Starts S p → p.length = 3 → pageLayout.descend m root p = some t →
      m' (t.slot i) = m (t.slot i) := by
    intro p t i hS hlen ht
    cases p with
    | nil => cases hlen
    | cons j p => exact hslot (p := j :: p) hS (Nat.le_of_eq hlen) ht
  refine ⟨⟨?_, ?_, ?_, ?_⟩, ?_⟩
  · intro p q t hp hq hpn hqn hpt hqt
    rw [hdesc p hp hpn] at hpt
    rw [hdesc q hq hqn] at hqt
    exact hinv.owned hp hq hpn hqn hpt hqt
  · intro p t i hS hlen ht
    rw [hdesc p hS.of_append (Nat.le_of_lt hlen)] at ht
    rw [hslot hS (Nat.le_of_lt hlen) ht]
    exact hinv.table i hS hlen ht
  · intro p t i hS hlen ht
    rw [hdesc p hS (Nat.le_of_eq hlen)] at ht
    rw [hleaf i hS hlen ht]
    exact hinv.page i hS hlen ht
  · intro l a' hl
    obtain ⟨hnodup, hmem⟩ := hinv.fresh hl
    refine ⟨hnodup, fun w hw => ?_⟩
    obtain ⟨f, rfl, hout, hzero⟩ := hmem w hw
    refine ⟨f, rfl, fun p hp hlen h => hout hp hlen (hdesc p hp hlen ▸ h), fun i => ?_⟩
    rw [hne, hzero]
    intro j hj
    exact absurd hj (hout.slot_ne (p := []) trivial (by simp) rfl)
  · intro p i hS hlen
    rw [pteAt, pteAt, hdesc p hS (Nat.le_of_eq hlen)]
    refine Option.bind_congr fun t ht => ?_
    rw [hleaf i hS hlen ht]

end Agree

/-! ## The invariant of mmu_init -/

/-- The lower half of `root` is a tree of pages below `limit`, and the
frames still to come lie below `limit` too. -/
structure KernelTree (s : Mmu) (root : Frame) (limit : Nat) : Prop where
  inv : TreeInv s.mem s.alloc root LowerHalf
  leaves : ∀ ⦃p i d⦄, Starts LowerHalf p → p.length = 3 → pteAt s.mem root p i = some d →
    ∃ (f : Frame) (flags : MapFlags), f.addr.toNat < limit ∧ d = leafDescriptor f.addr flags
  below : ∀ ⦃l a'⦄, Hands s.alloc l a' → ∀ w ∈ l, w.toNat < limit

namespace KernelTree

variable {s : Mmu} {root : Frame} {limit : Nat}

theorem allocate (h : KernelTree s root limit) {w : Word} {a' : PageTableAlloc}
    (hw : allocatePageTable s.alloc = .ok (w, a')) :
    KernelTree { s with alloc := a' } root limit where
  inv := h.inv.allocate hw
  leaves := h.leaves
  below := fun _ _ hl v hv => h.below (.cons hw hl) v (List.mem_cons_of_mem w hv)

/-- `mmu_map` of a page below the limit. -/
theorem mmuMap (h : KernelTree s root limit) {va : Word} (f : Frame) (flags : MapFlags)
    (hva : LowerHalf (index va 39)) (hf : f.addr.toNat < limit) :
    Allocates 3 s.alloc (·.alloc) (mmuMap s root.addr va f.addr flags) (KernelTree · root limit) := by
  refine (mmuMap_spec f.addr flags h.inv hva).and_hands.mono (Nat.le_refl 3) ?_
  rintro s' ⟨⟨hinv, hpte⟩, l, hl⟩
  refine ⟨hinv, ?_, fun l' a' hl' w hw => h.below (hl.append hl') w (List.mem_append_right l hw)⟩
  intro p i d hp hlen hd
  rw [hpte p i hp hlen] at hd
  split at hd
  · cases hd
    exact ⟨f, flags, hf, rfl⟩
  · exact h.leaves hp hlen hd

end KernelTree

/-! ## The image -/

/-- The number of pages that `init_k_map` maps. -/
def imagePages (start endPtr : Word) : Nat :=
  (((endPtr + PAGE_SIZE - 1) - start) / PAGE_SIZE).toNat

/-- The kernel's half of the address space starts at level-0 slot 0. -/
theorem lowerHalf_of_kernel {v : Word} (hlow : 0xFFFF000000000000 ≤ v.toNat)
    (hhigh : v.toNat < 0xFFFF000000000000 + 2 ^ 47) : LowerHalf (index v 39) := by
  simp only [LowerHalf, index]
  omega

/-- `init_k_map` of a range of the image that ends below the limit. -/
theorem KernelTree.initKMap {s : Mmu} {root : Frame} {limit : Nat} (h : KernelTree s root limit)
    {start endPtr : Word} (flags : MapFlags) (haligned : start.toNat % 4096 = 0)
    (hstart : 0xFFFF000000000000 ≤ start.toNat) (hle : start.toNat ≤ endPtr.toNat)
    (hbound : endPtr.toNat ≤ 0xFFFF000000000000 + 2 ^ 39)
    (hlimit : endPtr.toNat ≤ 0xFFFF000000000000 + limit) :
    Allocates (3 * imagePages start endPtr) s.alloc (·.alloc)
      (initKMap root.addr start endPtr flags s) (KernelTree · root limit) := by
  have hassert : start % 4096 = 0 := by bv_omega
  have hpages : imagePages start endPtr = (endPtr.toNat + 4095 - start.toNat) / 4096 := by
    have hdiff : (endPtr + PAGE_SIZE - 1 - start).toNat = endPtr.toNat + 4095 - start.toNat := by
      simp only [PAGE_SIZE]
      bv_omega
    rw [imagePages, BitVec.toNat_udiv, hdiff]
    rfl
  have hloop := Allocates.foldlM (n := 3) (g := Mmu.alloc) (s := s)
    (P := fun _ s => KernelTree s root limit) (l := List.range (imagePages start endPtr))
    (f := fun s i => TeachingOs.mmuMap s root.addr (start + BitVec.ofNat 64 i * 4096)
      (start + BitVec.ofNat 64 i * 4096 - KERNEL_VIRTUAL_BASE) flags) ?_ h
  · simp only [TeachingOs.initKMap, assert_of_true hassert, ok_bind]
    simpa [imagePages] using hloop
  intro _ i s hi hs
  rw [List.mem_range, hpages] at hi
  have hpage : (start + BitVec.ofNat 64 i * 4096).toNat = start.toNat + i * 4096 := by bv_omega
  have hphys : (start + BitVec.ofNat 64 i * 4096 - KERNEL_VIRTUAL_BASE).toNat =
      start.toNat + i * 4096 - 0xFFFF000000000000 := by
    simp only [KERNEL_VIRTUAL_BASE]
    bv_omega
  have hframe : IsFrame (start + BitVec.ofNat 64 i * 4096 - KERNEL_VIRTUAL_BASE) :=
    ⟨by omega, by omega⟩
  have hlt : (start + BitVec.ofNat 64 i * 4096 - KERNEL_VIRTUAL_BASE).toNat < limit := by omega
  exact hs.mmuMap ⟨_, hframe.masked⟩ flags (lowerHalf_of_kernel (by omega) (by omega)) hlt

/-! ## The root -/

/-- The page after the kernel image, where the allocator starts. -/
def KernelLayout.imageEnd (k : KernelLayout) : Nat := k.kernEnd.toNat - 0xFFFF000000000000

/-- The state of the allocator when `mmu_init` takes the root. -/
def earlyAlloc (k : KernelLayout) (memoryMap : PhysicalMemoryMap) (a : PageTableAlloc) :
    PageTableAlloc :=
  { a with
    earlyLast := k.kernEnd - PAGE_SIZE - KERNEL_VIRTUAL_BASE
    earlySrc := some memoryMap }

/-- The number of frames that suffice up to `init_mem_map`. -/
def tablesFrames (k : KernelLayout) : Nat :=
  1 + (3 * imagePages k.kernTextStart k.kernTextEnd +
    (3 * imagePages k.kernRodataStart k.kernRodataEnd +
      (3 * imagePages k.kernDataStart k.kernDataEnd + 0)))

section Root

variable {k : KernelLayout} {endAddr : Word} {mem : PhysMem} {a : PageTableAlloc}

theorem KernelLayout.le_kernEnd (k : KernelLayout) :
    0xFFFF000000102000 ≤ k.kernEnd.toNat := by
  have h1 := k.boot_le_text
  have h2 := k.text_le
  have h3 := k.text_le_rodata
  have h4 := k.rodata_le
  have h5 := k.rodata_le_data
  have h6 := k.data_le
  have h7 := k.data_le_end
  omega

theorem toNat_earlyLast (k : KernelLayout) (memoryMap : PhysicalMemoryMap) (a : PageTableAlloc) :
    (earlyAlloc k memoryMap a).earlyLast.toNat + 4096 = k.imageEnd := by
  have hlow := k.le_kernEnd
  have hlast : (earlyAlloc k memoryMap a).earlyLast.toNat =
      k.kernEnd.toNat - 4096 - 0xFFFF000000000000 := by
    simp only [earlyAlloc, PAGE_SIZE, KERNEL_VIRTUAL_BASE]
    bv_omega
  have himage : k.imageEnd = k.kernEnd.toNat - 0xFFFF000000000000 := rfl
  omega

/-- The first frame is an empty root past the image. -/
theorem KernelTree.of_root {w : Word} {a' : PageTableAlloc} (hend : endAddr.toNat ≤ 2 ^ 48)
    (hzero : ∀ w : Word, k.imageEnd ≤ w.toNat → mem w = 0)
    (hw : allocatePageTable (earlyAlloc k ⟨[⟨0, endAddr⟩]⟩ a) = .ok (w, a')) :
    ∃ root : Frame, root.addr = w ∧ k.imageEnd ≤ root.addr.toNat ∧
      root.addr.toNat + 4096 ≤ endAddr.toNat ∧
      KernelTree ⟨mem, a'⟩ root endAddr.toNat := by
  have hlast := toNat_earlyLast k ⟨[⟨0, endAddr⟩]⟩ a
  have haligned := k.end_aligned
  have hbound := k.bound
  have himage : k.imageEnd = k.kernEnd.toNat - 0xFFFF000000000000 := rfl
  have hend' : (MemArea.mk 0 endAddr).endAddr.toNat < 2 ^ 62 := Nat.lt_of_le_of_lt hend (by decide)
  obtain ⟨hnext, hroom, hsrc, hlast'⟩ := allocatePageTable_single_ok rfl hend' (by omega) hw
  have hfit : w.toNat + 4096 ≤ endAddr.toNat := hroom
  have hframe : IsFrame w := ⟨by omega, by omega⟩
  have hempty : ∀ i, LowerHalf i → mem (Frame.slot ⟨w, hframe.masked⟩ i) &&& 1 = 0 := by
    intro i _
    have hslot : (Frame.slot ⟨w, hframe.masked⟩ i).toNat = w.toNat + i * 8 := Frame.toNat_slot _ i
    rw [hzero _ (by omega)]
    decide
  have hfresh : FreshFrames mem a' ⟨w, hframe.masked⟩ := by
    subst hlast'
    exact FreshFrames.of_single hsrc hend (by omega) (by omega) (Nat.le_refl _)
      fun v hv _ _ => hzero v (by omega)
  refine ⟨⟨w, hframe.masked⟩, rfl, by show k.imageEnd ≤ w.toNat; omega, hfit,
    TreeInv.of_invalid hempty hfresh, ?_, ?_⟩
  · intro p i d hp hlen hd
    rw [pteAt_of_invalid hempty hp hlen] at hd
    cases hd
  · intro l b hl v hv
    obtain ⟨j, hj, rfl⟩ := List.mem_iff_getElem.mp hv
    have hbelow : l[j].toNat + 4096 ≤ endAddr.toNat :=
      ((hl.single hsrc hend' (by rw [hlast']; omega)).2.2 j hj).2
    omega

/-- Copying the logical map leaves the lower half alone. -/
theorem KernelTree.install {s : Mmu} {root : Frame} {limit : Nat} (h : KernelTree s root limit)
    (b : BootData) : KernelTree ⟨installPhysmap b root.addr s.mem, s.alloc⟩ root limit := by
  have hne : ∀ w, (∀ i, w = root.slot i → LowerHalf i) →
      installPhysmap b root.addr s.mem w = s.mem w := by
    intro w hw
    refine installPhysmap_of_ne b root s.mem fun j hj => ?_
    have hlow : 256 + j.val < 256 := hw _ hj
    omega
  generalize installPhysmap b root.addr s.mem = m' at hne ⊢
  obtain ⟨hinv, hpte⟩ := h.inv.of_root_write hne
  refine ⟨hinv, fun p i d hp hlen hd => ?_, h.below⟩
  exact h.leaves hp hlen (hpte p i hp hlen ▸ hd)

/-- What `mmu_init` has built before it calls `init_mem_map`. -/
theorem initTables_spec (hend : endAddr.toNat ≤ 2 ^ 48)
    (hzero : ∀ w : Word, k.imageEnd ≤ w.toNat → mem w = 0) :
    Allocates (tablesFrames k) (earlyAlloc k ⟨[⟨0, endAddr⟩]⟩ a) (·.2.alloc)
      (initTables k ⟨[⟨0, endAddr⟩]⟩ ⟨mem, a⟩) fun r =>
        ∃ root : Frame, root.addr = r.1 ∧ k.imageEnd ≤ root.addr.toNat ∧
          KernelTree r.2 root endAddr.toNat := by
  have h1 := k.boot_le_text
  have h2 := k.text_le
  have h3 := k.text_le_rodata
  have h4 := k.rodata_le
  have h5 := k.rodata_le_data
  have h6 := k.data_le
  have h7 := k.data_le_end
  have hbound := k.bound
  have himage : k.imageEnd = k.kernEnd.toNat - 0xFFFF000000000000 := rfl
  unfold initTables tablesFrames
  refine (Allocates.allocate _).bind ?_
  rintro ⟨w, a'⟩ hw
  obtain ⟨root, rfl, hroot, hfit, htree⟩ := KernelTree.of_root hend hzero hw
  refine (htree.initKMap _ k.text_aligned (by omega) h2 (by omega) (by omega)).bind ?_
  intro s₁ htree₁
  refine (htree₁.initKMap _ k.rodata_aligned (by omega) h4 (by omega) (by omega)).bind ?_
  intro s₂ htree₂
  refine (htree₂.initKMap _ k.data_aligned (by omega) h6 (by omega) (by omega)).bind ?_
  intro s₃ htree₃
  exact Allocates.of_ok rfl ⟨root, rfl, hroot, htree₃.install k.boot⟩

end Root

/-! ## Room for the frame descriptors -/

theorem length_pagesBetween (start endPtr : Word) :
    (pagesBetween start endPtr).length = (endPtr.toNat - start.toNat + 4095) / 4096 := by
  simp [pagesBetween]

/-- The loop stays below its end. -/
theorem toNat_of_mem_pagesBetween {start endPtr ptr : Word} (h : ptr ∈ pagesBetween start endPtr) :
    start.toNat ≤ ptr.toNat ∧ ptr.toNat < endPtr.toNat := by
  have hlt := endPtr.isLt
  simp only [pagesBetween, List.mem_map, List.mem_range, PAGE_SIZE] at h
  obtain ⟨i, hi, rfl⟩ := h
  have hptr : (start + BitVec.ofNat 64 i * 4096).toNat = start.toNat + i * 4096 := by bv_omega
  omega

/-- The allocation loop of `init_mem_map`. -/
theorem KernelTree.mapMemMap {s : Mmu} {root : Frame} {limit : Nat} (h : KernelTree s root limit)
    {start endPtr : Word} (hstart : 0xFFFF000000000000 ≤ start.toNat)
    (hbound : endPtr.toNat ≤ 0xFFFF000000000000 + 2 ^ 47) :
    Allocates (4 * (pagesBetween start endPtr).length) s.alloc (·.alloc)
      (mapMemMap root.addr start endPtr s) (KernelTree · root limit) := by
  refine Allocates.foldlM (P := fun _ s => KernelTree s root limit) ?_ h
  intro _ ptr s hptr hs
  obtain ⟨hlow, hhigh⟩ := toNat_of_mem_pagesBetween hptr
  refine Allocates.bind (n := 1) (k := 3) (Allocates.allocate s.alloc) ?_
  rintro ⟨w, a'⟩ hw
  obtain ⟨f, rfl, -, -⟩ := hs.inv.next_frame hw
  exact (hs.allocate hw).mmuMap f _ (lowerHalf_of_kernel (by omega) (by omega))
    (hs.below (.cons hw (.nil a')) _ (by simp))

theorem toNat_pageCount {endAddr : Word} (hend : endAddr.toNat ≤ 2 ^ 48) :
    (pageCount ⟨0, endAddr⟩).toNat = (endAddr.toNat + 4095) / 4096 := by
  have hsum : (endAddr - 0 + PAGE_SIZE - 1).toNat = endAddr.toNat + 4095 := by
    simp only [PAGE_SIZE]
    bv_omega
  rw [pageCount, BitVec.toNat_udiv, hsum]
  rfl

/-- A quotient of addresses, rounded back to a multiple of `c`. -/
theorem toNat_div_mul_le (w c : Word) : (w / c * c).toNat ≤ w.toNat := by
  have hle : w.toNat / c.toNat * c.toNat ≤ w.toNat := Nat.div_mul_le_self _ _
  have hlt := w.isLt
  rw [BitVec.toNat_mul, BitVec.toNat_udiv, Nat.mod_eq_of_lt (by omega)]
  exact hle

/-- The frame descriptors of an area of at most 2^48 bytes end below the
middle of the address space. -/
theorem toNat_allocEnd_le {start endAddr : Word} (hend : endAddr.toNat ≤ 2 ^ 48)
    (hstart : start.toNat ≤ 0xFFFF000000000000 + 2 ^ 39) :
    (allocEnd start ⟨[⟨0, endAddr⟩]⟩).toNat ≤ 0xFFFF000000000000 + 2 ^ 47 := by
  have hcount : (frameCount ⟨[⟨0, endAddr⟩]⟩).toNat = (endAddr.toNat + 4095) / 4096 := by
    rw [← toNat_pageCount hend]
    simp [frameCount]
  have harray : (frameArrayStart start ⟨[⟨0, endAddr⟩]⟩).toNat ≤ start.toNat + 47 := by
    refine Nat.le_trans (toNat_div_mul_le _ _) ?_
    simp only [sizeofPhysArea, List.length_singleton]
    bv_omega
  have hbytes : (frameCount ⟨[⟨0, endAddr⟩]⟩ * sizeofFrame).toNat ≤ 2 ^ 42 := by
    have hsize : sizeofFrame.toNat = 40 := rfl
    rw [BitVec.toNat_mul, hcount, hsize]
    exact Nat.le_trans (Nat.mod_le _ _) (by omega)
  refine Nat.le_trans (toNat_div_mul_le _ _) ?_
  simp only [PAGE_SIZE]
  bv_omega

end TeachingOs
