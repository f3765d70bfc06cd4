import TeachingOs.Mmu.Image
import TeachingOs.Mmu.MemMap
import TeachingOs.Mmu.Walked

/-!
# TeachingOs.Mmu.KernelSpace

The kernel's half of the address space when `mmu_init` has returned: the
image, and behind it the pages for `mem_map` and the frame descriptors.

`init_mem_map` takes these pages from the allocator of the page tables, one
before each call of `mmu_map`, which takes its tables from there too.  What
keeps the two apart is `SetAside`: a page that has been taken is not handed
out again, so it never becomes a table.
-/

namespace TeachingOs

open RadixTree

/-! ## Frames that are no tables -/

/-- The frame is no table, and the allocator will not hand it out. -/
structure SetAside (s : Mmu) (root g : Frame) : Prop where
  outside : pageLayout.Outside s.mem root LowerHalf 3 g
  kept : ∀ ⦃l a'⦄, Hands s.alloc l a' → g.addr ∉ l

section SetAside

variable {s s' : Mmu} {a' : PageTableAlloc} {root t g : Frame} {p : List (Fin 512)} {v w : Word}
  {shift : Nat}

theorem SetAside.allocate (h : SetAside s root g) (hw : allocatePageTable s.alloc = .ok (w, a')) :
    SetAside { s with alloc := a' } root g where
  outside := h.outside
  kept := fun _ _ hl hmem => h.kept (.cons hw hl) (List.mem_cons_of_mem w hmem)

/-- The page that the allocator has just handed out. -/
theorem TreeInv.setAside (hinv : TreeInv s.mem s.alloc root LowerHalf)
    (hw : allocatePageTable s.alloc = .ok (w, a')) :
    ∃ g : Frame, g.addr = w ∧ SetAside { s with alloc := a' } root g := by
  obtain ⟨g, rfl, hout, -⟩ := hinv.next_frame hw
  refine ⟨g, rfl, hout, fun l b hl hmem => ?_⟩
  exact (List.nodup_cons.mp (hinv.fresh (.cons hw hl)).1).1 hmem

theorem SetAside.walkOrCreate (h : SetAside s root g)
    (hinv : TreeInv s.mem s.alloc root LowerHalf) (hp : Starts LowerHalf (p ++ [index v shift]))
    (hlen : p.length < 3) (hpt : pageLayout.descend s.mem root p = some t)
    (hrun : TeachingOs.walkOrCreate s t.addr v shift = .ok (w, s')) : SetAside s' root g := by
  simp only [TeachingOs.walkOrCreate, walk_frame, load_logicalMap, store_logicalMap] at hrun
  rcases hinv.table (index v shift) hp hlen hpt with hempty | ⟨f, hf⟩
  · rw [if_pos hempty, bind_eq_ok] at hrun
    obtain ⟨⟨w', a'⟩, hw, hrun⟩ := hrun
    cases hrun
    obtain ⟨f, rfl, hout, hzero⟩ := hinv.next_frame hw
    have hne : g ≠ f := by
      rintro rfl
      exact h.kept (.cons hw (.nil a')) (by simp)
    exact ⟨h.outside.link hne hinv.owned hp hlen hpt (childTable_of_invalid hempty)
      (childTable_table f) hout (blank_of_zero hzero), (h.allocate hw).kept⟩
  · have hvalid : (f.addr ||| 3) &&& 1 ≠ 0 := by
      rw [f.or_and_attr 3 (by decide)]; decide
    have htable : (f.addr ||| 3) &&& 3 = 3 := by
      rw [f.or_and_attr 3 (by decide)]; decide
    rw [hf, if_neg hvalid, assert_of_true htable] at hrun
    cases hrun
    exact h

/-- `mmu_map` takes no frame that is set aside. -/
theorem SetAside.mmuMap (h : SetAside s root g) (hinv : TreeInv s.mem s.alloc root LowerHalf)
    (hv : LowerHalf (index v 39)) {pa : Word} {flags : MapFlags}
    (hrun : TeachingOs.mmuMap s root.addr v pa flags = .ok s') : SetAside s' root g := by
  have hroot : pageLayout.descend s.mem root [] = some root := rfl
  simp only [TeachingOs.mmuMap, bind_eq_ok, pure_eq_ok, Except.ok.injEq] at hrun
  obtain ⟨⟨w₁, s₁⟩, h₁, ⟨w₂, s₂⟩, h₂, ⟨w₃, s₃⟩, h₃, rfl⟩ := hrun
  obtain ⟨hinv₁, ⟨f₁, hf₁, hd₁⟩, -⟩ :=
    (walkOrCreate_spec (p := []) hinv hv (by simp) hroot).of_eq_ok h₁
  have hg₁ := h.walkOrCreate (p := []) hinv hv (by simp) hroot h₁
  simp only at hf₁
  subst hf₁
  obtain ⟨hinv₂, ⟨f₂, hf₂, hd₂⟩, -⟩ :=
    (walkOrCreate_spec (p := [_]) hinv₁ hv (by simp) hd₁).of_eq_ok h₂
  have hg₂ := hg₁.walkOrCreate (p := [_]) hinv₁ hv (by simp) hd₁ h₂
  simp only at hf₂
  subst hf₂
  obtain ⟨hinv₃, ⟨f₃, hf₃, hd₃⟩, -⟩ :=
    (walkOrCreate_spec (p := [_, _]) hinv₂ hv (by simp) hd₂).of_eq_ok h₃
  have hg₃ := hg₂.walkOrCreate (p := [_, _]) hinv₂ hv (by simp) hd₂ h₃
  simp only at hf₃
  subst hf₃
  have hpt : pageLayout.descend s₃.mem root (tablePath v) = some f₃ := hd₃
  refine ⟨fun q hq hqn => ?_, hg₃.kept⟩
  have hdesc := Layout.descend_update_leaf (v := leafDescriptor pa flags) (i := index v 12)
    hinv₃.owned (show Starts LowerHalf (tablePath v) from hv) rfl hpt hq hqn
  simp only [walk_frame, store_logicalMap]
  have hout := hg₃.outside hq hqn
  rw [← hdesc] at hout
  exact hout

end SetAside

/-! ## The invariant -/

/-- The leaves of the lower half are those of `calls`, which map different
pages to different frames; these frames, and all of the image, are set
aside.  The allocator stays inside the area. -/
structure KernelSpace (k : KernelLayout) (endAddr : Word) (s : Mmu) (root : Frame)
    (calls : List MapCall) : Prop where
  inv : TreeInv s.mem s.alloc root LowerHalf
  room : ∀ ⦃l a'⦄, Hands s.alloc l a' → ∀ w ∈ l, w.toNat + 4096 ≤ endAddr.toNat
  leaf : ∀ v, LowerHalf (index v 39) → pteAt s.mem root (tablePath v) (index v 12) =
    (lastCall calls v).map fun c => leafDescriptor c.physicalAddress c.flags
  image : ∀ g : Frame, g.addr.toNat < k.imageEnd → SetAside s root g
  pages : ∀ c ∈ calls, ∃ g : Frame, g.addr = c.physicalAddress ∧ SetAside s root g
  apart : ∀ c ∈ calls, ∀ d ∈ calls, pageNumber c.virtualAddress = pageNumber d.virtualAddress ∨
    c.physicalAddress = d.physicalAddress → c = d

namespace KernelSpace

variable {k : KernelLayout} {endAddr : Word} {s s' : Mmu} {root : Frame} {calls : List MapCall}
  {c : MapCall} {v w : Word} {a' : PageTableAlloc}

theorem allocate (h : KernelSpace k endAddr s root calls)
    (hw : allocatePageTable s.alloc = .ok (w, a')) :
    KernelSpace k endAddr { s with alloc := a' } root calls where
  inv := h.inv.allocate hw
  room := fun _ _ hl v hv => h.room (.cons hw hl) v (List.mem_cons_of_mem w hv)
  leaf := h.leaf
  image := fun g hg => (h.image g hg).allocate hw
  pages := by
    intro c hc
    obtain ⟨g, hg, haside⟩ := h.pages c hc
    exact ⟨g, hg, haside.allocate hw⟩
  apart := h.apart

/-- What the allocator hands out is behind the image, and no page has it. -/
theorem next_frame (h : KernelSpace k endAddr s root calls) {g : Frame}
    (hw : allocatePageTable s.alloc = .ok (g.addr, a')) :
    k.imageEnd ≤ g.addr.toNat ∧ ∀ d ∈ calls, d.physicalAddress ≠ g.addr := by
  constructor
  · by_contra hlt
    exact (h.image g (Nat.not_le.mp hlt)).kept (.cons hw (.nil a')) (by simp)
  · intro d hd heq
    obtain ⟨f, hf, hset⟩ := h.pages d hd
    exact hset.kept (.cons hw (.nil a')) (by simp [hf, heq])

/-- One call, for a frame that is set aside. -/
theorem mmuMap (h : KernelSpace k endAddr s root calls)
    (hc : LowerHalf (index c.virtualAddress 39))
    (hpage : ∃ g : Frame, g.addr = c.physicalAddress ∧ SetAside s root g)
    (hnew : ∀ d ∈ calls, pageNumber d.virtualAddress = pageNumber c.virtualAddress ∨
      d.physicalAddress = c.physicalAddress → d = c)
    (hrun : TeachingOs.mmuMap s root.addr c.virtualAddress c.physicalAddress c.flags = .ok s') :
    KernelSpace k endAddr s' root (calls ++ [c]) := by
  obtain ⟨⟨hinv, hpte⟩, l, hl⟩ :=
    (mmuMap_spec c.physicalAddress c.flags h.inv hc).and_hands.of_eq_ok hrun
  have hkeeps : ∀ {g : Frame}, SetAside s root g → SetAside s' root g := fun hg =>
    hg.mmuMap h.inv hc hrun
  refine ⟨hinv, fun l' b hl' w hw => h.room (hl.append hl') w (List.mem_append_right l hw),
    fun v hv => ?_, fun g hg => hkeeps (h.image g hg), fun d hd => ?_, ?_⟩
  · rw [hpte (tablePath v) (index v 12) hv rfl, h.leaf v hv, lastCall_concat]
    have hsame := pageNumber_eq_iff v c.virtualAddress
    by_cases heq : pageNumber c.virtualAddress = pageNumber v
    · rw [if_pos (hsame.mp heq.symm), if_pos heq]
      rfl
    · rw [if_neg (fun h' => heq (hsame.mpr h').symm), if_neg heq]
  · have hset : ∃ g : Frame, g.addr = d.physicalAddress ∧ SetAside s root g := by
      rcases List.mem_append.mp hd with hd | hd
      · exact h.pages d hd
      · rwa [List.mem_singleton.mp hd]
    obtain ⟨g, hg, haside⟩ := hset
    exact ⟨g, hg, hkeeps haside⟩
  · intro d hd e he heq
    rw [List.mem_append, List.mem_singleton] at hd he
    rcases hd with hd | rfl <;> rcases he with he | rfl
    · exact h.apart d hd e he heq
    · exact hnew d hd heq
    · exact (hnew e he (heq.imp Eq.symm Eq.symm)).symm
    · rfl

/-! ## What the hardware sees -/

theorem isFrame (h : KernelSpace k endAddr s root calls) (hc : c ∈ calls) :
    IsFrame c.physicalAddress := by
  obtain ⟨g, hg, -⟩ := h.pages c hc
  rw [← hg]
  exact ⟨g.toNat_mod, g.toNat_lt⟩

theorem hwWalk_eq (h : KernelSpace k endAddr s root calls) (hv : LowerHalf (index v 39)) :
    hwWalk s.mem root.addr v = (lastCall calls v).map (·.translation v) := by
  rw [TeachingOs.hwWalk_eq h.inv hv, h.leaf v hv, Option.map_map]
  refine Option.map_congr fun c hc => ?_
  exact pageTranslation_leafDescriptor ⟨_, (h.isFrame (mem_of_lastCall hc).1).masked⟩ c.flags v

/-- The only call for a page is the last one. -/
theorem lastCall_eq (h : KernelSpace k endAddr s root calls) (hc : c ∈ calls)
    (hpage : pageNumber c.virtualAddress = pageNumber v) : lastCall calls v = some c := by
  have hin : c ∈ calls.filter fun d => pageNumber d.virtualAddress = pageNumber v := by
    simp [hc, hpage]
  cases hd : lastCall calls v with
  | none => exact absurd hin (List.getLast?_eq_none_iff.mp hd ▸ List.not_mem_nil)
  | some d =>
      obtain ⟨hmem, hpage'⟩ := mem_of_lastCall hd
      rw [h.apart c hc d hmem (.inl (hpage.trans hpage'.symm))]

/-- What is mapped is mapped by one of the calls. -/
theorem exists_call (h : KernelSpace k endAddr s root calls) (hv : LowerHalf (index v 39))
    {t : Translation} (ht : hwWalk s.mem root.addr v = some t) :
    ∃ c ∈ calls, pageNumber c.virtualAddress = pageNumber v ∧ t = c.translation v := by
  rw [h.hwWalk_eq hv, Option.map_eq_some_iff] at ht
  obtain ⟨c, hc, rfl⟩ := ht
  exact ⟨c, (mem_of_lastCall hc).1, (mem_of_lastCall hc).2, rfl⟩

/-- The page of an output address. -/
theorem page_translation (h : KernelSpace k endAddr s root calls) (hc : c ∈ calls) :
    (c.translation v).outputAddress.toNat / 4096 * 4096 = c.physicalAddress.toNat := by
  have hframe := (h.isFrame hc).1
  rw [MapCall.translation, toNat_or_offset hframe]
  omega

/-- Two pages never share a frame. -/
theorem injective (h : KernelSpace k endAddr s root calls) {v' : Word}
    (hv : LowerHalf (index v 39)) (hv' : LowerHalf (index v' 39)) {t t' : Translation}
    (ht : hwWalk s.mem root.addr v = some t) (ht' : hwWalk s.mem root.addr v' = some t')
    (hpage : t.outputAddress.toNat / 4096 = t'.outputAddress.toNat / 4096) :
    pageNumber v = pageNumber v' := by
  obtain ⟨c, hc, hcv, rfl⟩ := h.exists_call hv ht
  obtain ⟨d, hd, hdv, rfl⟩ := h.exists_call hv' ht'
  have hframes : c.physicalAddress = d.physicalAddress := BitVec.eq_of_toNat_eq (by
    rw [← h.page_translation (v := v) hc, ← h.page_translation (v := v') hd, hpage])
  rw [← hcv, ← hdv, h.apart c hc d hd (.inr hframes)]

/-- No page table is mapped. -/
theorem unmapped_table (h : KernelSpace k endAddr s root calls) (hv : LowerHalf (index v 39))
    {t : Translation} (ht : hwWalk s.mem root.addr v = some t) {p : List (Fin 512)} {f : Frame}
    (hp : Starts LowerHalf p) (hlen : p.length ≤ 3)
    (hf : pageLayout.descend s.mem root p = some f) :
    t.outputAddress.toNat / 4096 * 4096 ≠ f.addr.toNat := by
  obtain ⟨c, hc, -, rfl⟩ := h.exists_call hv ht
  obtain ⟨g, hg, haside⟩ := h.pages c hc
  rw [h.page_translation hc, ← hg]
  intro heq
  exact haside.outside hp hlen (Frame.ext (BitVec.eq_of_toNat_eq heq) ▸ hf)

end KernelSpace

/-! ## mmu_init -/

section Init

variable {k : KernelLayout} {endAddr : Word} {mem : PhysMem} {a a' : PageTableAlloc} {s s' : Mmu}
  {root : Frame} {c : MapCall} {w : Word}

/-- The ranges of the image end with it. -/
theorem KernelLayout.endPtr_le {r : ImageRange} (hr : r ∈ k.ranges) :
    r.endPtr.toNat ≤ k.kernEnd.toNat := by
  have h3 := k.text_le_rodata
  have h4 := k.rodata_le
  have h5 := k.rodata_le_data
  have h6 := k.data_le
  have h7 := k.data_le_end
  simp only [ranges, List.mem_cons, List.not_mem_nil, or_false] at hr
  rcases hr with rfl | rfl | rfl <;> simp only [text, rodata, data] <;> omega

/-- A page of the image: the virtual and the physical address. -/
theorem KernelLayout.image_call (hc : c ∈ k.imageCalls) :
    c.virtualAddress.toNat = c.physicalAddress.toNat + 0xFFFF000000000000 ∧
      c.virtualAddress.toNat % 4096 = 0 ∧ c.virtualAddress.toNat < k.kernEnd.toNat := by
  obtain ⟨r, hr, i, hi, rfl⟩ := mem_imageCalls.mp hc
  obtain ⟨hva, hlt⟩ := ImageRange.toNat_call hi
  have hpa := ImageRange.toNat_physicalAddress hi
  have haligned := r.aligned
  have hlow := r.low
  have hle := endPtr_le hr
  omega

/-- The allocator starts behind the image and stays inside the area. -/
theorem bounds_of_hands (hend : endAddr.toNat ≤ 2 ^ 48) {l : List Word}
    (h : Hands (earlyAlloc k ⟨[⟨0, endAddr⟩]⟩ a) l a') (hw : w ∈ l) :
    k.imageEnd ≤ w.toNat ∧ w.toNat + 4096 ≤ endAddr.toNat := by
  have hlast := toNat_earlyLast k ⟨[⟨0, endAddr⟩]⟩ a
  have hbound := k.le_imageEnd
  have hend' : (MemArea.mk 0 endAddr).endAddr.toNat < 2 ^ 62 := Nat.lt_of_le_of_lt hend (by decide)
  obtain ⟨j, hj, rfl⟩ := List.mem_iff_getElem.mp hw
  obtain ⟨hat, hin⟩ := (h.single rfl hend' (by omega)).2.2 j hj
  exact ⟨by omega, hin⟩

/-- The root, without a leaf. -/
theorem KernelSpace.start (hend : endAddr.toNat ≤ 2 ^ 48)
    (hzero : ∀ w : Word, k.imageEnd ≤ w.toNat → mem w = 0)
    (hw : allocatePageTable (earlyAlloc k ⟨[⟨0, endAddr⟩]⟩ a) = .ok (w, a')) :
    ∃ root : Frame, root.addr = w ∧ KernelSpace k endAddr ⟨mem, a'⟩ root [] := by
  obtain ⟨root, rfl, hroot, -, htree⟩ := KernelTree.of_root hend hzero hw
  have hempty : ∀ i, LowerHalf i → mem (root.slot i) &&& 1 = 0 := by
    intro i _
    have hslot := root.toNat_slot i
    rw [hzero _ (by omega)]
    decide
  have hbounds : ∀ ⦃l b⦄, Hands a' l b → ∀ v ∈ l,
      k.imageEnd ≤ v.toNat ∧ v.toNat + 4096 ≤ endAddr.toNat := fun l b hl v hv =>
    bounds_of_hands hend (.cons hw hl) (List.mem_cons_of_mem _ hv)
  refine ⟨root, rfl, htree.inv, fun l b hl v hv => (hbounds hl v hv).2, fun v hv => ?_,
    fun g hg => ⟨?_, fun l b hl hmem => ?_⟩, by simp, by simp⟩
  · exact pteAt_of_invalid hempty (p := tablePath v) hv rfl (index v 12)
  · intro p hp _ hd
    cases p with
    | nil =>
        cases hd
        omega
    | cons i p =>
        have hnone : pageLayout.child (mem (pageLayout.slot root i)) = none :=
          childTable_of_invalid (hempty i hp)
        rw [Layout.descend, hnone] at hd
        cases hd
  · exact absurd (hbounds hl _ hmem).1 (Nat.not_le.mpr hg)

/-- The calls for the image. -/
theorem KernelSpace.mmuMapAll (h : KernelSpace k endAddr s root [])
    (hrun : TeachingOs.mmuMapAll root.addr s k.imageCalls = .ok s') :
    KernelSpace k endAddr s' root k.imageCalls := by
  have hall := foldlM_prefix_inv
    (P := fun pre s => pre ⊆ k.imageCalls ∧ KernelSpace k endAddr s root pre)
    (fun pre c s s' hc hs hstep => ?_) hrun ⟨List.nil_subset _, h⟩
  · exact hall.2
  obtain ⟨hsub, hs⟩ := hs
  obtain ⟨hva, -, hlt⟩ := KernelLayout.image_call hc
  have hbelow : c.physicalAddress.toNat < k.imageEnd := by
    unfold KernelLayout.imageEnd
    omega
  have hframe := (KernelLayout.isFrame_call hc).masked
  refine ⟨List.append_subset.mpr ⟨hsub, by simpa using hc⟩,
    hs.mmuMap (KernelLayout.lowerHalf_call hc)
      ⟨⟨c.physicalAddress, hframe⟩, rfl, hs.image _ hbelow⟩ (fun d hd heq => ?_) hstep⟩
  refine KernelLayout.call_unique (hsub hd) hc (heq.elim id fun hpa => ?_)
  have hva' := (KernelLayout.image_call (hsub hd)).1
  rw [pageNumber, pageNumber, hva, hva', hpa]

/-- Copying the logical map. -/
theorem KernelSpace.install {calls : List MapCall} (h : KernelSpace k endAddr s root calls)
    (b : BootData) :
    KernelSpace k endAddr ⟨installPhysmap b root.addr s.mem, s.alloc⟩ root calls := by
  have hne : ∀ w, (∀ i, w = root.slot i → LowerHalf i) →
      installPhysmap b root.addr s.mem w = s.mem w := by
    intro w hw
    refine installPhysmap_of_ne b root s.mem fun j hj => ?_
    have hlow : 256 + j.val < 256 := hw _ hj
    omega
  generalize installPhysmap b root.addr s.mem = m' at hne ⊢
  have hdesc : ∀ q, Starts LowerHalf q → q.length ≤ 3 →
      pageLayout.descend m' root q = pageLayout.descend s.mem root q := by
    refine Layout.descend_of_agree fun p t i hS hlen ht => hne _ fun j hj => ?_
    obtain ⟨rfl, rfl⟩ := h.inv.owned.slot_inj (p := []) trivial hS.of_append (by simp)
      (Nat.le_of_lt hlen) rfl ht hj
    exact hS
  have hkeeps : ∀ {g : Frame}, SetAside s root g → SetAside ⟨m', s.alloc⟩ root g := fun hg =>
    ⟨fun q hq hqn => by rw [hdesc q hq hqn]; exact hg.outside hq hqn, hg.kept⟩
  obtain ⟨hinv, hpte⟩ := h.inv.of_root_write hne
  refine ⟨hinv, h.room, fun v hv => ?_, fun g hg => hkeeps (h.image g hg), fun c hc => ?_,
    h.apart⟩
  · rw [hpte (tablePath v) (index v 12) hv rfl, h.leaf v hv]
  · obtain ⟨g, hg, haside⟩ := h.pages c hc
    exact ⟨g, hg, hkeeps haside⟩

/-- A call for a page of `mem_map` and the frame descriptors. -/
structure ArrayCall (k : KernelLayout) (endAddr : Word) (c : MapCall) : Prop where
  flags : c.flags = PROT_READ ||| PROT_WRITE
  behind : k.imageEnd ≤ c.physicalAddress.toNat
  inArea : c.physicalAddress.toNat + 4096 ≤ endAddr.toNat

/-- An address on a page of `mem_map` or of the frame descriptors. -/
def KernelLayout.InArrays (k : KernelLayout) (endAddr v : Word) : Prop :=
  ∃ u, k.kernEnd ≤ u ∧ u < allocEnd k.kernEnd ⟨[⟨0, endAddr⟩]⟩ ∧ pageNumber u = pageNumber v

/-- The calls for all of these pages. -/
structure ArrayCalls (k : KernelLayout) (endAddr : Word) (calls : List MapCall) : Prop where
  pages : calls.map MapCall.virtualAddress =
    pagesBetween k.kernEnd (allocEnd k.kernEnd ⟨[⟨0, endAddr⟩]⟩)
  call : ∀ c ∈ calls, ArrayCall k endAddr c

theorem ArrayCalls.inArrays {calls : List MapCall} (h : ArrayCalls k endAddr calls)
    (hc : c ∈ calls) : k.InArrays endAddr c.virtualAddress := by
  have hmem : c.virtualAddress ∈ pagesBetween k.kernEnd (allocEnd k.kernEnd ⟨[⟨0, endAddr⟩]⟩) :=
    h.pages ▸ List.mem_map_of_mem hc
  obtain ⟨hlow, hhigh⟩ := toNat_of_mem_pagesBetween hmem
  exact ⟨c.virtualAddress, BitVec.le_def.mpr hlow, BitVec.lt_def.mpr hhigh, rfl⟩

/-- An address between the bounds is on one of the pages between them. -/
theorem exists_pagesBetween {start endPtr v : Word} (haligned : start.toNat % 4096 = 0)
    (hlow : start ≤ v) (hhigh : v < endPtr) :
    ∃ ptr ∈ pagesBetween start endPtr, pageNumber ptr = pageNumber v := by
  have hoffset : (v.toNat - start.toNat) / 4096 < (endPtr.toNat - start.toNat + 4095) / 4096 := by
    bv_omega
  refine ⟨_, List.mem_map_of_mem (List.mem_range.mpr hoffset), ?_⟩
  have hptr : (start + BitVec.ofNat 64 ((v.toNat - start.toNat) / 4096) * PAGE_SIZE).toNat =
      start.toNat + (v.toNat - start.toNat) / 4096 * 4096 := by
    simp only [PAGE_SIZE]
    bv_omega
  rw [pageNumber, pageNumber, hptr]
  bv_omega

theorem ArrayCalls.exists_call {calls : List MapCall} {v : Word} (h : ArrayCalls k endAddr calls)
    (hv : k.InArrays endAddr v) : ∃ c ∈ calls, pageNumber c.virtualAddress = pageNumber v := by
  obtain ⟨u, hlow, hhigh, hu⟩ := hv
  obtain ⟨ptr, hmem, hpage⟩ := exists_pagesBetween k.end_aligned hlow hhigh
  rw [← h.pages] at hmem
  obtain ⟨c, hc, rfl⟩ := List.mem_map.mp hmem
  exact ⟨c, hc, hpage.trans hu⟩

/-- `init_mem_map` maps a page of its own for each page of its arrays. -/
theorem KernelSpace.mapMemMap {endPtr : Word} (h : KernelSpace k endAddr s root k.imageCalls)
    (hbound : endPtr.toNat ≤ 0xFFFF000000000000 + 2 ^ 47)
    (hrun : TeachingOs.mapMemMap root.addr k.kernEnd endPtr s = .ok s') :
    ∃ calls, calls.map MapCall.virtualAddress = pagesBetween k.kernEnd endPtr ∧
      (∀ c ∈ calls, ArrayCall k endAddr c) ∧
      KernelSpace k endAddr s' root (k.imageCalls ++ calls) := by
  have haligned := k.end_aligned
  have hlow := k.le_kernEnd
  obtain ⟨page, hpage⟩ : ∃ page : Nat → Word,
      page = fun i => k.kernEnd + BitVec.ofNat 64 i * PAGE_SIZE := ⟨_, rfl⟩
  have htoNat : ∀ i < (endPtr.toNat - k.kernEnd.toNat + 4095) / 4096,
      (page i).toNat = k.kernEnd.toNat + i * 4096 := by
    intro i hi
    simp only [hpage, PAGE_SIZE]
    bv_omega
  rw [TeachingOs.mapMemMap, pagesBetween, List.foldlM_map] at hrun
  have hall := foldlM_range_inv (P := fun n s => ∃ calls,
    calls.map MapCall.virtualAddress = (List.range n).map page ∧
      (∀ c ∈ calls, ArrayCall k endAddr c) ∧ KernelSpace k endAddr s root (k.imageCalls ++ calls))
    (fun i s s' hi hs hstep => ?_) hrun ⟨[], rfl, by simp, by simpa using h⟩
  · rwa [pagesBetween, ← hpage]
  obtain ⟨calls, hmap, harray, hspace⟩ := hs
  rw [bind_eq_ok] at hstep
  obtain ⟨⟨w, a'⟩, hw, hstep⟩ := hstep
  obtain ⟨g, rfl, haside⟩ := hspace.inv.setAside hw
  have hmap' : TeachingOs.mmuMap { s with alloc := a' } root.addr (page i) g.addr
      (PROT_READ ||| PROT_WRITE) = .ok s' := by rw [hpage]; exact hstep
  have hva := htoNat i hi
  have hhalf : LowerHalf (index (page i) 39) := lowerHalf_of_kernel (by omega) (by omega)
  have hlimit := hspace.room (.cons hw (.nil a')) g.addr (by simp)
  obtain ⟨hbehind, hframes⟩ := hspace.next_frame hw
  refine ⟨calls ++ [⟨page i, g.addr, PROT_READ ||| PROT_WRITE⟩], ?_, fun c hc => ?_, ?_⟩
  · rw [List.map_append, hmap, List.range_succ, List.map_append]
    rfl
  · rcases List.mem_append.mp hc with hc | hc
    · exact harray c hc
    · rw [List.mem_singleton.mp hc]
      exact ⟨rfl, hbehind, hlimit⟩
  · rw [← List.append_assoc]
    refine (hspace.allocate hw).mmuMap hhalf ⟨g, rfl, haside⟩ (fun d hd heq => ?_) hmap'
    exfalso
    have hnumber := heq.resolve_right (hframes d hd)
    simp only [pageNumber, hva] at hnumber
    rcases List.mem_append.mp hd with hd | hd
    · obtain ⟨hd₁, hd₂, hd₃⟩ := KernelLayout.image_call hd
      omega
    · have hmem : d.virtualAddress ∈ (List.range i).map page := hmap ▸ List.mem_map_of_mem hd
      obtain ⟨j, hj, hjva⟩ := List.mem_map.mp hmem
      rw [List.mem_range] at hj
      rw [← hjva, htoNat j (by omega)] at hnumber
      omega

/-- `mmu_init`, as a tree and the calls that made its leaves. -/
theorem KernelSpace.of_mmuInit {ram : LinkedList.Heap FramePtr} {after : KernelMmu}
    (hend : endAddr.toNat ≤ 2 ^ 48) (hzero : ∀ w : Word, k.imageEnd ≤ w.toNat → mem w = 0)
    (hrun : mmuInit k ⟨[⟨0, endAddr⟩]⟩ (bootState mem ram) = .ok after) :
    ∃ root calls, after.kPageTable = root.addr ∧ ArrayCalls k endAddr calls ∧
      KernelSpace k endAddr after.mmu root (k.imageCalls ++ calls) := by
  rw [mmuInit, initTables_eq, kernelMaps_eq] at hrun
  simp only [bind_eq_ok, pure_eq_ok, Except.ok.injEq] at hrun
  obtain ⟨-, ⟨-, ⟨⟨w, a'⟩, hw, s₁, himage, rfl⟩, rfl⟩, ⟨mmu, frames⟩, hmem, rfl⟩ := hrun
  obtain ⟨root, rfl, hstart⟩ := KernelSpace.start hend hzero hw
  rw [initMemMap_eq, assert_of_true k.kernEnd_mod, ok_bind] at hmem
  simp only [bind_eq_ok, pure_eq_ok, Except.ok.injEq] at hmem
  obtain ⟨mmu', hmap, f₁, -, f₂, -, heq⟩ := hmem
  cases heq
  obtain ⟨calls, hva, harray, hspace⟩ := ((hstart.mmuMapAll himage).install k.boot).mapMemMap
    (toNat_allocEnd_le hend k.bound) hmap
  exact ⟨root, calls, rfl, ⟨hva, harray⟩, hspace⟩

/-- From zero-filled RAM with room for what it allocates, `mmu_init` returns. -/
theorem KernelSpace.exists_mmuInit {ram : LinkedList.Heap FramePtr} (hend : endAddr.toNat ≤ 2 ^ 48)
    (hzero : ∀ w : Word, k.imageEnd ≤ w.toNat → mem w = 0)
    (hroom : k.imageEnd + 4096 * initFrames k endAddr ≤ endAddr.toNat) :
    ∃ after root calls, mmuInit k ⟨[⟨0, endAddr⟩]⟩ (bootState mem ram) = .ok after ∧
      after.kPageTable = root.addr ∧ ArrayCalls k endAddr calls ∧
      KernelSpace k endAddr after.mmu root (k.imageCalls ++ calls) := by
  obtain ⟨after, hrun⟩ : ∃ after, mmuInit k ⟨[⟨0, endAddr⟩]⟩ (bootState mem ram) = .ok after :=
    mmuInit_ok hend hzero hroom
  obtain ⟨root, calls, h⟩ := KernelSpace.of_mmuInit hend hzero hrun
  exact ⟨after, root, calls, hrun, h⟩

end Init

/-! ## The address space -/

/-- What the kernel's half is for: the image where it was loaded, with the
rights of its ranges; the arrays of `init_mem_map` in writable pages of their
own; and nothing else, in particular no page table. -/
structure AddressSpace (k : KernelLayout) (endAddr : Word) (m : PhysMem) (root : Frame) :
    Prop where
  image : ∀ r ∈ k.ranges, ∀ v, r.start ≤ v → v < r.endPtr →
    hwWalk m root.addr v = some ⟨v - KERNEL_VIRTUAL_BASE, leafAttributes r.flags⟩
  arrays : ∀ v, k.kernEnd ≤ v → v < allocEnd k.kernEnd ⟨[⟨0, endAddr⟩]⟩ →
    ∃ t, hwWalk m root.addr v = some t ∧ t.Rights true false ∧
      k.imageEnd ≤ t.outputAddress.toNat ∧ t.outputAddress.toNat < endAddr.toNat
  nothing : ∀ v, LowerHalf (index v 39) → ¬ k.InImage v → ¬ k.InArrays endAddr v →
    hwWalk m root.addr v = none
  rights : ∀ v t, LowerHalf (index v 39) → hwWalk m root.addr v = some t →
    ¬ (t.Writable ∧ t.Executable) ∧ ¬ t.User
  injective : ∀ v v' t t', LowerHalf (index v 39) → LowerHalf (index v' 39) →
    hwWalk m root.addr v = some t → hwWalk m root.addr v' = some t' →
    t.outputAddress.toNat / 4096 = t'.outputAddress.toNat / 4096 → pageNumber v = pageNumber v'
  tables : ∀ v t p f, LowerHalf (index v 39) → hwWalk m root.addr v = some t →
    Starts LowerHalf p → p.length ≤ 3 → pageLayout.descend m root p = some f →
    t.outputAddress.toNat / 4096 * 4096 ≠ f.addr.toNat

section AddressSpace

variable {k : KernelLayout} {endAddr : Word} {mem : PhysMem} {ram : LinkedList.Heap FramePtr}
  {calls : List MapCall}

/-- The calls of `mmu_init` make an address space of this kind. -/
theorem KernelSpace.addressSpace {s : Mmu} {root : Frame} (hend : endAddr.toNat ≤ 2 ^ 48)
    (harrays : ArrayCalls k endAddr calls)
    (h : KernelSpace k endAddr s root (k.imageCalls ++ calls)) :
    AddressSpace k endAddr s.mem root := by
  have hkern := k.le_kernEnd
  have hbound := toNat_allocEnd_le hend k.bound
  refine ⟨fun r hr v hlow hhigh => ?_, fun v hlow hhigh => ?_, fun v hv himage hout => ?_,
    fun v t hv ht => ?_, fun v v' t t' hv hv' ht ht' => h.injective hv hv' ht ht',
    fun v t p f hv ht hp hlen hf => h.unmapped_table hv ht hp hlen hf⟩
  · have hbase := r.low
    have hlimit := r.high
    have hhalf : LowerHalf (index v 39) := lowerHalf_of_kernel (by bv_omega) (by bv_omega)
    have hcall := KernelLayout.lastCall_range hr hlow hhigh
    obtain ⟨c, hc, htranslation⟩ := Option.map_eq_some_iff.mp hcall
    obtain ⟨hmem, hpage⟩ := mem_of_lastCall hc
    rw [h.hwWalk_eq hhalf, h.lastCall_eq (List.mem_append_left _ hmem) hpage, Option.map_some,
      htranslation]
  · obtain ⟨c, hc, hpage⟩ := harrays.exists_call ⟨v, hlow, hhigh, rfl⟩
    have hin := List.mem_append_right k.imageCalls hc
    have hhalf : LowerHalf (index v 39) := lowerHalf_of_kernel (by bv_omega) (by bv_omega)
    have hcall := harrays.call c hc
    refine ⟨c.translation v, ?_, rights_data (by rw [MapCall.translation, hcall.flags]), ?_⟩
    · rw [h.hwWalk_eq hhalf, h.lastCall_eq hin hpage]
      rfl
    · have hout := h.page_translation (v := v) hin
      have hbehind := hcall.behind
      have hinside := hcall.inArea
      omega
  · by_contra hne
    obtain ⟨t, ht⟩ := Option.ne_none_iff_exists'.mp hne
    obtain ⟨c, hc, hpage, -⟩ := h.exists_call hv ht
    rcases List.mem_append.mp hc with hc | hc
    · exact himage (KernelLayout.inImage_call hc hpage)
    · obtain ⟨u, hlow, hhigh, hu⟩ := harrays.inArrays hc
      exact hout ⟨u, hlow, hhigh, hu.trans hpage⟩
  · obtain ⟨c, hc, -, rfl⟩ := h.exists_call hv ht
    rcases List.mem_append.mp hc with hc | hc
    · obtain ⟨r, hr, i, -, rfl⟩ := KernelLayout.mem_imageCalls.mp hc
      exact rights_range hr rfl
    · have hrights : (c.translation v).Rights true false :=
        rights_data (by rw [MapCall.translation, (harrays.call c hc).flags])
      exact ⟨fun hx => absurd (hrights.executable.mp hx.2) (by decide), hrights.user⟩

/-- **The kernel's address space**: on one area in the first gigabyte, which
the logical map of the boot code shows, in zero-filled RAM with room for what
it allocates, `mmu_init` returns and leaves an `AddressSpace`. -/
theorem mmuInit_space (hend : endAddr.toNat ≤ 2 ^ 30)
    (hzero : ∀ w : Word, k.imageEnd ≤ w.toNat → mem w = 0)
    (hroom : k.imageEnd + 4096 * initFrames k endAddr ≤ endAddr.toNat) :
    ∃ after root, mmuInit k ⟨[⟨0, endAddr⟩]⟩ (bootState mem ram) = .ok after ∧
      after.kPageTable = root.addr ∧ AddressSpace k endAddr after.mmu.mem root := by
  have hend' : endAddr.toNat ≤ 2 ^ 48 := by omega
  obtain ⟨after, root, calls, hrun, hroot, harrays, h⟩ :=
    @KernelSpace.exists_mmuInit k endAddr mem ram hend' hzero hroom
  exact ⟨after, root, hrun, hroot, h.addressSpace hend' harrays⟩

/-- On the gigabyte that `aarch64_boot` passes. -/
theorem mmuInit_space_rpi : ∃ after root,
    mmuInit rpiLayout ⟨[⟨0, 0x40000000⟩]⟩ (bootState (fun _ => 0) fun _ => ⟨.null, .null⟩) =
      .ok after ∧
    after.kPageTable = root.addr ∧ AddressSpace rpiLayout 0x40000000 after.mmu.mem root :=
  mmuInit_space (by decide) (fun _ _ => rfl) rpiLayout_room

end AddressSpace

end TeachingOs
