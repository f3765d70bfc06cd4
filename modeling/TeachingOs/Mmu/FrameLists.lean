import TeachingOs.Mmu.WalkPages

/-!
# TeachingOs.Mmu.FrameLists

The lists that `mmu_init` leaves behind.  `FramesPartitioned` says what they
are for: two rings that share out the frames of the area, with no frame in
use on `free_frames`.  `mmu_init` finishes whenever the area has room for
its tables (`mmuInit_ok`), but `page_table_frames` never becomes a ring: no
`ll_init` reaches its head, so nothing ever points back to it.
-/

namespace TeachingOs

open RadixTree LinkedList

/-! ## What the lists are for -/

/-- The pages that are in use once `mmu_init` has returned: the tables of
`k_page_table` and its root, the kernel image, and what backs `mem_map`. -/
inductive InUse (k : KernelLayout) (endAddr : Word) (s : KernelMmu) : Word → Prop where
  | table {p : List (Fin 512)} {t : Frame} (hp : Starts LowerHalf p) (hlen : p.length ≤ 3)
      (ht : pageLayout.descend s.mmu.mem (frameOf s.kPageTable) p = some t) : InUse k endAddr s t.addr
  | image {w : Word} (hlow : 0x80000 ≤ w.toNat) (hhigh : w.toNat < k.imageEnd) : InUse k endAddr s w
  | memMap {v : Word} {t : Translation} (hlow : k.kernEnd ≤ v)
      (hhigh : v < allocEnd k.kernEnd ⟨[⟨0, endAddr⟩]⟩)
      (ht : hwWalk s.mmu.mem s.kPageTable v = some t) : InUse k endAddr s t.outputAddress

/-- Two rings share out the frames of the area `[0, endAddr)`, and no page
in use is free. -/
def FramesPartitioned (k : KernelLayout) (endAddr : Word) (s : KernelMmu) : Prop :=
  ∃ free used : List Nat,
    Ring .null s.frames.links .freeFrames (free.map .frame) ∧
    Ring .null s.frames.links .pageTableFrames (used.map .frame) ∧
    (∀ j < (pageCount ⟨0, endAddr⟩).toNat, j ∈ free ↔ j ∉ used) ∧
    ∀ w, InUse k endAddr s w → w.toNat / 4096 ∉ free

/-! ## No step fails -/

theorem initOwnPage_ok (s : Frames) (used : Word) : ∃ s', initOwnPage s used = .ok s' := by
  obtain ⟨links, hl⟩ := llInsert_ok FramePtr.null "init_own_page" "used_frame" _ .pageTableFrames _
    (next_llUnlink_self .null s.links (physaddrToFrame s.memMap used))
    (prev_llUnlink_self .null s.links (physaddrToFrame s.memMap used))
  exact ⟨_, by rw [initOwnPage, hl, ok_bind]; rfl⟩

theorem initFrame_ok (map : Nat) (start : Word) (s : Frames) (j : Nat) :
    ∃ s', initFrame map start s j = .ok s' := by
  obtain ⟨links, hl⟩ := llInsert_ok .null "init_mem_map" "&mem_map[i].map[j]"
    (setPrev (setNext s.links (.frame (map + j)) .null) (.frame (map + j)) .null) .freeFrames
    (.frame (map + j)) (by simp) (by simp)
  exact ⟨_, by rw [initFrame, hl, ok_bind]; rfl⟩

theorem initArea_ok (s : Frames) (area : MemArea) : ∃ s', initArea s area = .ok s' :=
  foldlM_ok (initFrame_ok 0 area.start) _ _

/-- The number of frames that suffice for all of `mmu_init`. -/
def initFrames (k : KernelLayout) (endAddr : Word) : Nat :=
  tablesFrames k +
    4 * (pagesBetween k.kernEnd (allocEnd k.kernEnd ⟨[⟨0, endAddr⟩]⟩)).length

section Run

variable {k : KernelLayout} {endAddr : Word} {mem : PhysMem} {ram : Heap FramePtr}

theorem KernelLayout.kernEnd_mod (k : KernelLayout) : k.kernEnd % PAGE_SIZE = 0 := by
  have h := k.end_aligned
  simp only [PAGE_SIZE]
  bv_omega

/-- `init_mem_map` fails only when its allocations do. -/
theorem initMemMap_ok {src : PhysicalMemoryMap} {kPageTable : Word} {mmu mmu' : Mmu}
    (h : mapMemMap kPageTable k.kernEnd (allocEnd k.kernEnd src) mmu = .ok mmu') (frames : Frames) :
    ∃ r, initMemMap k.kernEnd kPageTable src (mmu, frames) = .ok r := by
  obtain ⟨f₁, h₁⟩ := foldlM_ok initArea_ok src.areas
    { frames with memMap := [], links := llInit frames.links .freeFrames }
  obtain ⟨f₂, h₂⟩ := walkPages_ok kPageTable initOwnPage_ok f₁ (m := mmu'.mem)
  refine ⟨(mmu', f₂), ?_⟩
  simp only [initMemMap, assert_of_true k.kernEnd_mod, h, h₁, h₂, ok_bind, pure_eq_ok]

/-- **`mmu_init` finishes** on every area with zero-filled room for its
tables and frame descriptors after the image. -/
theorem mmuInit_ok (hend : endAddr.toNat ≤ 2 ^ 48)
    (hzero : ∀ w : Word, k.imageEnd ≤ w.toNat → mem w = 0)
    (hroom : k.imageEnd + 4096 * initFrames k endAddr ≤ endAddr.toNat) :
    ∃ s, mmuInit k ⟨[⟨0, endAddr⟩]⟩ (bootState mem ram) = .ok s := by
  have hbound := k.bound
  have hlast := toNat_earlyLast k ⟨[⟨0, endAddr⟩]⟩ (bootState mem ram).mmu.alloc
  have hcan := Hands.single_room (n := initFrames k endAddr)
    (a := earlyAlloc k ⟨[⟨0, endAddr⟩]⟩ (bootState mem ram).mmu.alloc) rfl
    (Nat.lt_of_le_of_lt hend (by decide)) (by show _ ≤ endAddr.toNat; omega)
  obtain ⟨⟨w, mmu⟩, l, hrun, ⟨root, rfl, hroot, htree⟩, hl, hh⟩ :=
    (initTables_spec (a := (bootState mem ram).mmu.alloc) hend hzero).exists_ok
      fun l a' hl => hcan l a' (by unfold initFrames; omega)
  have hstart : 0xFFFF000000000000 ≤ k.kernEnd.toNat := by
    have := k.le_kernEnd
    omega
  obtain ⟨mmu', l', hmap, -⟩ := (htree.mapMemMap hstart
    (toNat_allocEnd_le hend hbound)).exists_ok fun l' a' hl' hh' =>
      hcan (l ++ l') a' (by rw [List.length_append]; unfold initFrames; omega) (hh.append hh')
  obtain ⟨⟨mmu₂, frames⟩, hmem⟩ := initMemMap_ok hmap (bootState mem ram).frames
  refine ⟨⟨mmu₂, root.addr, frames⟩, ?_⟩
  have hrun' : initTables k ⟨[⟨0, endAddr⟩]⟩ (bootState mem ram).mmu = .ok (root.addr, mmu) := hrun
  simp only [mmuInit, hrun', hmem, ok_bind, pure_eq_ok]

/-! ## The head nothing points back to -/

/-- The list heads and the first `n` frames. -/
def Known (n : Nat) (p : FramePtr) : Prop :=
  p = .freeFrames ∨ p = .pageTableFrames ∨ ∃ j < n, p = .frame j

/-- `mem_map` describes the area, and `page_table_frames` has no
predecessor among what is known. -/
structure HeadUnlinked (endAddr : Word) (n : Nat) (s : Frames) : Prop where
  memMap : s.memMap = [⟨0, endAddr, 0, pageCount ⟨0, endAddr⟩⟩]
  never : NeverTail .null .pageTableFrames (Known n) s.links

/-- One frame more is linked into `free_frames`. -/
theorem HeadUnlinked.initFrame {n : Nat} {s s' : Frames} (hs : HeadUnlinked endAddr n s)
    (h : initFrame 0 0 s n = .ok s') : HeadUnlinked endAddr (n + 1) s' := by
  simp only [TeachingOs.initFrame, Nat.zero_add, bind_eq_ok, pure_eq_ok, Except.ok.injEq] at h
  obtain ⟨links, hins, rfl⟩ := h
  have hnew : NeverTail .null .pageTableFrames (Known (n + 1))
      (setNext s.links (.frame n) .null) := by
    refine ⟨by simpa using hs.never.prev, fun p hp => ?_⟩
    rw [next_setNext]
    split
    · simp
    · next hne =>
      obtain rfl | rfl | ⟨j, hj, rfl⟩ := hp
      · exact hs.never.next _ (Or.inl rfl)
      · exact hs.never.next _ (Or.inr (Or.inl rfl))
      · have hjn : j ≠ n := fun h => hne (by rw [h])
        exact hs.never.next _ (Or.inr (Or.inr ⟨j, by omega, rfl⟩))
  refine ⟨hs.memMap, ?_⟩
  exact (hnew.setPrev (p := .frame n) (q := .null) (by simp)).llInsert (Or.inl rfl)
    (Or.inr (Or.inr ⟨n, by omega, rfl⟩)) (by simp) hins

/-- A page of the area moves to `page_table_frames`. -/
theorem HeadUnlinked.initOwnPage (hend : endAddr.toNat ≤ 2 ^ 48) {s s' : Frames}
    (hs : HeadUnlinked endAddr (pageCount ⟨0, endAddr⟩).toNat s) {used : Word}
    (hused : used.toNat < endAddr.toNat) (h : initOwnPage s used = .ok s') :
    HeadUnlinked endAddr (pageCount ⟨0, endAddr⟩).toNat s' := by
  have hframe : physaddrToFrame s.memMap used = .frame (used >>> 12).toNat := by
    have hin : (0 : Word) ≤ used ∧ used < endAddr := ⟨by bv_omega, by bv_omega⟩
    rw [physaddrToFrame, hs.memMap, List.find?_cons_of_pos (by simpa using hin)]
    simp
  have hknown : Known (pageCount ⟨0, endAddr⟩).toNat (.frame (used >>> 12).toNat) := by
    refine Or.inr (Or.inr ⟨_, ?_, rfl⟩)
    rw [toNat_pageCount hend, BitVec.toNat_ushiftRight, Nat.shiftRight_eq_div_pow]
    omega
  simp only [TeachingOs.initOwnPage, hframe, bind_eq_ok, pure_eq_ok, Except.ok.injEq] at h
  obtain ⟨links, hins, rfl⟩ := h
  refine ⟨hs.memMap, ?_⟩
  exact (hs.never.llUnlink hknown (by simp) (by simp)).llInsert (Or.inr (Or.inl rfl)) hknown
    (by simp) hins

/-- The address that `walk_pages` reports for a leaf is the page mapped. -/
theorem leafDescriptor_and_page (f : Frame) (flags : MapFlags) :
    leafDescriptor f.addr flags &&& ~~~(0xFFF ||| UXN ||| PXN) = f.addr := by
  have hmask : addrMask &&& ~~~(0xFFF ||| UXN ||| PXN) = addrMask := by decide
  have hattr : leafAttributes flags &&& ~~~(0xFFF ||| UXN ||| PXN) = 0 := by
    simp only [leafAttributes, pteFlags, decide_eq_true_eq]
    split_ifs <;> decide
  have hd : leafDescriptor f.addr flags = f.addr ||| leafAttributes flags := by
    simp only [leafDescriptor, leafAttributes, BitVec.or_assoc]
  have hf : f.addr &&& ~~~(0xFFF ||| UXN ||| PXN) = f.addr := by
    rw [← f.masked, BitVec.and_assoc, hmask]
  rw [hd, BitVec.and_or_distrib_right, hattr, hf]
  simp

/-- The frames of the area are linked in one after the other. -/
theorem HeadUnlinked.initArea {s s' : Frames} (hmap : s.memMap = [])
    (hs : NeverTail .null .pageTableFrames (Known 0) s.links)
    (h : initArea s ⟨0, endAddr⟩ = .ok s') :
    HeadUnlinked endAddr (pageCount ⟨0, endAddr⟩).toNat s' := by
  refine foldlM_range_inv (P := fun n s => HeadUnlinked endAddr n s) ?_ h ⟨by simp [hmap], hs⟩
  intro i s₁ s₂ _ hs₁ hstep
  exact hs₁.initFrame hstep

/-- After `init_mem_map` nothing points back to `page_table_frames`. -/
theorem initMemMap_prev {mmu : Mmu} {root : Frame} (hend : endAddr.toNat ≤ 2 ^ 48)
    (htree : KernelTree mmu root endAddr.toNat) {r : Mmu × Frames}
    (h : initMemMap k.kernEnd root.addr ⟨[⟨0, endAddr⟩]⟩ (mmu, (bootState mem ram).frames) = .ok r) :
    (r.2.links .pageTableFrames).prev = .null := by
  simp only [initMemMap, assert_of_true k.kernEnd_mod, ok_bind, bind_eq_ok, pure_eq_ok,
    Except.ok.injEq, List.foldlM_cons, List.foldlM_nil] at h
  obtain ⟨mmu', hmap, f₁, ⟨_, harea, rfl⟩, f₂, hwalk, rfl⟩ := h
  have hstart : 0xFFFF000000000000 ≤ k.kernEnd.toNat := by
    have := k.le_kernEnd
    omega
  have htree' := (htree.mapMemMap hstart (toNat_allocEnd_le hend k.bound)).of_eq_ok hmap
  have hboot : NeverTail .null .pageTableFrames (Known 0) (bootState mem ram).frames.links := by
    refine ⟨rfl, fun p hp => ?_⟩
    obtain rfl | rfl | ⟨j, hj, -⟩ := hp
    · simp [bootState]
    · simp [bootState]
    · omega
  have hinit := (hboot.setNext (p := .freeFrames) (q := .freeFrames) (by simp)).setPrev
    (p := .freeFrames) (q := .freeFrames) (by simp)
  have hlists := HeadUnlinked.initArea rfl hinit harea
  have hdone : HeadUnlinked endAddr (pageCount ⟨0, endAddr⟩).toNat f₂ := by
    refine walkPages_inv htree'.inv ?_ hwalk hlists
    intro p i d s s' hp hlen hd hs hstep
    obtain ⟨f, flags, hf, rfl⟩ := htree'.leaves hp hlen hd
    rw [leafDescriptor_and_page] at hstep
    exact hs.initOwnPage hend hf hstep
  exact hdone.never.prev

/-- When `mmu_init` returns, `page_table_frames` has no predecessor. -/
theorem mmuInit_prev (hend : endAddr.toNat ≤ 2 ^ 48)
    (hzero : ∀ w : Word, k.imageEnd ≤ w.toNat → mem w = 0) {s : KernelMmu}
    (hrun : mmuInit k ⟨[⟨0, endAddr⟩]⟩ (bootState mem ram) = .ok s) :
    (s.frames.links .pageTableFrames).prev = .null := by
  simp only [mmuInit, bind_eq_ok, pure_eq_ok, Except.ok.injEq] at hrun
  obtain ⟨⟨w, mmu⟩, htables, ⟨mmu', frames⟩, hmem, rfl⟩ := hrun
  obtain ⟨root, rfl, -, htree⟩ := (initTables_spec hend hzero).of_eq_ok htables
  exact initMemMap_prev hend htree hmem

/-- **No run of `mmu_init` shares out the frames**: whenever it returns, on
whatever area and image, `page_table_frames` is not a ring. -/
theorem mmuInit_not_framesPartitioned (hend : endAddr.toNat ≤ 2 ^ 48)
    (hzero : ∀ w : Word, k.imageEnd ≤ w.toNat → mem w = 0) {s : KernelMmu}
    (hrun : mmuInit k ⟨[⟨0, endAddr⟩]⟩ (bootState mem ram) = .ok s) :
    ¬ FramesPartitioned k endAddr s := by
  rintro ⟨free, used, -, hring, -, -⟩
  exact hring.prev_ne_null (mmuInit_prev hend hzero hrun)

end Run

/-- An image on the Raspberry Pi behind `rpiBootData`. -/
def rpiLayout : KernelLayout where
  boot := rpiBootData
  kernTextStart := 0xFFFF000000183000
  kernTextEnd := 0xFFFF000000187A40
  kernRodataStart := 0xFFFF000000188000
  kernRodataEnd := 0xFFFF000000188C10
  kernDataStart := 0xFFFF000000189000
  kernDataEnd := 0xFFFF0000001A0100
  kernEnd := 0xFFFF0000001A1000
  text_aligned := by decide
  rodata_aligned := by decide
  data_aligned := by decide
  end_aligned := by decide
  boot_le_text := by decide
  text_le := by decide
  text_le_rodata := by decide
  rodata_le := by decide
  rodata_le_data := by decide
  data_le := by decide
  data_le_end := by decide
  end_lt := by decide
  bound := by decide

theorem rpiLayout_room :
    rpiLayout.imageEnd + 4096 * initFrames rpiLayout 0x40000000 ≤ (0x40000000 : Word).toNat := by
  rw [initFrames, length_pagesBetween]
  decide

/-- The run on the gigabyte that `aarch64_boot` passes, from zero-filled RAM. -/
theorem mmuInit_not_framesPartitioned_rpi :
    ∃ s, mmuInit rpiLayout ⟨[⟨0, 0x40000000⟩]⟩ (bootState (fun _ => 0) fun _ => ⟨.null, .null⟩) =
      .ok s ∧ ¬ FramesPartitioned rpiLayout 0x40000000 s := by
  have hend : (0x40000000 : Word).toNat ≤ 2 ^ 48 := by decide
  obtain ⟨s, hrun⟩ := mmuInit_ok hend (fun _ _ => rfl) rpiLayout_room
  exact ⟨s, hrun, mmuInit_not_framesPartitioned hend (fun _ _ => rfl) hrun⟩

/-- In that run `page_table_frames` is no ring, so the frames are not shared
out between two lists. -/
theorem mmuInit_rpi_malformed :
    ¬ ∀ s, mmuInit rpiLayout ⟨[⟨0, 0x40000000⟩]⟩
      (bootState (fun _ => 0) fun _ => ⟨.null, .null⟩) = .ok s →
      FramesPartitioned rpiLayout 0x40000000 s := by
  intro h
  have hend : (0x40000000 : Word).toNat ≤ 2 ^ 48 := by decide
  obtain ⟨s, hrun⟩ := mmuInit_ok hend (fun _ _ => rfl) rpiLayout_room
  obtain ⟨-, used, -, hring, -⟩ := h s hrun
  exact hring.prev_ne_null (mmuInit_prev hend (fun _ _ => rfl) hrun)

end TeachingOs
