import TeachingOs.Mmu.KernelSpace
import TeachingOs.Printf.Plain

/-!
# TeachingOs.Mmu.Dump

`mmu_dump`, which prints what `walk_pages` reports, on the address space that
`mmu_init` has built.  `mmuDump_reports` compares the walk with that of the
hardware, and the frame descriptors that it looks up with the pages that they
are for.
-/

namespace TeachingOs

open Printf RadixTree

/-! ## The code -/

/-- A `struct frame *` as a word, with `all_frames` at `array`. -/
def FramePtr.toWord (array : Word) (heads : FramePtr → Word) : FramePtr → Word
  | .null => 0
  | .frame i => array + BitVec.ofNat 64 i * sizeofFrame
  | head => heads head

/-- What `mmu_dump_page` passes to `printk`. -/
def mmuDumpPage (array : Word) (heads : FramePtr → Word) (s : Frames) (physAddr : Word) :
    String × List Arg :=
  let frame := physaddrToFrame s.memMap physAddr
  ("page %p : frame object %p - %p\n",
    [.word physAddr, .word (frame.toWord array heads), .word (s.physicalAddress frame)])

/-- `mmu_dump`, with its calls of `printk`. -/
def mmuDump (array : Word) (heads : FramePtr → Word) (s : KernelMmu) :
    Except Panic (List (String × List Arg)) :=
  walkPages s.mmu.mem s.kPageTable
    (fun calls physAddr => .ok (calls ++ [mmuDumpPage array heads s.frames physAddr])) []

/-! ## What it is for -/

/-- The frames that the hardware finds for the pages of the kernel's half, in
the order of the pages. -/
def mappedPages (m : PhysMem) (root : Word) : List Word :=
  (List.range (2 ^ 35)).filterMap fun n =>
    (hwWalk m root (pageAddress n)).map (·.outputAddress)

/-- The address of a frame's descriptor. -/
def frameObject (k : KernelLayout) (endAddr p : Word) : Word :=
  frameArrayStart k.kernEnd ⟨[⟨0, endAddr⟩]⟩ + BitVec.ofNat 64 (p.toNat / 4096) * sizeofFrame

/-- A line about a frame. -/
def dumpLine (k : KernelLayout) (endAddr p : Word) : String × List Arg :=
  ("page %p : frame object %p - %p\n", [.word p, .word (frameObject k endAddr p), .word p])

section Dump

variable {k : KernelLayout} {endAddr : Word} {mem : PhysMem} {ram : LinkedList.Heap FramePtr}
  {s : Mmu} {root : Frame} {calls : List MapCall} {after : KernelMmu} {n : Nat} {p : Word}

theorem foldlM_concat {α β : Type} (f : α → β) (l : List α) (acc : List β) :
    l.foldlM (fun acc a => (.ok (acc ++ [f a]) : Except Panic (List β))) acc =
      .ok (acc ++ l.map f) := by
  induction l generalizing acc with
  | nil => simp
  | cons a l ih =>
      rw [List.foldlM_cons, ok_bind, ih, List.map_cons, List.append_assoc]
      rfl

theorem lowerHalf_pageAddress (hn : n < 2 ^ 35) : LowerHalf (index (pageAddress n) 39) := by
  rw [LowerHalf, index_pageAddress_39 (by omega)]
  omega

theorem pageNumber_pageAddress (hn : n < 2 ^ 35) : pageNumber (pageAddress n) = n := by
  simp only [pageNumber, pageAddress, BitVec.toNat_ofNat]
  omega

/-- The first byte of a page is at the first byte of its frame. -/
theorem KernelSpace.outputAddress_eq (h : KernelSpace k endAddr s root calls) {c : MapCall}
    (hc : c ∈ calls) :
    (c.translation (pageAddress n)).outputAddress = c.physicalAddress := by
  apply BitVec.eq_of_toNat_eq
  rw [MapCall.translation, toNat_or_offset (h.isFrame hc).1, pageAddress, BitVec.toNat_ofNat]
  omega

/-- **The walk of `walk_pages`** is that of the hardware. -/
theorem KernelSpace.walkPages_eq {σ : Type} (h : KernelSpace k endAddr s root calls)
    (callback : σ → Word → Except Panic σ) (t : σ) :
    walkPages s.mem root.addr callback t = (mappedPages s.mem root.addr).foldlM callback t := by
  have hS : ∀ i < 256, LowerHalf (slotOf i) := by
    intro i hi
    show i % 512 < 256
    omega
  have hcount : 256 * 512 * 512 * 512 = 2 ^ 35 := by norm_num
  rw [walkPages_reports h.inv hS, reports_eq, hcount, mappedPages]
  refine congrArg (fun pages => List.foldlM callback t pages) ?_
  refine List.filterMap_congr fun n hn => ?_
  have hhalf := lowerHalf_pageAddress (List.mem_range.mp hn)
  rw [h.leaf _ hhalf, h.hwWalk_eq hhalf, Option.map_map, Option.map_map]
  refine Option.map_congr fun c hc => ?_
  have hmem := (mem_of_lastCall hc).1
  exact (reported_leafDescriptor (h.isFrame hmem) c.flags).trans (h.outputAddress_eq hmem).symm

/-- No frame is found twice. -/
theorem KernelSpace.nodup_mappedPages (h : KernelSpace k endAddr s root calls) :
    (mappedPages s.mem root.addr).Nodup := by
  rw [mappedPages, List.Nodup, List.pairwise_filterMap]
  refine List.Pairwise.imp_of_mem (fun hn hn' hne p hp p' hp' heq => hne ?_) List.nodup_range
  rw [List.mem_range] at hn hn'
  obtain ⟨t, ht, rfl⟩ := Option.map_eq_some_iff.mp hp
  obtain ⟨t', ht', rfl⟩ := Option.map_eq_some_iff.mp hp'
  have hsame := h.injective (lowerHalf_pageAddress hn) (lowerHalf_pageAddress hn') ht ht'
    (by rw [heq])
  rwa [pageNumber_pageAddress hn, pageNumber_pageAddress hn'] at hsame

/-- A frame that is found is one of a call. -/
theorem KernelSpace.exists_of_mem_mappedPages (h : KernelSpace k endAddr s root calls)
    (hp : p ∈ mappedPages s.mem root.addr) : ∃ c ∈ calls, p = c.physicalAddress := by
  obtain ⟨n, hn, hp⟩ := List.mem_filterMap.mp hp
  obtain ⟨t, ht, rfl⟩ := Option.map_eq_some_iff.mp hp
  obtain ⟨c, hc, -, rfl⟩ := h.exists_call (lowerHalf_pageAddress (List.mem_range.mp hn)) ht
  exact ⟨c, hc, h.outputAddress_eq hc⟩

/-- The descriptor that `physaddr_to_frame` finds for a page of the area. -/
theorem physaddrToFrame_mmuInit (haligned : endAddr.toNat % 4096 = 0)
    (hrun : mmuInit k ⟨[⟨0, endAddr⟩]⟩ (bootState mem ram) = .ok after)
    (hp : p.toNat % 4096 = 0) (hlt : p < endAddr) :
    physaddrToFrame after.frames.memMap p = .frame (p.toNat / 4096) ∧
      after.frames.physicalAddress (.frame (p.toNat / 4096)) = p := by
  simp only [mmuInit, bind_eq_ok, pure_eq_ok, Except.ok.injEq] at hrun
  obtain ⟨⟨w, mmu⟩, -, ⟨mmu', frames⟩, hmem, rfl⟩ := hrun
  obtain ⟨s, hloops, hmap, hphys⟩ := initAreas_of_initMemMap hmem
  have hareas : DisjointAreas [⟨0, endAddr⟩] :=
    ⟨by simpa using haligned, by simp, List.pairwise_singleton _ _⟩
  have hin : MemArea.Contains ⟨0, endAddr⟩ p := ⟨by bv_omega, hlt⟩
  have hcount : p.toNat / 4096 < (pageCount ⟨0, endAddr⟩).toNat := by
    rw [hareas.toNat_pageCount (by simp)]
    show p.toNat / 4096 < (endAddr.toNat - 0) / 4096
    bv_omega
  have hsplit : [(⟨0, endAddr⟩ : MemArea)] = [] ++ ⟨0, endAddr⟩ :: [] := rfl
  have haddr := hareas.toNat_physicalAddress hloops hsplit hcount (by simp)
  show physaddrToFrame frames.memMap p = _ ∧ frames.physicalAddress _ = p
  rw [hmap, hphys, memMap_initAreas hloops, physaddrToFrame_entries, if_pos ⟨_, by simp, hin⟩,
    toNat_pageNumber]
  refine ⟨rfl, BitVec.eq_of_toNat_eq (haddr.trans ?_)⟩
  show 0 + 4096 * (p.toNat / 4096) = p.toNat
  omega

/-- The frames that are found are pages of the area. -/
theorem KernelSpace.page_of_mem_mappedPages (harrays : ArrayCalls k endAddr calls)
    (h : KernelSpace k endAddr s root (k.imageCalls ++ calls))
    (hroom : k.imageEnd ≤ endAddr.toNat) (hp : p ∈ mappedPages s.mem root.addr) :
    p.toNat % 4096 = 0 ∧ p < endAddr := by
  obtain ⟨c, hc, rfl⟩ := h.exists_of_mem_mappedPages hp
  refine ⟨(h.isFrame hc).1, ?_⟩
  rcases List.mem_append.mp hc with hc | hc
  · obtain ⟨hpa, -, hlt⟩ := KernelLayout.image_call hc
    have hkern : k.imageEnd = k.kernEnd.toNat - 0xFFFF000000000000 := rfl
    bv_omega
  · have hin := (harrays.call c hc).inArea
    bv_omega

/-- The lines of `mmu_dump`. -/
theorem mmuDump_eq (heads : FramePtr → Word) (harrays : ArrayCalls k endAddr calls)
    (h : KernelSpace k endAddr after.mmu root (k.imageCalls ++ calls))
    (hroot : after.kPageTable = root.addr) (haligned : endAddr.toNat % 4096 = 0)
    (hroom : k.imageEnd ≤ endAddr.toNat)
    (hrun : mmuInit k ⟨[⟨0, endAddr⟩]⟩ (bootState mem ram) = .ok after) :
    mmuDump (frameArrayStart k.kernEnd ⟨[⟨0, endAddr⟩]⟩) heads after =
      .ok ((mappedPages after.mmu.mem root.addr).map (dumpLine k endAddr)) := by
  rw [mmuDump, hroot, h.walkPages_eq, foldlM_concat, List.nil_append]
  refine congrArg Except.ok (List.map_congr_left fun p hp => ?_)
  obtain ⟨hmod, hlt⟩ := h.page_of_mem_mappedPages harrays hroom hp
  obtain ⟨hfound, haddr⟩ := physaddrToFrame_mmuInit haligned hrun hmod hlt
  simp only [mmuDumpPage, hfound, haddr, dumpLine, FramePtr.toWord, frameObject]

/-- **What `mmu_dump` reports** after `mmu_init`: one line for each page that
the hardware maps in the kernel's half, in the order of the pages, with the
frame that the hardware finds for it, the address of that frame's own
descriptor and the address in the descriptor, which is that of the frame.  No
frame is reported twice, and none is outside the area. -/
theorem mmuDump_reports (heads : FramePtr → Word) (hend : endAddr.toNat ≤ 2 ^ 30)
    (haligned : endAddr.toNat % 4096 = 0)
    (hzero : ∀ w : Word, k.imageEnd ≤ w.toNat → mem w = 0)
    (hroom : k.imageEnd + 4096 * initFrames k endAddr ≤ endAddr.toNat) :
    ∃ after, mmuInit k ⟨[⟨0, endAddr⟩]⟩ (bootState mem ram) = .ok after ∧
      mmuDump (frameArrayStart k.kernEnd ⟨[⟨0, endAddr⟩]⟩) heads after =
        .ok ((mappedPages after.mmu.mem after.kPageTable).map (dumpLine k endAddr)) ∧
      (mappedPages after.mmu.mem after.kPageTable).Nodup ∧
      ∀ p ∈ mappedPages after.mmu.mem after.kPageTable, p < endAddr := by
  have hend' : endAddr.toNat ≤ 2 ^ 48 := by omega
  have hroom' : k.imageEnd ≤ endAddr.toNat := by omega
  obtain ⟨after, root, calls, hrun, hroot, harrays, h⟩ :=
    @KernelSpace.exists_mmuInit k endAddr mem ram hend' hzero hroom
  have hdump := mmuDump_eq heads harrays h hroot haligned hroom' hrun
  rw [← hroot] at hdump
  refine ⟨after, hrun, hdump, ?_⟩
  rw [hroot]
  exact ⟨h.nodup_mappedPages, fun p hp => (h.page_of_mem_mappedPages harrays hroom' hp).2⟩

/-- On the gigabyte that `aarch64_boot` passes. -/
theorem mmuDump_reports_rpi : ∃ after,
    mmuInit rpiLayout ⟨[⟨0, 0x40000000⟩]⟩ (bootState (fun _ => 0) fun _ => ⟨.null, .null⟩) =
      .ok after ∧
    mmuDump (frameArrayStart rpiLayout.kernEnd ⟨[⟨0, 0x40000000⟩]⟩) (fun _ => 0) after =
      .ok ((mappedPages after.mmu.mem after.kPageTable).map (dumpLine rpiLayout 0x40000000)) ∧
    (mappedPages after.mmu.mem after.kPageTable).Nodup ∧
    ∀ p ∈ mappedPages after.mmu.mem after.kPageTable, p < 0x40000000 :=
  mmuDump_reports (fun _ => 0) (by decide) (by decide) (fun _ _ => rfl) rpiLayout_room

end Dump

end TeachingOs
