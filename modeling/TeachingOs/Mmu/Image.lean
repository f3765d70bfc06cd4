import TeachingOs.Mmu.FrameLists
import TeachingOs.Mmu.SameValid
import TeachingOs.Mmu.Tables

/-!
# TeachingOs.Mmu.Image

The mapping of the kernel image: `mmu_init` up to its third call of
`init_k_map`.

The three calls are one run of `mmu_map` calls, one for each page of the
image, and no page is mapped twice although the ranges may end anywhere in a
page.  The tables lie in the pages behind the image, in the order of
`KernelLayout.tables`; `tableCount` is their number.  When these pages are
blank the run succeeds (`kernelMaps_blank`) and the hardware maps the image
with the rights of its ranges and nothing else (`mapsImage_of_hwWalk`).
-/

namespace TeachingOs

open RadixTree

/-! ## The code -/

/-- `mmu_init` up to its third call of `init_k_map`. -/
def kernelMaps (k : KernelLayout) (memoryMap : PhysicalMemoryMap) (s : Mmu) :
    Except Panic (Word × Mmu) := do
  let alloc :=
    { s.alloc with
      earlyLast := k.kernEnd - PAGE_SIZE - KERNEL_VIRTUAL_BASE
      earlySrc := some memoryMap }
  let (kPageTable, alloc) ← allocatePageTable alloc
  let s := { s with alloc }
  let s ← initKMap kPageTable k.kernTextStart k.kernTextEnd (PROT_EXEC ||| PROT_READ) s
  let s ← initKMap kPageTable k.kernRodataStart k.kernRodataEnd PROT_READ s
  let s ← initKMap kPageTable k.kernDataStart k.kernDataEnd (PROT_READ ||| PROT_WRITE) s
  return (kPageTable, s)

/-- After that `mmu_init` copies the logical map. -/
theorem initTables_eq (k : KernelLayout) (memoryMap : PhysicalMemoryMap) (s : Mmu) :
    initTables k memoryMap s = do
      let (kPageTable, s) ← kernelMaps k memoryMap s
      return (kPageTable, { s with mem := installPhysmap k.boot kPageTable s.mem }) := by
  simp [initTables, kernelMaps]

/-! ## Ranges -/

/-- A range of the image, and how it is mapped. -/
structure ImageRange where
  start : Word
  endPtr : Word
  flags : MapFlags
  aligned : start.toNat % 4096 = 0
  low : 0xFFFF000000000000 ≤ start.toNat
  le : start.toNat ≤ endPtr.toNat
  high : endPtr.toNat ≤ 0xFFFF000000000000 + 2 ^ 39

namespace KernelLayout

variable (k : KernelLayout)

/-- The kernel code: read-only, executable. -/
def text : ImageRange where
  start := k.kernTextStart
  endPtr := k.kernTextEnd
  flags := PROT_EXEC ||| PROT_READ
  aligned := k.text_aligned
  low := by have h1 := k.boot_le_text; omega
  le := k.text_le
  high := by
    have h3 := k.text_le_rodata
    have h4 := k.rodata_le
    have h5 := k.rodata_le_data
    have h6 := k.data_le
    have h7 := k.data_le_end
    have hbound := k.bound
    omega

/-- The kernel read-only data. -/
def rodata : ImageRange where
  start := k.kernRodataStart
  endPtr := k.kernRodataEnd
  flags := PROT_READ
  aligned := k.rodata_aligned
  low := by
    have h1 := k.boot_le_text
    have h2 := k.text_le
    have h3 := k.text_le_rodata
    omega
  le := k.rodata_le
  high := by
    have h5 := k.rodata_le_data
    have h6 := k.data_le
    have h7 := k.data_le_end
    have hbound := k.bound
    omega

/-- Everything else: read-write, not executable. -/
def data : ImageRange where
  start := k.kernDataStart
  endPtr := k.kernDataEnd
  flags := PROT_READ ||| PROT_WRITE
  aligned := k.data_aligned
  low := by
    have h1 := k.boot_le_text
    have h2 := k.text_le
    have h3 := k.text_le_rodata
    have h4 := k.rodata_le
    have h5 := k.rodata_le_data
    omega
  le := k.data_le
  high := by
    have h7 := k.data_le_end
    have hbound := k.bound
    omega

/-- The ranges that `mmu_init` maps, in its order. -/
def ranges : List ImageRange := [k.text, k.rodata, k.data]

end KernelLayout

namespace ImageRange

variable (r : ImageRange)

/-- The number of pages. -/
def pages : Nat := imagePages r.start r.endPtr

/-- The `mmu_map` call for page `i`. -/
def call (i : Nat) : MapCall :=
  let pageAddr := r.start + BitVec.ofNat 64 i * 4096
  ⟨pageAddr, pageAddr - KERNEL_VIRTUAL_BASE, r.flags⟩

/-- All calls for the range. -/
def calls : List MapCall := (List.range r.pages).map r.call

theorem pages_eq : r.pages = (r.endPtr.toNat + 4095 - r.start.toNat) / 4096 := by
  have hle := r.le
  have hhigh := r.high
  have hdiff : (r.endPtr + PAGE_SIZE - 1 - r.start).toNat =
      r.endPtr.toNat + 4095 - r.start.toNat := by
    simp only [PAGE_SIZE]
    bv_omega
  rw [pages, imagePages, BitVec.toNat_udiv, hdiff]
  rfl

/-- `init_k_map` is a run of `mmu_map` calls. -/
theorem initKMap_eq (table : Word) (s : Mmu) :
    initKMap table r.start r.endPtr r.flags s = mmuMapAll table s r.calls := by
  have haligned := r.aligned
  have hassert : r.start % 4096 = 0 := by bv_omega
  rw [initKMap, assert_of_true hassert, ok_bind, mmuMapAll, calls, List.foldlM_map]
  rfl

variable {r} {i : Nat}

/-- Page `i` starts inside the range. -/
theorem toNat_call (hi : i < r.pages) :
    (r.call i).virtualAddress.toNat = r.start.toNat + i * 4096 ∧
      r.start.toNat + i * 4096 < r.endPtr.toNat := by
  have hle := r.le
  have hhigh := r.high
  rw [pages_eq] at hi
  simp only [call]
  constructor <;> bv_omega

theorem toNat_physicalAddress (hi : i < r.pages) : (r.call i).physicalAddress.toNat =
    r.start.toNat + i * 4096 - 0xFFFF000000000000 := by
  obtain ⟨hva, hlt⟩ := toNat_call hi
  have hlow := r.low
  simp only [call, KERNEL_VIRTUAL_BASE] at hva ⊢
  bv_omega

/-- The page of an address in the range is mapped. -/
theorem exists_call {v : Word} (hlow : r.start ≤ v) (hhigh : v < r.endPtr) :
    ∃ i < r.pages, r.start.toNat + i * 4096 = v.toNat / 4096 * 4096 := by
  have haligned := r.aligned
  rw [pages_eq]
  refine ⟨(v.toNat - r.start.toNat) / 4096, ?_, ?_⟩ <;> bv_omega

end ImageRange

/-! ## Calls -/

namespace KernelLayout

variable {k : KernelLayout}

/-- The `mmu_map` calls of `mmu_init`. -/
def imageCalls (k : KernelLayout) : List MapCall := k.ranges.flatMap ImageRange.calls

theorem mem_imageCalls {c : MapCall} :
    c ∈ k.imageCalls ↔ ∃ r ∈ k.ranges, ∃ i < r.pages, r.call i = c := by
  simp [imageCalls, ImageRange.calls]

/-- The ranges share no page. -/
theorem ranges_apart {r r' : ImageRange} (hr : r ∈ k.ranges) (hr' : r' ∈ k.ranges) :
    r = r' ∨ r.endPtr.toNat ≤ r'.start.toNat ∨ r'.endPtr.toNat ≤ r.start.toNat := by
  have h3 := k.text_le_rodata
  have h4 := k.rodata_le
  have h5 := k.rodata_le_data
  simp only [ranges, List.mem_cons, List.not_mem_nil, or_false] at hr hr'
  rcases hr with rfl | rfl | rfl <;> rcases hr' with rfl | rfl | rfl <;>
    simp only [text, rodata, data, true_or] <;> omega

/-- No page is mapped by two calls. -/
theorem call_unique {c d : MapCall} (hc : c ∈ k.imageCalls) (hd : d ∈ k.imageCalls)
    (h : pageNumber c.virtualAddress = pageNumber d.virtualAddress) : c = d := by
  obtain ⟨r, hr, i, hi, rfl⟩ := mem_imageCalls.mp hc
  obtain ⟨r', hr', j, hj, rfl⟩ := mem_imageCalls.mp hd
  obtain ⟨hva, hlt⟩ := ImageRange.toNat_call hi
  obtain ⟨hva', hlt'⟩ := ImageRange.toNat_call hj
  have haligned := r.aligned
  have haligned' := r'.aligned
  have hlow := r.low
  have hlow' := r'.low
  have hhigh := r.high
  have hhigh' := r'.high
  rw [pageNumber, pageNumber, hva, hva'] at h
  have heq : r.start.toNat + i * 4096 = r'.start.toNat + j * 4096 := by omega
  rcases ranges_apart hr hr' with rfl | hle | hle
  · obtain rfl : i = j := by omega
    rfl
  · omega
  · omega

/-- The calls are for the lower half. -/
theorem lowerHalf_call {c : MapCall} (hc : c ∈ k.imageCalls) :
    LowerHalf (index c.virtualAddress 39) := by
  obtain ⟨r, -, i, hi, rfl⟩ := mem_imageCalls.mp hc
  obtain ⟨hva, hlt⟩ := ImageRange.toNat_call hi
  have hlow := r.low
  have hhigh := r.high
  exact lowerHalf_of_kernel (by omega) (by omega)

theorem isFrame_call {c : MapCall} (hc : c ∈ k.imageCalls) : IsFrame c.physicalAddress := by
  obtain ⟨r, -, i, hi, rfl⟩ := mem_imageCalls.mp hc
  have hpa := ImageRange.toNat_physicalAddress hi
  obtain ⟨hva, hlt⟩ := ImageRange.toNat_call hi
  have haligned := r.aligned
  have hlow := r.low
  have hhigh := r.high
  exact ⟨by omega, by omega⟩

/-- With one call for a page, the last call for it is that call. -/
theorem lastCall_eq {c : MapCall} {v : Word} (hc : c ∈ k.imageCalls)
    (h : pageNumber c.virtualAddress = pageNumber v) : lastCall k.imageCalls v = some c := by
  have hin : c ∈ k.imageCalls.filter fun d => pageNumber d.virtualAddress = pageNumber v := by
    simp [hc, h]
  cases hd : lastCall k.imageCalls v with
  | none => exact absurd hin (List.getLast?_eq_none_iff.mp hd ▸ List.not_mem_nil)
  | some d =>
      have hmem := List.mem_of_getLast? hd
      simp only [List.mem_filter, decide_eq_true_eq] at hmem
      rw [call_unique hc hmem.1 (h.trans hmem.2.symm)]

theorem lastCall_eq_none {v : Word}
    (h : ∀ c ∈ k.imageCalls, pageNumber c.virtualAddress ≠ pageNumber v) :
    lastCall k.imageCalls v = none := by
  rw [lastCall, List.getLast?_eq_none_iff, List.filter_eq_nil_iff]
  simpa using h

end KernelLayout

theorem mmuMapAll_append (table : Word) (s : Mmu) (calls calls' : List MapCall) :
    mmuMapAll table s (calls ++ calls') =
      mmuMapAll table s calls >>= fun s => mmuMapAll table s calls' := List.foldlM_append

/-- `mmu_init` takes the root and makes the calls. -/
theorem kernelMaps_eq (k : KernelLayout) (memoryMap : PhysicalMemoryMap) (s : Mmu) :
    kernelMaps k memoryMap s = do
      let (kPageTable, alloc) ← allocatePageTable (earlyAlloc k memoryMap s.alloc)
      let s ← mmuMapAll kPageTable ⟨s.mem, alloc⟩ k.imageCalls
      return (kPageTable, s) := by
  have hcalls : k.imageCalls = k.text.calls ++ (k.rodata.calls ++ k.data.calls) := by
    simp [KernelLayout.imageCalls, KernelLayout.ranges]
  unfold kernelMaps
  refine bind_congr fun x => ?_
  obtain ⟨table, alloc⟩ := x
  have htext := fun s => k.text.initKMap_eq table s
  have hrodata := fun s => k.rodata.initKMap_eq table s
  have hdata := fun s => k.data.initKMap_eq table s
  simp only [KernelLayout.text, KernelLayout.rodata, KernelLayout.data] at htext hrodata hdata
  simp only [htext, hrodata, hdata, hcalls, mmuMapAll_append, bind_assoc]
  rfl

/-! ## The tables -/

namespace KernelLayout

variable (k : KernelLayout)

/-- The number of tables that map the image, the root included. -/
def tableCount : Nat := 1 + (callTables k.imageCalls).card

/-- The end of the pages behind the image that become tables. -/
def tablesEnd : Nat := k.imageEnd + 4096 * k.tableCount

/-- A descriptor in one of these pages.  The root counts with its lower half
only: `mmu_init` overwrites the other slots. -/
def TableWord (w : Word) : Prop :=
  w.toNat % 8 = 0 ∧ w.toNat < k.tablesEnd ∧
    (k.imageEnd ≤ w.toNat ∧ w.toNat < k.imageEnd + 2048 ∨ k.imageEnd + 4096 ≤ w.toNat)

instance (w : Word) : Decidable (k.TableWord w) := inferInstanceAs (Decidable (_ ∧ _))

theorem le_imageEnd : k.imageEnd % 4096 = 0 ∧ 0x102000 ≤ k.imageEnd ∧ k.imageEnd ≤ 2 ^ 39 := by
  have hle := k.le_kernEnd
  have haligned := k.end_aligned
  have hbound := k.bound
  unfold imageEnd
  omega

theorem tablesEnd_le_pages : k.tablesEnd ≤
    k.imageEnd + 4096 * (1 + 3 * (k.text.pages + (k.rodata.pages + k.data.pages))) := by
  have hcard := card_callTables_le k.imageCalls
  have hlength : k.imageCalls.length = k.text.pages + (k.rodata.pages + k.data.pages) := by
    simp [imageCalls, ranges, ImageRange.calls]
  unfold tablesEnd tableCount
  omega

theorem tablesEnd_le : k.imageEnd + 4096 ≤ k.tablesEnd ∧ k.tablesEnd ≤ 2 ^ 44 := by
  have himage := k.le_imageEnd
  have hpages := k.tablesEnd_le_pages
  have htables : k.tablesEnd = k.imageEnd + 4096 * (1 + (callTables k.imageCalls).card) := rfl
  have htext := k.text.pages_eq
  have hrodata := k.rodata.pages_eq
  have hdata := k.data.pages_eq
  have h1 := k.text.low
  have h2 := k.text.high
  have h3 := k.rodata.low
  have h4 := k.rodata.high
  have h5 := k.data.low
  have h6 := k.data.high
  constructor <;> omega

end KernelLayout

namespace KernelLayout

variable (k : KernelLayout)

/-- The tables that map the image, the newest first; the oldest is the root. -/
def tables : List (List (Fin 512)) := createAll k.imageCalls [[]]

theorem nodup_tables : k.tables.Nodup := nodup_createAll (by simp) k.imageCalls

theorem nil_notMem_callTables (calls : List MapCall) : [] ∉ callTables calls := by
  induction calls with
  | nil => simp [callTables]
  | cons c calls ih => simp [callTables, tablesOf, tablePath, ih]

theorem length_tables : k.tables.length = k.tableCount := by
  rw [← List.toFinset_card_of_nodup k.nodup_tables, tables, toFinset_createAll, tableCount,
    Finset.union_comm]
  exact (Finset.card_insert_of_notMem (nil_notMem_callTables k.imageCalls)).trans
    (Nat.add_comm _ 1)

end KernelLayout

section Blank

variable {k : KernelLayout} {mem : PhysMem} {area : MemArea}

/-- The root is the page behind the image. -/
theorem exists_root {area : MemArea} (harea : k.imageEnd + 4096 ≤ area.endAddr.toNat)
    (a : PageTableAlloc) : ∃ (root : Frame) (alloc : PageTableAlloc),
      allocatePageTable (earlyAlloc k ⟨[area]⟩ a) = .ok (root.addr, alloc) ∧
      root.addr.toNat = k.imageEnd ∧ alloc.earlySrc = some ⟨[area]⟩ ∧
      alloc.earlyLast = root.addr := by
  obtain ⟨haligned, hlow, hhigh⟩ := k.le_imageEnd
  have hlast := toNat_earlyLast k ⟨[area]⟩ a
  have hsrc : (earlyAlloc k ⟨[area]⟩ a).earlySrc = some ⟨[area]⟩ := rfl
  have hfits : (earlyAlloc k ⟨[area]⟩ a).earlyLast + 4096 + PAGE_SIZE - 1 < area.endAddr := by
    simp only [PAGE_SIZE]
    bv_omega
  have hroot : ((earlyAlloc k ⟨[area]⟩ a).earlyLast + 4096).toNat = k.imageEnd := by bv_omega
  have hframe : IsFrame ((earlyAlloc k ⟨[area]⟩ a).earlyLast + 4096) := ⟨by omega, by omega⟩
  refine ⟨⟨_, hframe.masked⟩, { earlyAlloc k ⟨[area]⟩ a with
    earlyLast := (earlyAlloc k ⟨[area]⟩ a).earlyLast + 4096 }, ?_, hroot, hsrc, rfl⟩
  rw [allocatePageTable_single hsrc, if_pos hfits]

/-- On RAM that is blank where the tables will be the root is the only table. -/
theorem tabled_root (hblank : ∀ w, k.TableWord w → mem w = 0)
    (harea : area.endAddr.toNat = k.tablesEnd) {root : Frame} {alloc : PageTableAlloc}
    (hroot : root.addr.toNat = k.imageEnd) (hsrc : alloc.earlySrc = some ⟨[area]⟩)
    (hlast : alloc.earlyLast = root.addr) :
    (∀ i, LowerHalf i → mem (root.slot i) &&& 1 = 0) ∧
      Tabled ⟨mem, alloc⟩ root LowerHalf area [[]] := by
  obtain ⟨htables, hbound⟩ := k.tablesEnd_le
  obtain ⟨haligned, -, -⟩ := k.le_imageEnd
  have hempty : ∀ i, LowerHalf i → mem (root.slot i) &&& 1 = 0 := by
    intro i hi
    have hslot := root.toNat_slot i
    unfold LowerHalf at hi
    rw [hblank _ ⟨by omega, by omega, Or.inl ⟨by omega, by omega⟩⟩]
    decide
  have hstart : alloc.earlyLast.toNat = k.imageEnd := by rw [hlast, hroot]
  have hfresh : FreshFrames mem alloc root :=
    FreshFrames.of_single hsrc (by omega) (by omega) (by omega) (by omega)
      fun v hlow hhigh hv => hblank v ⟨hv, by omega, Or.inr (by omega)⟩
  exact ⟨hempty, Tabled.of_blank hempty hfresh hsrc hlast⟩

theorem room_tables (harea : area.endAddr.toNat = k.tablesEnd) {root : Frame}
    (hroot : root.addr.toNat = k.imageEnd) : Room root area k.tables := by
  rw [Room, k.length_tables, harea, hroot, KernelLayout.tablesEnd]

/-- The calls on a blank root map the image. -/
theorem hwWalk_of_blank {s t : Mmu} {root : Frame} (hinv : TreeInv s.mem s.alloc root LowerHalf)
    (hempty : ∀ i, LowerHalf i → s.mem (root.slot i) &&& 1 = 0)
    (hrun : mmuMapAll root.addr s k.imageCalls = .ok t) {v : Word} (hv : LowerHalf (index v 39)) :
    hwWalk t.mem root.addr v = (lastCall k.imageCalls v).map (·.translation v) := by
  obtain ⟨hinv', hpte⟩ := (mmuMapAll_spec hinv k.imageCalls
    fun c hc => KernelLayout.lowerHalf_call hc).of_eq_ok hrun
  rw [hwWalk_eq hinv' hv, hpte v hv, pteAt_of_invalid hempty (p := tablePath v) hv rfl,
    Option.or_none, Option.map_map]
  apply Option.map_congr
  intro c hc
  have hmem : c ∈ k.imageCalls := List.mem_of_mem_filter (List.mem_of_getLast? hc)
  exact pageTranslation_leafDescriptor ⟨_, (KernelLayout.isFrame_call hmem).masked⟩ c.flags v

/-- The run on RAM that is blank where the tables will be, from an area that
ends with them. -/
theorem kernelMaps_blank (a : PageTableAlloc) (hblank : ∀ w, k.TableWord w → mem w = 0)
    (harea : area.endAddr.toNat = k.tablesEnd) :
    ∃ (root : Frame) (s : Mmu), root.addr.toNat = k.imageEnd ∧
      kernelMaps k ⟨[area]⟩ ⟨mem, a⟩ = .ok (root.addr, s) ∧
      Tabled s root LowerHalf area k.tables ∧ ∀ v, LowerHalf (index v 39) →
        hwWalk s.mem root.addr v = (lastCall k.imageCalls v).map (·.translation v) := by
  obtain ⟨htables, hbound⟩ := k.tablesEnd_le
  have hfirst : k.imageEnd + 4096 ≤ area.endAddr.toNat := harea ▸ htables
  obtain ⟨root, alloc, hw, hroot, hsrc, hlast⟩ := exists_root hfirst a
  obtain ⟨hempty, htabled⟩ := tabled_root hblank harea hroot hsrc hlast
  have hcalls : ∀ c ∈ k.imageCalls, LowerHalf (index c.virtualAddress 39) :=
    fun c hc => KernelLayout.lowerHalf_call hc
  obtain ⟨s, hrun, hfinal⟩ :=
    htabled.mmuMapAll hcalls (by omega) (room_tables harea hroot)
  exact ⟨root, s, hroot, by simp only [kernelMaps_eq, hw, ok_bind, hrun]; rfl, hfinal,
    fun v hv => hwWalk_of_blank htabled.inv hempty hrun hv⟩

end Blank

/-! ## The area that ends with the tables -/

/-- The smallest area that has room for the tables. -/
def KernelLayout.tablesArea (k : KernelLayout) : MemArea := ⟨0, BitVec.ofNat 64 k.tablesEnd⟩

theorem KernelLayout.toNat_tablesArea (k : KernelLayout) :
    k.tablesArea.endAddr.toNat = k.tablesEnd := by
  have hbound := k.tablesEnd_le.2
  simp only [tablesArea, BitVec.toNat_ofNat]
  omega

/-- A larger area hands out the same root. -/
theorem roomier_earlyAlloc {k : KernelLayout} {area : MemArea}
    (hroom : k.tablesEnd ≤ area.endAddr.toNat) (a a' : PageTableAlloc) :
    Roomier (earlyAlloc k ⟨[k.tablesArea]⟩ a) (earlyAlloc k ⟨[area]⟩ a') := by
  refine ⟨rfl, k.tablesArea, area, rfl, rfl, ?_⟩
  rw [BitVec.le_def, k.toNat_tablesArea]
  exact hroom

/-! ## What is mapped -/

/-- An address on a page of the image. -/
def KernelLayout.InImage (k : KernelLayout) (v : Word) : Prop :=
  ∃ r ∈ k.ranges, ∃ u, r.start ≤ u ∧ u < r.endPtr ∧ pageNumber u = pageNumber v

/-- A page and an offset. -/
theorem toNat_or_offset {f v : Word} (hf : f.toNat % 4096 = 0) :
    (f ||| (v &&& 0xFFF)).toNat = f.toNat + v.toNat % 4096 := by
  have hmask : (0xFFF : Word).toNat = 2 ^ 12 - 1 := by decide
  have hpage : f.toNat = 2 ^ 12 * (f.toNat / 2 ^ 12) := by omega
  have hoffset : v.toNat % 2 ^ 12 < 2 ^ 12 := Nat.mod_lt _ (by decide)
  rw [BitVec.toNat_or, BitVec.toNat_and, hmask, Nat.and_two_pow_sub_one_eq_mod, hpage,
    ← Nat.two_pow_add_eq_or_of_lt hoffset]
  rfl

section Mapped

variable {k : KernelLayout} {r : ImageRange} {v : Word}

/-- The call for the page of an address in a range. -/
theorem KernelLayout.lastCall_range (hr : r ∈ k.ranges) (hlow : r.start ≤ v)
    (hhigh : v < r.endPtr) : (lastCall k.imageCalls v).map (·.translation v) =
      some ⟨v - KERNEL_VIRTUAL_BASE, leafAttributes r.flags⟩ := by
  obtain ⟨i, hi, hpage⟩ := ImageRange.exists_call hlow hhigh
  obtain ⟨hva, -⟩ := ImageRange.toNat_call hi
  have hpa := ImageRange.toNat_physicalAddress hi
  have haligned := r.aligned
  have hbase := r.low
  have hcall : r.call i ∈ k.imageCalls := mem_imageCalls.mpr ⟨r, hr, i, hi, rfl⟩
  have hsame : pageNumber (r.call i).virtualAddress = pageNumber v := by
    rw [pageNumber, pageNumber, hva, hpage]
    omega
  have hout : (r.call i).physicalAddress ||| (v &&& 0xFFF) = v - KERNEL_VIRTUAL_BASE := by
    apply BitVec.eq_of_toNat_eq
    rw [toNat_or_offset (by omega), hpa]
    simp only [KERNEL_VIRTUAL_BASE]
    bv_omega
  rw [lastCall_eq hcall hsame, Option.map_some, MapCall.translation, hout]
  rfl

/-- Every call is for a page of the image. -/
theorem KernelLayout.inImage_call {c : MapCall} (hc : c ∈ k.imageCalls)
    (h : pageNumber c.virtualAddress = pageNumber v) : k.InImage v := by
  obtain ⟨r, hr, i, hi, rfl⟩ := mem_imageCalls.mp hc
  obtain ⟨hva, hlt⟩ := ImageRange.toNat_call hi
  exact ⟨r, hr, _, by bv_omega, by bv_omega, h⟩

end Mapped

/-! ## Access rights -/

/-- The access flag is set, so an access does not fault. -/
def Translation.Accessible (t : Translation) : Prop := t.attributes &&& AF ≠ 0

/-- AP[2] is clear: the page is not read-only. -/
def Translation.Writable (t : Translation) : Prop := t.attributes &&& (1 <<< 7) = 0

/-- PXN is clear: the kernel may execute the page. -/
def Translation.Executable (t : Translation) : Prop := t.attributes &&& PXN = 0

/-- AP[1] is set or UXN is clear: user code may read or execute the page. -/
def Translation.User (t : Translation) : Prop :=
  t.attributes &&& (1 <<< 6) ≠ 0 ∨ t.attributes &&& UXN = 0

/-- Kernel read, with the right to write and to execute as given; no user
access. -/
structure Translation.Rights (t : Translation) (write exec : Bool) : Prop where
  accessible : t.Accessible
  writable : t.Writable ↔ write = true
  executable : t.Executable ↔ exec = true
  user : ¬ t.User

section Rights

variable {t : Translation}

theorem rights_text (h : t.attributes = leafAttributes (PROT_EXEC ||| PROT_READ)) :
    t.Rights false true := by
  constructor <;>
    simp only [Translation.Accessible, Translation.Writable, Translation.Executable,
      Translation.User, h] <;> decide

theorem rights_rodata (h : t.attributes = leafAttributes PROT_READ) : t.Rights false false := by
  constructor <;>
    simp only [Translation.Accessible, Translation.Writable, Translation.Executable,
      Translation.User, h] <;> decide

theorem rights_data (h : t.attributes = leafAttributes (PROT_READ ||| PROT_WRITE)) :
    t.Rights true false := by
  constructor <;>
    simp only [Translation.Accessible, Translation.Writable, Translation.Executable,
      Translation.User, h] <;> decide

/-- The rights that the flags of a range ask for. -/
theorem rights_range {k : KernelLayout} {r : ImageRange} (hr : r ∈ k.ranges)
    (h : t.attributes = leafAttributes r.flags) : ¬ (t.Writable ∧ t.Executable) ∧ ¬ t.User := by
  simp only [KernelLayout.ranges, List.mem_cons, List.not_mem_nil, or_false] at hr
  rcases hr with rfl | rfl | rfl
  · have hrights := rights_text h
    exact ⟨fun hw => absurd (hrights.writable.mp hw.1) (by decide), hrights.user⟩
  · have hrights := rights_rodata h
    exact ⟨fun hw => absurd (hrights.writable.mp hw.1) (by decide), hrights.user⟩
  · have hrights := rights_data h
    exact ⟨fun hx => absurd (hrights.executable.mp hx.2) (by decide), hrights.user⟩

end Rights

/-- Every byte of the range is found where the image was loaded. -/
def Mapped (m : PhysMem) (root : Word) (r : ImageRange) (write exec : Bool) : Prop :=
  ∀ v, r.start ≤ v → v < r.endPtr → ∃ t, hwWalk m root v = some t ∧
    t.outputAddress = v - KERNEL_VIRTUAL_BASE ∧ t.Rights write exec

/-- The image is mapped where it was loaded, each range with its rights, and
nothing else is. -/
structure MapsImage (k : KernelLayout) (m : PhysMem) (root : Word) : Prop where
  text : Mapped m root k.text false true
  rodata : Mapped m root k.rodata false false
  data : Mapped m root k.data true false
  rights : ∀ v t, LowerHalf (index v 39) → hwWalk m root v = some t →
    ¬ (t.Writable ∧ t.Executable) ∧ ¬ t.User
  outside : ∀ v, LowerHalf (index v 39) → ¬ k.InImage v → hwWalk m root v = none

section Image

variable {k : KernelLayout} {m : PhysMem} {root : Word}

/-- The last calls map the image. -/
theorem mapped_of_hwWalk (hwalk : ∀ v, LowerHalf (index v 39) →
      hwWalk m root v = (lastCall k.imageCalls v).map (·.translation v)) {r : ImageRange}
    (hr : r ∈ k.ranges) {write exec : Bool}
    (hrights : ∀ t : Translation, t.attributes = leafAttributes r.flags → t.Rights write exec) :
    Mapped m root r write exec := by
  intro v hlow hhigh
  have hbase := r.low
  have hlimit := r.high
  have hhalf : LowerHalf (index v 39) := lowerHalf_of_kernel (by bv_omega) (by bv_omega)
  exact ⟨_, (hwalk v hhalf).trans (KernelLayout.lastCall_range hr hlow hhigh), rfl, hrights _ rfl⟩

theorem mapsImage_of_hwWalk (hwalk : ∀ v, LowerHalf (index v 39) →
    hwWalk m root v = (lastCall k.imageCalls v).map (·.translation v)) : MapsImage k m root := by
  have htext : k.text ∈ k.ranges := by simp [KernelLayout.ranges]
  have hrodata : k.rodata ∈ k.ranges := by simp [KernelLayout.ranges]
  have hdata : k.data ∈ k.ranges := by simp [KernelLayout.ranges]
  refine ⟨mapped_of_hwWalk hwalk htext fun t => rights_text,
    mapped_of_hwWalk hwalk hrodata fun t => rights_rodata,
    mapped_of_hwWalk hwalk hdata fun t => rights_data, fun v t hv ht => ?_, fun v hv hout => ?_⟩
  · rw [hwalk v hv] at ht
    obtain ⟨c, hc, rfl⟩ := Option.map_eq_some_iff.mp ht
    have hmem : c ∈ k.imageCalls := List.mem_of_mem_filter (List.mem_of_getLast? hc)
    obtain ⟨r, hr, i, -, rfl⟩ := KernelLayout.mem_imageCalls.mp hmem
    exact rights_range hr rfl
  · rw [hwalk v hv, KernelLayout.lastCall_eq_none, Option.map_none]
    exact fun c hc hpage => hout (KernelLayout.inImage_call hc hpage)

end Image

end TeachingOs
