import TeachingOs.Mmu.Physmap
import TeachingOs.Mmu.LinkedList

/-!
# TeachingOs.Mmu.Init

`mmu_init` of `kern/arch/aarch64/mmu.c`: the root table, the three ranges of
the kernel image, the copy of the logical map, and `init_mem_map`, which
maps room for one `struct frame` a page, links all frames into
`free_frames` and moves those that `walk_pages` reports into
`page_table_frames`.

The arrays of `struct frame` lie in freshly mapped pages of their own, so
they are kept beside the physical memory that the table walks read:
`FramePtr` names a list head or an entry of `all_frames`.
-/

namespace TeachingOs

open LinkedList

/-! ## The linked image -/

/-- The distance between the virtual and the physical address of the kernel. -/
def KERNEL_VIRTUAL_BASE : Word := 0xFFFF000000000000

/-- The symbols of `link.ld`: each range starts on a page of its own, in
this order, behind the boot data, and `_end` is the end of the last one
rounded up. -/
structure KernelLayout where
  boot : BootData
  kernTextStart : Word
  kernTextEnd : Word
  kernRodataStart : Word
  kernRodataEnd : Word
  kernDataStart : Word
  kernDataEnd : Word
  kernEnd : Word
  text_aligned : kernTextStart.toNat % 4096 = 0
  rodata_aligned : kernRodataStart.toNat % 4096 = 0
  data_aligned : kernDataStart.toNat % 4096 = 0
  end_aligned : kernEnd.toNat % 4096 = 0
  boot_le_text : boot.base.toNat + 0x102000 + 0xFFFF000000000000 ≤ kernTextStart.toNat
  text_le : kernTextStart.toNat ≤ kernTextEnd.toNat
  text_le_rodata : kernTextEnd.toNat ≤ kernRodataStart.toNat
  rodata_le : kernRodataStart.toNat ≤ kernRodataEnd.toNat
  rodata_le_data : kernRodataEnd.toNat ≤ kernDataStart.toNat
  data_le : kernDataStart.toNat ≤ kernDataEnd.toNat
  data_le_end : kernDataEnd.toNat ≤ kernEnd.toNat
  end_lt : kernEnd.toNat < kernDataEnd.toNat + 4096
  bound : kernEnd.toNat ≤ 0xFFFF000000000000 + 2 ^ 39

/-! ## State -/

/-- A `struct frame *`: null, one of the two list heads, or `&all_frames[i]`. -/
inductive FramePtr where
  | null
  | freeFrames
  | pageTableFrames
  | frame (i : Nat)
deriving DecidableEq, Repr

/-- `struct phys_area`; `map` is an index into `all_frames`. -/
structure PhysArea where
  start : Word
  endAddr : Word
  map : Nat
  mapSize : Word
deriving DecidableEq, Repr

/-- `mem_map` and the frames: the links of the lists and the
`physical_address` of each frame. -/
structure Frames where
  memMap : List PhysArea
  links : Heap FramePtr
  physicalAddress : FramePtr → Word

/-- What `mmu_init` works on. -/
structure KernelMmu where
  mmu : Mmu
  kPageTable : Word
  frames : Frames

/-- The state that `boot.S` hands over: statics as initialised in `mmu.c`,
list heads cleared with `.bss`, and arbitrary bytes where frames will be. -/
def bootState (mem : PhysMem) (ram : Heap FramePtr) : KernelMmu where
  mmu := ⟨mem, ⟨fun _ => 0, 64, none, 0⟩⟩
  kPageTable := 0
  frames :=
    { memMap := []
      links := fun p => match p with
        | .freeFrames | .pageTableFrames => ⟨.null, .null⟩
        | p => ram p
      physicalAddress := fun _ => 0 }

/-! ## init_k_map -/

/-- `init_k_map`. -/
def initKMap (kPageTable start endPtr : Word) (flags : MapFlags) (s : Mmu) :
    Except Panic Mmu := do
  assert "init_k_map" "start % 4096 == 0" (start % 4096 = 0)
  let pageCount := ((endPtr + PAGE_SIZE - 1) - start) / PAGE_SIZE
  (List.range pageCount.toNat).foldlM (fun s i =>
    let pageAddr := start + BitVec.ofNat 64 i * 4096
    mmuMap s kPageTable pageAddr (pageAddr - KERNEL_VIRTUAL_BASE) flags) s

/-! ## walk_pages -/

/-- One loop of `walk_pages`: visit the valid entries among the first `n`
slots of a table. -/
def walkTable {σ : Type} (m : PhysMem) (n : Nat) (visit : σ → Word → Except Panic σ)
    (table : Word) (s : σ) : Except Panic σ :=
  (List.range n).foldlM (fun s i =>
    let p := load m (logicalMap (table + BitVec.ofNat 64 i * 8))
    if p &&& 1 ≠ 0 then visit s p else return s) s

/-- `walk_pages`; the callback does not write to page tables. -/
def walkPages {σ : Type} (m : PhysMem) (pageTable : Word)
    (callback : σ → Word → Except Panic σ) (s : σ) : Except Panic σ :=
  walkTable m 256 (fun s p0 =>
    walkTable m 512 (fun s p1 =>
      walkTable m 512 (fun s p2 =>
        walkTable m 512 (fun s p3 =>
          callback s (p3 &&& ~~~(0xFFF ||| UXN ||| PXN))) (p2 &&& ~~~0xFFF) s)
        (p1 &&& ~~~0xFFF) s)
      (p0 &&& ~~~0xFFF) s)
    pageTable s

/-! ## init_mem_map -/

/-- `physaddr_to_frame`. -/
def physaddrToFrame (memMap : List PhysArea) (physAddr : Word) : FramePtr :=
  match memMap.find? fun area => area.start ≤ physAddr ∧ physAddr < area.endAddr with
  | some area => .frame (area.map + (physAddr >>> 12).toNat)
  | none => .null

/-- `init_own_page`. -/
def initOwnPage (s : Frames) (used : Word) : Except Panic Frames := do
  let usedFrame := physaddrToFrame s.memMap used
  let links := llUnlink .null s.links usedFrame
  let links ← llInsert .null "init_own_page" "used_frame" links .pageTableFrames usedFrame
  return { s with links }

/-- The number of pages of an area. -/
def pageCount (area : MemArea) : Word :=
  (area.endAddr - area.start + PAGE_SIZE - 1) / PAGE_SIZE

/-- `sizeof(struct phys_area)` and `sizeof(struct frame)`. -/
def sizeofPhysArea : Word := 32
def sizeofFrame : Word := 40

/-- `frame_array_start`, for a `mem_map` at `start`. -/
def frameArrayStart (start : Word) (src : PhysicalMemoryMap) : Word :=
  ((start + BitVec.ofNat 64 src.areas.length * sizeofPhysArea + 16 - 1) / 16) * 16

/-- `frame_count`. -/
def frameCount (src : PhysicalMemoryMap) : Word :=
  src.areas.foldl (fun n area => n + pageCount area) 0

/-- `alloc_end`. -/
def allocEnd (start : Word) (src : PhysicalMemoryMap) : Word :=
  ((frameArrayStart start src + frameCount src * sizeofFrame + PAGE_SIZE - 1) / PAGE_SIZE) *
    PAGE_SIZE

/-- The values of `for (ptr = start; ptr < endPtr; ptr += PAGE_SIZE)`. -/
def pagesBetween (start endPtr : Word) : List Word :=
  (List.range ((endPtr.toNat - start.toNat + 4095) / 4096)).map fun i =>
    start + BitVec.ofNat 64 i * PAGE_SIZE

/-- The allocation loop of `init_mem_map`. -/
def mapMemMap (kPageTable start endPtr : Word) (s : Mmu) : Except Panic Mmu :=
  (pagesBetween start endPtr).foldlM (fun s ptr => do
    let (physPage, alloc) ← allocatePageTable s.alloc
    mmuMap { s with alloc } kPageTable ptr physPage (PROT_READ ||| PROT_WRITE)) s

/-- One round of the inner loop over the frames of an area. -/
def initFrame (map : Nat) (start : Word) (s : Frames) (j : Nat) : Except Panic Frames := do
  let node := FramePtr.frame (map + j)
  let links := setNext s.links node .null
  let links := setPrev links node .null
  let physicalAddress :=
    Function.update s.physicalAddress node (start + BitVec.ofNat 64 j * PAGE_SIZE)
  let links ← llInsert .null "init_mem_map" "&mem_map[i].map[j]" links .freeFrames node
  return { s with links, physicalAddress }

/-- One round of the outer loop; `frame_idx` stays 0. -/
def initArea (s : Frames) (area : MemArea) : Except Panic Frames := do
  let frameIdx := 0
  let s := { s with memMap := s.memMap ++ [⟨area.start, area.endAddr, frameIdx, pageCount area⟩] }
  (List.range (pageCount area).toNat).foldlM (initFrame frameIdx area.start) s

/-- `init_mem_map`, with `_end` for the start of `mem_map`. -/
def initMemMap (kernEnd kPageTable : Word) (src : PhysicalMemoryMap) (s : Mmu × Frames) :
    Except Panic (Mmu × Frames) := do
  assert "init_mem_map" "mem_map_start % PAGE_SIZE == 0" (kernEnd % PAGE_SIZE = 0)
  let mmu ← mapMemMap kPageTable kernEnd (allocEnd kernEnd src) s.1
  let frames := { s.2 with memMap := [], links := llInit s.2.links .freeFrames }
  let frames ← src.areas.foldlM initArea frames
  let frames ← walkPages mmu.mem kPageTable initOwnPage frames
  return (mmu, frames)

/-! ## mmu_init -/

/-- `mmu_init` up to the call of `init_mem_map`. -/
def initTables (k : KernelLayout) (memoryMap : PhysicalMemoryMap) (s : Mmu) :
    Except Panic (Word × Mmu) := do
  let alloc :=
    { s.alloc with
      earlyLast := k.kernEnd - PAGE_SIZE - KERNEL_VIRTUAL_BASE
      earlySrc := some memoryMap }
  let (kPageTable, alloc) ← allocatePageTable alloc
  let s := { s with alloc }
  let s ← initKMap kPageTable k.kernTextStart k.kernTextEnd (PROT_EXEC ||| PROT_READ) s
  let s ← initKMap kPageTable k.kernRodataStart k.kernRodataEnd PROT_READ s
  let s ← initKMap kPageTable k.kernDataStart k.kernDataEnd (PROT_READ ||| PROT_WRITE) s
  return (kPageTable, { s with mem := installPhysmap k.boot kPageTable s.mem })

/-- `mmu_init`. -/
def mmuInit (k : KernelLayout) (memoryMap : PhysicalMemoryMap) (s : KernelMmu) :
    Except Panic KernelMmu := do
  let (kPageTable, mmu) ← initTables k memoryMap s.mmu
  let (mmu, frames) ← initMemMap k.kernEnd kPageTable memoryMap (mmu, s.frames)
  return { mmu, kPageTable, frames }

end TeachingOs
