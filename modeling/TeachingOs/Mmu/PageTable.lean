import Mathlib.Logic.Function.Basic
import TeachingOs.Basic

/-!
# TeachingOs.Mmu.PageTable

The page-table half of `kern/arch/aarch64/mmu.c`: where table frames come
from (`allocate_page_table`), how a table slot is reached (`walk`,
`walk_or_create`) and how one page is mapped (`mmu_map`), next to the
translation that the AArch64 hardware performs on the same memory.

Physical memory is a map from physical addresses to 64-bit words.  The
kernel sees it through `logical_map`, so a C pointer produced by
`logicalMap` is dereferenced by `load` and `store`, which undo the shift by
`KERNEL_PHYSICAL_BASE`.  The map that `boot.S` builds does so for the first
gigabyte of physical memory only; `TeachingOs.Mmu.Access` has the accesses
through that map, as the hardware translates them.
-/

namespace TeachingOs

/-! ## Descriptor bits -/

def UXN : Word := 1 <<< 54
def PXN : Word := 1 <<< 53
def AF : Word := 1 <<< 10
def SH_INNER_SHAREABLE : Word := 3 <<< 8
def AP_K_RW : Word := 0 <<< 6
def AP_U_RW : Word := 1 <<< 6
def AP_K_R : Word := 2 <<< 6
def AP_U_R : Word := 3 <<< 6
def MAIR_IDX0 : Word := 0 <<< 2
def MAIR_IDX1 : Word := 1 <<< 2

/-- The `flags` argument of `mmu_map`, a C `int`. -/
abbrev MapFlags := BitVec 32

def PROT_READ : MapFlags := 1
def PROT_WRITE : MapFlags := 2
def PROT_EXEC : MapFlags := 4
def PROT_USER : MapFlags := 8
def MEM_MMIO : MapFlags := 16

def PAGE_SIZE : Word := 4096

/-- Bits 47:12 of a descriptor: the address of the next table or of the page. -/
def addrMask : Word := 0x0000FFFFFFFFF000

/-! ## Memory -/

/-- Physical memory, one word per 8-byte aligned physical address. -/
abbrev PhysMem := Word → Word

def KERNEL_PHYSICAL_BASE : Word := 0xFFFF800000000000

/-- `logical_map`: the kernel's pointer to a physical address. -/
def logicalMap (ptr : Word) : Word := KERNEL_PHYSICAL_BASE + ptr

/-- `*ptr` for a pointer into the logical map. -/
def load (m : PhysMem) (ptr : Word) : Word := m (ptr - KERNEL_PHYSICAL_BASE)

/-- `*ptr = val` for a pointer into the logical map. -/
def store (m : PhysMem) (ptr val : Word) : PhysMem :=
  Function.update m (ptr - KERNEL_PHYSICAL_BASE) val

theorem logicalMap_sub (p : Word) : logicalMap p - KERNEL_PHYSICAL_BASE = p := by
  rw [logicalMap, BitVec.add_comm, BitVec.add_sub_cancel]

@[simp] theorem load_logicalMap (m : PhysMem) (p : Word) : load m (logicalMap p) = m p := by
  rw [load, logicalMap_sub]

@[simp] theorem store_logicalMap (m : PhysMem) (p val : Word) :
    store m (logicalMap p) val = Function.update m p val := by
  rw [store, logicalMap_sub]

/-! ## Allocating page tables -/

/-- One area of a `struct physical_memory_map`: `start[i]` and `end[i]`. -/
structure MemArea where
  start : Word
  endAddr : Word
deriving DecidableEq, Repr

/-- `struct physical_memory_map`; `count` is the length of the list. -/
structure PhysicalMemoryMap where
  areas : List MemArea
deriving DecidableEq, Repr

/-- The static variables that `allocate_page_table` works on. -/
structure PageTableAlloc where
  cache : Nat → Word
  cacheTop : Nat
  earlySrc : Option PhysicalMemoryMap
  earlyLast : Word

/-- The loop of `allocate_page_table`, from a candidate in the first of the
remaining areas; `none` is the panic after the last area. -/
def earlyCandidate (candidate : Word) : List MemArea → Option Word
  | [] => none
  | area :: rest =>
    if candidate + PAGE_SIZE - 1 < area.endAddr then some candidate
    else match rest with
      | [] => none
      | next :: _ => earlyCandidate next.start rest

/-- `allocate_page_table`. -/
def allocatePageTable (a : PageTableAlloc) : Except Panic (Word × PageTableAlloc) :=
  match a.earlySrc with
  | some src =>
    match earlyCandidate (a.earlyLast + 4096) src.areas with
    | some candidate => .ok (candidate, { a with earlyLast := candidate })
    | none => .error (.message "aarch64 mmu: could not allocate early physical frames")
  | none =>
    if a.cacheTop = 0 then .error (.message "aarch64 mmu: ran out of page tables")
    else .ok (a.cache (a.cacheTop - 1), { a with cacheTop := a.cacheTop - 1 })

/-! ## Walking and mapping -/

/-- What the page-table functions read and write. -/
structure Mmu where
  mem : PhysMem
  alloc : PageTableAlloc

/-- The slot index that `walk` extracts: nine bits of `addr` from `shift` up. -/
def slotIndex (addr : Word) (shift : Nat) : Word := (addr >>> shift) &&& 0x1FF

/-- `walk`: a pointer to the slot of `table` that translates `addr`. -/
def walk (table addr : Word) (shift : Nat) : Word :=
  logicalMap (table + slotIndex addr shift * 8)

/-- `walk_or_create`: the next table, created when the slot is not valid. -/
def walkOrCreate (s : Mmu) (tableAddress addr : Word) (shift : Nat) :
    Except Panic (Word × Mmu) := do
  let mapping := walk tableAddress addr shift
  if load s.mem mapping &&& 1 = 0 then
    let (result, alloc) ← allocatePageTable s.alloc
    return (result, { mem := store s.mem mapping (result ||| 3), alloc })
  assert "walk_or_create" "(*mapping & 3) == 3" (load s.mem mapping &&& 3 = 3)
  return (load s.mem mapping &&& ~~~3, s)

/-- The attribute bits that `mmu_map` computes from its `flags`. -/
def pteFlags (flags : MapFlags) : Word :=
  let kernelOnly : Bool := flags &&& PROT_USER = 0
  let access :=
    if flags &&& PROT_WRITE ≠ 0 then (if kernelOnly then AP_K_RW else AP_U_RW)
    else if flags &&& PROT_READ ≠ 0 then (if kernelOnly then AP_K_R else AP_U_R)
    else 0
  let noExec := if flags &&& PROT_EXEC = 0 then UXN ||| PXN else 0
  let noUserExec := if kernelOnly then UXN else 0
  let attrIndex := if flags &&& MEM_MMIO ≠ 0 then MAIR_IDX1 else MAIR_IDX0
  access ||| noExec ||| noUserExec ||| attrIndex

/-- `mmu_map`: map the page of `virtualAddress` to `physicalAddress`. -/
def mmuMap (s : Mmu) (table virtualAddress physicalAddress : Word) (flags : MapFlags) :
    Except Panic Mmu := do
  let (level1, s) ← walkOrCreate s table virtualAddress 39
  let (level2, s) ← walkOrCreate s level1 virtualAddress 30
  let (level3, s) ← walkOrCreate s level2 virtualAddress 21
  let pte := walk level3 virtualAddress 12
  return { s with
    mem := store s.mem pte
      (physicalAddress ||| pteFlags flags ||| AF ||| SH_INNER_SHAREABLE ||| 3) }

/-! ## The hardware walk -/

/-- The outcome of a translation: the output address and the attribute bits
of the final descriptor (everything outside bits 47:12). -/
structure Translation where
  outputAddress : Word
  attributes : Word
deriving DecidableEq, Repr

/-- The AArch64 stage-1 walk for the 4 KB granule, from a table with `k`
levels below it.  A valid descriptor with bit 1 clear is a block, except in
a level-0 table (`k = 3`), which has none, and in a level-3 table (`k = 0`),
where it is reserved. -/
def hwWalkFrom (m : PhysMem) (v : Word) : Nat → Word → Option Translation
  | 0, table =>
    let d := m (table + slotIndex v 12 * 8)
    if d &&& 3 = 3 then some ⟨(d &&& addrMask) ||| (v &&& 0xFFF), d &&& ~~~addrMask⟩
    else none
  | k + 1, table =>
    let shift := 12 + 9 * (k + 1)
    let d := m (table + slotIndex v shift * 8)
    let offsetMask : Word := (1 <<< shift) - 1
    if d &&& 1 = 0 then none
    else if d &&& 2 ≠ 0 then hwWalkFrom m v k (d &&& addrMask)
    else if k = 2 then none
    else some ⟨(d &&& addrMask &&& ~~~offsetMask) ||| (v &&& offsetMask), d &&& ~~~addrMask⟩

/-- The 4-level translation of `v` by the level-0 table at `root`. -/
def hwWalk (m : PhysMem) (root v : Word) : Option Translation := hwWalkFrom m v 3 root

end TeachingOs
