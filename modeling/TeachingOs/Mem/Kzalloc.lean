import TeachingOs.Basic
import TeachingOs.Libc.String

/-!
# TeachingOs.Mem.Kzalloc

The kernel heap of `kern/mem/mem.c`: `kzalloc` hands out the bytes of
`bump_heap` from the start on and never takes one back.

`kzalloc` has no test for the end of the array.  A call keeps its promise, a
block of the heap or NULL, exactly as long as the sizes asked for so far,
each rounded up to 16 bytes, add up to no more than the array has
(`kzalloc_within_heap_iff`).
-/

namespace TeachingOs.Mem

open ByteMem Libc

/-! ## The code -/

/-- `sizeof(bump_heap)`. -/
def bumpHeapSize : Nat := 16384

/-- Where the linker puts `bump_heap`: aligned as its attribute asks, not at
NULL, and not across the end of the address space. -/
structure BumpHeap where
  base : Addr
  aligned : base.toNat % 16 = 0
  base_pos : 0 < base.toNat
  fits : base.toNat + bumpHeapSize < 2 ^ 64

/-- What a call reads and writes: `heap_next` and the memory. -/
structure Heap where
  heapNext : Addr
  mem : Mem

/-- The heap before the first call: `heap_next = bump_heap`. -/
def BumpHeap.boot (h : BumpHeap) (m : Mem) : Heap := ⟨h.base, m⟩

/-- `size + ((16 - size) % 16)`, in `size_t`. -/
def advance (size : Word) : Word := size + (16 - size) % 16

/-- `kzalloc`: the block it returns and the heap it leaves. -/
def kzalloc (size : Word) (s : Heap) : Addr × Heap :=
  let result := s.heapNext
  (result, ⟨s.heapNext + advance size, memset result 0 size.toNat s.mem⟩)

/-- `kzalloc_or_die`. -/
def kzallocOrDie (size : Word) (fmt : String) (s : Heap) : Except Panic (Addr × Heap) :=
  let r := kzalloc size s
  if r.1 = 0 then .error (.message fmt) else .ok r

/-! ## Sequences of calls -/

/-- One call: its argument, its result, and the heap around it. -/
structure Call where
  size : Word
  result : Addr
  before : Heap
  after : Heap

/-- The calls for `sizes`, one after the other. -/
def calls : List Word → Heap → List Call
  | [], _ => []
  | size :: sizes, s =>
      let r := kzalloc size s
      ⟨size, r.1, s, r.2⟩ :: calls sizes r.2

/-- The block `[p, p + n)` lies inside `bump_heap`. -/
def BumpHeap.Contains (h : BumpHeap) (p : Addr) (n : Nat) : Prop :=
  h.base.toNat ≤ p.toNat ∧ p.toNat + n ≤ h.base.toNat + bumpHeapSize

/-- What a caller relies on: NULL from a heap that stays as it is, or a block
of the heap, with nothing written outside the block. -/
def Call.Ok (h : BumpHeap) (c : Call) : Prop :=
  (c.result = 0 ∧ c.after = c.before) ∨
    (h.Contains c.result c.size.toNat ∧
      ∀ a, a ∉ bytes c.result c.size.toNat → c.after.mem a = c.before.mem a)

/-! ## Rounding up -/

/-- A size rounded up to a multiple of 16, which need not fit a `size_t`. -/
def roundUp (size : Word) : Nat := (size.toNat + 15) / 16 * 16

theorem le_roundUp (size : Word) : size.toNat ≤ roundUp size := by
  unfold roundUp
  omega

theorem roundUp_mod (size : Word) : roundUp size % 16 = 0 := by
  unfold roundUp
  omega

/-- The code rounds up, as long as the result fits. -/
theorem toNat_advance {size : Word} (h : roundUp size < 2 ^ 64) :
    (advance size).toNat = roundUp size := by
  unfold roundUp at *
  have h16 : (16 : Word).toNat = 16 := rfl
  rw [advance, BitVec.toNat_add, BitVec.toNat_umod, BitVec.toNat_sub, h16]
  omega

/-! ## One call -/

/-- `used` bytes of the heap have been handed out. -/
structure BumpHeap.Used (h : BumpHeap) (used : Nat) (s : Heap) : Prop where
  heapNext : s.heapNext.toNat = h.base.toNat + used
  aligned : used % 16 = 0
  le : used ≤ bumpHeapSize

variable {h : BumpHeap} {used : Nat} {s : Heap} {size : Word} {sizes : List Word}

theorem BumpHeap.used_boot (h : BumpHeap) (m : Mem) : h.Used 0 (h.boot m) :=
  ⟨rfl, rfl, Nat.zero_le _⟩

/-- `heap_next` after a call that fits. -/
theorem BumpHeap.Used.toNat_add_advance (hu : h.Used used s)
    (hfit : used + roundUp size ≤ bumpHeapSize) :
    (s.heapNext + advance size).toNat = h.base.toNat + (used + roundUp size) := by
  have hfits := h.fits
  have hadv : (Mem.advance size).toNat = roundUp size := toNat_advance (by omega)
  rw [BitVec.toNat_add, hadv, hu.heapNext, Nat.mod_eq_of_lt (by omega), Nat.add_assoc]

/-- A call that fits advances by the rounded size. -/
theorem BumpHeap.Used.advance (hu : h.Used used s) (hfit : used + roundUp size ≤ bumpHeapSize)
    (m : Mem) : h.Used (used + roundUp size) ⟨s.heapNext + Mem.advance size, m⟩ := by
  have hmod := roundUp_mod size
  have haligned := hu.aligned
  exact ⟨hu.toNat_add_advance hfit, by omega, hfit⟩

theorem BumpHeap.Used.kzalloc (hu : h.Used used s) (hfit : used + roundUp size ≤ bumpHeapSize) :
    h.Used (used + roundUp size) (kzalloc size s).2 := hu.advance hfit _

/-- **Frame**: a call writes its block only. -/
theorem kzalloc_mem_of_notMem {a : Addr} (ha : a ∉ bytes (kzalloc size s).1 size.toNat) :
    (kzalloc size s).2.mem a = s.mem a :=
  memset_of_notMem size.isLt.le ha

/-- Since the heap is a multiple of 16 bytes long, a block ends inside it
exactly if the rounded block does. -/
theorem BumpHeap.Used.contains_iff (hu : h.Used used s) :
    h.Contains s.heapNext size.toNat ↔ used + roundUp size ≤ bumpHeapSize := by
  have hnext := hu.heapNext
  have hmod := hu.aligned
  unfold BumpHeap.Contains roundUp bumpHeapSize
  omega

/-- `heap_next` is not NULL before the heap is used up. -/
theorem BumpHeap.Used.heapNext_ne_zero (hu : h.Used used s) : s.heapNext ≠ 0 := by
  have hnext := hu.heapNext
  have hpos := h.base_pos
  intro hzero
  rw [hzero] at hnext
  simp at hnext
  omega

/-- **A call keeps its promise exactly if the rounded size still fits.** -/
theorem BumpHeap.Used.call_ok_iff (hu : h.Used used s) :
    Call.Ok h ⟨size, (Mem.kzalloc size s).1, s, (Mem.kzalloc size s).2⟩ ↔
      used + roundUp size ≤ bumpHeapSize := by
  rw [← hu.contains_iff]
  constructor
  · rintro (⟨hnull, -⟩ | ⟨hin, -⟩)
    · exact absurd hnull hu.heapNext_ne_zero
    · exact hin
  · intro hin
    exact Or.inr ⟨hin, fun a ha => kzalloc_mem_of_notMem ha⟩

/-- `kzalloc_or_die` goes on as if the call had succeeded, also where the
block lies beyond the heap. -/
theorem BumpHeap.Used.kzallocOrDie (hu : h.Used used s) (fmt : String) :
    kzallocOrDie size fmt s = .ok (Mem.kzalloc size s) :=
  if_neg hu.heapNext_ne_zero

/-! ## Whole sequences -/

/-- Every call of a sequence keeps its promise exactly if they all fit. -/
theorem BumpHeap.Used.calls_ok_iff (hu : h.Used used s) :
    (∀ c ∈ calls sizes s, c.Ok h) ↔ used + (sizes.map roundUp).sum ≤ bumpHeapSize := by
  induction sizes generalizing used s with
  | nil => simpa [calls] using hu.le
  | cons size sizes ih =>
      rw [calls, List.forall_mem_cons, hu.call_ok_iff, List.map_cons, List.sum_cons]
      constructor
      · rintro ⟨hfit, hrest⟩
        rw [ih (hu.kzalloc hfit)] at hrest
        omega
      · intro hsum
        have hfit : used + roundUp size ≤ bumpHeapSize := by omega
        refine ⟨hfit, (ih (hu.kzalloc hfit)).mpr ?_⟩
        omega

/-- **Capacity.**  From boot on, every call returns NULL and changes nothing,
or returns a block of the heap and writes nothing else, exactly if the
rounded sizes add up to no more than the heap has. -/
theorem kzalloc_within_heap_iff (h : BumpHeap) (m : Mem) (sizes : List Word) :
    (∀ c ∈ calls sizes (h.boot m), c.Ok h) ↔ (sizes.map roundUp).sum ≤ bumpHeapSize := by
  rw [(h.used_boot m).calls_ok_iff, Nat.zero_add]

/-- A heap in the upper half, where the kernel is linked. -/
def upperHeap : BumpHeap where
  base := 0xFFFF000000090000
  aligned := by decide
  base_pos := by decide
  fits := by decide

/-- `task_bootstrap` and four calls of `task_new`: the stack of the fourth
task reaches beyond the heap. -/
theorem fourth_task_beyond_heap :
    ¬ ∀ c ∈ calls [40, 40, 4096, 40, 4096, 40, 4096, 40, 4096] (upperHeap.boot fun _ => 0),
      c.Ok upperHeap := by
  rw [(upperHeap.used_boot _).calls_ok_iff]
  decide

end TeachingOs.Mem
