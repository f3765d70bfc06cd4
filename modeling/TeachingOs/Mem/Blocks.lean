import Mathlib.Data.Set.Lattice
import Mathlib.Order.CompletePartialOrder
import TeachingOs.Mem.Kzalloc

/-!
# TeachingOs.Mem.Blocks

What callers of `kzalloc` get while the heap lasts, whatever they do to the
memory between two calls: aligned blocks of zeros that no later call touches
(`served_allocated`).

`BumpHeap.Used.placed` is one call, a block in the stretch of the heap that
the call takes; the stretches of a sequence follow each other
(`BumpHeap.Used.pairwise_served`).
-/

namespace TeachingOs.Mem

open ByteMem Libc

/-! ## Histories -/

/-- What the callers do to the memory before a call, and the size it asks
for. -/
structure Request where
  writes : Mem → Mem
  size : Word

/-- The calls for `requests`, one after the other. -/
def served : List Request → Heap → List Call
  | [], _ => []
  | r :: requests, s =>
      let s := { s with mem := r.writes s.mem }
      let p := kzalloc r.size s
      ⟨r.size, p.1, s, p.2⟩ :: served requests p.2

/-- When the callers write nothing, these are the calls of `calls`. -/
theorem served_map (sizes : List Word) (s : Heap) :
    served (sizes.map fun size => ⟨id, size⟩) s = calls sizes s := by
  induction sizes generalizing s with
  | nil => rfl
  | cons size sizes ih =>
      rw [List.map_cons, served, calls]
      exact congrArg _ (ih _)

/-- The bytes `[p, p + size)` of a call that returned `p`. -/
def Call.block (c : Call) : Set Addr := bytes c.result c.size.toNat

/-- What the callers rely on. -/
structure Allocated (h : BumpHeap) (calls : List Call) : Prop where
  aligned : ∀ c ∈ calls, c.result.toNat % 16 = 0
  inside : ∀ c ∈ calls, h.Contains c.result c.size.toNat
  disjoint : calls.Pairwise fun c d => Disjoint c.block d.block
  zero : ∀ c ∈ calls, ∀ a ∈ c.block, c.after.mem a = 0
  kept : calls.Pairwise fun c d => ∀ a ∈ c.block, d.after.mem a = d.before.mem a
  heapNext : ∀ c ∈ calls, c.after.heapNext.toNat % 16 = 0

/-! ## One call -/

/-- A call that took a block within the stretch `[lo, hi)` of the heap. -/
structure Call.Placed (h : BumpHeap) (lo hi : Nat) (c : Call) : Prop where
  aligned : c.result.toNat % 16 = 0
  from_lo : h.base.toNat + lo ≤ c.result.toNat
  to_hi : c.result.toNat + c.size.toNat ≤ h.base.toNat + hi
  zero : ∀ a ∈ c.block, c.after.mem a = 0
  frame : ∀ a, a ∉ c.block → c.after.mem a = c.before.mem a
  heapNext : c.after.heapNext.toNat % 16 = 0

variable {h : BumpHeap} {lo lo' hi hi' used : Nat} {c d : Call} {s : Heap} {size : Word}
  {requests : List Request}

theorem Call.Placed.mono (hc : c.Placed h lo hi) (hlo : lo' ≤ lo) (hhi : hi ≤ hi') :
    c.Placed h lo' hi' :=
  { hc with
    from_lo := by have := hc.from_lo; omega
    to_hi := by have := hc.to_hi; omega }

/-- **A call that fits** takes the next stretch of the heap. -/
theorem BumpHeap.Used.placed (hu : h.Used used s) (hfit : used + roundUp size ≤ bumpHeapSize) :
    Call.Placed h used (used + roundUp size)
      ⟨size, (Mem.kzalloc size s).1, s, (Mem.kzalloc size s).2⟩ := by
  have hnext := hu.heapNext
  have hnext' := (hu.kzalloc hfit).heapNext
  have hbase := h.aligned
  have hused := hu.aligned
  have hround := roundUp_mod size
  have hle := le_roundUp size
  refine ⟨?_, hnext.ge, ?_, ?_, fun a ha => kzalloc_mem_of_notMem ha, ?_⟩
  · change s.heapNext.toNat % 16 = 0
    omega
  · change s.heapNext.toNat + size.toNat ≤ _
    omega
  · exact fun a ha => memset_of_mem size.isLt.le ha
  · change (Mem.kzalloc size s).2.heapNext.toNat % 16 = 0
    omega

/-- A block further up has no byte of one below. -/
theorem Call.Placed.disjoint (hd : d.Placed h lo hi) (hhi : hi ≤ bumpHeapSize)
    (hcd : c.result.toNat + c.size.toNat ≤ d.result.toNat) : Disjoint c.block d.block := by
  have hto := hd.to_hi
  have hfits := h.fits
  rw [Set.disjoint_left]
  exact fun a hc => notMem_bytes_of_le hcd (by omega) hc

/-! ## Whole histories -/

theorem BumpHeap.Used.writes (hu : h.Used used s) (m : Mem) : h.Used used { s with mem := m } :=
  ⟨hu.heapNext, hu.aligned, hu.le⟩

/-- Every call of a history takes a block above those before it. -/
theorem BumpHeap.Used.placed_of_mem (hu : h.Used used s)
    (hfit : used + (requests.map fun r => roundUp r.size).sum ≤ bumpHeapSize)
    (hc : c ∈ served requests s) : c.Placed h used bumpHeapSize := by
  induction requests generalizing used s with
  | nil => cases hc
  | cons r requests ih =>
      rw [List.map_cons, List.sum_cons] at hfit
      have hr : used + roundUp r.size ≤ bumpHeapSize := by omega
      have hu' := hu.writes (r.writes s.mem)
      rcases List.mem_cons.mp hc with rfl | hc
      · exact (hu'.placed hr).mono le_rfl hr
      · exact (ih (hu'.kzalloc hr) (by omega) hc).mono (by omega) le_rfl

/-- The blocks follow each other. -/
theorem BumpHeap.Used.pairwise_served (hu : h.Used used s)
    (hfit : used + (requests.map fun r => roundUp r.size).sum ≤ bumpHeapSize) :
    (served requests s).Pairwise fun c d => c.result.toNat + c.size.toNat ≤ d.result.toNat := by
  induction requests generalizing used s with
  | nil => exact List.Pairwise.nil
  | cons r requests ih =>
      rw [List.map_cons, List.sum_cons] at hfit
      have hr : used + roundUp r.size ≤ bumpHeapSize := by omega
      have hu' := hu.writes (r.writes s.mem)
      have hrest := hu'.kzalloc hr
      refine List.pairwise_cons.mpr ⟨fun d hd => ?_, ih hrest (by omega)⟩
      have hfrom := (hrest.placed_of_mem (by omega) hd).from_lo
      exact (hu'.placed hr).to_hi.trans hfrom

/-- **While the rounded sizes fit the heap**, callers get aligned, disjoint
blocks of zeros, and no call changes an earlier block. -/
theorem served_allocated (h : BumpHeap) (m : Mem) (requests : List Request)
    (hfit : (requests.map fun r => roundUp r.size).sum ≤ bumpHeapSize) :
    Allocated h (served requests (h.boot m)) := by
  have hfit' : 0 + (requests.map fun r => roundUp r.size).sum ≤ bumpHeapSize := by omega
  have hplaced : ∀ c ∈ served requests (h.boot m), c.Placed h 0 bumpHeapSize :=
    fun c hc => (h.used_boot m).placed_of_mem hfit' hc
  have hdisjoint : (served requests (h.boot m)).Pairwise fun c d => Disjoint c.block d.block :=
    ((h.used_boot m).pairwise_served hfit').imp_of_mem fun _ hd hcd =>
      (hplaced _ hd).disjoint le_rfl hcd
  refine ⟨fun c hc => (hplaced c hc).aligned, fun c hc => ?_, hdisjoint,
    fun c hc => (hplaced c hc).zero, ?_, fun c hc => (hplaced c hc).heapNext⟩
  · exact ⟨(hplaced c hc).from_lo, (hplaced c hc).to_hi⟩
  · exact hdisjoint.imp_of_mem fun _ hd hcd a ha =>
      (hplaced _ hd).frame a (Set.disjoint_left.mp hcd ha)

/-- A task and its stack, and a size that is no multiple of 16, between which
the callers fill memory with ones. -/
theorem served_allocated_three : Allocated upperHeap
    (served [⟨id, 40⟩, ⟨fun _ _ => 0xff, 4096⟩, ⟨fun _ _ => 0xff, 17⟩]
      (upperHeap.boot fun _ => 0)) :=
  served_allocated upperHeap _ _ (by decide)

end TeachingOs.Mem
