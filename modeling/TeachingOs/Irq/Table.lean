import Mathlib.Logic.Function.Basic
import TeachingOs.Basic
import TeachingOs.Lib.Except
import TeachingOs.Lib.Probe

/-!
# TeachingOs.Irq.Table

The interrupt table of `kern/irq.c`, a hash table with linear probing.  The
code trusts `irq_map.allocated` for the size of the block behind
`irq_map.entries`, so the model reads and writes entries at every index:
those from `slots` on are whatever memory follows the block.
-/

namespace TeachingOs.Irq

open Probe

/-! ## Data -/

/-- `IRQ_NULL`. -/
abbrev irqNull : Nat := 0

/-- `IRQ_TOMBSTONE`. -/
abbrev irqTombstone : Nat := 1

theorem ne_reserved {irqId : Nat} (h : 2 ≤ irqId) : irqId ≠ irqNull ∧ irqId ≠ irqTombstone := by
  unfold irqNull irqTombstone
  omega

/-- `struct irq_map_entry`; function pointers are words. -/
structure Entry where
  id : Nat
  fn : Word
  userdata : Word

/-- An entry as `kzalloc` leaves it. -/
def Entry.zero : Entry := ⟨irqNull, 0, 0⟩

/-- `irq_map`, with the number of slots of the block it points to, which the
code does not store. -/
structure IrqMap where
  entries : Nat → Entry
  slots : Nat
  allocated : Nat
  used : Nat

/-- The heap as `irq.c` sees it: for a block of `n` entries the memory from
the block on, or `none` when the allocation fails. -/
abbrev Heap := Nat → Option (Nat → Entry)

/-- `kzalloc_or_die` of `n` entries. -/
def kzallocOrDie (heap : Heap) (n : Nat) (fmt : String) : Except Panic (Nat → Entry) :=
  match heap n with
  | some past => .ok fun i => if i < n then .zero else past i
  | none => .error (.message fmt)

/-! ## The functions -/

/-- `irq_init`. -/
def irqInit (heap : Heap) : Except Panic IrqMap := do
  let entries ← kzallocOrDie heap 8 "failed to allocate irq_map"
  return { entries, slots := 8, allocated := 8, used := 0 }

/-- A slot that holds an interrupt: neither `IRQ_NULL` nor `IRQ_TOMBSTONE`. -/
def Entry.live (e : Entry) : Bool := e.id ≠ irqNull && e.id ≠ irqTombstone

/-- The size `irq_rehash` grows a table of `allocated` entries to. -/
def newAlloc (allocated : Nat) : Nat := (if allocated < 8 then 8 else allocated) * 2

/-- One round of the loop of `irq_rehash`: hash an old entry in. -/
def rehashEntry (entries : Nat → Entry) (n : Nat) (newEntries : Nat → Entry) (oldIdx : Nat) :
    Except Panic (Nat → Entry) :=
  if (entries oldIdx).live then
    match probe n (fun i => (newEntries i).id = irqNull) n ((entries oldIdx).id % n) with
    | some newIdx => .ok (Function.update newEntries newIdx (entries oldIdx))
    | none => .error (.message "irq_rehash: failed to rehash entry %zu (IRQ id %zu)")
  else .ok newEntries

/-- `irq_rehash`. -/
def irqRehash (heap : Heap) (m : IrqMap) : Except Panic IrqMap := do
  let n := newAlloc m.allocated
  let newEntries ← kzallocOrDie heap n "failed to allocate new entries for irq_map rehash"
  let newEntries ← (List.range m.allocated).foldlM (rehashEntry m.entries n) newEntries
  return { m with entries := newEntries, slots := n, allocated := n }

/-- Where the probe of `irq_register` stops. -/
def IrqMap.free (m : IrqMap) (i : Nat) : Bool :=
  (m.entries i).id = irqNull || (m.entries i).id = irqTombstone

/-- `irq_register`.  On success it counts up `allocated`, not `used`. -/
def irqRegister (heap : Heap) (m : IrqMap) (irqId : Nat) (fn userdata : Word) :
    Except Panic IrqMap := do
  assert "irq_register" "fn != NULL" (fn ≠ 0)
  assert "irq_register" "irq_id != IRQ_NULL" (irqId ≠ irqNull)
  assert "irq_register" "irq_id != IRQ_TOMBSTONE" (irqId ≠ irqTombstone)
  let m ← if (m.used + 1) * 2 ≥ m.allocated then irqRehash heap m else pure m
  match probe m.allocated m.free m.allocated (irqId % m.allocated) with
  | some idx => return { m with
      entries := Function.update m.entries idx ⟨irqId, fn, userdata⟩
      allocated := m.allocated + 1 }
  | none => .error (.message "irq_register: failed to find an empty hashmap slot")

/-- Where the probes of `irq_fire` and `irq_unregister` stop. -/
def IrqMap.stops (m : IrqMap) (irqId i : Nat) : Bool :=
  (m.entries i).id = irqId || (m.entries i).id = irqNull

/-- The loop of `irq_fire` and `irq_unregister`: the slots that it examines, and
the one where it stops. -/
def IrqMap.search (m : IrqMap) (irqId : Nat) : List Nat × Option Nat :=
  Probe.search m.allocated (m.stops irqId) m.allocated (irqId % m.allocated)

/-- The slots that it examines, in this order. -/
def IrqMap.examined (m : IrqMap) (irqId : Nat) : List Nat := (m.search irqId).1

/-- The slot of `irqId`. -/
def IrqMap.find (m : IrqMap) (irqId : Nat) : Option Nat :=
  (m.search irqId).2.filter fun idx => (m.entries idx).id = irqId

theorem IrqMap.examined_eq (m : IrqMap) (irqId : Nat) : m.examined irqId =
    visited m.allocated (m.stops irqId) m.allocated (irqId % m.allocated) := by
  rw [examined, search, search_eq]

theorem IrqMap.find_eq_probe (m : IrqMap) (irqId : Nat) : m.find irqId =
    (probe m.allocated (m.stops irqId) m.allocated (irqId % m.allocated)).filter
      fun idx => (m.entries idx).id = irqId := by
  rw [find, search, search_eq]

theorem IrqMap.probe_of_find {m : IrqMap} {irqId i : Nat} (h : m.find irqId = some i) :
    probe m.allocated (m.stops irqId) m.allocated (irqId % m.allocated) = some i ∧
      (m.entries i).id = irqId := by
  rw [find_eq_probe] at h
  obtain ⟨hprobe, hid⟩ := Option.filter_eq_some_iff.mp h
  exact ⟨hprobe, of_decide_eq_true hid⟩

/-- What a call of `irq_fire` returns, stores in `*result` (`none` when
`result` is `NULL`) and leaves of the world outside the table. -/
structure Fired (σ : Type) where
  found : Bool
  result : Option Int
  world : σ

/-- `irq_fire`, where `call` says what a callback does to the world. -/
def irqFire {σ : Type} (call : Word → Word → σ → Int × σ) (m : IrqMap) (irqId : Nat)
    (result : Option Int) (world : σ) : Except Panic (Fired σ) :=
  if irqId = irqNull then .ok ⟨false, result, world⟩
  else do
    assert "irq_fire" "irq_id != IRQ_TOMBSTONE" (irqId ≠ irqTombstone)
    match m.find irqId with
    | some idx =>
      let (err, world) := call (m.entries idx).fn (m.entries idx).userdata world
      return ⟨true, result.map fun _ => err, world⟩
    | none => return ⟨false, result, world⟩

/-- `irq_unregister`.  On success it counts down `allocated`, not `used`. -/
def irqUnregister (m : IrqMap) (irqId : Nat) : IrqMap :=
  match m.find irqId with
  | some idx => { m with
      entries := Function.update m.entries idx ⟨irqTombstone, 0, 0⟩
      allocated := m.allocated - 1 }
  | none => m

end TeachingOs.Irq
