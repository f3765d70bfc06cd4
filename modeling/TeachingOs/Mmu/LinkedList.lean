import Mathlib.Data.List.Nodup
import Mathlib.Logic.Function.Basic
import TeachingOs.Basic
import TeachingOs.Lib.Except

/-!
# TeachingOs.Mmu.LinkedList

The circular lists of `kern/lib/linked_list.h`.  A heap gives every pointer
the two links stored behind it; the null pointer has links of its own,
because the macros may store through it and address 0 is mapped.  `Ring` is
what the macros are meant to keep.
-/

namespace TeachingOs.LinkedList

/-! ## The macros -/

/-- The link fields of a node or of a list head. -/
structure Links (P : Type) where
  next : P
  prev : P

abbrev Heap (P : Type) := P → Links P

variable {P : Type} [DecidableEq P]

/-- `p->next = q`. -/
def setNext (h : Heap P) (p q : P) : Heap P := Function.update h p { h p with next := q }

/-- `p->prev = q`. -/
def setPrev (h : Heap P) (p q : P) : Heap P := Function.update h p { h p with prev := q }

/-- `ll_init`. -/
def llInit (h : Heap P) (head : P) : Heap P :=
  let h := setNext h head head
  setPrev h head head

/-- `ll_insert`, expanded in `func` with `arg` for its second argument. -/
def llInsert (null : P) (func arg : String) (h : Heap P) (head node : P) :
    Except Panic (Heap P) := do
  assert func ("(" ++ arg ++ ")->next == NULL") ((h node).next = null)
  assert func ("(" ++ arg ++ ")->prev == NULL") ((h node).prev = null)
  let h := setNext h node (h head).next
  let h := setPrev h node head
  let h := setNext h head node
  return setPrev h (h node).next node

/-- The first half of `ll_unlink`: take the node out of its successor. -/
def unlinkNext (null : P) (h : Heap P) (node : P) : Heap P :=
  if (h node).next ≠ null then
    let h := setPrev h (h node).next (h node).prev
    setNext h node null
  else h

/-- The second half of `ll_unlink`: take the node out of its predecessor. -/
def unlinkPrev (null : P) (h : Heap P) (node : P) : Heap P :=
  if (h node).prev ≠ null then
    let h := setNext h (h node).prev (h node).next
    setPrev h node null
  else h

/-- `ll_unlink`. -/
def llUnlink (null : P) (h : Heap P) (node : P) : Heap P :=
  unlinkPrev null (unlinkNext null h node) node

/-! ## Stores -/

@[simp] theorem next_setNext (h : Heap P) (p q r : P) :
    (setNext h p q r).next = if r = p then q else (h r).next := by
  by_cases hr : r = p <;> simp [setNext, hr]

@[simp] theorem prev_setNext (h : Heap P) (p q r : P) : (setNext h p q r).prev = (h r).prev := by
  by_cases hr : r = p <;> simp [setNext, hr]

@[simp] theorem next_setPrev (h : Heap P) (p q r : P) : (setPrev h p q r).next = (h r).next := by
  by_cases hr : r = p <;> simp [setPrev, hr]

@[simp] theorem prev_setPrev (h : Heap P) (p q r : P) :
    (setPrev h p q r).prev = if r = p then q else (h r).prev := by
  by_cases hr : r = p <;> simp [setPrev, hr]

/-! ## Unlinking -/

/-- `ll_unlink` leaves no next pointer in its node. -/
theorem next_llUnlink_self (null : P) (h : Heap P) (node : P) :
    (llUnlink null h node node).next = null := by
  have hfirst : (unlinkNext null h node node).next = null := by
    by_cases hn : (h node).next = null <;> simp [unlinkNext, hn]
  simp only [llUnlink, unlinkPrev]
  split
  · simp [hfirst]
  · exact hfirst

/-- `ll_unlink` leaves no prev pointer in its node. -/
theorem prev_llUnlink_self (null : P) (h : Heap P) (node : P) :
    (llUnlink null h node node).prev = null := by
  simp only [llUnlink, unlinkPrev]
  split
  · simp
  · next hp => simpa using hp

/-- A node without links can be inserted. -/
theorem llInsert_ok (null : P) (func arg : String) (h : Heap P) (head node : P)
    (hnext : (h node).next = null) (hprev : (h node).prev = null) :
    ∃ h', llInsert null func arg h head node = .ok h' := by
  simp [llInsert, assert_of_true, hnext, hprev, bind, Except.bind, pure, Except.pure]

/-! ## Rings -/

/-- The links from `a` through the nodes `l` to `b`, in both directions. -/
def Segment (h : Heap P) (a : P) : List P → P → Prop
  | [], b => (h a).next = b ∧ (h b).prev = a
  | c :: l, b => (h a).next = c ∧ (h c).prev = a ∧ Segment h c l b

/-- The nodes `l` form a circular list through `head`. -/
structure Ring (null : P) (h : Heap P) (head : P) (l : List P) : Prop where
  nodup : (head :: l).Nodup
  nonnull : null ∉ head :: l
  linked : Segment h head l head

omit [DecidableEq P] in
/-- The last node of a segment is what its end points back to. -/
theorem Segment.prev_mem {h : Heap P} {a b : P} {l : List P} (hs : Segment h a l b) :
    (h b).prev ∈ a :: l := by
  induction l generalizing a with
  | nil => simp [hs.2]
  | cons c l ih => exact List.mem_cons_of_mem a (ih hs.2.2)

omit [DecidableEq P] in
/-- The head of a ring has a predecessor. -/
theorem Ring.prev_ne_null {null : P} {h : Heap P} {head : P} {l : List P}
    (hr : Ring null h head l) : (h head).prev ≠ null :=
  fun hnull => hr.nonnull (hnull ▸ hr.linked.prev_mem)

/-! ## A head that is never initialised -/

/-- `head` has no predecessor, and no pointer known to the program has
`head` as its next. -/
structure NeverTail (null : P) (head : P) (known : P → Prop) (h : Heap P) : Prop where
  prev : (h head).prev = null
  next : ∀ p, known p → (h p).next ≠ head

section NeverTail

variable {null head node list : P} {known : P → Prop} {h h' : Heap P}

theorem NeverTail.setNext (hh : NeverTail null head known h) {p q : P} (hq : q ≠ head) :
    NeverTail null head known (setNext h p q) := by
  refine ⟨by simpa using hh.prev, fun r hr => ?_⟩
  rw [next_setNext]
  split
  · exact hq
  · exact hh.next r hr

theorem NeverTail.setPrev (hh : NeverTail null head known h) {p q : P} (hp : p ≠ head) :
    NeverTail null head known (setPrev h p q) := by
  refine ⟨?_, fun r hr => by simpa using hh.next r hr⟩
  rw [prev_setPrev, if_neg hp.symm]
  exact hh.prev

/-- Inserting a known node other than `head` keeps it so, whichever list it
goes into. -/
theorem NeverTail.llInsert (hh : NeverTail null head known h) (hlist : known list)
    (hknown : known node) (hnode : node ≠ head) {func arg : String}
    (hins : llInsert null func arg h list node = .ok h') : NeverTail null head known h' := by
  simp only [LinkedList.llInsert, bind_eq_ok, pure_eq_ok, Except.ok.injEq] at hins
  obtain ⟨-, -, -, -, rfl⟩ := hins
  have hnew := ((hh.setNext (p := node) (hh.next list hlist)).setPrev (q := list) hnode).setNext
    (p := list) hnode
  exact hnew.setPrev (hnew.next node hknown)

/-- So does unlinking one. -/
theorem NeverTail.llUnlink (hh : NeverTail null head known h) (hknown : known node)
    (hnode : node ≠ head) (hnull : null ≠ head) :
    NeverTail null head known (llUnlink null h node) := by
  have hfirst : NeverTail null head known (unlinkNext null h node) := by
    unfold unlinkNext
    split
    · exact (hh.setPrev (hh.next node hknown)).setNext hnull
    · exact hh
  simp only [LinkedList.llUnlink, unlinkPrev]
  split
  · exact (hfirst.setNext (hfirst.next node hknown)).setPrev hnode
  · exact hfirst

end NeverTail

end TeachingOs.LinkedList
