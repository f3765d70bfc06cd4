import Mathlib.Data.Set.Lattice
import Mathlib.Order.CompletePartialOrder
import TeachingOs.Lib.History
import TeachingOs.Mem.Kzalloc

/-!
# TeachingOs.Mem.Preempted

`kzalloc` called by any number of tasks with interrupts unmasked.  A task
switch may come between any two of its statements: `result = heap_next`, the
advance of `heap_next`, the `memset`, and the return.

The heap keeps its blocks apart as long as no call that asks for at least a
byte reads `heap_next` while another such call stands between its read and
its advance (`Event.Lone`); where one does, both get the same address
(`Inv.same_address`).
-/

namespace TeachingOs.Mem

open ByteMem Libc

/-! ## The code -/

/-- The block of a call: `result` and `size`. -/
structure Block where
  result : Addr
  size : Word

/-- The bytes of a block. -/
def Block.bytes (b : Block) : Set Addr := ByteMem.bytes b.result b.size.toNat

/-- The next statement of the call that a task is in. -/
inductive Statement where
  | outside
  | advance (b : Block)
  | clear (b : Block)
  | ret (b : Block)

/-- The heap, where every task stands, the blocks returned so far, the latest
first, and the bytes asked for so far. -/
structure Callers (T : Type) where
  heap : Heap
  stmt : T → Statement
  returned : List (T × Block)
  asked : Nat

/-- A statement of the call of task `t`. -/
inductive Event (T : Type) where
  | read (t : T) (size : Word)
  | advance (t : T)
  | clear (t : T)
  | ret (t : T)

section Definitions

variable {T : Type} [DecidableEq T]

/-- Nobody calls yet. -/
def callersBoot (h : BumpHeap) (m : Mem) : Callers T := ⟨h.boot m, fun _ => .outside, [], 0⟩

/-- The statement of `kzalloc` that an event executes.  A task calls with a
size such that all sizes so far fit the heap. -/
def Callers.exec (s : Callers T) : Event T → Option (Callers T)
  | .read t size =>
      match s.stmt t with
      | .outside =>
          if s.asked + roundUp size ≤ bumpHeapSize then
            some { s with
              stmt := Function.update s.stmt t (.advance ⟨s.heap.heapNext, size⟩)
              asked := s.asked + roundUp size }
          else none
      | _ => none
  | .advance t =>
      match s.stmt t with
      | .advance b =>
          some { s with
            heap := { s.heap with heapNext := s.heap.heapNext + Mem.advance b.size }
            stmt := Function.update s.stmt t (.clear b) }
      | _ => none
  | .clear t =>
      match s.stmt t with
      | .clear b =>
          some { s with
            heap := { s.heap with mem := memset b.result 0 b.size.toNat s.heap.mem }
            stmt := Function.update s.stmt t (.ret b) }
      | _ => none
  | .ret t =>
      match s.stmt t with
      | .ret b =>
          some { s with stmt := Function.update s.stmt t .outside, returned := (t, b) :: s.returned }
      | _ => none

/-- The runs of any interleaving. -/
abbrev Interleaved (h : BumpHeap) (m : Mem) : List (Callers T × Event T) → Callers T → Prop :=
  History (· = callersBoot h m) fun s e s' => s.exec e = some s'

/-- Without a task switch the four statements are `kzalloc`. -/
theorem exec_kzalloc {s : Callers T} {t : T} {size : Word} (hs : s.stmt t = .outside)
    (hfit : s.asked + roundUp size ≤ bumpHeapSize) :
    [Event.read t size, .advance t, .clear t, .ret t].foldlM Callers.exec s =
      some ⟨(kzalloc size s.heap).2, s.stmt, (t, ⟨(kzalloc size s.heap).1, size⟩) :: s.returned,
        s.asked + roundUp size⟩ := by
  have hback : Function.update s.stmt t .outside = s.stmt := by rw [← hs, Function.update_eq_self]
  have hread : s.exec (.read t size) = some { s with
      stmt := Function.update s.stmt t (.advance ⟨s.heap.heapNext, size⟩)
      asked := s.asked + roundUp size } := by
    simp only [Callers.exec, hs]
    exact if_pos hfit
  rw [List.foldlM_cons, hread]
  simp [Callers.exec, kzalloc, hback]

/-! ## The condition -/

/-- The block that the task has read `heap_next` for and not advanced over. -/
def Statement.window : Statement → Option Block
  | .advance b => if b.size = 0 then none else some b
  | _ => none

/-- The block that belongs to the task before the call returns it. -/
def Statement.held : Statement → Option Block
  | .clear b | .ret b => some b
  | _ => none

/-- No call reads `heap_next` for at least a byte while another one has read
it and has not advanced it yet. -/
def Event.Lone (s : Callers T) : Event T → Prop
  | .read _ size => size ≠ 0 → ∀ t, (s.stmt t).window = none
  | _ => True

/-- What the callers rely on: the blocks returned do not overlap, and no
pending `memset` reaches into one of them. -/
structure Callers.Safe (s : Callers T) : Prop where
  returned : s.returned.Pairwise fun p q => Disjoint p.2.bytes q.2.bytes
  clears : ∀ t b, s.stmt t = .clear b → ∀ p ∈ s.returned, Disjoint b.bytes p.2.bytes

end Definitions

/-! ## Placed blocks -/

/-- The block ends at or below `n`, if it has a byte at all. -/
def Block.Below (n : Nat) (b : Block) : Prop :=
  b.size = 0 ∨ b.result.toNat + b.size.toNat ≤ n

/-- One block ends where or before the other begins. -/
def Block.Apart (b c : Block) : Prop :=
  b.size = 0 ∨ c.size = 0 ∨ b.result.toNat + b.size.toNat ≤ c.result.toNat ∨
    c.result.toNat + c.size.toNat ≤ b.result.toNat

theorem Block.bytes_of_size_eq_zero {b : Block} (h : b.size = 0) (a : Addr) : a ∉ b.bytes := by
  simp [Block.bytes, mem_bytes, h]

theorem Block.Apart.disjoint {n : Nat} {b c : Block} (h : b.Apart c) (hn : n < 2 ^ 64)
    (hb : b.Below n) (hc : c.Below n) : Disjoint b.bytes c.bytes := by
  rw [Set.disjoint_left]
  intro a ha ha'
  have hbn := hb.resolve_left fun h => Block.bytes_of_size_eq_zero h a ha
  have hcn := hc.resolve_left fun h => Block.bytes_of_size_eq_zero h a ha'
  rcases h with h | h | h | h
  · exact Block.bytes_of_size_eq_zero h a ha
  · exact Block.bytes_of_size_eq_zero h a ha'
  · exact notMem_bytes_of_le h (by omega) ha ha'
  · exact notMem_bytes_of_le h (by omega) ha' ha

variable {T : Type}

/-- The blocks handed out, held by a call or returned, lie below `n` and
apart from each other. -/
structure Placed (n : Nat) (held : T → Option Block) (returned : List (T × Block)) : Prop where
  held_below : ∀ t b, held t = some b → b.Below n
  returned_below : ∀ p ∈ returned, p.2.Below n
  held_apart : ∀ t u b c, t ≠ u → held t = some b → held u = some c → b.Apart c
  held_returned : ∀ t b, held t = some b → ∀ p ∈ returned, b.Apart p.2
  returned_apart : returned.Pairwise fun p q => p.2.Apart q.2

theorem Block.Below.mono {n n' : Nat} {b : Block} (h : b.Below n) (hn : n ≤ n') : b.Below n' :=
  h.imp_right fun h => Nat.le_trans h hn

/-- A block from `n` on is apart from all below `n`. -/
theorem Block.Below.apart {n : Nat} {b c : Block} (h : c.Below n)
    (hb : b.size = 0 ∨ b.result.toNat = n) : b.Apart c := by
  rcases h with h | h
  · exact Or.inr (Or.inl h)
  · rcases hb with hb | hb
    · exact Or.inl hb
    · exact Or.inr (Or.inr (Or.inr (hb ▸ h)))

theorem Block.Apart.symm {b c : Block} (h : b.Apart c) : c.Apart b := by
  rcases h with h | h | h | h
  · exact Or.inr (Or.inl h)
  · exact Or.inl h
  · exact Or.inr (Or.inr (Or.inr h))
  · exact Or.inr (Or.inr (Or.inl h))

section Placed

variable [DecidableEq T] {n n' : Nat} {held : T → Option Block} {returned : List (T × Block)} {t : T}
  {b : Block}

/-- A call advances over its block. -/
theorem Placed.hold (h : Placed n held returned) (hn : n ≤ n')
    (hb : b.size = 0 ∨ b.result.toNat = n) (hbelow : b.Below n') :
    Placed n' (Function.update held t (some b)) returned where
  held_below := by
    intro u c hc
    by_cases hu : u = t
    · subst hu
      rw [Function.update_self] at hc
      exact Option.some.inj hc ▸ hbelow
    · rw [Function.update_of_ne hu] at hc
      exact (h.held_below u c hc).mono hn
  returned_below := fun p hp => (h.returned_below p hp).mono hn
  held_apart := by
    intro u v c d huv hc hd
    by_cases hu : u = t
    · subst hu
      rw [Function.update_self] at hc
      rw [Function.update_of_ne (Ne.symm huv)] at hd
      exact Option.some.inj hc ▸ (h.held_below v d hd).apart hb
    · rw [Function.update_of_ne hu] at hc
      by_cases hv : v = t
      · subst hv
        rw [Function.update_self] at hd
        exact Option.some.inj hd ▸ ((h.held_below u c hc).apart hb).symm
      · rw [Function.update_of_ne hv] at hd
        exact h.held_apart u v c d huv hc hd
  held_returned := by
    intro u c hc p hp
    by_cases hu : u = t
    · subst hu
      rw [Function.update_self] at hc
      exact Option.some.inj hc ▸ (h.returned_below p hp).apart hb
    · rw [Function.update_of_ne hu] at hc
      exact h.held_returned u c hc p hp
  returned_apart := h.returned_apart

/-- A call returns its block. -/
theorem Placed.ret (h : Placed n held returned) (hb : held t = some b) :
    Placed n (Function.update held t none) ((t, b) :: returned) where
  held_below := by
    intro u c hc
    by_cases hu : u = t
    · subst hu
      rw [Function.update_self] at hc
      cases hc
    · rw [Function.update_of_ne hu] at hc
      exact h.held_below u c hc
  returned_below := List.forall_mem_cons.mpr ⟨h.held_below t b hb, h.returned_below⟩
  held_apart := by
    intro u v c d huv hc hd
    by_cases hu : u = t
    · subst hu
      rw [Function.update_self] at hc
      cases hc
    · rw [Function.update_of_ne hu] at hc
      by_cases hv : v = t
      · subst hv
        rw [Function.update_self] at hd
        cases hd
      · rw [Function.update_of_ne hv] at hd
        exact h.held_apart u v c d huv hc hd
  held_returned := by
    intro u c hc
    by_cases hu : u = t
    · subst hu
      rw [Function.update_self] at hc
      cases hc
    · rw [Function.update_of_ne hu] at hc
      exact List.forall_mem_cons.mpr ⟨h.held_apart u t c b hu hc hb, h.held_returned u c hc⟩
  returned_apart := List.pairwise_cons.mpr ⟨h.held_returned t b hb, h.returned_apart⟩

end Placed

/-! ## The invariant -/

/-- The allocator between any two statements: at most one call has read
`heap_next` for a byte or more and not advanced, and it has read what
`heap_next` still is; the blocks advanced over are placed below. -/
structure Inv (h : BumpHeap) (used : Nat) (s : Callers T) : Prop where
  heap : h.Used used s.heap
  asked_le : s.asked ≤ bumpHeapSize
  closed : (∀ t, (s.stmt t).window = none) → used = s.asked
  opened : ∀ t b, (s.stmt t).window = some b →
    b.result = s.heap.heapNext ∧ used + roundUp b.size = s.asked
  lone : ∀ t u b c, (s.stmt t).window = some b → (s.stmt u).window = some c → t = u
  placed : Placed s.heap.heapNext.toNat (Statement.held ∘ s.stmt) s.returned

section Preserve

variable [DecidableEq T] {h : BumpHeap} {used : Nat} {s s' : Callers T} {t : T} {size : Word}
  {b : Block}

theorem window_eq_none (hb : b.size = 0) : (Statement.advance b).window = none := if_pos hb

theorem window_eq_some (hb : b.size ≠ 0) : (Statement.advance b).window = some b := if_neg hb

omit [DecidableEq T] in
theorem inv_boot (h : BumpHeap) (m : Mem) : Inv h 0 (callersBoot h m : Callers T) where
  heap := h.used_boot m
  asked_le := Nat.zero_le _
  closed := fun _ => rfl
  opened := fun _ _ => nofun
  lone := fun _ _ _ _ => nofun
  placed := ⟨fun _ _ => nofun, fun _ => nofun, fun _ _ _ _ _ => nofun, fun _ _ => nofun, .nil⟩

/-- A statement that neither opens nor closes a window. -/
theorem window_update {stmt : T → Statement} {x : Statement} (hx : x.window = none)
    (ht : (stmt t).window = none) (u : T) :
    (Function.update stmt t x u).window = (stmt u).window := by
  by_cases hu : u = t
  · subst hu
    rw [Function.update_self, hx, ht]
  · rw [Function.update_of_ne hu]

omit [DecidableEq T] in
/-- A second reader gets the address that the first one has. -/
theorem Inv.same_address (hi : Inv h used s) (hb : (s.stmt t).window = some b) :
    b.result = s.heap.heapNext := (hi.opened t b hb).1

/-- `result = heap_next`. -/
theorem Inv.read (hi : Inv h used s) (ht : s.stmt t = .outside)
    (hfit : s.asked + roundUp size ≤ bumpHeapSize)
    (hlone : size ≠ 0 → ∀ u, (s.stmt u).window = none) :
    Inv h used { s with
      stmt := Function.update s.stmt t (.advance ⟨s.heap.heapNext, size⟩)
      asked := s.asked + roundUp size } := by
  have hwindow : (s.stmt t).window = none := by rw [ht]; rfl
  have hheld : Statement.held ∘ Function.update s.stmt t (.advance ⟨s.heap.heapNext, size⟩) =
      Statement.held ∘ s.stmt := by
    rw [Function.comp_update]
    exact Function.update_eq_self_iff.mpr (by rw [Function.comp_apply, ht]; rfl)
  have hplaced := hi.placed
  rw [← hheld] at hplaced
  by_cases hsize : size = 0
  · have hsame := fun u => window_update (x := .advance ⟨s.heap.heapNext, size⟩)
      (window_eq_none hsize) hwindow u
    have hround : roundUp size = 0 := by rw [hsize]; rfl
    rw [hround, Nat.add_zero] at hfit ⊢
    refine ⟨hi.heap, hfit, ?_, ?_, ?_, hplaced⟩
    · simpa only [hsame] using hi.closed
    · simpa only [hsame] using hi.opened
    · simpa only [hsame] using hi.lone
  · have hnone := hlone hsize
    have hself : ∀ u c, (Function.update s.stmt t (.advance ⟨s.heap.heapNext, size⟩) u).window =
        some c → u = t ∧ c = ⟨s.heap.heapNext, size⟩ := by
      intro u c hc
      by_cases hu : u = t
      · subst hu
        rw [Function.update_self, window_eq_some hsize] at hc
        exact ⟨rfl, (Option.some.inj hc).symm⟩
      · rw [Function.update_of_ne hu, hnone u] at hc
        cases hc
    refine ⟨hi.heap, hfit, ?_, ?_, ?_, hplaced⟩
    · intro hall
      have hopen : (Function.update s.stmt t (.advance ⟨s.heap.heapNext, size⟩) t).window = none :=
        hall t
      rw [Function.update_self, window_eq_some hsize] at hopen
      cases hopen
    · intro u c hc
      obtain ⟨-, rfl⟩ := hself u c hc
      exact ⟨rfl, congrArg (· + roundUp size) (hi.closed hnone)⟩
    · intro u v c d hc hd
      rw [(hself u c hc).1, (hself v d hd).1]

/-- `heap_next += …`. -/
theorem Inv.advance (hi : Inv h used s) (ht : s.stmt t = .advance b) :
    ∃ used', Inv h used' { s with
      heap := { s.heap with heapNext := s.heap.heapNext + Mem.advance b.size }
      stmt := Function.update s.stmt t (.clear b) } := by
  have hheld : Statement.held ∘ Function.update s.stmt t (.clear b) =
      Function.update (Statement.held ∘ s.stmt) t (some b) := Function.comp_update _ _ _ _
  by_cases hsize : b.size = 0
  · have hwindow : (s.stmt t).window = none := by rw [ht]; exact window_eq_none hsize
    have hsame := fun u => window_update (x := .clear b) rfl hwindow u
    have hnext : s.heap.heapNext + Mem.advance b.size = s.heap.heapNext := by
      rw [hsize]
      exact BitVec.add_zero _
    have hplaced := hi.placed.hold (t := t) (Nat.le_refl _) (Or.inl hsize) (Or.inl hsize)
    rw [← hheld] at hplaced
    rw [hnext]
    refine ⟨used, hi.heap, hi.asked_le, ?_, ?_, ?_, hplaced⟩
    · simpa only [hsame] using hi.closed
    · simpa only [hsame] using hi.opened
    · simpa only [hsame] using hi.lone
  · have hwindow : (s.stmt t).window = some b := by rw [ht]; exact window_eq_some hsize
    obtain ⟨hresult, hasked⟩ := hi.opened t b hwindow
    have hfit : used + roundUp b.size ≤ bumpHeapSize := hasked ▸ hi.asked_le
    have hnone : ∀ u, (Function.update s.stmt t (.clear b) u).window = none := by
      intro u
      by_cases hu : u = t
      · subst hu
        rw [Function.update_self]
        rfl
      · rw [Function.update_of_ne hu]
        by_contra hc
        obtain ⟨c, hc⟩ := Option.ne_none_iff_exists'.mp hc
        exact hu (hi.lone u t c b hc hwindow)
    have hnext := hi.heap.toNat_add_advance hfit
    have hle := le_roundUp b.size
    have hbefore := hi.heap.heapNext
    have hplaced : Placed (s.heap.heapNext + Mem.advance b.size).toNat
        (Function.update (Statement.held ∘ s.stmt) t (some b)) s.returned :=
      hi.placed.hold (by omega) (Or.inr (by rw [hresult])) (Or.inr (by rw [hresult]; omega))
    rw [← hheld] at hplaced
    refine ⟨used + roundUp b.size, hi.heap.advance hfit _, hi.asked_le, fun _ => hasked, ?_, ?_,
      hplaced⟩
    · intro u c hc
      rw [hnone u] at hc
      cases hc
    · intro u v c d hc
      rw [hnone u] at hc
      cases hc

/-- `memset`. -/
theorem Inv.clear (hi : Inv h used s) (ht : s.stmt t = .clear b) (m : Mem) :
    Inv h used { s with
      heap := { s.heap with mem := m }
      stmt := Function.update s.stmt t (.ret b) } := by
  have hheld : Statement.held ∘ Function.update s.stmt t (.ret b) = Statement.held ∘ s.stmt := by
    rw [Function.comp_update]
    exact Function.update_eq_self_iff.mpr (by rw [Function.comp_apply, ht]; rfl)
  have hplaced := hi.placed
  rw [← hheld] at hplaced
  have hsame := fun u => window_update (x := .ret b) rfl
    (show (s.stmt t).window = none by rw [ht]; rfl) u
  refine ⟨⟨hi.heap.heapNext, hi.heap.aligned, hi.heap.le⟩, hi.asked_le, ?_, ?_, ?_, hplaced⟩
  · simpa only [hsame] using hi.closed
  · simpa only [hsame] using hi.opened
  · simpa only [hsame] using hi.lone

/-- `return result`. -/
theorem Inv.ret (hi : Inv h used s) (ht : s.stmt t = .ret b) :
    Inv h used { s with
      stmt := Function.update s.stmt t .outside, returned := (t, b) :: s.returned } := by
  have hheld : Statement.held ∘ Function.update s.stmt t .outside =
      Function.update (Statement.held ∘ s.stmt) t none := Function.comp_update _ _ _ _
  have hplaced := hi.placed.ret (t := t) (b := b) (by rw [Function.comp_apply, ht]; rfl)
  rw [← hheld] at hplaced
  have hsame := fun u => window_update (x := .outside) rfl
    (show (s.stmt t).window = none by rw [ht]; rfl) u
  refine ⟨hi.heap, hi.asked_le, ?_, ?_, ?_, hplaced⟩
  · simpa only [hsame] using hi.closed
  · simpa only [hsame] using hi.opened
  · simpa only [hsame] using hi.lone

/-- **Every statement keeps the invariant** if its reads are alone. -/
theorem Inv.exec (hi : Inv h used s) {e : Event T} (hlone : e.Lone s)
    (hs : s.exec e = some s') : ∃ used', Inv h used' s' := by
  cases e with
  | read t size =>
      simp only [Callers.exec] at hs
      split at hs
      · next ht =>
          split at hs
          · next hfit =>
              cases hs
              exact ⟨used, hi.read ht hfit hlone⟩
          · cases hs
      · cases hs
  | advance t =>
      simp only [Callers.exec] at hs
      split at hs
      · next ht =>
          cases hs
          exact hi.advance ht
      · cases hs
  | clear t =>
      simp only [Callers.exec] at hs
      split at hs
      · next ht =>
          cases hs
          exact ⟨used, hi.clear ht _⟩
      · cases hs
  | ret t =>
      simp only [Callers.exec] at hs
      split at hs
      · next ht =>
          cases hs
          exact ⟨used, hi.ret ht⟩
      · cases hs

omit [DecidableEq T] in
/-- Blocks that are placed are safe. -/
theorem Inv.safe (hi : Inv h used s) : s.Safe where
  returned := by
    refine hi.placed.returned_apart.imp_of_mem fun {p q} hp hq hapart => ?_
    exact hapart.disjoint s.heap.heapNext.isLt (hi.placed.returned_below p hp)
      (hi.placed.returned_below q hq)
  clears := by
    intro t b ht p hp
    have hheld : (Statement.held ∘ s.stmt) t = some b := by rw [Function.comp_apply, ht]; rfl
    exact (hi.placed.held_returned t b hheld p hp).disjoint s.heap.heapNext.isLt
      (hi.placed.held_below t b hheld) (hi.placed.returned_below p hp)

end Preserve

/-! ## Runs -/

variable [DecidableEq T]

/-- **Preempted calls.**  In a run in which no call reads `heap_next` while
another one stands between its read and its advance, the blocks returned
never overlap, and no `memset` ever reaches into a returned block. -/
theorem kzalloc_preempted {h : BumpHeap} {m : Mem} {past : List (Callers T × Event T)}
    {s : Callers T} (hrun : Interleaved h m past s) (hlone : ∀ p ∈ past, p.2.Lone p.1) :
    s.Safe ∧ ∀ p ∈ past, p.1.Safe := by
  have hinit : ∀ s : Callers T, s = callersBoot h m → ∃ used, Inv h used s := by
    rintro s rfl
    exact ⟨0, inv_boot h m⟩
  have hstep : ∀ (s : Callers T) (e : Event T) (s' : Callers T), (∃ used, Inv h used s) →
      e.Lone s → s.exec e = some s' → ∃ used, Inv h used s' :=
    fun s e s' ⟨used, hi⟩ hl hs => hi.exec hl hs
  constructor
  · obtain ⟨used, hi⟩ := hrun.invariant (fun s e => e.Lone s) hinit hstep hlone
    exact hi.safe
  · intro p hp
    obtain ⟨used, hi⟩ :=
      hrun.invariant_before (fun s e => e.Lone s) hinit hstep hlone p hp
    exact hi.safe

/-- One task is preempted after its advance, and the other one calls. -/
theorem kzalloc_preempted_between : ∃ past s, Interleaved upperHeap (fun _ => 0) past s ∧
    past.map Prod.snd = [Event.ret true, .ret false, .clear true, .advance true, .clear false,
      .read true 32, .advance false, .read false 16] ∧ s.Safe ∧ ∀ p ∈ past, p.1.Safe := by
  have hrun := (((((((((History.init rfl : Interleaved upperHeap (fun _ => 0) [] _).snoc
    (e := .read false 16) rfl).snoc (e := .advance false) rfl).snoc (e := .read true 32) rfl).snoc
    (e := .clear false) rfl).snoc (e := .advance true) rfl).snoc (e := .clear true) rfl).snoc
    (e := .ret false) rfl).snoc (e := .ret true) rfl)
  refine ⟨_, _, hrun, rfl, kzalloc_preempted hrun ?_⟩
  refine List.forall_mem_cons.mpr ⟨trivial, List.forall_mem_cons.mpr ⟨trivial, ?_⟩⟩
  refine List.forall_mem_cons.mpr ⟨trivial, List.forall_mem_cons.mpr ⟨trivial, ?_⟩⟩
  refine List.forall_mem_cons.mpr ⟨trivial, List.forall_mem_cons.mpr ⟨?_, ?_⟩⟩
  · exact fun _ t => by cases t <;> rfl
  refine List.forall_mem_cons.mpr ⟨trivial, List.forall_mem_cons.mpr ⟨?_, by simp⟩⟩
  exact fun _ _ => rfl

/-- Two tasks read `heap_next` before either advances it: the second one
clears the block that the first one has been given. -/
theorem not_safe_preempted : ¬ ∀ past (s : Callers Bool),
    Interleaved upperHeap (fun _ => 0) past s → s.Safe ∧ ∀ p ∈ past, p.1.Safe := by
  intro h
  have hrun := ((((((History.init rfl : Interleaved upperHeap (fun _ => 0) [] _).snoc
    (e := .read false 16) rfl).snoc (e := .read true 16) rfl).snoc (e := .advance false) rfl).snoc
    (e := .advance true) rfl).snoc (e := .clear false) rfl).snoc (e := .ret false) rfl
  have hsafe := (h _ _ hrun).1.clears true ⟨upperHeap.base, 16⟩ rfl _ List.mem_cons_self
  have hmem : upperHeap.base ∈ (Block.mk upperHeap.base 16).bytes := by
    rw [Block.bytes, mem_bytes]
    decide
  exact Set.disjoint_left.mp hsafe hmem hmem

end TeachingOs.Mem
