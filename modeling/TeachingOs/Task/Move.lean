import TeachingOs.Task.List

/-!
# TeachingOs.Task.Move

`task_list_move_head` and `task_list_move_tail` between any two lists, or
within one: on the lists as sequences they take the task out of the one and
add it at an end of the other.

The scheduler only moves tasks that are on no list to the tail, which is all
that `Task.List` has specifications for.  Here the unlinking in front is
`taskUnlinkFrom_source`, after which the task is on no list.
-/

namespace TeachingOs

open DList

section

variable {T L : Type} [DecidableEq T] [DecidableEq L]

/-! ## The lists as sequences -/

/-- The lists without `t` in `source`. -/
def unlinked (f : L → List T) (t : T) : Option L → L → List T
  | none => f
  | some k => Function.update f k ((f k).erase t)

/-- `t` moved from `source` to the front of `l`. -/
def movedHead (f : L → List T) (t : T) (source : Option L) (l : L) : L → List T :=
  Function.update (unlinked f t source) l (t :: unlinked f t source l)

/-- `t` moved from `source` to the end of `l`. -/
def movedTail (f : L → List T) (t : T) (source : Option L) (l : L) : L → List T :=
  Function.update (unlinked f t source) l (unlinked f t source l ++ [t])

/-- `t` is on `source`, or, without a source, on no list and has no links. -/
def OnSource (h : TaskHeap T L) (f : L → List T) (t : T) : Option L → Prop
  | none => (∀ k, t ∉ f k) ∧ h.next t = none ∧ h.prev t = none
  | some k => t ∈ f k

/-- The lists of `h'` are `f'`, and nothing else differs from `h`: neither
the ends of another list than `source` and `l`, nor a link of a task that is
on none of the two, nor any other field. -/
structure Moved (h h' : TaskHeap T L) (f f' : L → List T) (t : T) (source : Option L) (l : L) :
    Prop where
  lists : Lists h' f'
  list : ∀ k, k ≠ l → source ≠ some k → h'.list k = h.list k
  links : LinksDiffer h h' fun u => u = t ∨ u ∈ f l ∨ ∃ k, source = some k ∧ u ∈ f k

variable {h h' h₁ : TaskHeap T L} {f f' : L → List T} {t : T} {source : Option L} {l k : L}

theorem unlinked_of_ne (hk : source ≠ some k) : unlinked f t source k = f k := by
  cases source with
  | none => rfl
  | some j => exact Function.update_of_ne (fun hjk => hk (by rw [hjk])) _ _

theorem mem_of_mem_unlinked {u : T} (hu : u ∈ unlinked f t source k) : u ∈ f k := by
  by_cases hk : source = some k
  · subst hk
    rw [unlinked, Function.update_self] at hu
    exact List.mem_of_mem_erase hu
  · rwa [unlinked_of_ne hk] at hu

/-! ## The code -/

omit [DecidableEq T] [DecidableEq L] in
/-- The ends of a list are those of its sequence. -/
theorem Lists.list_eq (hf : Lists h f) (hf' : Lists h' f') (hk : f' k = f k) :
    h'.list k = h.list k := by
  have hhead : (h'.list k).head = (h.list k).head := by
    rw [(hf'.rep k).head, (hf.rep k).head, hk]
  have htail : (h'.list k).tail = (h.list k).tail := by
    rw [(hf'.rep k).tail, (hf.rep k).tail, hk]
  calc h'.list k = ⟨(h'.list k).head, (h'.list k).tail⟩ := rfl
    _ = h.list k := by rw [hhead, htail]

/-- **Unlinking** from the list a task is on, if it is on any. -/
theorem taskUnlinkFrom_source (hf : Lists h f) (ht : OnSource h f t source) :
    ∃ h₁, taskUnlinkFrom h (some t) source = .ok h₁ ∧ Lists h₁ (unlinked f t source) ∧
      (∀ k, t ∉ unlinked f t source k) ∧ h₁.next t = none ∧ h₁.prev t = none ∧
      LinksDiffer h h₁ fun u => ∃ k, source = some k ∧ u ∈ f k := by
  cases source with
  | none =>
      obtain ⟨hoff, hnext, hprev⟩ := ht
      have hsame : LinksDiffer h h fun u => ∃ k, (none : Option L) = some k ∧ u ∈ f k :=
        ⟨rfl, fun _ _ => rfl, fun _ _ => rfl⟩
      exact ⟨h, taskUnlinkFrom_none hprev hnext, hf, hoff, hnext, hprev, hsame⟩
  | some j =>
      obtain ⟨h₁, hrun, hlists, hnext, hprev, hdiff⟩ := taskUnlinkFrom_spec hf ht
      have hoff : ∀ k, t ∉ unlinked f t (some j) k := by
        intro k hk
        obtain rfl := hf.disjoint ht (mem_of_mem_unlinked hk)
        rw [unlinked, Function.update_self] at hk
        exact (hf.rep j).nodup.not_mem_erase hk
      refine ⟨h₁, hrun, hlists, hoff, hnext, hprev, hdiff.info, fun u hu => ?_, fun u hu => ?_⟩
      · exact hdiff.next u fun hj => hu ⟨j, rfl, hj⟩
      · exact hdiff.prev u fun hj => hu ⟨j, rfl, hj⟩

/-- What the two steps of a move differ in. -/
theorem Moved.of_unlinked (hf : Lists h f) {l' : List T}
    (hlists : Lists h' (Function.update (unlinked f t source) l l'))
    (hunlink : LinksDiffer h h₁ fun u => ∃ k, source = some k ∧ u ∈ f k)
    (hlink : LinksDiffer h₁ h' fun u => u = t ∨ u ∈ unlinked f t source l) :
    Moved h h' f (Function.update (unlinked f t source) l l') t source l := by
  refine ⟨hlists, fun k hk hsource => hf.list_eq hlists ?_, hlink.info.trans hunlink.info, ?_, ?_⟩
  · rw [Function.update_of_ne hk, unlinked_of_ne hsource]
  · intro u hu
    rw [hlink.next u fun h => hu (h.imp_right fun hl => Or.inl (mem_of_mem_unlinked hl)),
      hunlink.next u fun h => hu (Or.inr (Or.inr h))]
  · intro u hu
    rw [hlink.prev u fun h => hu (h.imp_right fun hl => Or.inl (mem_of_mem_unlinked hl)),
      hunlink.prev u fun h => hu (Or.inr (Or.inr h))]

/-- `task_list_move_head` moves to the front. -/
theorem taskListMoveHead_moved (hf : Lists h f) (ht : OnSource h f t source) (l : L) :
    ∃ h', taskListMoveHead h (some t) source (some l) = .ok h' ∧
      Moved h h' f (movedHead f t source l) t source l := by
  obtain ⟨h₁, hrun, hlists, hoff, hnext, hprev, hunlink⟩ := taskUnlinkFrom_source hf ht
  obtain ⟨h', hmove, hlists', hlink⟩ := taskListMoveHead_spec hlists hoff hnext hprev l
  refine ⟨h', ?_, .of_unlinked hf hlists' hunlink hlink⟩
  -- unlinking once more would change nothing
  rw [← hmove]
  simp only [taskListMoveHead, assertNotNull, ok_bind, hrun, taskUnlinkFrom_none hprev hnext]

/-- `task_list_move_tail` moves to the end. -/
theorem taskListMoveTail_moved (hf : Lists h f) (ht : OnSource h f t source) (l : L) :
    ∃ h', taskListMoveTail h (some t) source (some l) = .ok h' ∧
      Moved h h' f (movedTail f t source l) t source l := by
  obtain ⟨h₁, hrun, hlists, hoff, hnext, hprev, hunlink⟩ := taskUnlinkFrom_source hf ht
  obtain ⟨h', hmove, hlists', hlink⟩ := taskListMoveTail_spec hlists hoff hnext hprev l
  refine ⟨h', ?_, .of_unlinked hf hlists' hunlink hlink⟩
  rw [← hmove]
  simp only [taskListMoveTail, assertNotNull, ok_bind, hrun, taskUnlinkFrom_none hprev hnext]

/-- **The two moves** are those on the sequences, from any list or none to
any list, the same one included. -/
theorem taskListMove_moved (hf : Lists h f) (ht : OnSource h f t source) (l : L) :
    (∃ h', taskListMoveTail h (some t) source (some l) = .ok h' ∧
      Moved h h' f (movedTail f t source l) t source l) ∧
    ∃ h', taskListMoveHead h (some t) source (some l) = .ok h' ∧
      Moved h h' f (movedHead f t source l) t source l :=
  ⟨taskListMoveTail_moved hf ht l, taskListMoveHead_moved hf ht l⟩

end

/-! ## Two lists -/

/-- Three tasks on one list, a fourth on the other. -/
def twoQueues (first : Bool) : List Nat := if first then [1, 2, 3] else [4]

/-- The two lists in memory. -/
def twoLists : TaskHeap Nat Bool where
  task u :=
    { pcb := none
      listNext := if u = 1 then some 2 else if u = 2 then some 3 else none
      listPrev := if u = 2 then some 1 else if u = 3 then some 2 else none
      state := .ready
      spl := 0 }
  list first := if first then ⟨some 1, some 3⟩ else ⟨some 4, some 4⟩

theorem lists_twoLists : Lists twoLists twoQueues where
  rep first := by
    cases first with
    | false => exact ⟨rfl, rfl, by decide, rfl, rfl, trivial⟩
    | true => exact ⟨rfl, rfl, by decide, rfl, rfl, rfl, rfl, rfl, rfl, trivial⟩
  disjoint l k t hl hk := by
    cases l <;> cases k <;> simp [twoQueues] at hl hk ⊢ <;> omega

/-- The task in the middle of the first list, moved to the second. -/
theorem taskListMove_moved_twoLists :
    (∃ h', taskListMoveTail twoLists (some 2) (some true) (some false) = .ok h' ∧
      Moved twoLists h' twoQueues (movedTail twoQueues 2 (some true) false) 2 (some true) false) ∧
    ∃ h', taskListMoveHead twoLists (some 2) (some true) (some false) = .ok h' ∧
      Moved twoLists h' twoQueues (movedHead twoQueues 2 (some true) false) 2 (some true)
        false := by
  have ht : OnSource twoLists twoQueues 2 (some true) := by
    change 2 ∈ twoQueues true
    decide
  exact taskListMove_moved lists_twoLists ht false

example : movedTail twoQueues 2 (some true) false true = [1, 3] ∧
    movedTail twoQueues 2 (some true) false false = [4, 2] := by decide

example : movedTail twoQueues 2 (some true) true true = [1, 3, 2] := by decide

end TeachingOs
