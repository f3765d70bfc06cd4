import Mathlib.Tactic.SplitIfs
import TeachingOs.Basic
import TeachingOs.Lib.DList
import TeachingOs.Lib.Except

/-!
# TeachingOs.Task.List

`struct task`, and the list functions of `kern/task/task.c`.  A task is
named by its address, a value of `T`, and a `struct task *` is an
`Option T`; a `struct task_list` is named by a value of `L`.

`Lists h f` says that every list `l` of the heap is a well-formed list of
the tasks `f l`, and that no task is on two of them.  The specifications
below say what each function does to `f`, and that nothing but links change.
-/

namespace TeachingOs

open DList

/-! ## Tasks -/

/-- `enum task_state`. -/
inductive TaskState where
  | ready
  | running
  | sleeping
  | zombie
deriving DecidableEq, Repr

/-- A call in progress on a kernel stack, at the statement it will execute
next.  The first six are the points of `mi_switch`, with the locals that are
live there; `startup` is `mi_task_startup` before `spl0`, `trap` is
`aarch64_trapentry` during `preempt_fire`, and `lost` is whatever runs after
a switch to a pcb that was never set up. -/
inductive Activation (T : Type) where
  | entry (into : TaskState)
  | chosen (into : TaskState) (next : Option T)
  | enqueued (next : Option T)
  | masked (next : Option T) (spl : Int)
  | dispatched (prev : Option T) (spl : Int)
  | switched (spl : Int)
  | startup (fn userdata : Word)
  | trap (oldspl : Int)
  | lost
deriving DecidableEq, Repr

/-- `struct task`; `pcb` is the control stack saved behind `pcb.sp`,
innermost call first. -/
structure Task (T : Type) where
  pcb : Option (List (Activation T))
  listNext : Option T
  listPrev : Option T
  state : TaskState
  spl : Int

/-- `struct task_list`. -/
structure TaskList (T : Type) where
  head : Option T
  tail : Option T

/-- All tasks and all task lists. -/
structure TaskHeap (T L : Type) where
  task : T → Task T
  list : L → TaskList T

namespace TaskHeap

variable {T L : Type} [DecidableEq T] [DecidableEq L]

def next (h : TaskHeap T L) (t : T) : Option T := (h.task t).listNext

def prev (h : TaskHeap T L) (t : T) : Option T := (h.task t).listPrev

/-- `if (p) p->list_next = v`. -/
def setNext (h : TaskHeap T L) (p v : Option T) : TaskHeap T L :=
  match p with
  | none => h
  | some t => { h with task := Function.update h.task t { h.task t with listNext := v } }

/-- `if (p) p->list_prev = v`. -/
def setPrev (h : TaskHeap T L) (p v : Option T) : TaskHeap T L :=
  match p with
  | none => h
  | some t => { h with task := Function.update h.task t { h.task t with listPrev := v } }

/-- `l->head = v`. -/
def setHead (h : TaskHeap T L) (l : L) (v : Option T) : TaskHeap T L :=
  { h with list := Function.update h.list l { h.list l with head := v } }

/-- `l->tail = v`. -/
def setTail (h : TaskHeap T L) (l : L) (v : Option T) : TaskHeap T L :=
  { h with list := Function.update h.list l { h.list l with tail := v } }

end TaskHeap

/-! ## The list functions -/

/-- `assert(p != NULL)`, giving the pointer that is dereferenced after it. -/
def assertNotNull {α : Type} (func name : String) (p : Option α) : Except Panic α :=
  match p with
  | none => .error (.assertion func (name ++ " != NULL"))
  | some a => .ok a

section Functions

variable {T L : Type} [DecidableEq T] [DecidableEq L]

/-- The block of `task_unlink_from` under `if(task_list)`. -/
def TaskHeap.unlinkEnds (h : TaskHeap T L) (t : T) (l : L) : TaskHeap T L :=
  let h := if (h.list l).head = some t then h.setHead l (h.next t) else h
  if (h.list l).tail = some t then h.setTail l (h.prev t) else h

/-- `task_unlink_from`. -/
def taskUnlinkFrom (h : TaskHeap T L) (task : Option T) (taskList : Option L) :
    Except Panic (TaskHeap T L) := do
  let t ← assertNotNull "task_unlink_from" "task" task
  let h := h.setNext (h.prev t) (h.next t)
  let h := h.setPrev (h.next t) (h.prev t)
  let h := match taskList with
    | none => h
    | some l => h.unlinkEnds t l
  let h := h.setNext (some t) none
  return h.setPrev (some t) none

/-- The stores of `task_list_move_head` after `task_unlink_from`. -/
def TaskHeap.linkHead (h : TaskHeap T L) (t : T) (l : L) : TaskHeap T L :=
  let h := h.setNext (some t) (h.list l).head
  let h := if h.next t ≠ none then h.setPrev (h.next t) (some t) else h.setTail l (some t)
  h.setHead l (some t)

/-- `task_list_move_head`. -/
def taskListMoveHead (h : TaskHeap T L) (task : Option T) (source target : Option L) :
    Except Panic (TaskHeap T L) := do
  let t ← assertNotNull "task_list_move_head" "task" task
  let l ← assertNotNull "task_list_move_head" "to" target
  let h ← taskUnlinkFrom h task source
  let h := h.linkHead t l
  assert "task_list_move_head" "task->list_prev == NULL" (h.prev t = none)
  return h

/-- The stores of `task_list_move_tail` after `task_unlink_from`. -/
def TaskHeap.linkTail (h : TaskHeap T L) (t : T) (l : L) : TaskHeap T L :=
  let h := h.setPrev (some t) (h.list l).tail
  let h := if h.prev t ≠ none then h.setNext (h.prev t) (some t) else h.setHead l (some t)
  h.setTail l (some t)

/-- `task_list_move_tail`. -/
def taskListMoveTail (h : TaskHeap T L) (task : Option T) (source target : Option L) :
    Except Panic (TaskHeap T L) := do
  let t ← assertNotNull "task_list_move_tail" "task" task
  let l ← assertNotNull "task_list_move_tail" "to" target
  let h ← taskUnlinkFrom h task source
  let h := h.linkTail t l
  assert "task_list_move_tail" "task->list_next == NULL" (h.next t = none)
  return h

end Functions

/-! ## Stores -/

namespace TaskHeap

variable {T L : Type}

section Links

variable [DecidableEq T] (h : TaskHeap T L) (p v : Option T)

@[simp] theorem next_setNext : (h.setNext p v).next = setAt h.next p v := by
  cases p with
  | none => rfl
  | some t =>
      funext u
      by_cases hu : u = t <;> simp [setNext, next, hu]

@[simp] theorem prev_setNext : (h.setNext p v).prev = h.prev := by
  cases p with
  | none => rfl
  | some t =>
      funext u
      by_cases hu : u = t <;> simp [setNext, prev, hu]

@[simp] theorem list_setNext : (h.setNext p v).list = h.list := by cases p <;> rfl

@[simp] theorem next_setPrev : (h.setPrev p v).next = h.next := by
  cases p with
  | none => rfl
  | some t =>
      funext u
      by_cases hu : u = t <;> simp [setPrev, next, hu]

@[simp] theorem prev_setPrev : (h.setPrev p v).prev = setAt h.prev p v := by
  cases p with
  | none => rfl
  | some t =>
      funext u
      by_cases hu : u = t <;> simp [setPrev, prev, hu]

@[simp] theorem list_setPrev : (h.setPrev p v).list = h.list := by cases p <;> rfl

/-- Storing the link that is there changes nothing. -/
theorem setNext_eq_self {t : T} (ht : h.next t = v) : h.setNext (some t) v = h := by
  subst ht
  simp [setNext, next]

theorem setPrev_eq_self {t : T} (ht : h.prev t = v) : h.setPrev (some t) v = h := by
  subst ht
  simp [setPrev, prev]

end Links

section Ends

variable [DecidableEq L] (h : TaskHeap T L) (v : Option T) (l : L)

@[simp] theorem next_setHead : (h.setHead l v).next = h.next := rfl

@[simp] theorem prev_setHead : (h.setHead l v).prev = h.prev := rfl

@[simp] theorem next_setTail : (h.setTail l v).next = h.next := rfl

@[simp] theorem prev_setTail : (h.setTail l v).prev = h.prev := rfl

@[simp] theorem list_setHead (k : L) :
    (h.setHead l v).list k = if k = l then { h.list l with head := v } else h.list k := by
  simp only [setHead, Function.update_apply]

@[simp] theorem list_setTail (k : L) :
    (h.setTail l v).list k = if k = l then { h.list l with tail := v } else h.list k := by
  simp only [setTail, Function.update_apply]

end Ends

/-- A task without its links. -/
def info (h : TaskHeap T L) (t : T) : Task T := { h.task t with listNext := none, listPrev := none }

section Info

variable [DecidableEq T] [DecidableEq L] (h : TaskHeap T L) (p v : Option T) (l : L)

omit [DecidableEq L] in
@[simp] theorem info_setNext : (h.setNext p v).info = h.info := by
  cases p with
  | none => rfl
  | some t =>
      funext u
      by_cases hu : u = t <;> simp [setNext, info, hu]

omit [DecidableEq L] in
@[simp] theorem info_setPrev : (h.setPrev p v).info = h.info := by
  cases p with
  | none => rfl
  | some t =>
      funext u
      by_cases hu : u = t <;> simp [setPrev, info, hu]

omit [DecidableEq T] in
@[simp] theorem info_setHead : (h.setHead l v).info = h.info := rfl

omit [DecidableEq T] in
@[simp] theorem info_setTail : (h.setTail l v).info = h.info := rfl

end Info

section UnlinkEnds

variable [DecidableEq T] [DecidableEq L] (h : TaskHeap T L) (t : T) (l : L)

@[simp] theorem next_unlinkEnds : (h.unlinkEnds t l).next = h.next := by
  simp only [unlinkEnds]
  split_ifs <;> rfl

@[simp] theorem prev_unlinkEnds : (h.unlinkEnds t l).prev = h.prev := by
  simp only [unlinkEnds]
  split_ifs <;> rfl

@[simp] theorem info_unlinkEnds : (h.unlinkEnds t l).info = h.info := by
  simp only [unlinkEnds]
  split_ifs <;> rfl

@[simp] theorem list_unlinkEnds (k : L) : (h.unlinkEnds t l).list k =
    if k = l then
      { head := if (h.list l).head = some t then h.next t else (h.list l).head
        tail := if (h.list l).tail = some t then h.prev t else (h.list l).tail }
    else h.list k := by
  simp only [unlinkEnds]
  by_cases hk : k = l <;> by_cases hh : (h.list l).head = some t <;>
    by_cases ht : (h.list l).tail = some t <;> simp [hk, hh, ht]

end UnlinkEnds

section Link

variable [DecidableEq T] [DecidableEq L] (h : TaskHeap T L) (t : T) (l : L)

@[simp] theorem next_linkHead :
    (h.linkHead t l).next = Function.update h.next t (h.list l).head := by
  simp only [linkHead]
  split_ifs <;> simp

@[simp] theorem prev_linkHead : (h.linkHead t l).prev = setAt h.prev (h.list l).head (some t) := by
  cases hh : (h.list l).head <;> simp [linkHead, hh]

@[simp] theorem info_linkHead : (h.linkHead t l).info = h.info := by
  simp only [linkHead]
  split_ifs <;> simp

@[simp] theorem list_linkHead (k : L) : (h.linkHead t l).list k =
    if k = l then
      { head := some t, tail := if (h.list l).head = none then some t else (h.list l).tail }
    else h.list k := by
  by_cases hk : k = l <;> cases hh : (h.list l).head <;> simp [linkHead, hh, hk]

@[simp] theorem next_linkTail : (h.linkTail t l).next = setAt h.next (h.list l).tail (some t) := by
  cases hh : (h.list l).tail <;> simp [linkTail, hh]

@[simp] theorem prev_linkTail :
    (h.linkTail t l).prev = Function.update h.prev t (h.list l).tail := by
  simp only [linkTail]
  split_ifs <;> simp

@[simp] theorem info_linkTail : (h.linkTail t l).info = h.info := by
  simp only [linkTail]
  split_ifs <;> simp

@[simp] theorem list_linkTail (k : L) : (h.linkTail t l).list k =
    if k = l then
      { head := if (h.list l).tail = none then some t else (h.list l).head, tail := some t }
    else h.list k := by
  by_cases hk : k = l <;> cases hh : (h.list l).tail <;> simp [linkTail, hh, hk]

end Link

end TaskHeap

/-! ## Well-formed lists -/

section Specs

variable {T L : Type}

/-- Every list `l` is well formed and holds the tasks `f l`; no task is on
two lists. -/
structure Lists (h : TaskHeap T L) (f : L → List T) : Prop where
  rep : ∀ l, Rep h.next h.prev (h.list l).head (h.list l).tail (f l)
  disjoint : ∀ ⦃l k t⦄, t ∈ f l → t ∈ f k → l = k

/-- Nothing but links differs, and links only on tasks satisfying `on`. -/
structure LinksDiffer (h h' : TaskHeap T L) (on : T → Prop) : Prop where
  info : h'.info = h.info
  next : ∀ u, ¬ on u → h'.next u = h.next u
  prev : ∀ u, ¬ on u → h'.prev u = h.prev u

variable [DecidableEq T] [DecidableEq L] {h : TaskHeap T L} {f : L → List T} {l : L} {t : T}

/-- The stores of `task_unlink_from` on a task that is not its own
neighbour. -/
theorem taskUnlinkFrom_eq (hprev : h.prev t ≠ some t) (hnext : h.next t ≠ some t) :
    ∃ h', taskUnlinkFrom h (some t) (some l) = .ok h' ∧
      h'.next = Function.update (setAt h.next (h.prev t) (h.next t)) t none ∧
      h'.prev = Function.update (setAt h.prev (h.next t) (h.prev t)) t none ∧
      (∀ k, h'.list k = if k = l then
        { head := if (h.list l).head = some t then h.next t else (h.list l).head
          tail := if (h.list l).tail = some t then h.prev t else (h.list l).tail }
        else h.list k) ∧ h'.info = h.info := by
  have hn : setAt h.next (h.prev t) (h.next t) t = h.next t := setAt_of_ne hprev
  have hp : setAt h.prev (h.next t) (h.prev t) t = h.prev t := setAt_of_ne hnext
  refine ⟨_, rfl, ?_, ?_, fun k => ?_, ?_⟩
  · simp [hn]
  · simp [hn]
  · simp [hn, hp]
  · simp

/-- A task without links is taken out of no list. -/
theorem taskUnlinkFrom_none (hprev : h.prev t = none) (hnext : h.next t = none) :
    taskUnlinkFrom h (some t) (none : Option L) = .ok h := by
  have hbody : taskUnlinkFrom h (some t) (none : Option L) =
      .ok (((((h.setNext (h.prev t) (h.next t)).setPrev
        ((h.setNext (h.prev t) (h.next t)).next t)
        ((h.setNext (h.prev t) (h.next t)).prev t)).setNext (some t) none).setPrev
          (some t) none)) := rfl
  have h1 : h.setNext (h.prev t) (h.next t) = h := by rw [hprev]; rfl
  have h2 : h.setPrev (h.next t) (h.prev t) = h := by rw [hnext]; rfl
  rw [hbody, h1, h2, h.setNext_eq_self none hnext, h.setPrev_eq_self none hprev]

/-- `task_unlink_from` stores to links only. -/
theorem info_taskUnlinkFrom {h' : TaskHeap T L} {task : Option T} {taskList : Option L}
    (hrun : taskUnlinkFrom h task taskList = .ok h') : h'.info = h.info := by
  cases task with
  | none => cases hrun
  | some t =>
      cases taskList <;> (cases hrun; simp)

/-- `task_list_move_head` stores to links only. -/
theorem info_taskListMoveHead {h' : TaskHeap T L} {task : Option T} {source target : Option L}
    (hrun : taskListMoveHead h task source target = .ok h') : h'.info = h.info := by
  simp only [taskListMoveHead, bind_eq_ok, pure_eq_ok, Except.ok.injEq] at hrun
  obtain ⟨t, -, l, -, h₁, hunlink, -, -, rfl⟩ := hrun
  rw [TaskHeap.info_linkHead, info_taskUnlinkFrom hunlink]

/-- `task_list_move_tail` stores to links only. -/
theorem info_taskListMoveTail {h' : TaskHeap T L} {task : Option T} {source target : Option L}
    (hrun : taskListMoveTail h task source target = .ok h') : h'.info = h.info := by
  simp only [taskListMoveTail, bind_eq_ok, pure_eq_ok, Except.ok.injEq] at hrun
  obtain ⟨t, -, l, -, h₁, hunlink, -, -, rfl⟩ := hrun
  rw [TaskHeap.info_linkTail, info_taskUnlinkFrom hunlink]

/-- **Unlinking** a task from the list it is on. -/
theorem taskUnlinkFrom_spec (hf : Lists h f) (ht : t ∈ f l) :
    ∃ h', taskUnlinkFrom h (some t) (some l) = .ok h' ∧
      Lists h' (Function.update f l ((f l).erase t)) ∧ h'.next t = none ∧ h'.prev t = none ∧
      LinksDiffer h h' (· ∈ f l) := by
  obtain ⟨l₁, l₂, hsplit⟩ := List.append_of_mem ht
  have hrep := hsplit ▸ hf.rep l
  have hnodup := hrep.nodup
  rw [List.nodup_middle, List.nodup_cons, List.mem_append, not_or] at hnodup
  obtain ⟨hprev, hnext⟩ := hrep.links
  have hp : h.prev t ≠ some t := hprev ▸ ne_getLast? hnodup.1.1
  have hn : h.next t ≠ some t := hnext ▸ ne_head? hnodup.1.2
  obtain ⟨h', hrun, hnext', hprev', hlist, hinfo⟩ := taskUnlinkFrom_eq (l := l) hp hn
  have herase : (f l).erase t = l₁ ++ l₂ := by
    rw [hsplit, List.erase_append_right _ hnodup.1.1, List.erase_cons_head]
  -- a task outside the list is neither `t` nor one of its neighbours
  have hoffp : ∀ u, u ∉ f l → h.prev t ≠ some u := by
    intro u hu
    rw [hprev]
    exact ne_getLast? fun hm => hu (hsplit ▸ List.mem_append_left _ hm)
  have hoffn : ∀ u, u ∉ f l → h.next t ≠ some u := by
    intro u hu
    rw [hnext]
    exact ne_head? fun hm => hu (hsplit ▸ List.mem_append_right _ (List.mem_cons_of_mem t hm))
  have hdiff : LinksDiffer h h' (· ∈ f l) := by
    refine ⟨hinfo, fun u hu => ?_, fun u hu => ?_⟩
    · rw [hnext', Function.update_of_ne (ne_of_mem_of_not_mem ht hu).symm, setAt_of_ne (hoffp u hu)]
    · rw [hprev', Function.update_of_ne (ne_of_mem_of_not_mem ht hu).symm, setAt_of_ne (hoffn u hu)]
  refine ⟨h', hrun, ⟨fun k => ?_, ?_⟩, by simp [hnext'], by simp [hprev'], hdiff⟩
  · by_cases hk : k = l
    · subst hk
      rw [Function.update_self, herase, hlist, if_pos rfl, hnext', hprev', hnext, hprev]
      exact hrep.unlink
    · rw [Function.update_of_ne hk, hlist, if_neg hk]
      refine (hf.rep k).congr (fun u hu => hdiff.next u ?_) fun u hu => hdiff.prev u ?_
      · exact fun hul => hk (hf.disjoint hu hul)
      · exact fun hul => hk (hf.disjoint hu hul)
  · have hsub : ∀ k u, u ∈ Function.update f l ((f l).erase t) k → u ∈ f k := by
      intro k u hu
      by_cases hk : k = l
      · subst hk
        rw [Function.update_self] at hu
        exact List.mem_of_mem_erase hu
      · rwa [Function.update_of_ne hk] at hu
    intro k k' u hu hu'
    exact hf.disjoint (hsub k u hu) (hsub k' u hu')

omit [DecidableEq T] in
/-- Adding a task that is on no list keeps the lists disjoint. -/
theorem Lists.of_insert {h' : TaskHeap T L} {l' : List T} (hf : Lists h f) (hoff : ∀ k, t ∉ f k)
    (hmem : ∀ u, u ∈ l' ↔ u = t ∨ u ∈ f l)
    (hrep : Rep h'.next h'.prev (h'.list l).head (h'.list l).tail l')
    (hlist : ∀ k, k ≠ l → h'.list k = h.list k)
    (hdiff : LinksDiffer h h' fun u => u = t ∨ u ∈ f l) : Lists h' (Function.update f l l') := by
  have hin : ∀ k u, u ∈ Function.update f l l' k → (u = t ∧ k = l) ∨ u ∈ f k := by
    intro k u hu
    by_cases hk : k = l
    · subst hk
      rw [Function.update_self, hmem] at hu
      exact hu.imp (fun h => ⟨h, rfl⟩) id
    · rw [Function.update_of_ne hk] at hu
      exact Or.inr hu
  refine ⟨fun k => ?_, fun k k' u hu hu' => ?_⟩
  · by_cases hk : k = l
    · subst hk
      rwa [Function.update_self]
    · have hu : ∀ u ∈ f k, ¬ (u = t ∨ u ∈ f l) := by
        rintro u hu (rfl | hul)
        · exact hoff k hu
        · exact hk (hf.disjoint hu hul)
      rw [Function.update_of_ne hk, hlist k hk]
      exact (hf.rep k).congr (fun u hk => hdiff.next u (hu u hk)) fun u hk => hdiff.prev u (hu u hk)
  · rcases hin k u hu with ⟨rfl, rfl⟩ | hk <;> rcases hin k' u hu' with ⟨h, rfl⟩ | hk'
    · rfl
    · exact absurd hk' (hoff k')
    · exact absurd (h ▸ hk) (hoff k)
    · exact hf.disjoint hk hk'

/-- **Pushing** a task that is on no list in front of one. -/
theorem taskListMoveHead_spec (hf : Lists h f) (hoff : ∀ k, t ∉ f k) (hnext : h.next t = none)
    (hprev : h.prev t = none) (l : L) :
    ∃ h', taskListMoveHead h (some t) none (some l) = .ok h' ∧
      Lists h' (Function.update f l (t :: f l)) ∧ LinksDiffer h h' fun u => u = t ∨ u ∈ f l := by
  have hrep := hf.rep l
  have hself : (h.list l).head ≠ some t := hrep.head ▸ ne_head? (hoff l)
  have hassert : (h.linkHead t l).prev t = none := by
    rw [TaskHeap.prev_linkHead, setAt_of_ne hself, hprev]
  have hdiff : LinksDiffer h (h.linkHead t l) fun u => u = t ∨ u ∈ f l := by
    refine ⟨by simp, fun u hu => ?_, fun u hu => ?_⟩
    · rw [TaskHeap.next_linkHead, Function.update_of_ne fun h => hu (Or.inl h)]
    · rw [TaskHeap.prev_linkHead, hrep.head, setAt_of_ne (ne_head? fun h => hu (Or.inr h))]
  refine ⟨h.linkHead t l, ?_, hf.of_insert hoff (by simp) ?_ (by simp +contextual) hdiff, hdiff⟩
  · simp only [taskListMoveHead, assertNotNull, ok_bind, taskUnlinkFrom_none hprev hnext,
      assert_of_true hassert, pure_eq_ok]
  · rw [TaskHeap.next_linkHead, TaskHeap.prev_linkHead, TaskHeap.list_linkHead, if_pos rfl]
    exact hrep.pushFront (hoff l) hprev

/-- **Appending** a task that is on no list. -/
theorem taskListMoveTail_spec (hf : Lists h f) (hoff : ∀ k, t ∉ f k) (hnext : h.next t = none)
    (hprev : h.prev t = none) (l : L) :
    ∃ h', taskListMoveTail h (some t) none (some l) = .ok h' ∧
      Lists h' (Function.update f l (f l ++ [t])) ∧ LinksDiffer h h' fun u => u = t ∨ u ∈ f l := by
  have hrep := hf.rep l
  have hself : (h.list l).tail ≠ some t := hrep.tail ▸ ne_getLast? (hoff l)
  have hassert : (h.linkTail t l).next t = none := by
    rw [TaskHeap.next_linkTail, setAt_of_ne hself, hnext]
  have hdiff : LinksDiffer h (h.linkTail t l) fun u => u = t ∨ u ∈ f l := by
    refine ⟨by simp, fun u hu => ?_, fun u hu => ?_⟩
    · rw [TaskHeap.next_linkTail, hrep.tail, setAt_of_ne (ne_getLast? fun h => hu (Or.inr h))]
    · rw [TaskHeap.prev_linkTail, Function.update_of_ne fun h => hu (Or.inl h)]
  refine ⟨h.linkTail t l, ?_, hf.of_insert hoff (by simp [or_comm]) ?_ (by simp +contextual) hdiff,
    hdiff⟩
  · simp only [taskListMoveTail, assertNotNull, ok_bind, taskUnlinkFrom_none hprev hnext,
      assert_of_true hassert, pure_eq_ok]
  · rw [TaskHeap.next_linkTail, TaskHeap.prev_linkTail, TaskHeap.list_linkTail, if_pos rfl]
    exact hrep.pushBack (hoff l) hnext

end Specs

end TeachingOs
