import TeachingOs.Task.Invariant
import TeachingOs.Task.Points

/-!
# TeachingOs.Task.Window

The window of `task_start`: from `to->head = task` on the scheduler finds a
task whose pcb `md_init_new_task_pcb` has yet to write.

`Point.window` names the task at each point, `Point.Calm` the points that may
be on the stack meanwhile, and `Point.Ok` the tasks that the points hold on
to.  `Linked` says the same of the links, and every statement of the list
functions keeps it.
-/

namespace TeachingOs

open DList

variable {T : Type}

/-! ## The window of task_start -/

/-- The task that a call of `task_start` has put on the list and not yet
given its whole context. -/
def Point.window : Point T → Option T
  | .starting t _ _ todo => if .setHead .tasksReady ∈ todo then none else some t
  | .pcb t _ _ todo => if todo = [] then none else some t
  | _ => none

/-- A statement of `task_start`. -/
def Point.InStart : Point T → Prop
  | .starting _ _ _ _ => True
  | .pcb _ _ _ _ => True
  | _ => False

/-- What may be on the stack while the window is open: `task_start`, and
interrupts that do not yield. -/
def Point.Calm : Point T → Prop
  | .starting _ _ _ _ => True
  | .pcb _ _ _ _ => True
  | .trap0 n => n = 0
  | .trap1 n _ => n = 0
  | .trap2 n _ => n = 0
  | .handler n _ => n = 0
  | .trap3 _ => True
  | .trap4 _ => True
  | .eret => True
  | .back _ => True
  | _ => False

/-- The tasks that a point may still switch to or link are good, and the
others are known. -/
def Point.Ok (good known : T → Prop) : Point T → Prop
  | .chosen _ next => ∀ n, next = some n → good n
  | .enqueueing next t _ => (∀ n, next = some n → good n) ∧ good t
  | .enqueued next => ∀ n, next = some n → good n
  | .awaiting next => ∀ n, next = some n → good n
  | .masked next _ => ∀ n, next = some n → good n
  | .unlinking _ _ t _ => good t
  | .starting t _ _ todo => known t ∧ todo <:+ moveHeadStmts none .tasksReady
  | .pcb t _ _ _ => known t
  | _ => True

theorem Point.Ok.mono {good good' known known' : T → Prop} {p : Point T} (h : p.Ok good known)
    (hg : ∀ n, good n → good' n) (hk : ∀ n, known n → known' n) : p.Ok good' known' := by
  unfold Ok at h ⊢
  cases p with
  | chosen | enqueued | awaiting | masked => exact fun n hn => hg n (h n hn)
  | enqueueing => exact ⟨fun n hn => hg n (h.1 n hn), hg _ h.2⟩
  | unlinking => exact hg _ h
  | pcb => exact hk _ h
  | starting => exact ⟨hk _ h.1, h.2⟩
  | _ => trivial

theorem Point.Ok.known_of_window {good known : T → Prop} {p : Point T} {t : T}
    (h : p.Ok good known) (hw : p.window = some t) : known t := by
  unfold window at hw
  split at hw
  · split_ifs at hw
    cases hw
    exact h.1
  · split_ifs at hw
    cases hw
    exact h
  · cases hw

theorem Point.inStart_of_window {p : Point T} {t : T} (hw : p.window = some t) : p.InStart := by
  unfold window at hw
  split at hw
  · trivial
  · trivial
  · cases hw

/-! ## Links -/

/-- The scheduler finds good tasks at the heads, and behind every known
task. -/
structure Linked (good known : T → Prop) (h : TaskHeap T ListName) : Prop where
  head : ∀ l n, (h.list l).head = some n → good n
  next : ∀ t, known t → ∀ n, h.next t = some n → good n

/-- The statements that make a task reachable. -/
def ListStmt.Links : ListStmt → Prop
  | .setHead _ => True
  | .tailNext _ => True
  | _ => False

section Linked

variable {good known : T → Prop} {h h' : TaskHeap T ListName}

theorem Linked.mono {good' known' : T → Prop} (hl : Linked good known h)
    (hg : ∀ n, good n → good' n) (hk : ∀ n, known' n → known n) : Linked good' known' h :=
  ⟨fun l n hn => hg n (hl.head l n hn), fun t ht n hn => hg n (hl.next t (hk t ht) n hn)⟩

/-- Only the links and the heads count. -/
theorem Linked.congr (hl : Linked good known h) (hn : h'.next = h.next)
    (hh : ∀ l, (h'.list l).head = (h.list l).head) : Linked good known h' :=
  ⟨fun l n hl' => hl.head l n (hh l ▸ hl'), fun t ht n ht' => hl.next t ht n (hn ▸ ht')⟩

variable [DecidableEq T]

theorem Linked.setNext (hl : Linked good known h) {p v : Option T}
    (hv : ∀ n, v = some n → good n) : Linked good known (h.setNext p v) := by
  refine ⟨fun l n hn => hl.head l n (by simpa using hn), fun t ht n hn => ?_⟩
  rw [TaskHeap.next_setNext] at hn
  by_cases hp : p = some t
  · subst hp
    rw [setAt_some, Function.update_self] at hn
    exact hv n hn
  · rw [setAt_of_ne hp] at hn
    exact hl.next t ht n hn

omit [DecidableEq T] in
theorem Linked.setHead (hl : Linked good known h) {l : ListName} {v : Option T}
    (hv : ∀ n, v = some n → good n) : Linked good known (h.setHead l v) := by
  refine ⟨fun l' n hn => ?_, hl.next⟩
  rw [TaskHeap.list_setHead] at hn
  split_ifs at hn
  · exact hv n hn
  · exact hl.head l' n hn

theorem Linked.setPrev (hl : Linked good known h) (p v : Option T) :
    Linked good known (h.setPrev p v) :=
  hl.congr (by simp) (by simp)

omit [DecidableEq T] in
theorem Linked.setTail (hl : Linked good known h) (l : ListName) (v : Option T) :
    Linked good known (h.setTail l v) := by
  refine hl.congr rfl fun l' => ?_
  rw [TaskHeap.list_setTail]
  split_ifs with heq
  · rw [heq]
  · rfl

theorem Linked.setSpl (hl : Linked good known h) (p : Option T) (v : Int) :
    Linked good known (h.setSpl p v) :=
  hl.congr (by simp) (by simp)

/-- **A list statement** of a known task keeps the links good, if the task it
makes reachable is. -/
theorem Linked.exec {t : T} {x : ListStmt} (hl : Linked good known h) (ht : known t)
    (hx : x.Links → good t) (hrun : x.exec t h = .ok h') : Linked good known h' := by
  have hself : x.Links → ∀ n, some t = some n → good n :=
    fun hlinks n hn => Option.some.inj hn ▸ hx hlinks
  cases x with
  | prevNext =>
      cases hrun
      exact hl.setNext (hl.next t ht)
  | nextPrev | clearPrev | tailPrev =>
      cases hrun
      exact hl.setPrev _ _
  | unlinkHead l =>
      cases hrun
      split_ifs
      · exact hl.setHead (hl.next t ht)
      · exact hl
  | unlinkTail l =>
      cases hrun
      split_ifs
      · exact hl.setTail _ _
      · exact hl
  | clearNext =>
      cases hrun
      exact hl.setNext (by simp)
  | headNext l =>
      cases hrun
      exact hl.setNext (hl.head l)
  | headPrev l =>
      cases hrun
      split_ifs
      · exact hl.setPrev _ _
      · exact hl.setTail _ _
  | setHead l =>
      cases hrun
      exact hl.setHead (hself trivial)
  | tailNext l =>
      cases hrun
      split_ifs
      · exact hl.setNext (hself trivial)
      · exact hl.setHead (hself trivial)
  | setTail l =>
      cases hrun
      exact hl.setTail _ _
  | assertPrev | assertNext =>
      simp only [ListStmt.exec, bind_eq_ok, pure_eq_ok, Except.ok.injEq] at hrun
      obtain ⟨-, -, rfl⟩ := hrun
      exact hl

end Linked

end TeachingOs
