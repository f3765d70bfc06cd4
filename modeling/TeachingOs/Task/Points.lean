import TeachingOs.Task.Sched
import TeachingOs.Lib.History

/-!
# TeachingOs.Task.Points

The functions of `spl.c`, `trap.c`, `pcb.c` and `task.c` one statement at a
time.

`TeachingOs.Task.Sched` executes `splhigh`, `spl0`, `aarch64_trapentry`, the
list functions and `md_init_new_task_pcb` as single statements.  Here each
of their own statements is a `Point`, so that an interrupt can arrive between
any two of them, and the pcb of a task says how much of its context has been
written.  `TeachingOs.Task.Atomic` shows that without an interrupt they add
up to the statements of `TeachingOs.Task.Sched`.
-/

namespace TeachingOs

open DList

theorem assertNotNull_eq_ok {α : Type} {func name : String} {p : Option α} {a : α} :
    assertNotNull func name p = .ok a ↔ p = some a := by
  cases p <;> simp [assertNotNull]

/-! ## The statements of the list functions -/

/-- A statement of `task_unlink_from`, `task_list_move_head` or
`task_list_move_tail`, named by what it stores to or checks. -/
inductive ListStmt where
  | prevNext
  | nextPrev
  | unlinkHead (l : ListName)
  | unlinkTail (l : ListName)
  | clearNext
  | clearPrev
  | headNext (l : ListName)
  | headPrev (l : ListName)
  | setHead (l : ListName)
  | assertPrev
  | tailPrev (l : ListName)
  | tailNext (l : ListName)
  | setTail (l : ListName)
  | assertNext
deriving DecidableEq, Repr

/-- The statements of `task_unlink_from`. -/
def unlinkStmts : Option ListName → List ListStmt
  | none => [.prevNext, .nextPrev, .clearNext, .clearPrev]
  | some l => [.prevNext, .nextPrev, .unlinkHead l, .unlinkTail l, .clearNext, .clearPrev]

/-- The statements of `task_list_move_head`. -/
def moveHeadStmts (source : Option ListName) (l : ListName) : List ListStmt :=
  unlinkStmts source ++ [.headNext l, .headPrev l, .setHead l, .assertPrev]

/-- The statements of `task_list_move_tail`. -/
def moveTailStmts (source : Option ListName) (l : ListName) : List ListStmt :=
  unlinkStmts source ++ [.tailPrev l, .tailNext l, .setTail l, .assertNext]

section ListStmts

variable {T : Type} [DecidableEq T]

/-- One statement, with `t` for the parameter `task`. -/
def ListStmt.exec (t : T) (h : TaskHeap T ListName) :
    ListStmt → Except Panic (TaskHeap T ListName)
  | .prevNext => .ok (h.setNext (h.prev t) (h.next t))
  | .nextPrev => .ok (h.setPrev (h.next t) (h.prev t))
  | .unlinkHead l => .ok (if (h.list l).head = some t then h.setHead l (h.next t) else h)
  | .unlinkTail l => .ok (if (h.list l).tail = some t then h.setTail l (h.prev t) else h)
  | .clearNext => .ok (h.setNext (some t) none)
  | .clearPrev => .ok (h.setPrev (some t) none)
  | .headNext l => .ok (h.setNext (some t) (h.list l).head)
  | .headPrev l =>
    .ok (if h.next t ≠ none then h.setPrev (h.next t) (some t) else h.setTail l (some t))
  | .setHead l => .ok (h.setHead l (some t))
  | .assertPrev => do
    assert "task_list_move_head" "task->list_prev == NULL" (h.prev t = none)
    return h
  | .tailPrev l => .ok (h.setPrev (some t) (h.list l).tail)
  | .tailNext l =>
    .ok (if h.prev t ≠ none then h.setNext (h.prev t) (some t) else h.setHead l (some t))
  | .setTail l => .ok (h.setTail l (some t))
  | .assertNext => do
    assert "task_list_move_tail" "task->list_next == NULL" (h.next t = none)
    return h

end ListStmts

/-! ## Points and contexts -/

/-- A statement of `md_init_new_task_pcb`. -/
inductive PcbStmt where
  | setSp
  | reserve
  | storeLr
  | storeFn
  | storeUserdata
deriving DecidableEq, Repr

/-- The statements of `md_init_new_task_pcb`. -/
def pcbStmts : List PcbStmt := [.setSp, .reserve, .storeLr, .storeFn, .storeUserdata]

/-- The levels and the mask as a task sees them; `spl` is `curtask->spl`. -/
structure Status (T : Type) where
  curtask : Option T
  masked : Bool
  curspl : Int
  spl : Int
deriving DecidableEq, Repr

/-- A call in progress on a kernel stack, at the statement that it will
execute next, with the locals that are live there.

`high0` to `high3` are `splhigh`, `low0` to `low3` are `spl0`; `entry` to
`switched` are `mi_switch`, which waits at `awaiting` for `splhigh`;
`trap0` to `trap4` and `handler` are `aarch64_trapentry` with a handler that
yields `yields` more times, and `eret` is the way out of `interrupt.S`;
`starting` and `pcb` are `task_start`.  `back` stands for no statement: it
keeps the status at a call for the time of its return. -/
inductive Point (T : Type) where
  | high0
  | high1 (result : Int)
  | high2 (result : Int)
  | high3 (result : Int)
  | low0
  | low1 (result : Int)
  | low2 (result : Int)
  | low3 (result : Int)
  | splx (spl : Int)
  | entry (into : TaskState)
  | chosen (into : TaskState) (next : Option T)
  | enqueueing (next : Option T) (t : T) (todo : List ListStmt)
  | enqueued (next : Option T)
  | awaiting (next : Option T)
  | masked (next : Option T) (spl : Int)
  | unlinking (prev : Option T) (spl : Int) (t : T) (todo : List ListStmt)
  | dispatched (prev : Option T) (spl : Int)
  | switched (spl : Int)
  | startup (fn userdata : Word)
  | trap0 (yields : Nat)
  | trap1 (yields : Nat) (oldspl : Int)
  | trap2 (yields : Nat) (oldspl : Int)
  | handler (yields : Nat) (oldspl : Int)
  | trap3 (oldspl : Int)
  | trap4 (oldspl : Int)
  | eret
  | starting (t : T) (fn userdata : Word) (todo : List ListStmt)
  | pcb (t : T) (fn userdata : Word) (todo : List PcbStmt)
  | back (status : Status T)
  | lost
deriving DecidableEq, Repr

/-- What `pcb.sp` of a task points at: nothing yet, the end of its stack, the
256 bytes below it with the slots that are stored, or the frame that
`aarch64_switch` saved the control stack in. -/
inductive Context (T : Type) where
  | unset
  | top
  | frame (lr : Bool) (fn userdata : Option Word)
  | saved (stack : List (Point T))
deriving DecidableEq, Repr

namespace Context

variable {T : Type}

/-- A frame that `aarch64_switch` or `md_init_new_task_pcb` has completed. -/
def Complete : Context T → Prop
  | .frame lr fn userdata => lr = true ∧ fn ≠ none ∧ userdata ≠ none
  | .saved _ => True
  | _ => False

/-- The control stack that the restored registers continue. -/
def resume : Context T → List (Point T)
  | .frame true (some fn) (some userdata) => [.startup fn userdata]
  | .saved stack => stack
  | _ => [.lost]

end Context

/-- One statement on the context behind `pcb`. -/
def PcbStmt.exec {T : Type} (fn userdata : Word) (c : Context T) : PcbStmt → Context T
  | .setSp => .top
  | .reserve => .frame false none none
  | .storeLr =>
    match c with
    | .frame _ f u => .frame true f u
    | c => c
  | .storeFn =>
    match c with
    | .frame lr _ u => .frame lr (some fn) u
    | c => c
  | .storeUserdata =>
    match c with
    | .frame lr f _ => .frame lr f (some userdata)
    | c => c

/-- Whatever was there before, the statements complete the context. -/
theorem complete_pcbStmts {T : Type} (fn userdata : Word) (c : Context T) :
    (pcbStmts.foldl (PcbStmt.exec fn userdata) c).Complete :=
  ⟨rfl, Option.some_ne_none _, Option.some_ne_none _⟩

/-! ## The machine -/

/-- The CPU and the scheduler, with a record of the tasks that `task_new`
has created and of the bootstrap task and those that `task_start` was called
for. -/
structure Cpu (T : Type) where
  heap : TaskHeap T ListName
  context : T → Context T
  curtask : Option T
  curspl : Int
  masked : Bool
  stack : List (Point T)
  created : List T
  started : List T

namespace Cpu

/-- `splhigh` and `spl0` return to the rest of the stack; `mi_switch` keeps
the result. -/
def ret {T : Type} (result : Int) : List (Point T) → List (Point T)
  | .awaiting next :: s => .masked next result :: s
  | s => s

section Definitions

variable {T : Type} [DecidableEq T]

/-- `curtask->spl`. -/
def spl (k : Cpu T) : Int := (k.curtask.map fun t => (k.heap.task t).spl).getD 0

def status (k : Cpu T) : Status T := ⟨k.curtask, k.masked, k.curspl, k.spl⟩

/-- `curtask->spl = v`. -/
def setSpl (k : Cpu T) (v : Int) : Cpu T := { k with heap := k.heap.setSpl k.curtask v }

/-- `md_switch`: save the control stack for `prev`, continue with the one of
`curtask`. -/
def mdSwitch (prev : Option T) (k : Cpu T) : Cpu T :=
  let context := match prev with
    | none => k.context
    | some p => Function.update k.context p (.saved k.stack)
  { k with context, stack := (k.curtask.map fun t => (context t).resume).getD [.lost] }

/-- The next statement of the innermost call. -/
def step (k : Cpu T) : Except Panic (Cpu T) :=
  match k.stack with
  | [] => .ok k
  -- splhigh
  | .high0 :: s => .ok { k with stack := .high1 k.curspl :: s }
  | .high1 result :: s => .ok { k with masked := true, stack := .high2 result :: s }
  | .high2 result :: s => .ok { k with curspl := 1, stack := .high3 result :: s }
  | .high3 result :: s => .ok { k.setSpl 1 with stack := ret result s }
  -- spl0
  | .low0 :: s => .ok { k with stack := .low1 k.curspl :: s }
  | .low1 result :: s => .ok { k.setSpl 0 with stack := .low2 result :: s }
  | .low2 result :: s => .ok { k with curspl := 0, stack := .low3 result :: s }
  | .low3 result :: s => .ok { k with masked := false, stack := ret result s }
  | .splx spl :: s => .ok { k with stack := (if spl > 0 then .high0 else .low0) :: s }
  -- mi_switch
  | .entry into :: s => .ok { k with stack := .chosen into (k.heap.list .tasksReady).head :: s }
  | .chosen into next :: s => do
    assert "mi_switch" "into_state != TS_RUNNING" (into ≠ .running)
    let list ← taskStateToList into
    let t ← assertNotNull "task_list_move_tail" "task" k.curtask
    return { k with stack := .enqueueing next t (moveTailStmts none list) :: s }
  | .enqueueing next _ [] :: s => .ok { k with stack := .enqueued next :: s }
  | .enqueueing next t (x :: todo) :: s => do
    let heap ← x.exec t k.heap
    return { k with heap, stack := .enqueueing next t todo :: s }
  | .enqueued next :: s =>
    let next := if next = none then k.curtask else next
    .ok { k with stack := .high0 :: .awaiting next :: s }
  | .awaiting _ :: _ => .ok k
  | .masked next spl :: s => do
    let t ← assertNotNull "task_unlink_from" "task" next
    return { k with
      curtask := next
      stack := .unlinking k.curtask spl t (unlinkStmts (some .tasksReady)) :: s }
  | .unlinking prev spl _ [] :: s => .ok { k with stack := .dispatched prev spl :: s }
  | .unlinking prev spl t (x :: todo) :: s => do
    let heap ← x.exec t k.heap
    return { k with heap, stack := .unlinking prev spl t todo :: s }
  | .dispatched prev spl :: s => .ok (mdSwitch prev { k with stack := .switched spl :: s })
  | .switched spl :: s => .ok { k with stack := .splx spl :: s }
  | .startup _ _ :: s => .ok { k with stack := .low0 :: s }
  -- aarch64_trapentry
  | .trap0 yields :: s => .ok { k with stack := .trap1 yields k.spl :: s }
  | .trap1 yields oldspl :: s => .ok { k.setSpl 1 with stack := .trap2 yields oldspl :: s }
  | .trap2 yields oldspl :: s =>
    .ok { k with curspl := 1, stack := .handler yields oldspl :: s }
  | .handler 0 oldspl :: s => .ok { k with stack := .trap3 oldspl :: s }
  | .handler (yields + 1) oldspl :: s =>
    .ok { k with stack := .entry .ready :: .back k.status :: .handler yields oldspl :: s }
  | .trap3 oldspl :: s => .ok { k.setSpl oldspl with stack := .trap4 oldspl :: s }
  | .trap4 oldspl :: s => .ok { k with curspl := oldspl, stack := .eret :: s }
  | .eret :: s => .ok { k with masked := false, stack := s }
  -- task_start
  | .starting t fn userdata [] :: s => .ok { k with stack := .pcb t fn userdata pcbStmts :: s }
  | .starting t fn userdata (x :: todo) :: s => do
    let heap ← x.exec t k.heap
    return { k with heap, stack := .starting t fn userdata todo :: s }
  | .pcb _ _ _ [] :: s => .ok { k with stack := s }
  | .pcb t fn userdata (x :: todo) :: s =>
    .ok { k with
      context := Function.update k.context t (x.exec fn userdata (k.context t))
      stack := .pcb t fn userdata todo :: s }
  | .back _ :: s => .ok { k with stack := s }
  | .lost :: _ => .ok k

/-- `n` statements. -/
def steps : Nat → Cpu T → Except Panic (Cpu T)
  | 0, k => .ok k
  | n + 1, k => do
    let k ← k.step
    steps n k

end Definitions

/-! ## Events -/

/-- What happens next: a statement of the running call, an interrupt whose
handler yields `yields` times, or a call by the task's own code. -/
inductive Event (T : Type) where
  | step
  | irq (yields : Nat)
  | splhigh
  | spl0
  | splx (spl : Int)
  | yield
  | exit
  | new (t : T)
  | start (t : T) (fn userdata : Word)

section Events

variable {T : Type} [DecidableEq T]

/-- Interrupts arrive while they are not masked, and the task's own code runs
while no call is in progress.  `task_new` gets a fresh block, and every task
is started once. -/
def Possible (k : Cpu T) : Event T → Prop
  | .step => True
  | .irq _ => k.masked = false
  | .new t => k.stack = [] ∧ t ∉ k.started ++ k.created
  | .start t _ _ => k.stack = [] ∧ t ∈ k.created
  | _ => k.stack = []

/-- The state after an event. -/
def take (k : Cpu T) : Event T → Except Panic (Cpu T)
  | .step => k.step
  | .irq yields =>
    .ok { k with masked := true, stack := .trap0 yields :: .back k.status :: k.stack }
  | .splhigh => .ok { k with stack := .high0 :: k.stack }
  | .spl0 => .ok { k with stack := .low0 :: k.stack }
  | .splx spl => .ok { k with stack := .splx spl :: k.stack }
  | .yield => .ok { k with stack := .entry .ready :: .back k.status :: k.stack }
  | .exit => .ok { k with stack := .entry .zombie :: k.stack }
  | .new t =>
    .ok { k with
      heap.task := Function.update k.heap.task t ⟨none, none, none, .ready, 0⟩
      context := Function.update k.context t .unset
      created := t :: k.created }
  | .start t fn userdata =>
    .ok { k with
      stack := .starting t fn userdata (moveHeadStmts none .tasksReady) :: k.stack
      created := k.created.erase t
      started := t :: k.started }

/-- The state after `task_bootstrap`, with `kmain` for the block that
`kzalloc` returns. -/
def boot (kmain : T) (task : T → Task T) : Cpu T where
  heap := ⟨Function.update task kmain ⟨none, none, none, .running, 0⟩, fun _ => ⟨none, none⟩⟩
  context := fun _ => .unset
  curtask := some kmain
  curspl := 0
  masked := false
  stack := []
  created := []
  started := [kmain]

/-- A run from `task_bootstrap` whose events all satisfy `ok`. -/
def Run (ok : Cpu T → Event T → Prop) (kmain : T) (task : T → Task T) :
    List (Cpu T × Event T) → Cpu T → Prop :=
  History (· = boot kmain task) fun k e k' => k.Possible e ∧ ok k e ∧ k.take e = .ok k'

theorem Run.mono {ok ok' : Cpu T → Event T → Prop} {kmain : T} {task : T → Task T}
    {past : List (Cpu T × Event T)} {k : Cpu T} (h : Run ok kmain task past k)
    (hmono : ∀ k e, ok k e → ok' k e) : Run ok' kmain task past k :=
  History.mono h fun k e _ hs => ⟨hs.1, hmono k e hs.2.1, hs.2.2⟩

/-- `n` more statements. -/
theorem Run.steps {ok : Cpu T → Event T → Prop} (hok : ∀ k, ok k .step) {kmain : T}
    {task : T → Task T} {past : List (Cpu T × Event T)} {k k' : Cpu T} {n : Nat}
    (h : Run ok kmain task past k) (hsteps : steps n k = .ok k') :
    ∃ past', Run ok kmain task past' k' := by
  induction n generalizing past k with
  | zero =>
      cases hsteps
      exact ⟨past, h⟩
  | succ n ih =>
      obtain ⟨k₁, hstep, hsteps⟩ := bind_eq_ok.mp hsteps
      exact ih (h.snoc (e := Event.step) ⟨trivial, hok k, hstep⟩) hsteps

end Events

end Cpu

end TeachingOs
