import TeachingOs.Task.List

/-!
# TeachingOs.Task.Sched

The scheduler of `kern/task/task.c`, with `splhigh`, `spl0` and `splx`, as a
machine that executes one statement at a time.

`Kernel.stack` is the control stack of the running task, innermost call
first; `step` executes the next statement of that call.  `md_switch` leaves
the control stack in the pcb of the old task and continues with the one in
the pcb of the new task.  An interrupt puts `aarch64_trapentry` and the
nested `mi_switch` of `preempt_fire` on top (`irq`).
-/

namespace TeachingOs

open DList

/-- The two task lists of `task.c`. -/
inductive ListName where
  | tasksReady
  | tasksZombie
deriving DecidableEq, Repr

/-- The state of the scheduler and of the CPU; `masked` is PSTATE.DAIF. -/
structure Kernel (T : Type) where
  heap : TaskHeap T ListName
  curtask : Option T
  curspl : Int
  masked : Bool
  stack : List (Activation T)

section Definitions

variable {T : Type} [DecidableEq T]

/-! ## Stores to other fields -/

/-- `p->spl = v`. -/
def TaskHeap.setSpl {L : Type} (h : TaskHeap T L) (p : Option T) (v : Int) : TaskHeap T L :=
  match p with
  | none => h
  | some t => { h with task := Function.update h.task t { h.task t with spl := v } }

/-- The stores of a context behind `p->pcb`. -/
def TaskHeap.setPcb {L : Type} (h : TaskHeap T L) (p : Option T) (context : List (Activation T)) :
    TaskHeap T L :=
  match p with
  | none => h
  | some t => { h with task := Function.update h.task t { h.task t with pcb := some context } }

/-! ## spl.c -/

/-- `splhigh`. -/
def splhigh (k : Kernel T) : Int × Kernel T :=
  (k.curspl, { k with masked := true, curspl := 1, heap := k.heap.setSpl k.curtask 1 })

/-- `spl0`. -/
def spl0 (k : Kernel T) : Int × Kernel T :=
  (k.curspl, { k with heap := k.heap.setSpl k.curtask 0, curspl := 0, masked := false })

/-- `splx`. -/
def splx (spl : Int) (k : Kernel T) : Int × Kernel T := if spl > 0 then splhigh k else spl0 k

/-! ## Creating tasks -/

/-- `task_new`, with `t` for the block that `kzalloc` returns and clears. -/
def taskNew (t : T) (k : Kernel T) : Kernel T :=
  { k with heap.task := Function.update k.heap.task t ⟨none, none, none, .ready, 0⟩ }

/-- `task_bootstrap`, with `kmain` for the block that `kzalloc` returns. -/
def taskBootstrap (kmain : T) (k : Kernel T) : Kernel T :=
  { k with
    heap.task := Function.update k.heap.task kmain ⟨none, none, none, .running, 0⟩
    curtask := some kmain }

/-- `task_start`; `md_init_new_task_pcb` prepares the stack so that the
first switch enters `mi_task_startup`. -/
def taskStart (t : T) (fn userdata : Word) (k : Kernel T) : Except Panic (Kernel T) := do
  let heap ← taskListMoveHead k.heap (some t) none (some .tasksReady)
  return { k with heap := heap.setPcb (some t) [.startup fn userdata] }

/-! ## Switching -/

/-- `scheduler`. -/
def scheduler (k : Kernel T) : Option T := (k.heap.list .tasksReady).head

/-- `task_state_to_list`. -/
def taskStateToList : TaskState → Except Panic ListName
  | .ready => .ok .tasksReady
  | .running => .error (.message "cannot pass TS_RUNNING to task_state_to_list\n")
  | .sleeping => .error (.message "cannot pass TS_SLEEPING to task_state_to_list\n")
  | .zombie => .ok .tasksZombie

/-- The control stack that a switch to `p` continues. -/
def TaskHeap.context {L : Type} (h : TaskHeap T L) (p : Option T) : List (Activation T) :=
  ((p.bind fun t => (h.task t).pcb)).getD [.lost]

/-- `md_switch`: save the control stack for `prev`, continue with `next`. -/
def mdSwitch (prev next : Option T) (k : Kernel T) : Kernel T :=
  let heap := k.heap.setPcb prev k.stack
  { k with heap, stack := heap.context next }

/-- The next statement of the innermost call. -/
def step (k : Kernel T) : Except Panic (Kernel T) :=
  match k.stack with
  | [] => .ok k
  | .entry into :: s => .ok { k with stack := .chosen into (scheduler k) :: s }
  | .chosen into next :: s => do
    assert "mi_switch" "into_state != TS_RUNNING" (into ≠ .running)
    let list ← taskStateToList into
    let heap ← taskListMoveTail k.heap k.curtask none (some list)
    return { k with heap, stack := .enqueued next :: s }
  | .enqueued next :: s =>
    let next := if next = none then k.curtask else next
    let (spl, k) := splhigh k
    .ok { k with stack := .masked next spl :: s }
  | .masked next spl :: s => do
    let prev := k.curtask
    let k := { k with curtask := next }
    let heap ← taskUnlinkFrom k.heap k.curtask (some .tasksReady)
    return { k with heap, stack := .dispatched prev spl :: s }
  | .dispatched prev spl :: s => .ok (mdSwitch prev k.curtask { k with stack := .switched spl :: s })
  | .switched spl :: s => .ok { (splx spl k).2 with stack := s }
  | .startup _ _ :: s => .ok { (spl0 k).2 with stack := s }
  | .trap oldspl :: s =>
    .ok { k with
      heap := k.heap.setSpl k.curtask oldspl, curspl := oldspl, masked := false, stack := s }
  | .lost :: _ => .ok k

/-- A call of `mi_switch`. -/
def callSwitch (into : TaskState) (k : Kernel T) : Kernel T :=
  { k with stack := .entry into :: k.stack }

/-- A timer interrupt: the CPU masks interrupts, `aarch64_trapentry` notes
`curtask->spl`, and the handler ends in `preempt_fire`. -/
def irq (k : Kernel T) : Kernel T :=
  let oldspl := (k.curtask.map fun t => (k.heap.task t).spl).getD 0
  callSwitch .ready
    { k with
      heap := k.heap.setSpl k.curtask 1, curspl := 1, masked := true,
      stack := .trap oldspl :: k.stack }

/-- `n` statements. -/
def steps : Nat → Kernel T → Except Panic (Kernel T)
  | 0, k => .ok k
  | n + 1, k => do
    let k ← step k
    steps n k

/-- `mi_switch` without an interrupt: its five statements up to `md_switch`,
and the one that the task switched to executes next. -/
def miSwitch (into : TaskState) (k : Kernel T) : Except Panic (Kernel T) :=
  steps 6 (callSwitch into k)

/-- `task_yield`. -/
def taskYield (k : Kernel T) : Except Panic (Kernel T) := miSwitch .ready k

/-- `task_exit`. -/
def taskExit (k : Kernel T) : Except Panic (Kernel T) := miSwitch .zombie k

end Definitions

end TeachingOs
