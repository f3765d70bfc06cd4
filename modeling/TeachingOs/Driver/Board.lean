import TeachingOs.Driver.Console
import TeachingOs.Lib.Line
import TeachingOs.Task.Timeslice

/-!
# TeachingOs.Driver.Board

The whole system: tasks that print, the scheduler that the timer drives, and
the serial line.  `main` has started its tasks and loops; every other task
prints what it has to print, returns to `mi_task_startup`, and calls
`task_exit`, which the timer can interrupt between any two statements until
`splhigh`.

`Shared` says what this is for: a queue of tasks, and a port that the one at
its head writes to.  `Board.Refines.step` shows that the board is no more and
no less as long as no interrupt hits `task_exit` before `splhigh`
(`Board.Spares`): the call of `task_exit` is the exit, and its statements are
nothing.
-/

namespace TeachingOs.Driver

open Device Port Fair

variable {T : Type}

/-! ## The board -/

/-- The tasks, and the serial line with what every task has left to do. -/
structure Board (T : Type) where
  sys : Sys T
  machine : Mmio.Machine T Word (BitVec 32) Uart

/-- The CPU takes the running task one access further, the device passes a
byte on, or the timer fires. -/
inductive BoardEvent where
  | access
  | tick
  | timer
deriving DecidableEq

/-- The program has returned. -/
def returned : Access Unit → Bool
  | .ret _ => true
  | _ => false

variable [DecidableEq T]

/-- The board with another kernel. -/
def Board.withKernel (b : Board T) (kernel : Kernel T) : Board T :=
  { b with sys := { b.sys with kernel } }

/-- One event.  An access is the next statement of a call in progress, or else
the running task's own: a task that has returned calls `task_exit`, except
`main`, which loops. -/
def Board.step (depth : Nat) (b : Board T) : BoardEvent → Except Panic (Board T)
  | .tick => .ok { b with machine := b.machine.step (uartBus depth) .tick }
  | .timer =>
      if b.sys.kernel.masked then .ok b
      else do
        let kernel ← timerInterrupt b.sys.kernel
        return b.withKernel kernel
  | .access =>
      match b.sys.kernel.stack, b.sys.kernel.curtask with
      | _ :: _, _ => do
          let sys ← b.sys.exec .step
          return { b with sys }
      | [], none => .ok b
      | [], some t =>
          if returned (b.machine.prog t) then
            if t = b.sys.bootstrap then .ok b
            else do
              let sys ← b.sys.exec .exit
              return { b with sys }
          else .ok { b with machine := b.machine.step (uartBus depth) (.run t) }

/-- A run of the board. -/
def Board.run (depth : Nat) (b : Board T) (events : List BoardEvent) : Except Panic (Board T) :=
  events.foldlM (Board.step depth) b

/-- The next board, if the kernel does not panic. -/
def Board.next (depth : Nat) (b : Board T) (e : BoardEvent) : Board T :=
  orStay (Board.step depth) b e

omit [DecidableEq T] in
/-- The running task executes its own code. -/
def Board.User (b : Board T) : Prop := b.sys.kernel.stack = []

instance : DecidablePred (Board.User (T := T)) := fun b =>
  inferInstanceAs (Decidable (b.sys.kernel.stack = []))

/-- An interrupt does not hit `task_exit` between its call and `splhigh`. -/
def Board.Spares (b : Board T) (e : BoardEvent) : Prop :=
  e = .timer → b.User ∨ b.sys.kernel.masked = true

theorem Board.step_statement {depth : Nat} {b : Board T} (hcall : ¬ b.User) {k' : Kernel T}
    (hstep : TeachingOs.step b.sys.kernel = .ok k') :
    b.step depth .access = .ok (b.withKernel k') := by
  obtain ⟨a, s, hs⟩ := List.exists_cons_of_ne_nil hcall
  simp [Board.step, hs, Sys.exec, hstep, Board.withKernel]

theorem Board.step_user {depth : Nat} {b : Board T} (huser : b.User) {t : T}
    (hcur : b.sys.kernel.curtask = some t) : b.step depth .access =
      if returned (b.machine.prog t) then
        if t = b.sys.bootstrap then .ok b
        else .ok (b.withKernel (callSwitch .zombie b.sys.kernel))
      else .ok { b with machine := b.machine.step (uartBus depth) (.run t) } := by
  have hs : b.sys.kernel.stack = [] := huser
  simp [Board.step, hs, hcur, Sys.exec, Board.withKernel]

/-! ## What it is for -/

/-- A queue of tasks, and a port that they share. -/
structure Shared (T : Type) where
  queue : Queue T
  port : System T Char

/-- What an event is for the port. -/
def Shared.turn (a : Shared T) : BoardEvent → Turn T
  | .access => .run a.queue.current
  | .tick => .tick
  | .timer => .idle

/-- The running task has returned, and is not `main`. -/
def Shared.Exits (kmain : T) (a : Shared T) : Prop :=
  (a.port.writer a.queue.current).pending = [] ∧ a.queue.current ≠ kmain

/-- The event is not the exit of a task. -/
def Shared.Stays (kmain : T) (a : Shared T) (e : BoardEvent) : Prop :=
  e = .access → ¬ a.Exits kmain

/-- What an event is for the queue. -/
def Shared.op (kmain : T) (a : Shared T) : BoardEvent → Option (Op T)
  | .access =>
      if (a.port.writer a.queue.current).pending = [] ∧ a.queue.current ≠ kmain then some .exit
      else none
  | .tick => none
  | .timer => some .yield

def Shared.step (depth : Nat) (kmain : T) (a : Shared T) (e : BoardEvent) : Shared T where
  queue := (a.op kmain e).elim a.queue fun o => (a.queue.after o).getD a.queue
  port := a.port.step depth (a.turn e)

/-- A run of the model. -/
def Shared.run (depth : Nat) (kmain : T) (a : Shared T) (events : List BoardEvent) : Shared T :=
  events.foldl (Shared.step depth kmain) a

/-! ## Refinement -/

theorem returned_program_iff {w : Writer Char} : returned (program w) = true ↔ w.pending = [] := by
  cases w with
  | polling rest =>
      cases rest <;>
        simp [program, uartWrite, returned, uartWriteByteBlockingActual, Writer.pending]
  | writing ch rest => simp [program, returned, Writer.pending]

/-- What an event is for the model: in a call nothing but the device goes on. -/
def Board.seen (b : Board T) (e : BoardEvent) : Option BoardEvent :=
  if b.User ∨ e = .tick then some e else none

/-- How many statements of `task_exit` may be left after an event. -/
def Board.leftAfter (b : Board T) (e : BoardEvent) (left : Nat) : Nat :=
  if e = .access then if b.User then 7 else left - 1 else left

section

omit [DecidableEq T]

variable {b : Board T} {e : BoardEvent} {left : Nat}

theorem Board.spares_access : b.Spares .access := fun he => by cases he

theorem Board.spares_tick : b.Spares .tick := fun he => by cases he

theorem Board.seen_of_user (huser : b.User) : b.seen e = some e := if_pos (.inl huser)

theorem Board.seen_tick : b.seen .tick = some .tick := if_pos (.inr rfl)

theorem Board.seen_of_call (hcall : ¬ b.User) (hne : e ≠ .tick) : b.seen e = none :=
  if_neg (not_or.mpr ⟨hcall, hne⟩)

theorem Board.leftAfter_user (huser : b.User) : b.leftAfter .access left = 7 := if_pos huser

theorem Board.leftAfter_call (hcall : ¬ b.User) : b.leftAfter .access left = left - 1 :=
  if_neg hcall

theorem Board.leftAfter_of_ne (hne : e ≠ .access) : b.leftAfter e left = left := if_neg hne

end

/-- The board shows the model's queue and its port, or will after `left`
statements. -/
structure Board.Refines (b : Board T) (kmain : T) (left : Nat) (a : Shared T) : Prop where
  leads : Leads left b.sys.kernel a.queue
  shows : Shows b.machine a.port
  bootstrap : b.sys.bootstrap = kmain
  main : kmain ∈ a.queue.line

variable {depth left : Nat} {kmain : T} {b : Board T} {a : Shared T}

theorem Board.Refines.sliced (h : b.Refines kmain left a) (huser : b.User) :
    Sliced b.sys.kernel a.queue := h.leads.sliced huser

theorem Board.Refines.mono {left' : Nat} (h : b.Refines kmain left a) (hle : left ≤ left') :
    b.Refines kmain left' a := ⟨h.leads.mono hle, h.shows, h.bootstrap, h.main⟩

omit [DecidableEq T] in
/-- While `main` is in the line, any other task can exit. -/
theorem Queue.after_exit {q : Queue T} (hmain : kmain ∈ q.line) (hne : q.current ≠ kmain) :
    ∃ q', q.after .exit = some q' ∧ q'.line = q.line.tail ∧ kmain ∈ q'.line := by
  obtain ⟨c, ready, zombie⟩ := q
  have hready : kmain ∈ ready := (List.mem_cons.mp hmain).resolve_left (Ne.symm hne)
  cases ready with
  | nil => cases hready
  | cons n rest => exact ⟨_, rfl, rfl, hready⟩

/-- The next statement of `task_exit`. -/
theorem Board.Refines.step_call (h : b.Refines kmain left a) (hcall : ¬ b.User) (depth : Nat) :
    0 < left ∧ ∃ b', b.step depth .access = .ok b' ∧ b'.Refines kmain (left - 1) a := by
  obtain ⟨k', hstep, hleft, hk'⟩ := h.leads.step hcall
  exact ⟨hleft, _, Board.step_statement hcall hstep, hk', h.shows, h.bootstrap, h.main⟩

/-- The running task has returned: `main` loops, and any other task exits. -/
theorem Board.Refines.step_returned (h : b.Refines kmain left a) (huser : b.User)
    (hdone : (a.port.writer a.queue.current).pending = []) :
    ∃ b', b.step depth .access = .ok b' ∧ (¬ a.Exits kmain → b'.User) ∧
      b'.Refines kmain 7 (a.step depth kmain .access) := by
  have hsliced := h.sliced huser
  have hreturned : returned (b.machine.prog a.queue.current) = true := by
    rw [h.shows.prog, returned_program_iff, hdone]
  have hshows : Shows b.machine (a.step depth kmain .access).port := by
    have hport : (a.step depth kmain .access).port = a.port := step_run_of_pending hdone
    rw [hport]
    exact h.shows
  rw [Board.step_user huser hsliced.resting.current, if_pos hreturned, h.bootstrap]
  by_cases hmain : a.queue.current = kmain
  · have hqueue : (a.step depth kmain .access).queue = a.queue := by
      simp [Shared.step, Shared.op, hmain]
    rw [if_pos hmain]
    exact ⟨b, rfl, fun _ => huser, hqueue ▸ hsliced.leads 7, hshows, h.bootstrap, hqueue ▸ h.main⟩
  · obtain ⟨q', hafter, -, hmem⟩ := Queue.after_exit h.main hmain
    have hqueue : (a.step depth kmain .access).queue = q' := by
      simp [Shared.step, Shared.op, hdone, hmain, hafter]
    rw [if_neg hmain]
    exact ⟨_, rfl, fun hnot => absurd ⟨hdone, hmain⟩ hnot, hqueue ▸ hsliced.callExit hafter, hshows,
      h.bootstrap, hqueue ▸ hmem⟩

/-- The running task makes an access. -/
theorem Board.Refines.step_access (h : b.Refines kmain left a) (huser : b.User) (depth : Nat) :
    ∃ b', b.step depth .access = .ok b' ∧ (¬ a.Exits kmain → b'.User) ∧
      b'.Refines kmain 7 (a.step depth kmain .access) := by
  by_cases hdone : (a.port.writer a.queue.current).pending = []
  · exact h.step_returned huser hdone
  · have hsliced := h.sliced huser
    have hreturned : ¬ returned (b.machine.prog a.queue.current) = true := by
      rwa [h.shows.prog, returned_program_iff]
    have hqueue : (a.step depth kmain .access).queue = a.queue := by
      simp [Shared.step, Shared.op, hdone]
    rw [Board.step_user huser hsliced.resting.current, if_neg hreturned]
    exact ⟨_, rfl, fun _ => huser, hqueue ▸ hsliced.leads 7, h.shows.step (.run a.queue.current),
      h.bootstrap, hqueue ▸ h.main⟩

/-- The timer interrupts the running task's own code. -/
theorem Board.Refines.step_timer (h : b.Refines kmain left a) (huser : b.User) (depth : Nat) :
    ∃ b', b.step depth .timer = .ok b' ∧ b'.User ∧
      b'.Refines kmain left (a.step depth kmain .timer) := by
  have hsliced := h.sliced huser
  obtain ⟨k', q', hrun, hafter, hk'⟩ := hsliced.timerInterrupt
  obtain ⟨_, hq', hline, -⟩ := a.queue.rotate_yield
  cases hafter.symm.trans hq'
  have hqueue : (a.step depth kmain .timer).queue = q' := by
    simp [Shared.step, Shared.op, hafter]
  refine ⟨b.withKernel k', ?_, hk'.resting.user, hqueue ▸ hk'.leads left, h.shows, h.bootstrap, ?_⟩
  · simp [Board.step, hsliced.unmasked, hrun]
  · rw [hqueue, hline, List.mem_rotate]
    exact h.main

/-- **Refinement**, one event that spares `task_exit`: the kernel does not panic,
and the board goes on as the model does. -/
theorem Board.Refines.step (h : b.Refines kmain left a) (depth : Nat) {e : BoardEvent}
    (hspares : b.Spares e) : b.step depth e = .ok (b.next depth e) ∧
      (b.next depth e).Refines kmain (b.leftAfter e left)
        (a.run depth kmain (b.seen e).toList) := by
  have hok : ∀ {b' left' a'}, b.step depth e = .ok b' → b'.Refines kmain left' a' →
      b.step depth e = .ok (b.next depth e) ∧ (b.next depth e).Refines kmain left' a' := by
    intro b' left' a' hstep hb'
    rw [Board.next, orStay_of_ok hstep]
    exact ⟨hstep, hb'⟩
  by_cases huser : b.User
  · rw [Board.seen_of_user huser]
    cases e with
    | tick => exact hok rfl ⟨h.leads, h.shows.step .tick, h.bootstrap, h.main⟩
    | timer =>
        obtain ⟨b', hstep, -, hb'⟩ := h.step_timer huser depth
        exact hok hstep hb'
    | access =>
        obtain ⟨b', hstep, -, hb'⟩ := h.step_access huser depth
        rw [Board.leftAfter_user huser]
        exact hok hstep hb'
  · cases e with
    | tick =>
        rw [Board.seen_tick]
        exact hok rfl ⟨h.leads, h.shows.step .tick, h.bootstrap, h.main⟩
    | timer =>
        -- the interrupt waits until `task_exit` is through
        have hmasked := (hspares rfl).resolve_left huser
        rw [Board.seen_of_call huser (by simp)]
        exact hok (by rw [Board.step, if_pos hmasked]) h
    | access =>
        obtain ⟨-, b', hstep, hb'⟩ := h.step_call huser depth
        rw [Board.seen_of_call huser (by simp), Board.leftAfter_call huser]
        exact hok hstep hb'

/-- **Refinement**, a run that spares `task_exit`. -/
theorem Board.Refines.run (h : b.Refines kmain left a) (depth : Nat) {events : List BoardEvent}
    (hspares : Along (Board.next depth) Board.Spares b events) :
    b.run depth events = .ok (events.foldl (Board.next depth) b) ∧
      ∃ left' events', (events.foldl (Board.next depth) b).Refines kmain left'
        (a.run depth kmain events') := by
  induction events generalizing b left a with
  | nil => exact ⟨rfl, left, [], h⟩
  | cons e events ih =>
      obtain ⟨hspare, hspares⟩ := hspares
      obtain ⟨hstep, h₁⟩ := h.step depth hspare
      obtain ⟨hrun, left', events', h'⟩ := ih h₁ hspares
      refine ⟨?_, left', (b.seen e).toList ++ events', ?_⟩
      · rw [Board.run, List.foldlM_cons, hstep, ok_bind]
        exact hrun
      · rw [Shared.run, List.foldl_append]
        exact h'

/-- Until a task exits, the board and the model go on side by side. -/
theorem Board.Refines.step_stay (h : b.Refines kmain left a) (huser : b.User) (depth : Nat)
    {e : BoardEvent} (hstay : a.Stays kmain e) :
    ∃ b' left', b.step depth e = .ok b' ∧ b'.User ∧
      b'.Refines kmain left' (a.step depth kmain e) := by
  cases e with
  | tick => exact ⟨_, left, rfl, huser, h.leads, h.shows.step .tick, h.bootstrap, h.main⟩
  | timer =>
      obtain ⟨b', hstep, huser', h'⟩ := h.step_timer huser depth
      exact ⟨b', left, hstep, huser', h'⟩
  | access =>
      obtain ⟨b', hstep, huser', h'⟩ := h.step_access huser depth
      exact ⟨b', 7, hstep, huser' (hstay rfl), h'⟩

theorem Board.Refines.run_stay (h : b.Refines kmain left a) (huser : b.User) (depth : Nat)
    {events : List BoardEvent}
    (hstay : Along (Shared.step depth kmain) (Shared.Stays kmain) a events) :
    ∃ b' left', b.run depth events = .ok b' ∧ b'.User ∧
      b'.Refines kmain left' (a.run depth kmain events) := by
  induction events generalizing b left a with
  | nil => exact ⟨b, left, rfl, huser, h⟩
  | cons e events ih =>
      obtain ⟨hexit, hstay⟩ := hstay
      obtain ⟨b₁, left₁, hstep, huser₁, h₁⟩ := h.step_stay huser depth hexit
      obtain ⟨b', left', hrun, huser', h'⟩ := ih h₁ huser₁ hstay
      exact ⟨b', left', by rw [Board.run, List.foldlM_cons, hstep, ok_bind]; exact hrun, huser', h'⟩

/-! ## The model's runs -/

/-- The port takes steps of its own kind. -/
theorem Shared.port_eq_run (depth : Nat) (kmain : T) (a : Shared T) (events : List BoardEvent) :
    ∃ turns, (a.run depth kmain events).port = a.port.run depth turns := by
  induction events generalizing a with
  | nil => exact ⟨[], rfl⟩
  | cons e events ih =>
      obtain ⟨turns, hrun⟩ := ih (a.step depth kmain e)
      exact ⟨a.turn e :: turns, hrun⟩

/-- The timer ends the turn of the task at the head. -/
theorem Shared.queue_timer (depth : Nat) (kmain : T) (a : Shared T) :
    (a.step depth kmain .timer).queue.line = a.queue.line.rotate 1 ∧
      (a.step depth kmain .timer).queue.tasks.Perm a.queue.tasks := by
  obtain ⟨q', hafter, hline, -⟩ := a.queue.rotate_yield
  have hqueue : (a.step depth kmain .timer).queue = q' := by
    simp [Shared.step, Shared.op, hafter]
  rw [hqueue]
  exact ⟨hline, Queue.perm_after hafter⟩

/-- What holds in every state of the model: `main` and every task with
something left to print are in the line, and no task gets lost. -/
structure Shared.Inv (kmain : T) (tasks : List T) (a : Shared T) : Prop where
  main : kmain ∈ a.queue.line
  printing : ∀ t, (a.port.writer t).pending ≠ [] → t ∈ a.queue.line
  tasks : a.queue.tasks.Perm tasks

theorem Shared.queue_stay (depth : Nat) (h : ¬ a.Exits kmain) :
    (a.step depth kmain .access).queue = a.queue := by
  rw [Shared.Exits] at h
  simp [Shared.step, Shared.op, h]

/-- While `main` is in the line, any other task can exit. -/
theorem Shared.queue_exit (depth : Nat) (h : a.Exits kmain) (hmain : kmain ∈ a.queue.line) :
    (a.step depth kmain .access).queue.line = a.queue.line.tail ∧
      kmain ∈ (a.step depth kmain .access).queue.line ∧
      (a.step depth kmain .access).queue.tasks.Perm a.queue.tasks := by
  obtain ⟨q', hafter, hline, hmem⟩ := Queue.after_exit hmain h.2
  have hqueue : (a.step depth kmain .access).queue = q' := by
    simp [Shared.step, Shared.op, h.1, h.2, hafter]
  rw [hqueue]
  exact ⟨hline, hmem, Queue.perm_after hafter⟩

theorem Shared.length_line_exit (h : a.Exits kmain) (hmain : kmain ∈ a.queue.line) :
    (a.step depth kmain .access).queue.line.length < a.queue.line.length := by
  have hpos : 0 < a.queue.line.length := Nat.succ_pos _
  rw [(Shared.queue_exit depth h hmain).1, List.length_tail]
  omega

/-- The line gets no longer. -/
theorem Shared.length_line_step (hmain : kmain ∈ a.queue.line) (e : BoardEvent) :
    (a.step depth kmain e).queue.line.length ≤ a.queue.line.length := by
  cases e with
  | tick => exact Nat.le_refl _
  | timer => rw [(Shared.queue_timer depth kmain a).1, List.length_rotate]
  | access =>
      by_cases hexit : a.Exits kmain
      · exact Nat.le_of_lt (Shared.length_line_exit hexit hmain)
      · rw [Shared.queue_stay depth hexit]

/-- Alone, `main` loops. -/
theorem Shared.line_alone (h : a.queue.line = [kmain]) (e : BoardEvent) :
    (a.step depth kmain e).queue.line = [kmain] := by
  cases e with
  | tick => exact h
  | timer => rw [(Shared.queue_timer depth kmain a).1, h, List.rotate_singleton]
  | access =>
      have hcur : a.queue.current = kmain := (List.cons.inj h).1
      rw [Shared.queue_stay depth fun hexit => hexit.2 hcur, h]

theorem Shared.Inv.step {tasks : List T} (h : a.Inv kmain tasks) (depth : Nat) (e : BoardEvent) :
    (a.step depth kmain e).Inv kmain tasks := by
  have hprinting : ∀ t, ((a.step depth kmain e).port.writer t).pending ≠ [] →
      (a.port.writer t).pending ≠ [] := fun t ht hnil => ht (pending_step hnil _)
  cases e with
  | tick => exact ⟨h.main, fun t ht => h.printing t (hprinting t ht), h.tasks⟩
  | timer =>
      obtain ⟨hline, hperm⟩ := Shared.queue_timer depth kmain a
      refine ⟨?_, fun t ht => ?_, hperm.trans h.tasks⟩
      · rw [hline, List.mem_rotate]
        exact h.main
      · rw [hline, List.mem_rotate]
        exact h.printing t (hprinting t ht)
  | access =>
      by_cases hexit : a.Exits kmain
      · obtain ⟨hline, hmain, hperm⟩ := Shared.queue_exit depth hexit h.main
        refine ⟨hmain, fun t ht => ?_, hperm.trans h.tasks⟩
        have hmem := h.printing t (hprinting t ht)
        have hne : t ≠ a.queue.current := by
          rintro rfl
          exact hprinting _ ht hexit.1
        rw [hline]
        exact (List.mem_cons.mp hmem).resolve_left hne
      · have hqueue := Shared.queue_stay depth hexit
        exact ⟨hqueue ▸ h.main, fun t ht => hqueue ▸ h.printing t (hprinting t ht),
          hqueue ▸ h.tasks⟩

/-- The states of a run of the model. -/
theorem Shared.exists_run (depth : Nat) (kmain : T) (schedule : Nat → BoardEvent) (a : Shared T) :
    ∃ run : Nat → Shared T, run 0 = a ∧
      (∀ n, run (n + 1) = (run n).step depth kmain (schedule n)) ∧
      ∀ n, a.run depth kmain ((List.range n).map schedule) = run n :=
  ⟨runOf (Shared.step depth kmain) schedule a, rfl, fun _ => rfl, foldl_range⟩

/-- The device gets its turn, the timer fires, and it leaves each task at least
one access. -/
structure FairTimer (schedule : Nat → BoardEvent) : Prop where
  tick : Recurs schedule .tick
  timer : Recurs schedule .timer
  access : ∀ n, schedule n = .timer →
    ∃ m > n, schedule m = .access ∧ ∀ i, n < i → i < m → schedule i = .tick

/-- What an event is for the line of tasks. -/
def BoardEvent.slot : BoardEvent → Line.Slot
  | .access => .serve
  | .tick => .skip
  | .timer => .turn

theorem BoardEvent.eq_of_slot {e e' : BoardEvent} (h : e.slot = e'.slot) : e = e' := by
  cases e <;> cases e' <;> first
    | rfl
    | cases h

section Runs

variable {schedule : Nat → BoardEvent} {tasks : List T} {run : Nat → Shared T}
  (hrun : ∀ n, run (n + 1) = (run n).step depth kmain (schedule n))

include hrun

theorem inv_run (h : (run 0).Inv kmain tasks) (n : Nat) : (run n).Inv kmain tasks := by
  induction n with
  | zero => exact h
  | succ n ih =>
      rw [hrun]
      exact ih.step depth (schedule n)

theorem port_run (n : Nat) : (run n).port =
    runOf (System.step depth) (fun n => (run n).turn (schedule n)) (run 0).port n := by
  induction n with
  | zero => rfl
  | succ n ih => rw [hrun, runOf_succ, ← ih, Shared.step]

/-- The line of tasks is served in turns. -/
theorem follows_run (h : (run 0).Inv kmain tasks) :
    Line.Follows (fun n => (run n).queue.line) fun n => (schedule n).slot := by
  refine ⟨fun n hslot => ?_, fun n hslot => ?_, fun n hslot => ?_⟩
  · have he : schedule n = .access := BoardEvent.eq_of_slot hslot
    simp only [hrun n, he]
    by_cases hexit : (run n).Exits kmain
    · exact .inr (Shared.queue_exit depth hexit (inv_run hrun h n).main).1
    · exact .inl (congrArg Queue.line (Shared.queue_stay depth hexit))
  · have he : schedule n = .timer := BoardEvent.eq_of_slot hslot
    simp only [hrun n, he]
    exact (Shared.queue_timer depth kmain (run n)).1
  · have he : schedule n = .tick := BoardEvent.eq_of_slot hslot
    simp only [hrun n, he]
    rfl

/-- Every task in the line gets an access again and again. -/
theorem served_run (h : (run 0).Inv kmain tasks) (hfair : FairTimer schedule) {t : T} {n : Nat}
    (ht : t ∈ (run n).queue.line) :
    ∃ m ≥ n, schedule m = .access ∧ (run m).queue.current = t := by
  have hturn : Recurs (fun n => (schedule n).slot) .turn := by
    intro n
    obtain ⟨m, hm, he⟩ := hfair.timer n
    exact ⟨m, hm, congrArg BoardEvent.slot he⟩
  have hserve : ∀ n, (schedule n).slot = .turn →
      Line.ServesNext (fun n => (schedule n).slot) (n + 1) := by
    intro n hslot
    obtain ⟨m, hm, he, hbetween⟩ := hfair.access n (BoardEvent.eq_of_slot hslot)
    exact ⟨m, hm, congrArg BoardEvent.slot he,
      fun i hi him => congrArg BoardEvent.slot (hbetween i hi him)⟩
  obtain ⟨m, hm, hslot, hhead⟩ := (follows_run hrun h).served hturn hserve ht
  exact ⟨m, hm, BoardEvent.eq_of_slot hslot, Option.some_inj.mp hhead⟩

/-- A task with something left to print gets to print. -/
theorem run_of_pending (h : (run 0).Inv kmain tasks) (hfair : FairTimer schedule) {t : T} {n : Nat}
    (ht : ((run n).port.writer t).pending ≠ []) :
    ∃ m ≥ n, (run m).turn (schedule m) = .run t := by
  obtain ⟨m, hm, he, hcur⟩ := served_run hrun h hfair ((inv_run hrun h n).printing t ht)
  exact ⟨m, hm, by rw [he, Shared.turn, hcur]⟩

/-- Everything gets printed. -/
theorem idle_run [Fintype T] (h : (run 0).Inv kmain tasks) (hdepth : 0 < depth)
    (hfair : FairTimer schedule) : ∃ n, ∀ m ≥ n,
      (∀ t, ((run m).port.writer t).pending = []) ∧ (run m).port.port.queue = [] := by
  have hport := port_run hrun
  have htick : Recurs (fun n => (run n).turn (schedule n)) .tick := by
    intro n
    obtain ⟨m, hm, he⟩ := hfair.tick n
    refine ⟨m, hm, ?_⟩
    show (run m).turn (schedule m) = .tick
    rw [he, Shared.turn]
  obtain ⟨n, hn⟩ := eventually_idle (s := (run 0).port) hdepth htick fun t n ht =>
    run_of_pending hrun h hfair (by rwa [hport n])
  exact ⟨n, fun m hm => by rw [hport m]; exact hn m hm⟩

omit hrun [DecidableEq T] in
theorem eq_singleton_of_nodup {l : List T} {a : T} (hl : l.Nodup) (ha : a ∈ l)
    (hall : ∀ t ∈ l, t = a) : l = [a] := by
  cases l with
  | nil => cases ha
  | cons b l =>
      rw [List.forall_mem_cons] at hall
      obtain ⟨rfl, hall⟩ := hall
      have hnil : l = [] := by
        refine List.eq_nil_iff_forall_not_mem.mpr fun t ht => ?_
        exact (List.nodup_cons.mp hl).1 (hall t ht ▸ ht)
      rw [hnil]

/-- Once everything is printed, the tasks leave until `main` is alone. -/
theorem alone_run (h : (run 0).Inv kmain tasks) (hnodup : tasks.Nodup) (hfair : FairTimer schedule)
    {n : Nat} (hdone : ∀ m ≥ n, ∀ t, ((run m).port.writer t).pending = []) :
    ∃ m ≥ n, ∀ k ≥ m, (run k).queue.line = [kmain] := by
  induction hlen : (run n).queue.line.length using Nat.strongRecOn generalizing n with
  | ind L ih =>
      have hinv := inv_run hrun h n
      by_cases hall : ∀ t ∈ (run n).queue.line, t = kmain
      · refine ⟨n, Nat.le_refl n, fun k hk => ?_⟩
        have hline : (run n).queue.line.Nodup :=
          (List.nodup_append.mp (hinv.tasks.nodup_iff.mpr hnodup)).1
        induction k, hk using Nat.le_induction with
        | base => exact eq_singleton_of_nodup hline hinv.main hall
        | succ k _ ih => rw [hrun, Shared.line_alone ih]
      · push Not at hall
        obtain ⟨t, ht, hne⟩ := hall
        obtain ⟨m, hm, he, hcur⟩ := served_run hrun h hfair ht
        have hshorter : (run (m + 1)).queue.line.length < L := by
          have hexit : (run m).Exits kmain := ⟨hdone m hm _, hcur ▸ hne⟩
          have hle : (run m).queue.line.length ≤ (run n).queue.line.length :=
            (follows_run hrun h).length_le hm
          have hpos : 0 < (run m).queue.line.length := Nat.succ_pos _
          rw [hrun, he, (Shared.queue_exit depth hexit (inv_run hrun h m).main).1, List.length_tail]
          omega
        obtain ⟨k, hk, hline⟩ := ih _ hshorter (fun i hi => hdone i (by omega)) rfl
        exact ⟨k, by omega, hline⟩

end Runs

end TeachingOs.Driver
