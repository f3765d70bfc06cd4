import TeachingOs.Driver.Printed
import TeachingOs.Irq.Timer
import TeachingOs.Lib.Ticker

/-!
# TeachingOs.Driver.Clocked

The board with its clock.  The timer interrupt is no longer an event of its
own: the clock counts, the interrupt controller interrupts the CPU, and
`gic_400_handle` finds `el1_timer_irq` in the table of `irq.c`, which sets the
timer anew; only when the handler has ended do other tasks run.

`Beside.Good.step` shows, for any interleaving of the CPU, the serial line and
the clock in which no interrupt hits `task_exit` before `splhigh`, that the
board goes through a run of its own, with the timer at the places that `Ticker`
says.
-/

namespace TeachingOs.Driver

open Device Irq Fair

variable {T : Type}

/-! ## The board and its clock -/

/-- The board, where the CPU is in `gic_400_handle`, and what the handler and
the clock have come to.  Without a point the CPU executes a task's own code. -/
structure Clocked (T : Type) where
  board : Board T
  point : Option HandlerPoint
  handling : Handling Clock

/-- A step of the CPU, one of the serial line, or a count of the clock. -/
inductive ClockEvent where
  | cpu
  | tick
  | count
deriving DecidableEq

variable [DecidableEq T]

/-- The end of `gic_400_handle`, and the way back to a task's own code. -/
def Clocked.leave (c : Clocked T) (s : Handling Clock) : Except Panic (Clocked T) := do
  let kernel ← if s.preempt then preemptFire c.board.sys.kernel else step c.board.sys.kernel
  return { board := c.board.withKernel kernel, point := none, handling := s.finish }

section

variable (depth : Nat) (call : Word → Word → Clock → Int × Clock) (irqs : Irqs)

/-- One step of the CPU: the next of `gic_400_handle`, or else an interrupt or the
board's next access. -/
def Clocked.stepCpu (c : Clocked T) : Except Panic (Clocked T) :=
  match c.point with
  | some point => do
      let (point, s) ← handlerStep call irqs.map irqs.gic.gic c.handling point
      if point = .done then c.leave s else return { c with point := some point, handling := s }
  | none =>
      if c.handling.world.signalled && !c.board.sys.kernel.masked then
        .ok {
          board := c.board.withKernel (trapEntry c.board.sys.kernel)
          point := some .fetch
          handling := { trace := [], preempt := false, world := c.handling.world } }
      else do
        let board ← c.board.step depth .access
        return { c with board }

def Clocked.step (c : Clocked T) : ClockEvent → Except Panic (Clocked T)
  | .cpu => c.stepCpu depth call irqs
  | .tick => do
      let board ← c.board.step depth .tick
      return { c with board }
  | .count => .ok { c with handling := { c.handling with world := c.handling.world.tick } }

/-- A run of the board with its clock. -/
def Clocked.run (c : Clocked T) (events : List ClockEvent) : Except Panic (Clocked T) :=
  events.foldlM (Clocked.step depth call irqs) c

/-- The next state, if the kernel does not panic. -/
def Clocked.next (c : Clocked T) (e : ClockEvent) : Clocked T :=
  orStay (Clocked.step depth call irqs) c e

end

/-- An interrupt does not hit `task_exit` between its call and `splhigh`. -/
def Clocked.Spares (c : Clocked T) (e : ClockEvent) : Prop :=
  e = .cpu → c.point = none → c.handling.world.signalled = true →
    c.board.User ∨ c.board.sys.kernel.masked = true

/-- The board before its first interrupt. -/
def Clocked.start (b : Board T) (irqs : Irqs) : Clocked T :=
  ⟨b, none, ⟨[], false, irqs.clock⟩⟩

/-! ## What it is for -/

/-- An event, seen from the state it is taken in: a step of the CPU may be a
statement of `task_exit`. -/
inductive ClockTurn where
  | cpu
  | statement
  | tick
  | count
deriving DecidableEq

def Clocked.turn (c : Clocked T) : ClockEvent → ClockTurn
  | .cpu => if c.point = none ∧ ¬ c.board.User then .statement else .cpu
  | .tick => .tick
  | .count => .count

/-- What an event is for the timer. -/
def ClockTurn.signal : ClockTurn → Signal
  | .cpu => .go
  | .statement => .rest
  | .tick => .rest
  | .count => .beat

/-- The handler reads `GICC_IAR`, sets the timer, and ends the interrupt. -/
def pace (freq : Word) : Ticker.Pace := ⟨reload freq, 1, 1⟩

/-- What an event is for the model. -/
def modelEvent (t : Ticker) : ClockTurn → Option BoardEvent
  | .cpu =>
      match t.use with
      | .work => some .access
      | .handler => none
      | .turn => some .timer
  | .statement => none
  | .tick => some .tick
  | .count => none

/-- What an event is for the board. -/
def boardEvent (t : Ticker) (turn : ClockTurn) : Option BoardEvent :=
  if turn = .statement then some .access else modelEvent t turn

/-- What a run is for the board. -/
def boardEvents (freq : Word) : Ticker → List ClockTurn → List BoardEvent
  | _, [] => []
  | t, turn :: turns =>
      (boardEvent t turn).toList ++ boardEvents freq (t.step (pace freq) turn.signal) turns

/-- Where the handler is when the timer has so many steps of it left. -/
inductive Phase (t : Ticker) : Option HandlerPoint → Handling Clock → Prop where
  | user {s} : t.left = 0 → s.world.active = false → Phase t none s
  | fetch {s} : t.left = 4 → t.Expired → s.world.active = false → Phase t (some .fetch) s
  | serve {s} : t.left = 3 → s.world.active = true → Phase t (some (.serve 30)) s
  | eoi {s} : t.left = 2 → s.world.active = true → s.preempt = true → Phase t (some (.eoi 30)) s
  | next {s} : t.left = 1 → s.world.active = false → s.preempt = true → Phase t (some .next) s

/-- In a task's own code, what the last handler did is what `gic400Handle` does
with some values; in the handler, what `gic400Handle` still does. -/
def Clocked.Follows (c : Clocked T) (call : Word → Word → Clock → Int × Clock) (irqs : Irqs) :
    Prop :=
  match c.point with
  | some point => Resumes call irqs.map irqs.gic.gic irqs.clock c.handling point
  | none => c.handling.trace = [] ∨ ∃ reads w,
      gic400Handle call irqs.map irqs.gic.gic reads irqs.clock =
        .ok (some { c.handling with world := w })

/-- The clock shows the timer, and the board is the given one, trapped while
the handler runs. -/
structure Clocked.Refines (c : Clocked T) (call : Word → Word → Clock → Int × Clock) (irqs : Irqs)
    (freq : Word) (t : Ticker) (b : Board T) : Prop where
  runs : c.handling.world.Runs freq t.deadline
  count : c.handling.world.count = t.now
  phase : Phase t c.point c.handling
  board : c.board = if t.left = 0 then b else b.withKernel (trapEntry b.sys.kernel)
  user : t.left ≠ 0 → b.User
  follows : c.Follows call irqs

variable {depth : Nat} {call : Word → Word → Clock → Int × Clock} {irqs : Irqs} {freq fn : Word}
  {t : Ticker} {kmain : T} {c : Clocked T} {b b' board : Board T} {a : Shared T}
  {s : Handling Clock}

/-! ## A step of the CPU -/

theorem Clocked.stepCpu_some {p p' : HandlerPoint} {s' : Handling Clock}
    (h : handlerStep call irqs.map irqs.gic.gic s p = .ok (p', s')) (hne : p' ≠ .done) :
    stepCpu depth call irqs ⟨board, some p, s⟩ = .ok ⟨board, some p', s'⟩ := by
  simp only [stepCpu, h, ok_bind, if_neg hne]
  rfl

theorem Clocked.stepCpu_done {p : HandlerPoint} {s' : Handling Clock}
    (h : handlerStep call irqs.map irqs.gic.gic s p = .ok (.done, s')) :
    stepCpu depth call irqs ⟨board, some p, s⟩ = Clocked.leave ⟨board, some p, s⟩ s' := by
  simp only [stepCpu, h, ok_bind, if_true]

/-- Outside the handler, without an interrupt: the board's next access. -/
theorem Clocked.Refines.step_board (h : Clocked.Refines ⟨board, none, s⟩ call irqs freq t b)
    (hquiet : s.world.signalled = true → b.sys.kernel.masked = true)
    (hstep : b.step depth .access = .ok b') :
    ∃ c', Clocked.stepCpu depth call irqs ⟨board, none, s⟩ = .ok c' ∧
      c'.Refines call irqs freq t b' := by
  obtain ⟨hruns, hcount, hphase, hboard, -, hfollows⟩ := h
  cases hphase with
  | user hleft hactive =>
      rw [if_pos hleft] at hboard
      replace hboard : board = b := hboard
      subst hboard
      have hnot : ¬ (s.world.signalled && !board.sys.kernel.masked) = true := by
        rw [Bool.and_eq_true]
        rintro ⟨hsignalled, hmasked⟩
        rw [hquiet hsignalled] at hmasked
        cases hmasked
      refine ⟨⟨b', none, s⟩, ?_, hruns, hcount, .user hleft hactive, (if_pos hleft).symm,
        absurd hleft, hfollows⟩
      simp only [stepCpu, if_neg hnot, hstep, ok_bind]
      rfl

/-- A task's own code, before the timer expires: the task's next access. -/
theorem Clocked.Refines.step_work (h : Clocked.Refines ⟨board, none, s⟩ call irqs freq t b)
    (hexp : ¬ t.Expired) (hstep : b.step depth .access = .ok b') :
    ∃ c', Clocked.stepCpu depth call irqs ⟨board, none, s⟩ = .ok c' ∧
      c'.Refines call irqs freq (t.step (pace freq) .go) b' := by
  cases h.phase with
  | user hleft hactive =>
      have hsignalled : s.world.signalled = false := by
        rw [h.runs.signalled hactive, h.count]
        exact decide_eq_false hexp
      rw [Ticker.go_of_left_zero hleft, if_neg hexp]
      exact h.step_board (fun hs => by rw [hsignalled] at hs; cases hs) hstep

/-- A task's own code, when the timer has expired: the CPU is interrupted. -/
theorem Clocked.Refines.step_enter (h : Clocked.Refines ⟨board, none, s⟩ call irqs freq t b)
    (hexp : t.Expired) (huser : b.User) (hmasked : b.sys.kernel.masked = false) :
    ∃ c', Clocked.stepCpu depth call irqs ⟨board, none, s⟩ = .ok c' ∧
      c'.Refines call irqs freq (t.step (pace freq) .go) b := by
  obtain ⟨hruns, hcount, hphase, hboard, -, -⟩ := h
  cases hphase with
  | user hleft hactive =>
      rw [if_pos hleft] at hboard
      subst hboard
      have hsignalled : s.world.signalled = true := by
        rw [hruns.signalled hactive, hcount]
        exact decide_eq_true hexp
      have hmasked : board.sys.kernel.masked = false := hmasked
      rw [Ticker.go_of_left_zero hleft, if_pos hexp]
      refine ⟨⟨board.withKernel (trapEntry board.sys.kernel), some .fetch, ⟨[], false, s.world⟩⟩,
        ?_, hruns, hcount, .fetch rfl hexp hactive, rfl, fun _ => huser, rfl, rfl⟩
      simp [stepCpu, hsignalled, hmasked]

/-- The first read of `GICC_IAR` gives the timer's interrupt. -/
theorem Clocked.Refines.step_fetch
    (h : Clocked.Refines ⟨board, some .fetch, s⟩ call irqs freq t b) :
    ∃ c', Clocked.stepCpu depth call irqs ⟨board, some .fetch, s⟩ = .ok c' ∧
      c'.Refines call irqs freq (t.step (pace freq) .go) b := by
  obtain ⟨hruns, hcount, hphase, hboard, huser, hfollows⟩ := h
  cases hphase with
  | fetch hleft hexp hactive =>
      have hread : s.world.readIar = (30, { s.world with active := true }) :=
        hruns.readIar_of_le hactive (by rw [hcount]; exact hexp)
      have hhandler : handlerStep call irqs.map irqs.gic.gic s .fetch =
          .ok (.serve 30,
            ⟨s.trace ++ [.readIar 30], s.preempt, { s.world with active := true }⟩) := by
        simp only [handlerStep, hread]
        rfl
      have hstep : t.step (pace freq) .go = { t with left := 3 } :=
        Ticker.go_of_left hleft (by simp [pace])
      rw [hstep]
      refine ⟨_, stepCpu_some hhandler nofun, hruns.setActive true, hcount, .serve rfl rfl, ?_,
        fun _ => huser (by omega), Resumes.fetch hfollows 30 _⟩
      rw [hboard, hleft]
      rfl

/-- The callback sets the timer. -/
theorem Clocked.Refines.step_serve
    (h : Clocked.Refines ⟨board, some (.serve 30), s⟩ call irqs freq t b) (hready : irqs.Ready fn)
    (hcall : ∀ userdata c, call fn userdata c = el1TimerIrq userdata c)
    (hfreq : freq.toNat < 2 ^ 32) :
    ∃ c', Clocked.stepCpu depth call irqs ⟨board, some (.serve 30), s⟩ = .ok c' ∧
      c'.Refines call irqs freq (t.step (pace freq) .go) b := by
  obtain ⟨hruns, hcount, hphase, hboard, huser, hfollows⟩ := h
  cases hphase with
  | serve hleft hactive =>
      have hhandler : handlerStep call irqs.map irqs.gic.gic s (.serve 30) = .ok (.eoi 30,
          ⟨s.trace ++ [.irqFire irqEl1PhysicalTimer], true, (s.world.setCntpCtlEl0 1).rearm⟩) := by
        rw [handlerStep, hready.dispatch hcall]
        rfl
      have hset := Clock.runs_rearm (c := s.world) (by rw [hruns.freq]; exact hfreq) hruns.enabled
      rw [hruns.freq, show s.world.count = t.now from hcount] at hset
      rw [Ticker.go_of_left_after hleft]
      refine ⟨_, stepCpu_some hhandler nofun, hset, hcount, .eoi rfl hactive rfl, ?_,
        fun _ => huser (by omega), Resumes.serve hfollows fun w => ⟨_, hready.dispatch hcall _⟩⟩
      rw [hboard, hleft]
      rfl

/-- The interrupt ends. -/
theorem Clocked.Refines.step_eoi
    (h : Clocked.Refines ⟨board, some (.eoi 30), s⟩ call irqs freq t b) :
    ∃ c', Clocked.stepCpu depth call irqs ⟨board, some (.eoi 30), s⟩ = .ok c' ∧
      c'.Refines call irqs freq (t.step (pace freq) .go) b := by
  obtain ⟨hruns, hcount, hphase, hboard, huser, hfollows⟩ := h
  cases hphase with
  | eoi hleft hactive hpreempt =>
      have hstep : t.step (pace freq) .go = { t with left := 1 } :=
        Ticker.go_of_left hleft (by simp [pace])
      rw [hstep]
      refine ⟨_, stepCpu_some rfl nofun, hruns.setActive false, hcount, .next rfl rfl hpreempt, ?_,
        fun _ => huser (by omega), Resumes.eoi hfollows _⟩
      rw [hboard, hleft]
      rfl

/-- The timer has expired once more. -/
theorem Clocked.Refines.step_again (h : Clocked.Refines ⟨board, some .next, s⟩ call irqs freq t b)
    (hexp : t.Expired) :
    ∃ c', Clocked.stepCpu depth call irqs ⟨board, some .next, s⟩ = .ok c' ∧
      c'.Refines call irqs freq (t.step (pace freq) .go) b := by
  obtain ⟨hruns, hcount, hphase, hboard, huser, hfollows⟩ := h
  cases hphase with
  | next hleft hactive hpreempt =>
      have hread : s.world.readIar = (30, { s.world with active := true }) :=
        hruns.readIar_of_le hactive (by rw [hcount]; exact hexp)
      have hhandler : handlerStep call irqs.map irqs.gic.gic s .next =
          .ok (.serve 30,
            ⟨s.trace ++ [.readIar 30], s.preempt, { s.world with active := true }⟩) := by
        simp only [handlerStep, hread]
        rfl
      rw [Ticker.go_of_left_one hleft, if_pos hexp]
      refine ⟨_, stepCpu_some hhandler nofun, hruns.setActive true, hcount, .serve rfl rfl, ?_,
        fun _ => huser (by omega), Resumes.next hfollows 30 _⟩
      rw [hboard, hleft]
      rfl

/-- No more interrupts: the handler ends, and the next task runs. -/
theorem Clocked.Refines.step_leave (h : Clocked.Refines ⟨board, some .next, s⟩ call irqs freq t b)
    (hexp : ¬ t.Expired) (hmasked : b.sys.kernel.masked = false)
    (hstep : b.step depth .timer = .ok b') :
    ∃ c', Clocked.stepCpu depth call irqs ⟨board, some .next, s⟩ = .ok c' ∧
      c'.Refines call irqs freq (t.step (pace freq) .go) b' := by
  obtain ⟨hruns, hcount, hphase, hboard, huser, hfollows⟩ := h
  cases hphase with
  | next hleft hactive hpreempt =>
      have hread : s.world.readIar = (1023, s.world) :=
        hruns.readIar_of_not_le hactive (by rw [hcount]; exact hexp)
      have hhandler : handlerStep call irqs.map irqs.gic.gic s .next =
          .ok (.done, s.log (.readIar 1023)) := by
        simp only [handlerStep, hread]
        rfl
      obtain ⟨kernel, hkernel, rfl⟩ : ∃ kernel,
          preemptFire (trapEntry b.sys.kernel) = .ok kernel ∧ b' = b.withKernel kernel := by
        simp only [Board.step, hmasked, timerInterrupt_eq] at hstep
        obtain ⟨kernel, hkernel, hok⟩ := bind_eq_ok.mp hstep
        exact ⟨kernel, hkernel, (Except.ok.inj hok).symm⟩
      rw [hleft] at hboard
      have hboard : board = b.withKernel (trapEntry b.sys.kernel) := hboard
      subst hboard
      have hleave : Clocked.leave ⟨b.withKernel (trapEntry b.sys.kernel), some .next, s⟩
          (s.log (.readIar 1023)) =
            .ok ⟨b.withKernel kernel, none, (s.log (.readIar 1023)).finish⟩ := by
        have hpreempt : (s.log (.readIar 1023)).preempt = true := hpreempt
        have htrapped : (b.withKernel (trapEntry b.sys.kernel)).sys.kernel =
            trapEntry b.sys.kernel := rfl
        simp only [leave, if_pos hpreempt]
        rw [htrapped, hkernel]
        rfl
      have hworld : (s.log (.readIar 1023)).finish.world = s.world := by
        simp only [Handling.finish]
        split <;> rfl
      have hdone : Resumes call irqs.map irqs.gic.gic irqs.clock (s.log (.readIar 1023)) .done :=
        Resumes.next hfollows 1023 s.world
      obtain ⟨past, w, hpast⟩ := hdone
      rw [Handling.finish_world] at hpast
      rw [Ticker.go_of_left_one hleft, if_neg hexp]
      refine ⟨_, (stepCpu_done hhandler).trans hleave, ?_, ?_, .user rfl ?_, rfl, absurd rfl,
        .inr ⟨past, w, hpast⟩⟩
      · rw [hworld]
        exact hruns
      · rw [hworld]
        exact hcount
      · rw [hworld]
        exact hactive

/-! ## Refinement -/

theorem Board.run_append (depth : Nat) (b : Board T) (events events' : List BoardEvent) :
    b.run depth (events ++ events') = (do
      let b ← b.run depth events
      b.run depth events') :=
  List.foldlM_append

/-- What every step of the CPU needs of the tables. -/
structure Serves (call : Word → Word → Clock → Int × Clock) (irqs : Irqs) (freq fn : Word) :
    Prop where
  ready : irqs.Ready fn
  callback : ∀ userdata c, call fn userdata c = el1TimerIrq userdata c
  frequency : freq.toNat < 2 ^ 32

/-- The board after what an event is for it. -/
def Board.after (depth : Nat) (b : Board T) (o : Option BoardEvent) : Board T :=
  o.elim b (b.next depth)

theorem Clocked.Refines.turn_cpu (h : c.Refines call irqs freq t b) :
    c.turn .cpu = if b.User then .cpu else .statement := by
  obtain ⟨board, point, s⟩ := c
  cases hphase : h.phase with
  | user hleft =>
      have hboard : board = b := by
        have hboard := h.board
        rwa [if_pos hleft] at hboard
      by_cases huser : b.User <;> simp [Clocked.turn, hboard, huser]
  | fetch hleft => simp [Clocked.turn, h.user (show t.left ≠ 0 by omega)]
  | serve hleft => simp [Clocked.turn, h.user (show t.left ≠ 0 by omega)]
  | eoi hleft => simp [Clocked.turn, h.user (show t.left ≠ 0 by omega)]
  | next hleft => simp [Clocked.turn, h.user (show t.left ≠ 0 by omega)]

/-- **Refinement**, a statement of `task_exit`. -/
theorem Clocked.Refines.stepCpu_statement (h : c.Refines call irqs freq t b) (hcall : ¬ b.User)
    (hspares : c.Spares .cpu) (hstep : b.step depth .access = .ok b') :
    ∃ c', c.stepCpu depth call irqs = .ok c' ∧ c'.Refines call irqs freq t b' := by
  obtain ⟨board, point, s⟩ := c
  cases hphase : h.phase with
  | user hleft =>
      have hboard : board = b := by
        have hboard := h.board
        rwa [if_pos hleft] at hboard
      refine h.step_board (fun hsignalled => ?_) hstep
      exact hboard ▸ (hspares rfl rfl hsignalled).resolve_left (hboard ▸ hcall)
  | fetch hleft => exact absurd (h.user (by omega)) hcall
  | serve hleft => exact absurd (h.user (by omega)) hcall
  | eoi hleft => exact absurd (h.user (by omega)) hcall
  | next hleft => exact absurd (h.user (by omega)) hcall

/-- **Refinement**, any other step of the CPU. -/
theorem Clocked.Refines.stepCpu_user {left : Nat} (h : c.Refines call irqs freq t b)
    (hs : Serves call irqs freq fn) (hb : b.Refines kmain left a) (huser : b.User) :
    ∃ c', c.stepCpu depth call irqs = .ok c' ∧
      c'.Refines call irqs freq (t.step (pace freq) .go)
        (b.after depth (modelEvent t .cpu)) := by
  obtain ⟨board, point, s⟩ := c
  have hmasked := (hb.sliced huser).unmasked
  have hstep : ∀ e, b.step depth e = .ok (b.next depth e) := fun e =>
    (hb.step depth fun _ => .inl huser).1
  cases hphase : h.phase with
  | user hleft =>
      by_cases hexp : t.Expired
      · rw [show modelEvent t .cpu = none by simp [modelEvent, Ticker.use, hleft, hexp]]
        exact h.step_enter hexp huser hmasked
      · rw [show modelEvent t .cpu = some .access by simp [modelEvent, Ticker.use, hleft, hexp]]
        exact h.step_work hexp (hstep .access)
  | fetch hleft =>
      rw [show modelEvent t .cpu = none by simp [modelEvent, Ticker.use, hleft]]
      exact h.step_fetch
  | serve hleft =>
      rw [show modelEvent t .cpu = none by simp [modelEvent, Ticker.use, hleft]]
      exact h.step_serve hs.ready hs.callback hs.frequency
  | eoi hleft =>
      rw [show modelEvent t .cpu = none by simp [modelEvent, Ticker.use, hleft]]
      exact h.step_eoi
  | next hleft =>
      by_cases hexp : t.Expired
      · rw [show modelEvent t .cpu = none by simp [modelEvent, Ticker.use, hleft, hexp]]
        exact h.step_again hexp
      · rw [show modelEvent t .cpu = some .timer by simp [modelEvent, Ticker.use, hleft, hexp]]
        exact h.step_leave hexp hmasked (hstep .timer)

theorem Phase.of_count {p : Option HandlerPoint} (h : Phase t p s) :
    Phase { t with now := t.now + 1 } p { s with world := s.world.tick } := by
  cases h with
  | user hleft hactive => exact .user hleft hactive
  | fetch hleft hexp hactive => exact .fetch hleft (Nat.le_succ_of_le hexp) hactive
  | serve hleft hactive => exact .serve hleft hactive
  | eoi hleft hactive hpreempt => exact .eoi hleft hactive hpreempt
  | next hleft hactive hpreempt => exact .next hleft hactive hpreempt

omit [DecidableEq T] in
theorem Clocked.Follows.of_world {point : Option HandlerPoint}
    (h : Clocked.Follows ⟨board, point, s⟩ call irqs) (board' : Board T) (w : Clock) :
    Clocked.Follows ⟨board', point, { s with world := w }⟩ call irqs := by
  cases point with
  | none => exact h
  | some p => exact Resumes.of_world h w

/-- **Refinement**, one event: the board with its clock goes on as the board
does by itself. -/
theorem Clocked.Refines.step {left : Nat} (h : c.Refines call irqs freq t b)
    (hs : Serves call irqs freq fn) (hb : b.Refines kmain left a) (depth : Nat) {e : ClockEvent}
    (hspares : c.Spares e) :
    c.step depth call irqs e = .ok (c.next depth call irqs e) ∧
      (c.next depth call irqs e).Refines call irqs freq (t.step (pace freq) (c.turn e).signal)
        (b.after depth (boardEvent t (c.turn e))) := by
  have hok : ∀ {c' t' b'}, c.step depth call irqs e = .ok c' → c'.Refines call irqs freq t' b' →
      c.step depth call irqs e = .ok (c.next depth call irqs e) ∧
        (c.next depth call irqs e).Refines call irqs freq t' b' := by
    intro c' t' b' hstep hc'
    rw [Clocked.next, orStay_of_ok hstep]
    exact ⟨hstep, hc'⟩
  cases e with
  | cpu =>
      by_cases huser : b.User
      · obtain ⟨c', hstep, hc'⟩ := h.stepCpu_user hs hb huser
        rw [h.turn_cpu, if_pos huser]
        exact hok hstep hc'
      · have hstatement := (hb.step depth Board.spares_access).1
        obtain ⟨c', hstep, hc'⟩ := h.stepCpu_statement huser hspares hstatement
        rw [h.turn_cpu, if_neg huser]
        exact hok hstep hc'
  | count =>
      obtain ⟨board, point, s⟩ := c
      obtain ⟨hruns, hcount, hphase, hboard, huser, hfollows⟩ := h
      exact hok rfl ⟨hruns.tick, congrArg (· + 1) hcount, hphase.of_count, hboard, huser,
        hfollows.of_world board _⟩
  | tick =>
      obtain ⟨board, point, s⟩ := c
      obtain ⟨hruns, hcount, hphase, hboard, huser, hfollows⟩ := h
      refine hok rfl ⟨hruns, hcount, hphase, ?_, huser, hfollows.of_world _ s.world⟩
      replace hboard : board = if t.left = 0 then b else b.withKernel (trapEntry b.sys.kernel) :=
        hboard
      by_cases hleft : t.left = 0
      · rw [if_pos hleft] at hboard
        exact hboard ▸ (if_pos hleft).symm
      · rw [if_neg hleft] at hboard
        exact hboard ▸ (if_neg hleft).symm

/-- The timer when the boot code has set it. -/
def startTicker (clock : Clock) : Ticker :=
  ⟨clock.count, clock.count + reload clock.cntfrqEl0, 0⟩

variable {fuel : Nat} {devs : Devices DeviceName ConsoleDriver} {calls : T → List PrintkCall}
  {m : Mmio.Machine T Word (BitVec 32) Uart} {tasks : List (T × Word × Word)} {heap : Heap}
  {words : WordHeap} {clock : Clock}

/-- What the boot code needs: memory for its tables, an address for the
callback, and a clock as the hardware leaves it. -/
structure Boots (call : Word → Word → Clock → Int × Clock) (heap : Heap) (words : WordHeap)
    (fn : Word) (clock : Clock) : Prop where
  table : heap.Succeeds
  kirqs : (words ((32 + 96) * 8)).isSome = true
  address : fn ≠ 0
  callback : ∀ userdata c, call fn userdata c = el1TimerIrq userdata c
  frequency : clock.cntfrqEl0.toNat < 2 ^ 32
  inactive : clock.active = false

/-- **Boot**: `main` loads the interrupts and starts its tasks. -/
theorem Boots.start (hboots : Boots call heap words fn clock) (task : T → Task T)
    (hfresh : (kmain :: tasks.map Prod.fst).Nodup) (h : Printing fuel devs calls m) :
    ∃ g irqs, Sys.startAll tasks (bootSys kmain task) = .ok g ∧
      loadIrqs heap words fn clock = .ok irqs ∧ Serves call irqs clock.cntfrqEl0 fn ∧
      Board.User ⟨g, m⟩ ∧ Board.Refines ⟨g, m⟩ kmain 7 (Shared.start kmain tasks calls) ∧
      (Clocked.start ⟨g, m⟩ irqs).Refines call irqs clock.cntfrqEl0 (startTicker clock) ⟨g, m⟩ := by
  obtain ⟨g, hstart, huser, hrefines⟩ := refines_start task hfresh h
  obtain ⟨irqs, hload, hready, hruns, hcount, hactive⟩ :=
    loadIrqs_ready hboots.table hboots.kirqs hboots.address hboots.frequency
  exact ⟨g, irqs, hstart, hload, ⟨hready, hboots.callback, hboots.frequency⟩, huser, hrefines,
    hruns, hcount, .user rfl (hactive.trans hboots.inactive), rfl, absurd rfl, .inl rfl⟩

/-! ## Side by side -/

/-- The board with its clock, and beside it the timer, the board by itself, the
statements of `task_exit` that may be left, and the model. -/
structure Beside (T : Type) where
  clocked : Clocked T
  ticker : Ticker
  board : Board T
  left : Nat
  model : Shared T

/-- How many statements of `task_exit` may be left after an event. -/
def ClockTurn.leftAfter : ClockTurn → Nat → Nat
  | .cpu, _ => 7
  | .statement, left => left - 1
  | _, left => left

section

variable (depth : Nat) (call : Word → Word → Clock → Int × Clock) (irqs : Irqs) (freq : Word)
  (kmain : T)

def Beside.step (s : Beside T) (e : ClockEvent) : Beside T where
  clocked := s.clocked.next depth call irqs e
  ticker := s.ticker.step (pace freq) (s.clocked.turn e).signal
  board := s.board.after depth (boardEvent s.ticker (s.clocked.turn e))
  left := (s.clocked.turn e).leftAfter s.left
  model := s.model.run depth kmain (modelEvent s.ticker (s.clocked.turn e)).toList

/-- Each shows the next. -/
structure Beside.Good (s : Beside T) : Prop where
  clocked : s.clocked.Refines call irqs freq s.ticker s.board
  board : s.board.Refines kmain s.left s.model
  left : s.left ≤ 7

end

variable {beside : Beside T}

theorem Beside.Good.user_of_cpu (h : beside.Good call irqs freq kmain) {e : ClockEvent}
    (hturn : beside.clocked.turn e = .cpu) : beside.board.User := by
  cases e with
  | cpu =>
      rw [h.clocked.turn_cpu] at hturn
      by_contra hcall
      rw [if_neg hcall] at hturn
      cases hturn
  | tick => cases hturn
  | count => cases hturn

theorem Beside.Good.call_of_statement (h : beside.Good call irqs freq kmain) {e : ClockEvent}
    (hturn : beside.clocked.turn e = .statement) : ¬ beside.board.User := by
  cases e with
  | cpu =>
      intro huser
      rw [h.clocked.turn_cpu, if_pos huser] at hturn
      cases hturn
  | tick => cases hturn
  | count => cases hturn

/-- Where a statement of `task_exit` comes next, one is left. -/
theorem Beside.Good.left_pos (h : beside.Good call irqs freq kmain) {e : ClockEvent}
    (hturn : beside.clocked.turn e = .statement) : 0 < beside.left :=
  (h.board.step_call (h.call_of_statement hturn) 0).1

/-- The board by itself goes on as the model does. -/
theorem Beside.Good.step_model (h : beside.Good call irqs freq kmain) (depth : Nat)
    (e : ClockEvent) : (beside.step depth call irqs freq kmain e).board.Refines kmain
      (beside.step depth call irqs freq kmain e).left
      (beside.step depth call irqs freq kmain e).model := by
  have hleft := h.left
  have hstep : ∀ {e left'}, beside.board.User → beside.board.leftAfter e beside.left ≤ left' →
      (beside.board.next depth e).Refines kmain left' (beside.model.step depth kmain e) := by
    intro e left' huser hle
    have hnext := (h.board.step depth (e := e) fun _ => .inl huser).2
    rw [Board.seen_of_user huser] at hnext
    exact hnext.mono hle
  simp only [Beside.step]
  cases hturn : beside.clocked.turn e with
  | cpu =>
      have huser := h.user_of_cpu hturn
      cases huse : beside.ticker.use with
      | work =>
          simp only [boardEvent, modelEvent, huse]
          exact hstep huser (Nat.le_of_eq (Board.leftAfter_user huser))
      | handler =>
          simp only [boardEvent, modelEvent, huse]
          exact h.board.mono hleft
      | turn =>
          simp only [boardEvent, modelEvent, huse]
          exact hstep huser (by rwa [Board.leftAfter_of_ne (by simp)])
  | statement =>
      have hcall := h.call_of_statement hturn
      have hnext := (h.board.step depth Board.spares_access).2
      rwa [Board.seen_of_call hcall (by simp), Board.leftAfter_call hcall] at hnext
  | tick =>
      have hnext := (h.board.step depth Board.spares_tick).2
      rwa [Board.seen_tick] at hnext
  | count => exact h.board

/-- **Refinement**, one event. -/
theorem Beside.Good.step (h : beside.Good call irqs freq kmain) (hs : Serves call irqs freq fn)
    (depth : Nat) {e : ClockEvent} (hspares : beside.clocked.Spares e) :
    beside.clocked.step depth call irqs e =
        .ok (beside.step depth call irqs freq kmain e).clocked ∧
      (beside.step depth call irqs freq kmain e).Good call irqs freq kmain := by
  obtain ⟨hstep, hclocked⟩ := h.clocked.step hs h.board depth hspares
  have hleft : (beside.clocked.turn e).leftAfter beside.left ≤ 7 := by
    have hle := h.left
    cases beside.clocked.turn e with
    | cpu => exact Nat.le_refl 7
    | statement => exact Nat.le_trans (Nat.sub_le ..) hle
    | tick => exact hle
    | count => exact hle
  exact ⟨hstep, hclocked, h.step_model depth e, hleft⟩

/-- **Refinement**, a whole run. -/
theorem Beside.Good.run (h : beside.Good call irqs freq kmain) (hs : Serves call irqs freq fn)
    (depth : Nat) {events : List ClockEvent}
    (hspares : Along (Clocked.next depth call irqs) Clocked.Spares beside.clocked events) :
    beside.clocked.run depth call irqs events =
        .ok (events.foldl (Beside.step depth call irqs freq kmain) beside).clocked ∧
      (events.foldl (Beside.step depth call irqs freq kmain) beside).Good call irqs freq kmain := by
  induction events generalizing beside with
  | nil => exact ⟨rfl, h⟩
  | cons e events ih =>
      obtain ⟨hspare, hspares⟩ := hspares
      obtain ⟨hstep, h₁⟩ := h.step hs depth hspare
      obtain ⟨hrun, h'⟩ := ih h₁ hspares
      refine ⟨?_, h'⟩
      rw [Clocked.run, List.foldlM_cons, hstep, ok_bind]
      exact hrun

end TeachingOs.Driver
