import TeachingOs.Driver.Clocked

/-!
# TeachingOs.Driver.Paced

How often the timer interrupts the tasks, and what becomes of them.

* `clocked_paced`: not more than once a period;
* `clocked_handles`: what a handler has done when a task runs again;
* `clocked_stuck`: with a counter below 100 Hz no task runs;
* `clocked_completes`: on a CPU that is fast enough every task prints all of its
  text and exits.

But for `clocked_stuck` these are about runs in which no interrupt hits
`task_exit` before `splhigh`, with as many tasks as `bump_heap` has room for;
`main` starts them before the first interrupt.
-/

namespace TeachingOs.Driver

open Device Irq Fair

variable {T : Type} [DecidableEq T] {depth : Nat} {call : Word → Word → Clock → Int × Clock}
  {irqs : Irqs} {freq fn : Word} {t : Ticker} {kmain : T} {c : Clocked T} {b : Board T}
  {beside : Beside T} {s : Handling Clock} {events : List ClockEvent}
  {schedule : Nat → ClockEvent}
  {fuel : Nat} {devs : Devices DeviceName ConsoleDriver} {calls : T → List PrintkCall}
  {m : Mmio.Machine T Word (BitVec 32) Uart} {tasks : List (T × Word × Word)} {heap : Heap}
  {words : WordHeap} {clock : Clock}

/-! ## The run of the board -/

theorem count_timer_boardEvents (freq : Word) (t : Ticker) (turns : List ClockTurn) :
    (boardEvents freq t turns).count .timer =
      Ticker.turns (pace freq) t (turns.map ClockTurn.signal) := by
  induction turns generalizing t with
  | nil => rfl
  | cons turn turns ih =>
      rw [boardEvents, List.count_append, ih, List.map_cons, Ticker.turns]
      congr 1
      cases turn with
      | cpu =>
          cases huse : t.use <;>
            simp [boardEvent, modelEvent, huse, Ticker.Turns, ClockTurn.signal]
      | statement => simp [boardEvent, Ticker.Turns, ClockTurn.signal]
      | tick => simp [boardEvent, modelEvent, Ticker.Turns, ClockTurn.signal]
      | count => simp [boardEvent, modelEvent, Ticker.Turns, ClockTurn.signal]

theorem count_tick_boardEvents (freq : Word) (t : Ticker) (turns : List ClockTurn) :
    (boardEvents freq t turns).count .tick = turns.count .tick := by
  induction turns generalizing t with
  | nil => rfl
  | cons turn turns ih =>
      rw [boardEvents, List.count_append, ih, List.count_cons, Nat.add_comm]
      congr 1
      cases turn with
      | cpu => cases huse : t.use <;> simp [boardEvent, modelEvent, huse]
      | statement => rfl
      | tick => rfl
      | count => rfl

omit [DecidableEq T] in
theorem Clocked.turn_eq_tick_iff {e : ClockEvent} : c.turn e = .tick ↔ e = .tick := by
  cases e with
  | cpu => simp only [Clocked.turn]; split <;> simp
  | tick => simp [Clocked.turn]
  | count => simp [Clocked.turn]

omit [DecidableEq T] in
theorem Clocked.signal_turn_eq_beat_iff {e : ClockEvent} :
    (c.turn e).signal = .beat ↔ e = .count := by
  cases e with
  | cpu => simp only [Clocked.turn]; split <;> simp [ClockTurn.signal]
  | tick => simp [Clocked.turn, ClockTurn.signal]
  | count => simp [Clocked.turn, ClockTurn.signal]

section

variable (depth : Nat) (call : Word → Word → Clock → Int × Clock) (irqs : Irqs) (freq : Word)
  (kmain : T)

/-- What the events of a run are, each in its place. -/
def Beside.turns (s : Beside T) (events : List ClockEvent) : List ClockTurn :=
  views (Beside.step depth call irqs freq kmain) (fun s e => s.clocked.turn e) s events

theorem Beside.count_tick_turns (s : Beside T) (events : List ClockEvent) :
    (s.turns depth call irqs freq kmain events).count .tick = events.count .tick :=
  count_views (fun _ _ => Clocked.turn_eq_tick_iff) s events

theorem Beside.count_beat_turns (s : Beside T) (events : List ClockEvent) :
    ((s.turns depth call irqs freq kmain events).map ClockTurn.signal).count .beat =
      events.count .count := by
  rw [Beside.turns, map_views]
  exact count_views (fun _ _ => Clocked.signal_turn_eq_beat_iff) s events

end

/-- What the board does by itself spares `task_exit`. -/
theorem Beside.Good.board_spares (h : beside.Good call irqs freq kmain) {e : ClockEvent}
    {e' : BoardEvent} (he : boardEvent beside.ticker (beside.clocked.turn e) = some e') :
    beside.board.Spares e' := by
  rintro rfl
  refine .inl ?_
  cases hturn : beside.clocked.turn e with
  | cpu => exact h.user_of_cpu hturn
  | statement => rw [hturn] at he; cases he
  | tick => rw [hturn] at he; cases he
  | count => rw [hturn] at he; cases he

/-- **The board's own run.** -/
theorem Beside.Good.run_board (h : beside.Good call irqs freq kmain) (hs : Serves call irqs freq fn)
    (depth : Nat)
    (hspares : Along (Clocked.next depth call irqs) Clocked.Spares beside.clocked events) :
    beside.board.run depth
        (boardEvents freq beside.ticker (beside.turns depth call irqs freq kmain events)) =
        .ok (events.foldl (Beside.step depth call irqs freq kmain) beside).board ∧
      Along (Board.next depth) Board.Spares beside.board
        (boardEvents freq beside.ticker (beside.turns depth call irqs freq kmain events)) := by
  induction events generalizing beside with
  | nil => exact ⟨rfl, trivial⟩
  | cons e events ih =>
      obtain ⟨hspare, hspares⟩ := hspares
      obtain ⟨hrun, halong⟩ := ih (h.step hs depth hspare).2 hspares
      have hafter : (beside.step depth call irqs freq kmain e).board =
          beside.board.after depth (boardEvent beside.ticker (beside.clocked.turn e)) := rfl
      have hcons : beside.turns depth call irqs freq kmain (e :: events) =
          beside.clocked.turn e :: (beside.step depth call irqs freq kmain e).turns depth call irqs
            freq kmain events := rfl
      rw [hcons, boardEvents, Board.run_append, along_append]
      cases he : boardEvent beside.ticker (beside.clocked.turn e) with
      | none =>
          rw [he] at hafter
          rw [hafter] at hrun halong
          exact ⟨hrun, trivial, halong⟩
      | some e' =>
          have hspares' := h.board_spares he
          rw [he] at hafter
          rw [hafter] at hrun halong
          refine ⟨?_, ⟨hspares', trivial⟩, halong⟩
          rw [Option.toList_some, Board.run, List.foldlM_cons, (h.board.step depth hspares').1]
          exact hrun

/-- The state after the first `n` events of a schedule. -/
theorem Beside.Good.of_schedule (h : beside.Good call irqs freq kmain)
    (hs : Serves call irqs freq fn) (depth : Nat) {n : Nat}
    (hspares : ∀ i < n, (runOf (Clocked.next depth call irqs) schedule beside.clocked i).Spares
      (schedule i)) :
    (runOf (Beside.step depth call irqs freq kmain) schedule beside n).clocked =
        runOf (Clocked.next depth call irqs) schedule beside.clocked n ∧
      (runOf (Beside.step depth call irqs freq kmain) schedule beside n).Good call irqs freq
        kmain := by
  induction n with
  | zero => exact ⟨rfl, h⟩
  | succ n ih =>
      obtain ⟨hclocked, hgood⟩ := ih fun i hi => hspares i (Nat.lt_succ_of_lt hi)
      have hspare := hspares n (Nat.lt_succ_self n)
      rw [← hclocked] at hspare
      refine ⟨?_, (hgood.step hs depth hspare).2⟩
      rw [runOf_succ, runOf_succ, ← hclocked]
      rfl

theorem Phase.left_eq_zero_iff {p : Option HandlerPoint} (h : Phase t p s) :
    t.left = 0 ↔ p = none := by
  cases h with
  | user hleft => exact iff_of_true hleft rfl
  | fetch hleft => exact iff_of_false (by omega) nofun
  | serve hleft => exact iff_of_false (by omega) nofun
  | eoi hleft => exact iff_of_false (by omega) nofun
  | next hleft => exact iff_of_false (by omega) nofun

theorem Clocked.Refines.board_eq (h : c.Refines call irqs freq t b) :
    c.board = if c.point = none then b else b.withKernel (trapEntry b.sys.kernel) := by
  rw [h.board]
  exact if_congr h.phase.left_eq_zero_iff rfl rfl

theorem Clocked.Refines.machine_eq (h : c.Refines call irqs freq t b) :
    c.board.machine = b.machine := by
  rw [h.board_eq]
  split <;> rfl

theorem Beside.Good.spares_of_user (h : beside.Good call irqs freq kmain)
    (huser : beside.board.User) (e : ClockEvent) : beside.clocked.Spares e := by
  intro _ hpoint _
  rw [h.clocked.board_eq, if_pos hpoint]
  exact .inl huser

/-- Only an exit leads out of the tasks' own code. -/
theorem Beside.Good.step_user (h : beside.Good call irqs freq kmain)
    (huser : beside.board.User) (hnot : ¬ beside.model.Exits kmain) (depth : Nat)
    (e : ClockEvent) : (beside.step depth call irqs freq kmain e).board.User := by
  have hne : beside.clocked.turn e ≠ .statement := fun hturn => h.call_of_statement hturn huser
  simp only [Beside.step, boardEvent, if_neg hne]
  cases modelEvent beside.ticker (beside.clocked.turn e) with
  | none => exact huser
  | some e' =>
      obtain ⟨b', -, hstep, huser', -⟩ := h.board.step_stay huser depth (e := e') fun _ => hnot
      rw [Board.after, Option.elim_some, Board.next, orStay_of_ok hstep]
      exact huser'

/-- Alone, `main` loops. -/
theorem Beside.Good.step_alone (h : beside.Good call irqs freq kmain)
    (huser : beside.board.User) (halone : beside.model.queue.line = [kmain]) (depth : Nat)
    (e : ClockEvent) : (beside.step depth call irqs freq kmain e).board.User ∧
      (beside.step depth call irqs freq kmain e).model.queue.line = [kmain] := by
  refine ⟨h.step_user huser (fun hexit => hexit.2 (List.cons.inj halone).1) depth e, ?_⟩
  simp only [Beside.step]
  cases modelEvent beside.ticker (beside.clocked.turn e) with
  | none => exact halone
  | some e' => exact Shared.line_alone halone e'

/-! ## After boot -/

/-- The board with its clock after boot, and the others beside it. -/
def Beside.start (c : Clocked T) (clock : Clock) (a : Shared T) : Beside T :=
  ⟨c, startTicker clock, c.board, 7, a⟩

/-- **Boot**, for the board with all that it is compared with. -/
theorem Boots.good (hboots : Boots call heap words fn clock) (task : T → Task T)
    (hfresh : (kmain :: tasks.map Prod.fst).Nodup) (h : Printing fuel devs calls m) :
    ∃ g irqs, Sys.startAll tasks (bootSys kmain task) = .ok g ∧
      loadIrqs heap words fn clock = .ok irqs ∧ Serves call irqs clock.cntfrqEl0 fn ∧
      Board.User ⟨g, m⟩ ∧
      (Beside.start (.start ⟨g, m⟩ irqs) clock (.start kmain tasks calls)).Good call irqs
        clock.cntfrqEl0 kmain := by
  obtain ⟨g, irqs, hstart, hload, hserves, huser, hboard, hclocked⟩ := hboots.start task hfresh h
  exact ⟨g, irqs, hstart, hload, hserves, huser, hclocked, hboard, Nat.le_refl 7⟩

/-! ## Two letters -/

/-- A counter of `freq` Hz after reset. -/
def resetClock (freq : Word) : Clock := ⟨freq, 0, 0, 0, false, false⟩

/-- The letters' interrupts after boot, with a counter of 200 Hz. -/
def lettersIrqs : Irqs :=
  match loadIrqs (fun _ => some fun _ => .zero) (fun _ => some fun _ => 1) 0x80000
    (resetClock 200) with
  | .ok irqs => irqs
  | .error _ => ⟨⟨fun _ => .zero, 0, 0, 0⟩, ⟨0, ⟨fun _ => 0, 0⟩, [], []⟩, resetClock 200⟩

theorem boots_letters : Boots (fun _ => el1TimerIrq) (fun _ => some fun _ => .zero)
    (fun _ => some fun _ => 1) 0x80000 (resetClock 200) :=
  ⟨fun _ => rfl, rfl, by decide, fun _ _ => rfl, by decide, rfl⟩

theorem loadIrqs_letters : loadIrqs (fun _ => some fun _ => .zero) (fun _ => some fun _ => 1)
    0x80000 (resetClock 200) = .ok lettersIrqs := rfl

/-- The clock counts, the CPU takes 24 steps, and the serial line one. -/
def counts (n : Nat) : ClockEvent :=
  if n % 26 = 0 then .count else if n % 26 = 25 then .tick else .cpu

/-- The letters' board with its clock. -/
def lettersRun (n : Nat) : Clocked Bool :=
  runOf (Clocked.next 8 (fun _ => el1TimerIrq) lettersIrqs) counts
    (.start lettersBoard lettersIrqs) n

instance (c : Clocked T) (e : ClockEvent) : Decidable (c.Spares e) :=
  inferInstanceAs (Decidable (_ → _ → _ → _))

theorem spares_first_letters : ∀ n < 42, (lettersRun n).Spares (counts n) := by decide +kernel

/-- After 42 events `main` is alone. -/
theorem alone_lettersRun : ∃ beside : Beside Bool, beside.clocked = lettersRun 42 ∧
    beside.Good (fun _ => el1TimerIrq) lettersIrqs 200 false ∧
    Serves (fun _ => el1TimerIrq) lettersIrqs 200 0x80000 ∧ beside.board.User ∧
    beside.model.queue.line = [false] := by
  have hfresh : (false :: [(true, (0 : Word), (0 : Word))].map Prod.fst).Nodup := by decide
  obtain ⟨g, irqs, hstart, hload, hserves, -, hgood⟩ :=
    boots_letters.good blankTask hfresh printing_letters
  obtain rfl := Except.ok.inj (startAll_letters.symm.trans hstart)
  obtain rfl := Except.ok.inj (loadIrqs_letters.symm.trans hload)
  obtain ⟨hclocked, hgood'⟩ := hgood.of_schedule hserves 8 spares_first_letters
  replace hclocked : Beside.clocked _ = lettersRun 42 := hclocked
  generalize runOf (Beside.step 8 _ lettersIrqs _ false) counts _ 42 = beside at hgood' hclocked
  have hpoint : (lettersRun 42).point = none := by decide +kernel
  have hboard : beside.board = (lettersRun 42).board := by
    rw [← hclocked, hgood'.clocked.board_eq, hclocked, if_pos hpoint]
  have huser : beside.board.User := by
    rw [hboard]
    decide +kernel
  refine ⟨beside, hclocked, hgood', hserves, huser, ?_⟩
  refine line_of_alone (hgood'.board.sliced huser) ?_ ?_
  · rw [hboard]
    decide +kernel
  · rw [hboard]
    decide +kernel

/-- From then on nobody exits. -/
theorem user_lettersRun {n : Nat} (hn : 42 ≤ n) : ∃ beside : Beside Bool,
    beside.clocked = lettersRun n ∧
    beside.Good (fun _ => el1TimerIrq) lettersIrqs 200 false ∧
    Serves (fun _ => el1TimerIrq) lettersIrqs 200 0x80000 ∧ beside.board.User ∧
    beside.model.queue.line = [false] := by
  induction n, hn using Nat.le_induction with
  | base => exact alone_lettersRun
  | succ n _ ih =>
      obtain ⟨beside, hclocked, hgood, hserves, huser, halone⟩ := ih
      have hspares := hgood.spares_of_user huser (counts n)
      obtain ⟨huser', halone'⟩ := hgood.step_alone huser halone 8 (counts n)
      refine ⟨_, ?_, (hgood.step hserves 8 hspares).2, hserves, huser', halone'⟩
      rw [lettersRun, runOf_succ, ← lettersRun, ← hclocked]
      rfl

theorem spares_counts (n : Nat) : (lettersRun n).Spares (counts n) := by
  by_cases hn : n < 42
  · exact spares_first_letters n hn
  · obtain ⟨beside, hclocked, hgood, -, huser, -⟩ := user_lettersRun (Nat.le_of_not_lt hn)
    exact hclocked ▸ hgood.spares_of_user huser (counts n)

/-! ## How often the timer fires -/

/-- **The timer, however the CPU, the serial line and the clock interleave**:
the kernel does not panic, the board goes through a run of its own that spares
`task_exit`, trapped while the handler runs, and the timer fires in it not more
than once for every hundredth of a second that has passed. -/
theorem clocked_paced (task : T → Task T) (hfresh : (kmain :: tasks.map Prod.fst).Nodup)
    (hroom : tasks.length ≤ 3) (h : Printing fuel devs calls m)
    (hboots : Boots call heap words fn clock) :
    ∃ g irqs, Sys.startAll tasks (bootSys kmain task) = .ok g ∧
      loadIrqs heap words fn clock = .ok irqs ∧ Roomy (bootSizes tasks) ∧
      ∀ events,
        Along (Clocked.next depth call irqs) Clocked.Spares (.start ⟨g, m⟩ irqs) events →
        ∃ c b bs, Clocked.run depth call irqs (.start ⟨g, m⟩ irqs) events = .ok c ∧
          Board.run depth ⟨g, m⟩ bs = .ok b ∧ Along (Board.next depth) Board.Spares ⟨g, m⟩ bs ∧
          c.board = (if c.point = none then b else b.withKernel (trapEntry b.sys.kernel)) ∧
          bs.count .tick = events.count .tick ∧
          reload clock.cntfrqEl0 * bs.count .timer ≤ events.count .count := by
  obtain ⟨g, irqs, hstart, hload, hserves, -, hgood⟩ := hboots.good task hfresh h
  refine ⟨g, irqs, hstart, hload, roomy_bootSizes_iff.mpr hroom, fun events hspares => ?_⟩
  obtain ⟨hrun, hgood'⟩ := hgood.run hserves depth hspares
  obtain ⟨hboard, hspares'⟩ := hgood.run_board hserves depth hspares
  refine ⟨_, _, _, hrun, hboard, hspares', hgood'.clocked.board_eq, ?_, ?_⟩
  · rw [count_tick_boardEvents, Beside.count_tick_turns]
  · rw [count_timer_boardEvents, ← Beside.count_beat_turns depth call irqs clock.cntfrqEl0 kmain]
    exact Ticker.turns_paced (p := pace clock.cntfrqEl0) (t := startTicker clock) rfl
      (Nat.le_refl _) _

/-- `main` and the other task print and the other task exits, in sixty events. -/
theorem clocked_paced_letters : ∃ (c : Clocked Bool) (b : Board Bool) (bs : List BoardEvent),
    Clocked.run 8 (fun _ => el1TimerIrq) lettersIrqs (.start lettersBoard lettersIrqs)
      ((List.range 60).map counts) = .ok c ∧
    Board.run 8 lettersBoard bs = .ok b ∧ Along (Board.next 8) Board.Spares lettersBoard bs ∧
    c.board = (if c.point = none then b else b.withKernel (trapEntry b.sys.kernel)) ∧
    bs.count .tick = ((List.range 60).map counts).count .tick ∧
    reload 200 * bs.count .timer ≤ ((List.range 60).map counts).count .count := by
  have hfresh : (false :: [(true, (0 : Word), (0 : Word))].map Prod.fst).Nodup := by decide
  obtain ⟨g, irqs, hstart, hload, -, hall⟩ :=
    clocked_paced blankTask hfresh (by decide) printing_letters boots_letters
  obtain rfl := Except.ok.inj (startAll_letters.symm.trans hstart)
  obtain rfl := Except.ok.inj (loadIrqs_letters.symm.trans hload)
  exact hall _ (along_range fun i _ => spares_counts i)

/-- **The handler, however it is interleaved with the clock**: whenever a task
executes its own code, the timer is on, its interrupt has ended, and what the
last handler did is what `gic_400_handle` does on the values that it read. -/
theorem clocked_handles (task : T → Task T) (hfresh : (kmain :: tasks.map Prod.fst).Nodup)
    (hroom : tasks.length ≤ 3) (h : Printing fuel devs calls m)
    (hboots : Boots call heap words fn clock) :
    ∃ g irqs, Sys.startAll tasks (bootSys kmain task) = .ok g ∧
      loadIrqs heap words fn clock = .ok irqs ∧ Roomy (bootSizes tasks) ∧
      ∀ events,
        Along (Clocked.next depth call irqs) Clocked.Spares (.start ⟨g, m⟩ irqs) events →
        ∃ c, Clocked.run depth call irqs (.start ⟨g, m⟩ irqs) events = .ok c ∧
          (c.point = none →
            c.handling.world.active = false ∧ c.handling.world.cntpCtlEl0 = 1 ∧
            (c.handling.trace = [] ∨ ∃ reads w,
              gic400Handle call irqs.map irqs.gic.gic reads irqs.clock =
                .ok (some { c.handling with world := w }))) := by
  obtain ⟨g, irqs, hstart, hload, hserves, -, hgood⟩ := hboots.good task hfresh h
  refine ⟨g, irqs, hstart, hload, roomy_bootSizes_iff.mpr hroom, fun events hspares => ?_⟩
  obtain ⟨hrun, hgood'⟩ := hgood.run hserves depth hspares
  refine ⟨_, hrun, ?_⟩
  generalize (events.foldl _ _ : Beside T) = beside at hgood'
  obtain ⟨hruns, -, hphase, -, -, hfollows⟩ := hgood'.clocked
  obtain ⟨⟨board, point, s⟩, t, b, left, a⟩ := beside
  rintro hpoint
  cases hpoint
  cases hphase with
  | user hleft hactive => exact ⟨hactive, hruns.on, hfollows⟩

/-- The same sixty events. -/
theorem clocked_handles_letters : ∃ c : Clocked Bool,
    Clocked.run 8 (fun _ => el1TimerIrq) lettersIrqs (.start lettersBoard lettersIrqs)
      ((List.range 60).map counts) = .ok c ∧
    (c.point = none → c.handling.world.active = false ∧ c.handling.world.cntpCtlEl0 = 1 ∧
      (c.handling.trace = [] ∨ ∃ reads w,
        gic400Handle (fun _ => el1TimerIrq) lettersIrqs.map lettersIrqs.gic.gic reads
          lettersIrqs.clock = .ok (some { c.handling with world := w }))) := by
  have hfresh : (false :: [(true, (0 : Word), (0 : Word))].map Prod.fst).Nodup := by decide
  obtain ⟨g, irqs, hstart, hload, -, hall⟩ :=
    clocked_handles blankTask hfresh (by decide) printing_letters boots_letters
  obtain rfl := Except.ok.inj (startAll_letters.symm.trans hstart)
  obtain rfl := Except.ok.inj (loadIrqs_letters.symm.trans hload)
  exact hall _ (along_range fun i _ => spares_counts i)

/-! ## A clock that is too slow -/

/-- The timer has expired, and no program has gone on. -/
structure Beside.Stuck (s : Beside T) (prog : T → Mmio Word (BitVec 32) Unit) : Prop where
  expired : s.ticker.Expired
  user : s.board.User
  prog : s.board.machine.prog = prog

/-- A timer of period 0 has always expired. -/
theorem Beside.Stuck.step {prog : T → Mmio Word (BitVec 32) Unit} (h : beside.Stuck prog)
    (hgood : beside.Good call irqs freq kmain) (hzero : reload freq = 0) (depth : Nat)
    (e : ClockEvent) : beside.clocked.Spares e ∧
      (beside.step depth call irqs freq kmain e).Stuck prog ∧
      (beside.ticker.left ≠ 0 ∨ e = .cpu →
        (beside.step depth call irqs freq kmain e).ticker.left ≠ 0) := by
  have hexpired := h.expired.step (p := pace freq) hzero
  have hleft : ∀ {signal}, beside.ticker.left ≠ 0 ∨ signal = .go →
      (beside.ticker.step (pace freq) signal).left ≠ 0 := h.expired.left_step
  have hcpu : beside.clocked.turn .cpu = .cpu := by
    rw [hgood.clocked.turn_cpu, if_pos h.user]
  refine ⟨hgood.spares_of_user h.user e, ⟨hexpired _, ?_, ?_⟩, fun hcause => ?_⟩
  · cases e with
    | cpu =>
        simp only [Beside.step, hcpu, boardEvent, modelEvent, h.expired.use_eq_handler]
        exact h.user
    | tick => exact h.user
    | count => exact h.user
  · cases e with
    | cpu =>
        simp only [Beside.step, hcpu, boardEvent, modelEvent, h.expired.use_eq_handler]
        exact h.prog
    | tick => exact h.prog
    | count => exact h.prog
  · refine hleft (hcause.imp_right fun he => ?_)
    rw [he, hcpu, ClockTurn.signal]

theorem Beside.Stuck.run {prog : T → Mmio Word (BitVec 32) Unit} (h : beside.Stuck prog)
    (hgood : beside.Good call irqs freq kmain) (hs : Serves call irqs freq fn)
    (hzero : reload freq = 0) (depth : Nat) (events : List ClockEvent) :
    Along (Clocked.next depth call irqs) Clocked.Spares beside.clocked events ∧
      (events.foldl (Beside.step depth call irqs freq kmain) beside).Stuck prog ∧
      (beside.ticker.left ≠ 0 ∨ .cpu ∈ events →
        (events.foldl (Beside.step depth call irqs freq kmain) beside).ticker.left ≠ 0) := by
  induction events generalizing beside with
  | nil => exact ⟨trivial, h, fun hcause => hcause.resolve_right List.not_mem_nil⟩
  | cons e events ih =>
      obtain ⟨hspare, hstuck, hleft⟩ := h.step hgood hzero depth e
      obtain ⟨hspares, hstuck', hleft'⟩ := ih hstuck (hgood.step hs depth hspare).2
      refine ⟨⟨hspare, hspares⟩, hstuck', fun hcause => hleft' ?_⟩
      rw [List.mem_cons, ← or_assoc] at hcause
      exact hcause.imp_left fun hcause => hleft (hcause.imp_right Eq.symm)

/-- **A counter below 100 Hz** leaves no time between interrupts: from the first
one on the CPU never leaves the handler, and no task executes anything. -/
theorem clocked_stuck (task : T → Task T) (hfresh : (kmain :: tasks.map Prod.fst).Nodup)
    (h : Printing fuel devs calls m) (hboots : Boots call heap words fn clock)
    (hslow : clock.cntfrqEl0.toNat < 100) :
    ∃ g irqs, Sys.startAll tasks (bootSys kmain task) = .ok g ∧
      loadIrqs heap words fn clock = .ok irqs ∧
      ∀ events, ∃ c, Clocked.run depth call irqs (.start ⟨g, m⟩ irqs) events = .ok c ∧
        c.board.machine.prog = m.prog ∧ (.cpu ∈ events → c.point ≠ none) := by
  obtain ⟨g, irqs, hstart, hload, hserves, huser, hgood⟩ := hboots.good task hfresh h
  have hzero : reload clock.cntfrqEl0 = 0 := Nat.div_eq_of_lt hslow
  have hexp : (startTicker clock).Expired := by
    rw [Ticker.Expired, startTicker, hzero]
    exact Nat.le_refl _
  refine ⟨g, irqs, hstart, hload, fun events => ?_⟩
  obtain ⟨hspares, hstuck, hleft⟩ :=
    Beside.Stuck.run ⟨hexp, huser, rfl⟩ hgood hserves hzero depth events
  obtain ⟨hrun, hgood'⟩ := hgood.run hserves depth hspares
  refine ⟨_, hrun, ?_, fun hcpu => ?_⟩
  · rw [hgood'.clocked.machine_eq]
    exact hstuck.prog
  · rw [Ne, ← hgood'.clocked.phase.left_eq_zero_iff]
    exact hleft (.inr hcpu)

/-- A counter of 50 Hz. -/
theorem clocked_stuck_letters :
    ∃ g irqs, Sys.startAll [(true, 0, 0)] (bootSys false blankTask) = .ok g ∧
      loadIrqs (fun _ => some fun _ => .zero) (fun _ => some fun _ => 1) 0x80000
        (resetClock 50) = .ok irqs ∧
      ∀ events, ∃ c : Clocked Bool,
        Clocked.run 8 (fun _ => el1TimerIrq) irqs (.start ⟨g, lettersMachine⟩ irqs) events = .ok c ∧
        c.board.machine.prog = lettersMachine.prog ∧ (.cpu ∈ events → c.point ≠ none) :=
  clocked_stuck blankTask (by decide) printing_letters
    ⟨fun _ => rfl, rfl, by decide, fun _ _ => rfl, by decide, rfl⟩ (by decide)

/-! ## A fair clock -/

/-- What an event is for a clock by itself. -/
def ClockEvent.signal : ClockEvent → Signal
  | .cpu => .go
  | .tick => .rest
  | .count => .beat

/-- The serial line and the clock go on, and the CPU takes enough steps in every
period of the timer: three beside the seven of `task_exit` after each. -/
structure FairClock (freq : Word) (schedule : Nat → ClockEvent) : Prop where
  tick : Recurs schedule .tick
  count : Recurs schedule .count
  often : Ticker.Often (reload freq) 24 fun n => (schedule n).signal

variable {sides : Nat → Beside T} {n k : Nat} {e : BoardEvent}

/-- The board at every instant of a schedule that spares `task_exit`, with the
others beside it. -/
structure Beside.Tracks (depth : Nat) (call : Word → Word → Clock → Int × Clock) (irqs : Irqs)
    (freq : Word) (kmain : T) (schedule : Nat → ClockEvent) (sides : Nat → Beside T) : Prop where
  step : ∀ n, sides (n + 1) = (sides n).step depth call irqs freq kmain (schedule n)
  good : ∀ n, (sides n).Good call irqs freq kmain

theorem Beside.Good.tracks (h : beside.Good call irqs freq kmain) (hs : Serves call irqs freq fn)
    (hspares : ∀ n, (runOf (Clocked.next depth call irqs) schedule beside.clocked n).Spares
      (schedule n)) :
    Beside.Tracks depth call irqs freq kmain schedule
      (runOf (Beside.step depth call irqs freq kmain) schedule beside) :=
  ⟨fun _ => rfl, fun _ => (h.of_schedule hs depth fun i _ => hspares i).2⟩

namespace Beside.Tracks

/-- What the event at an instant is. -/
def turn (schedule : Nat → ClockEvent) (sides : Nat → Beside T) (n : Nat) : ClockTurn :=
  (sides n).clocked.turn (schedule n)

/-- What it is for the model. -/
def seen (schedule : Nat → ClockEvent) (sides : Nat → Beside T) (n : Nat) : Option BoardEvent :=
  modelEvent (sides n).ticker (turn schedule sides n)

theorem ticker_eq (h : Tracks depth call irqs freq kmain schedule sides) (n : Nat) :
    (sides n).ticker = runOf (Ticker.step (pace freq)) (fun n => (turn schedule sides n).signal)
      (sides 0).ticker n := by
  induction n with
  | zero => rfl
  | succ n ih => rw [h.step, runOf_succ, ← ih]; rfl

theorem model_eq (h : Tracks depth call irqs freq kmain schedule sides) (n : Nat) :
    (sides n).model = (sides 0).model.run depth kmain
      ((List.range n).filterMap (seen schedule sides)) := by
  induction n with
  | zero => rfl
  | succ n ih =>
      rw [List.range_succ, List.filterMap_append, Shared.run, List.foldl_append, h.step]
      rw [Shared.run] at ih
      rw [← ih]
      simp only [Beside.step, Shared.run]
      congr 1

/-- An event of the CPU is a step of its own or a statement of `task_exit`, of
which there are not many. -/
theorem spend (h : Tracks depth call irqs freq kmain schedule sides) (n : Nat) :
    (if (schedule n).signal = .go then 1 else 0) + (sides (n + 1)).left ≤
      (sides n).left + 8 * if (turn schedule sides n).signal = .go then 1 else 0 := by
  have hleft : (sides (n + 1)).left = (turn schedule sides n).leftAfter (sides n).left := by
    rw [h.step]
    rfl
  rw [hleft]
  cases he : schedule n with
  | cpu =>
      cases hturn : turn schedule sides n with
      | cpu => simp [ClockEvent.signal, ClockTurn.signal, ClockTurn.leftAfter]
      | statement =>
          have hpos := (h.good n).left_pos hturn
          simp only [ClockEvent.signal, ClockTurn.signal, ClockTurn.leftAfter, reduceCtorEq,
            if_true, if_false]
          omega
      | tick => simp [turn, Clocked.turn_eq_tick_iff, he] at hturn
      | count =>
          have hbeat := congrArg ClockTurn.signal hturn
          cases he.symm.trans (Clocked.signal_turn_eq_beat_iff.mp hbeat)
  | tick => simp [turn, he, Clocked.turn, ClockEvent.signal, ClockTurn.leftAfter]
  | count => simp [turn, he, Clocked.turn, ClockEvent.signal, ClockTurn.leftAfter]

/-- The CPU is fast enough although it executes `task_exit`, too. -/
theorem fast (h : Tracks depth call irqs freq kmain schedule sides)
    (hfair : FairClock freq schedule) :
    Ticker.Fast (pace freq) fun n => (turn schedule sides n).signal := by
  refine Ticker.Often.thin (k := 7) hfair.often (fun n => ?_) (fun n => (h.good n).left) h.spend
  rw [turn, Clocked.signal_turn_eq_beat_iff]
  cases schedule n <;> simp [ClockEvent.signal]

omit [DecidableEq T] in
theorem beat_recurs (hfair : FairClock freq schedule) :
    Recurs (fun n => (turn schedule sides n).signal) .beat := by
  intro n
  obtain ⟨m, hm, he⟩ := hfair.count n
  exact ⟨m, hm, Clocked.signal_turn_eq_beat_iff.mpr he⟩

omit [DecidableEq T] in
/-- The timer fires where the handler ends. -/
theorem seen_eq_timer_iff : seen schedule sides n = some .timer ↔
    turn schedule sides n = .cpu ∧ (sides n).ticker.use = .turn := by
  rw [seen]
  cases turn schedule sides n with
  | cpu => cases huse : (sides n).ticker.use <;> simp [modelEvent, huse]
  | statement => simp [modelEvent]
  | tick => simp [modelEvent]
  | count => simp [modelEvent]

omit [DecidableEq T] in
theorem turn_of_go (h : (turn schedule sides n).signal = .go) : turn schedule sides n = .cpu := by
  cases hturn : turn schedule sides n with
  | cpu => rfl
  | statement => rw [hturn] at h; cases h
  | tick => rw [hturn] at h; cases h
  | count => rw [hturn] at h; cases h

omit [DecidableEq T] in
/-- Outside steps of the CPU the model sees the serial line only. -/
theorem eq_tick_of_seen (h : seen schedule sides n = some e)
    (hn : (turn schedule sides n).signal ≠ .go) : e = .tick := by
  rw [seen] at h
  cases hturn : turn schedule sides n with
  | cpu => exact absurd (congrArg ClockTurn.signal hturn) hn
  | statement => rw [hturn] at h; cases h
  | tick => rw [hturn] at h; exact (Option.some.inj h).symm
  | count => rw [hturn] at h; cases h

omit [DecidableEq T] in
theorem seen_of_tick (h : schedule n = .tick) : seen schedule sides n = some .tick := by
  rw [seen, turn, h]
  rfl

/-- **The timer is fair**: with a fair clock, what the model sees is a fair
schedule. -/
theorem fairTimer (h : Tracks depth call irqs freq kmain schedule sides)
    (hfair : FairClock freq schedule) (hzero : (sides 0).ticker.left = 0)
    {compressed : Nat → BoardEvent} (hc : Compressed (seen schedule sides) compressed) :
    FairTimer compressed := by
  have hfast := h.fast hfair
  have hbeat : Recurs (fun n => (turn schedule sides n).signal) .beat := beat_recurs hfair
  refine ⟨fun k => ?_, fun k => ?_, fun k hk => ?_⟩
  · obtain ⟨n, rfl, -⟩ := hc.onto k
    obtain ⟨m, hm, he⟩ := hfair.tick n
    exact ⟨_, happened_mono hm, hc.eq (seen_of_tick he)⟩
  · obtain ⟨n, rfl, -⟩ := hc.onto k
    obtain ⟨m, hm, hgo, huse⟩ := hfast.turn_recurs hbeat hzero n
    rw [← h.ticker_eq] at huse
    exact ⟨_, happened_mono hm, hc.eq (seen_eq_timer_iff.mpr ⟨turn_of_go hgo, huse⟩)⟩
  · obtain ⟨n, rfl, hn⟩ := hc.onto k
    rw [hk] at hn
    obtain ⟨hturn, huse⟩ := seen_eq_timer_iff.mp hn
    rw [h.ticker_eq] at huse
    obtain ⟨m, hm, hgo, hwork, hquiet⟩ := hfast.work_after_turn (hfast.go_recurs hbeat) hzero
      (congrArg ClockTurn.signal hturn) huse
    rw [← h.ticker_eq] at hwork
    have hevent : seen schedule sides m = some .access := by
      rw [seen, turn_of_go hgo, modelEvent, hwork]
    refine ⟨_, happened_lt hn hm, hc.eq hevent, fun i hni him => ?_⟩
    obtain ⟨j, rfl, hj⟩ := hc.onto i
    exact eq_tick_of_seen hj (hquiet j (lt_of_happened_lt hni) (lt_of_happened_lt him))

/-- With a fair clock the board comes to its end. -/
theorem completes [Fintype T] (h : Tracks depth call irqs freq kmain schedule sides)
    (hfair : FairClock freq schedule) (hzero : (sides 0).ticker.left = 0)
    (hstart : (sides 0).model = .start kmain tasks calls)
    (hfresh : (kmain :: tasks.map Prod.fst).Nodup)
    (hcalls : ∀ t ∉ kmain :: tasks.map Prod.fst, calls t = []) (hdepth : 0 < depth) :
    ∃ n, ∀ k ≥ n, (sides k).board.User ∧ (sides k).model.Done kmain tasks calls := by
  have hevents : ∀ n, ∃ m ≥ n, (seen schedule sides m).isSome = true := by
    intro n
    obtain ⟨m, hm, he⟩ := hfair.tick n
    exact ⟨m, hm, by rw [seen_of_tick he]; rfl⟩
  obtain ⟨compressed, hc⟩ := exists_compressed hevents
  obtain ⟨k₀, hk₀⟩ := Shared.completes hfresh hcalls hdepth (h.fairTimer hfair hzero hc)
  obtain ⟨n₀, hn₀, -⟩ := hc.onto k₀
  have hdone : ∀ n ≥ n₀, (sides n).model.Done kmain tasks calls := by
    intro n hn
    rw [h.model_eq, hc.filterMap, hstart]
    exact hk₀ _ (hn₀ ▸ happened_mono hn)
  obtain ⟨n, hn, hgo⟩ := (h.fast hfair).go_recurs (beat_recurs hfair) n₀
  refine ⟨n, fun k hk => ⟨?_, hdone k (Nat.le_trans hn hk)⟩⟩
  induction k, hk using Nat.le_induction with
  | base => exact (h.good n).user_of_cpu (turn_of_go hgo)
  | succ k hk ih =>
      rw [h.step]
      exact (h.good k).step_user ih (hdone k (Nat.le_trans hn hk)).not_exits depth (schedule k)

end Beside.Tracks

end TeachingOs.Driver
