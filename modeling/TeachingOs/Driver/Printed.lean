import TeachingOs.Driver.Board
import TeachingOs.Mem.Kzalloc

/-!
# TeachingOs.Driver.Printed

What comes of what the tasks print, with as many tasks as `bump_heap` has room
for.

* `board_completes`: under a fair timer every task prints all of its text and
  exits, and only `main` is left;
* `board_lossless`: nothing is lost while the timer does not fire between a
  task's look at the port and its write;
* `board_loses`: a timer that does can lose a character.

The first two are about runs in which no interrupt hits `task_exit` before
`splhigh`, and `main` starts its tasks without being interrupted.
-/

namespace TeachingOs.Driver

open Device Port Fair

variable {T : Type}

/-! ## Room for the tasks -/

/-- What is asked of `kzalloc`: the table of `irq.c`, `main`'s `struct task`, the
table of the interrupt controller's driver, and a `struct task` and a stack for
every task that `main` starts. -/
def bootSizes (tasks : List (T × Word × Word)) : List Word :=
  192 :: 40 :: 1024 :: tasks.flatMap fun _ => [40, 4096]

/-- `bump_heap` has room for all the blocks, wherever it lies. -/
def Roomy (sizes : List Word) : Prop :=
  ∀ (heap : Mem.BumpHeap) (ram : ByteMem.Mem), ∀ c ∈ Mem.calls sizes (heap.boot ram), c.Ok heap

theorem roomy_iff {sizes : List Word} :
    Roomy sizes ↔ (sizes.map Mem.roundUp).sum ≤ Mem.bumpHeapSize := by
  have hroom : ∀ (heap : Mem.BumpHeap) (ram : ByteMem.Mem),
      (∀ c ∈ Mem.calls sizes (heap.boot ram), c.Ok heap) ↔
        (sizes.map Mem.roundUp).sum ≤ Mem.bumpHeapSize := fun heap ram => by
    rw [(heap.used_boot ram).calls_ok_iff, Nat.zero_add]
  exact ⟨fun h => (hroom Mem.upperHeap fun _ => 0).mp (h _ _), fun h heap ram => (hroom _ _).mpr h⟩

theorem sum_roundUp_tasks (tasks : List (T × Word × Word)) :
    ((tasks.flatMap fun _ => [(40 : Word), 4096]).map Mem.roundUp).sum = 4144 * tasks.length := by
  induction tasks with
  | nil => rfl
  | cons p tasks ih =>
      rw [List.flatMap_cons, List.map_append, List.sum_append, ih, List.length_cons, Nat.mul_succ,
        Nat.add_comm]
      rfl

/-- There is room for three tasks beside `main`, and for no more. -/
theorem roomy_bootSizes_iff {tasks : List (T × Word × Word)} :
    Roomy (bootSizes tasks) ↔ tasks.length ≤ 3 := by
  have hirqs : Mem.roundUp 192 = 192 := rfl
  have hmain : Mem.roundUp 40 = 48 := rfl
  have hgic : Mem.roundUp 1024 = 1024 := rfl
  rw [roomy_iff]
  simp only [bootSizes, List.map_cons, List.sum_cons]
  rw [sum_roundUp_tasks, hirqs, hmain, hgic, Mem.bumpHeapSize]
  omega

/-! ## The board under a schedule -/

variable [DecidableEq T]

/-- The board at every instant of a schedule that spares `task_exit`, and the
model beside it. -/
structure Tracks (depth : Nat) (kmain : T) (schedule : Nat → BoardEvent) (board : Nat → Board T)
    (left : Nat → Nat) (model : Nat → Shared T) : Prop where
  spares : ∀ n, (board n).Spares (schedule n)
  step : ∀ n, (board n).step depth (schedule n) = .ok (board (n + 1))
  refines : ∀ n, (board n).Refines kmain (left n) (model n)
  left : ∀ n, left (n + 1) = (board n).leftAfter (schedule n) (left n)
  model : ∀ n, model (n + 1) = (model n).run depth kmain ((board n).seen (schedule n)).toList

variable {depth : Nat} {kmain : T} {schedule : Nat → BoardEvent} {b : Board T} {a : Shared T}

theorem Board.Refines.tracks {left : Nat} (h : b.Refines kmain left a)
    (hspares : ∀ n, (runOf (Board.next depth) schedule b n).Spares (schedule n)) :
    ∃ lefts models, models 0 = a ∧
      Tracks depth kmain schedule (runOf (Board.next depth) schedule b) lefts models := by
  let board := runOf (Board.next depth) schedule b
  let beside : Nat → Nat × Shared T := Nat.rec (left, a) fun n p =>
    ((board n).leftAfter (schedule n) p.1,
      p.2.run depth kmain ((board n).seen (schedule n)).toList)
  have hstep : ∀ n, (board n).Refines kmain (beside n).1 (beside n).2 →
      (board n).step depth (schedule n) = .ok (board (n + 1)) ∧
        (board (n + 1)).Refines kmain (beside (n + 1)).1 (beside (n + 1)).2 :=
    fun n hn => hn.step depth (hspares n)
  have hrefines : ∀ n, (board n).Refines kmain (beside n).1 (beside n).2 := by
    intro n
    induction n with
    | zero => exact h
    | succ n ih => exact (hstep n ih).2
  exact ⟨fun n => (beside n).1, fun n => (beside n).2, rfl, hspares,
    fun n => (hstep n (hrefines n)).1, hrefines, fun _ => rfl, fun _ => rfl⟩

namespace Tracks

variable {board : Nat → Board T} {left : Nat → Nat} {model : Nat → Shared T} {n m : Nat}

theorem run (h : Tracks depth kmain schedule board left model) (n : Nat) :
    (board 0).run depth ((List.range n).map schedule) = .ok (board n) := by
  induction n with
  | zero => rfl
  | succ n ih =>
      rw [List.range_succ, List.map_append, Board.run, List.foldlM_append]
      rw [Board.run] at ih
      rw [ih, ok_bind, List.map_singleton, List.foldlM_cons, h.step]
      rfl

theorem model_eq (h : Tracks depth kmain schedule board left model) (n : Nat) :
    model n = (model 0).run depth kmain
      ((List.range n).filterMap fun i => (board i).seen (schedule i)) := by
  induction n with
  | zero => rfl
  | succ n ih =>
      rw [List.range_succ, List.filterMap_append, Shared.run, List.foldl_append, h.model]
      rw [Shared.run] at ih
      rw [← ih, Shared.run]
      congr 1

/-- In a call nothing but an access changes the kernel. -/
theorem kernel_of_quiet (h : Tracks depth kmain schedule board left model) (hnm : n ≤ m)
    (hcall : ¬ (board n).User) (hquiet : ∀ i, n ≤ i → i < m → schedule i ≠ .access) :
    (board m).sys = (board n).sys ∧ left m = left n := by
  induction m, hnm using Nat.le_induction with
  | base => exact ⟨rfl, rfl⟩
  | succ m hnm ih =>
      obtain ⟨hsys, hleft⟩ := ih fun i hi him => hquiet i hi (Nat.lt_succ_of_lt him)
      have hne := hquiet m hnm (Nat.lt_succ_self m)
      have hcall' : ¬ (board m).User := by
        rw [Board.User, hsys]
        exact hcall
      have hstep := h.step m
      refine ⟨?_, by rw [h.left, Board.leftAfter_of_ne hne, hleft]⟩
      cases he : schedule m with
      | access => exact absurd he hne
      | tick =>
          rw [he] at hstep
          rw [← Except.ok.inj hstep]
          exact hsys
      | timer =>
          have hmasked := (h.spares m he).resolve_left hcall'
          rw [he, Board.step, if_pos hmasked] at hstep
          rw [← Except.ok.inj hstep]
          exact hsys

/-- `task_exit` comes to its end. -/
theorem exists_user (h : Tracks depth kmain schedule board left model)
    (haccess : Recurs schedule .access) (n : Nat) : ∃ m ≥ n, (board m).User := by
  induction hL : left n using Nat.strongRecOn generalizing n with
  | ind L ih =>
      by_cases huser : (board n).User
      · exact ⟨n, Nat.le_refl n, huser⟩
      · obtain ⟨m, hm, he, hquiet⟩ := haccess.exists_next n
        obtain ⟨hsys, hleft⟩ := h.kernel_of_quiet hm huser hquiet
        have hcall : ¬ (board m).User := by
          rw [Board.User, hsys]
          exact huser
        have hpos : 0 < left m := ((h.refines m).step_call hcall depth).1
        have hnext : left (m + 1) = left m - 1 := by
          rw [h.left, he, Board.leftAfter_call hcall]
        obtain ⟨m', hm', huser'⟩ := ih (left (m + 1)) (by omega) (m + 1) rfl
        exact ⟨m', by omega, huser'⟩

/-- Only an exit leads out of the tasks' own code. -/
theorem user_succ (h : Tracks depth kmain schedule board left model) (huser : (board n).User)
    (hstay : (model n).Stays kmain (schedule n)) : (board (n + 1)).User := by
  obtain ⟨b', -, hstep, huser', -⟩ := (h.refines n).step_stay huser depth hstay
  rw [h.step] at hstep
  exact Except.ok.inj hstep ▸ huser'

/-- The line of tasks gets no longer. -/
theorem length_line_succ (h : Tracks depth kmain schedule board left model) (n : Nat) :
    (model (n + 1)).queue.line.length ≤ (model n).queue.line.length := by
  rw [h.model]
  cases (board n).seen (schedule n) with
  | none => exact Nat.le_refl _
  | some e => exact Shared.length_line_step (h.refines n).main e

theorem length_line_mono (h : Tracks depth kmain schedule board left model) (hnm : n ≤ m) :
    (model m).queue.line.length ≤ (model n).queue.line.length := by
  induction m, hnm using Nat.le_induction with
  | base => exact Nat.le_refl _
  | succ m _ ih => exact Nat.le_trans (h.length_line_succ m) ih

/-- A call between two instants is an exit. -/
theorem length_line_lt (h : Tracks depth kmain schedule board left model) (hnm : n ≤ m)
    (huser : (board n).User) (hcall : ¬ (board m).User) :
    (model m).queue.line.length < (model n).queue.line.length := by
  induction m, hnm using Nat.le_induction with
  | base => exact absurd huser hcall
  | succ m hnm ih =>
      by_cases huser' : (board m).User
      · -- the task has exited in this step
        by_cases hexit : schedule m = .access ∧ (model m).Exits kmain
        · have hshorter : ((model m).step depth kmain .access).queue.line.length <
              (model m).queue.line.length := Shared.length_line_exit hexit.2 (h.refines m).main
          rw [h.model, Board.seen_of_user huser', hexit.1]
          exact Nat.lt_of_lt_of_le hshorter (h.length_line_mono hnm)
        · exact absurd (h.user_succ huser' fun he hx => hexit ⟨he, hx⟩) hcall
      · exact Nat.lt_of_le_of_lt (h.length_line_succ m) (ih huser')

end Tracks

/-! ## A fair timer -/

theorem FairTimer.access_recurs (h : FairTimer schedule) : Recurs schedule .access := by
  intro n
  obtain ⟨m, hm, he⟩ := h.timer n
  obtain ⟨m', hm', he', -⟩ := h.access m he
  exact ⟨m', by omega, he'⟩

namespace Tracks

variable {board : Nat → Board T} {left : Nat → Nat} {model : Nat → Shared T}

/-- The timer interrupts the tasks' own code again and again. -/
theorem timer_recurs (h : Tracks depth kmain schedule board left model)
    (hfair : FairTimer schedule) (n : Nat) : ∃ m ≥ n, schedule m = .timer ∧ (board m).User := by
  induction hL : (model n).queue.line.length using Nat.strongRecOn generalizing n with
  | ind L ih =>
      obtain ⟨n₁, hn₁, huser⟩ := h.exists_user hfair.access_recurs n
      obtain ⟨m, hm, he⟩ := hfair.timer n₁
      by_cases huser' : (board m).User
      · exact ⟨m, by omega, he, huser'⟩
      · have hlt := h.length_line_lt hm huser huser'
        have hle := h.length_line_mono hn₁
        obtain ⟨m', hm', hfound⟩ := ih (model m).queue.line.length (by omega) m rfl
        exact ⟨m', by omega, hfound⟩

/-- What the model sees of a fair schedule is a fair schedule. -/
theorem fairTimer (h : Tracks depth kmain schedule board left model) (hfair : FairTimer schedule)
    {compressed : Nat → BoardEvent}
    (hc : Compressed (fun n => (board n).seen (schedule n)) compressed) : FairTimer compressed := by
  refine ⟨fun k => ?_, fun k => ?_, fun k hk => ?_⟩
  · obtain ⟨n, rfl, -⟩ := hc.onto k
    obtain ⟨m, hm, he⟩ := hfair.tick n
    have hseen : (board m).seen (schedule m) = some .tick := by
      rw [he, Board.seen_tick]
    exact ⟨_, happened_mono hm, hc.eq hseen⟩
  · obtain ⟨n, rfl, -⟩ := hc.onto k
    obtain ⟨m, hm, he, huser⟩ := h.timer_recurs hfair n
    exact ⟨_, happened_mono hm, hc.eq (he ▸ Board.seen_of_user huser)⟩
  · obtain ⟨n, rfl, hn⟩ := hc.onto k
    rw [hk] at hn
    obtain ⟨huser, he⟩ : (board n).User ∧ schedule n = .timer := by
      simp only [Board.seen] at hn
      split at hn
      · next hor =>
        have he := Option.some.inj hn
        exact ⟨hor.resolve_right fun htick => (by rw [htick] at he; cases he), he⟩
      · cases hn
    obtain ⟨m, hm, he', hbetween⟩ := hfair.access n he
    have huser' : ∀ i, n + 1 ≤ i → i ≤ m → (board i).User := by
      intro i hi
      induction i, hi using Nat.le_induction with
      | base => exact fun _ => h.user_succ huser fun hx => by rw [he] at hx; cases hx
      | succ i hi ih =>
          intro him
          have htick := hbetween i (by omega) (by omega)
          exact h.user_succ (ih (by omega)) fun hx => by rw [htick] at hx; cases hx
    refine ⟨_, happened_lt hn hm, hc.eq (he' ▸ Board.seen_of_user (huser' m hm (Nat.le_refl m))),
      fun i hni him => ?_⟩
    obtain ⟨j, rfl, hj⟩ := hc.onto i
    have htick := hbetween j (lt_of_happened_lt hni) (lt_of_happened_lt him)
    rw [htick, Board.seen_tick] at hj
    exact (Option.some.inj hj).symm

end Tracks

/-! ## Every task prints and exits -/

variable {fuel : Nat} {devs : Devices DeviceName ConsoleDriver} {calls : T → List PrintkCall}
  {m : Mmio.Machine T Word (BitVec 32) Uart} {events : List BoardEvent}
  {tasks : List (T × Word × Word)}

/-- The model of the board after boot. -/
def Shared.start (kmain : T) (tasks : List (T × Word × Word)) (calls : T → List PrintkCall) :
    Shared T :=
  ⟨⟨kmain, (tasks.map Prod.fst).reverse, []⟩, startPort calls⟩

omit [DecidableEq T] in
theorem mem_line_start {t : T} : t ∈ (Shared.start kmain tasks calls).queue.line ↔
    t ∈ kmain :: tasks.map Prod.fst := by
  simp [Shared.start, Queue.line]

theorem Shared.inv_start (hcalls : ∀ t ∉ kmain :: tasks.map Prod.fst, calls t = []) :
    (Shared.start kmain tasks calls).Inv kmain (kmain :: tasks.map Prod.fst) := by
  refine ⟨List.mem_cons_self, fun t ht => ?_, ?_⟩
  · rw [mem_line_start]
    by_contra hmem
    refine ht ?_
    change textOf (calls t) = []
    rw [hcalls t hmem]
    rfl
  · simp [Shared.start, Queue.tasks]

/-- `main` starts its tasks, and then the board shows the model. -/
theorem refines_start (task : T → Task T) (hfresh : (kmain :: tasks.map Prod.fst).Nodup)
    (h : Printing fuel devs calls m) :
    ∃ g, Sys.startAll tasks (bootSys kmain task) = .ok g ∧
      Board.User ⟨g, m⟩ ∧ Board.Refines ⟨g, m⟩ kmain 7 (Shared.start kmain tasks calls) := by
  obtain ⟨g, hrun, hboot, hsliced⟩ := sliced_startAll task hfresh
  exact ⟨g, hrun, hsliced.resting.user, hsliced.leads 7, h.shows, hboot, List.mem_cons_self⟩

/-- The model at its end. -/
structure Shared.Done (kmain : T) (tasks : List (T × Word × Word)) (calls : T → List PrintkCall)
    (a : Shared T) : Prop where
  pending : ∀ t, (a.port.writer t).pending = []
  sent : a.port.port.queue = []
  alone : ∃ zombie, a.queue = ⟨kmain, [], zombie⟩ ∧ zombie.Perm (tasks.map Prod.fst)
  passed : ∀ t, (ofTask a.port.port.passed t).Sublist (textOf (calls t))

/-- Under a fair timer the model comes to its end. -/
theorem Shared.completes [Fintype T] (hfresh : (kmain :: tasks.map Prod.fst).Nodup)
    (hcalls : ∀ t ∉ kmain :: tasks.map Prod.fst, calls t = []) (hdepth : 0 < depth)
    (hfair : FairTimer schedule) : ∃ n, ∀ k ≥ n, Shared.Done kmain tasks calls
      ((Shared.start kmain tasks calls).run depth kmain ((List.range k).map schedule)) := by
  obtain ⟨run, hzero, hrun, hfold⟩ :=
    Shared.exists_run depth kmain schedule (Shared.start kmain tasks calls)
  have hinv : (run 0).Inv kmain (kmain :: tasks.map Prod.fst) := by
    rw [hzero]
    exact Shared.inv_start hcalls
  obtain ⟨n₁, hidle⟩ := idle_run hrun hinv hdepth hfair
  obtain ⟨n, hn, halone⟩ := alone_run hrun hinv hfresh hfair fun k hk => (hidle k hk).1
  refine ⟨n, fun k hk => ?_⟩
  obtain ⟨turns, hport⟩ := Shared.port_eq_run depth kmain (Shared.start kmain tasks calls)
    ((List.range k).map schedule)
  rw [hfold] at hport ⊢
  obtain ⟨hpending, hqueue⟩ := hidle k (Nat.le_trans hn hk)
  refine ⟨hpending, hqueue, ?_, fun t => ?_⟩
  · have hqueue : (run k).queue = ⟨kmain, [], (run k).queue.zombie⟩ :=
      Queue.eq_of_line (halone k hk) rfl
    have hperm := (inv_run hrun hinv k).tasks
    rw [hqueue] at hperm
    exact ⟨_, hqueue, hperm.cons_inv⟩
  · obtain ⟨printed, heq, hsub⟩ := (starts_startPort calls).ordered.run depth turns t
    rw [← show _ = (startPort calls).run depth turns from hport] at heq hsub
    rw [hpending t, List.append_nil] at heq
    exact hsub.trans (heq ▸ List.Sublist.refl _)

/-- At its end nothing exits any more. -/
theorem Shared.Done.not_exits (h : a.Done kmain tasks calls) : ¬ a.Exits kmain := by
  obtain ⟨zombie, hqueue, -⟩ := h.alone
  rintro ⟨-, hne⟩
  rw [hqueue] at hne
  exact hne rfl

/-- What a board shows then. -/
theorem Board.Refines.done {left : Nat} (h : b.Refines kmain left a) (huser : b.User)
    (hdone : a.Done kmain tasks calls) :
    (∀ t, b.machine.prog t = .ret ()) ∧ b.machine.dev.fifo = [] ∧
      (∃ zombie, Sliced b.sys.kernel ⟨kmain, [], zombie⟩ ∧ zombie.Perm (tasks.map Prod.fst)) ∧
      ∃ sent, Carries b.machine sent ∧ ∀ t, (ofTask sent t).Sublist (textOf (calls t)) := by
  obtain ⟨zombie, hqueue, hperm⟩ := hdone.alone
  refine ⟨fun t => ?_, ?_, ⟨zombie, hqueue ▸ h.sliced huser, hperm⟩, _, h.shows.carries,
    hdone.passed⟩
  · rw [h.shows.prog, program_of_pending (hdone.pending t)]
  · rw [h.shows.fifo, hdone.sent, List.map_nil]

/-- Under a fair timer the board comes to its end. -/
theorem Tracks.completes [Fintype T] {board : Nat → Board T} {left : Nat → Nat}
    {model : Nat → Shared T} (h : Tracks depth kmain schedule board left model)
    (hstart : model 0 = Shared.start kmain tasks calls)
    (hfresh : (kmain :: tasks.map Prod.fst).Nodup)
    (hcalls : ∀ t ∉ kmain :: tasks.map Prod.fst, calls t = []) (hdepth : 0 < depth)
    (hfair : FairTimer schedule) :
    ∃ n, ∀ k ≥ n, (board k).User ∧ (model k).Done kmain tasks calls := by
  have hevents : ∀ n, ∃ m ≥ n, ((board m).seen (schedule m)).isSome = true := by
    intro n
    obtain ⟨m, hm, he⟩ := hfair.tick n
    exact ⟨m, hm, by rw [he, Board.seen_tick]; rfl⟩
  obtain ⟨compressed, hc⟩ := exists_compressed hevents
  obtain ⟨k₀, hk₀⟩ := Shared.completes hfresh hcalls hdepth (h.fairTimer hfair hc)
  obtain ⟨n₀, hn₀, -⟩ := hc.onto k₀
  have hdone : ∀ n ≥ n₀, (model n).Done kmain tasks calls := by
    intro n hn
    rw [h.model_eq, hc.filterMap, hstart]
    exact hk₀ _ (hn₀ ▸ happened_mono hn)
  obtain ⟨n, hn, huser⟩ := h.exists_user hfair.access_recurs n₀
  refine ⟨n, fun k hk => ⟨?_, hdone k (Nat.le_trans hn hk)⟩⟩
  induction k, hk using Nat.le_induction with
  | base => exact huser
  | succ k hk ih => exact h.user_succ ih fun _ => (hdone k (Nat.le_trans hn hk)).not_exits

/-- **Everything is printed.**  Whatever the tasks print, if the timer is fair and
its interrupts spare `task_exit`, the kernel does not panic, and from some point
on every program has returned, the FIFO is empty, every task but `main` has
exited, and the line carries of each task a sublist of its text. -/
theorem board_completes [Fintype T] (task : T → Task T)
    (hfresh : (kmain :: tasks.map Prod.fst).Nodup) (hroom : tasks.length ≤ 3)
    (h : Printing fuel devs calls m) (hcalls : ∀ t ∉ kmain :: tasks.map Prod.fst, calls t = [])
    (hdepth : 0 < depth) (hfair : FairTimer schedule) :
    ∃ g, Sys.startAll tasks (bootSys kmain task) = .ok g ∧ Roomy (bootSizes tasks) ∧
      ((∀ n, (runOf (Board.next depth) schedule ⟨g, m⟩ n).Spares (schedule n)) →
        ∃ n, ∀ k ≥ n, ∃ b : Board T,
          Board.run depth ⟨g, m⟩ ((List.range k).map schedule) = .ok b ∧
          (∀ t, b.machine.prog t = .ret ()) ∧ b.machine.dev.fifo = [] ∧
          (∃ zombie, Sliced b.sys.kernel ⟨kmain, [], zombie⟩ ∧ zombie.Perm (tasks.map Prod.fst)) ∧
          ∃ sent, Carries b.machine sent ∧ ∀ t, (ofTask sent t).Sublist (textOf (calls t))) := by
  obtain ⟨g, hstart, -, hrefines⟩ := refines_start task hfresh h
  refine ⟨g, hstart, roomy_bootSizes_iff.mpr hroom, fun hspares => ?_⟩
  obtain ⟨left, model, hzero, htracks⟩ := hrefines.tracks hspares
  obtain ⟨n, hn⟩ := htracks.completes hzero hfresh hcalls hdepth hfair
  refine ⟨n, fun k hk => ⟨_, htracks.run k, ?_⟩⟩
  obtain ⟨huser, hdone⟩ := hn k hk
  exact (htracks.refines k).done huser hdone

/-- The letters' two tasks after boot. -/
def lettersBoard : Board Bool where
  sys := orStay (fun g tasks => Sys.startAll tasks g) (bootSys false blankTask) [(true, 0, 0)]
  machine := lettersMachine

theorem startAll_letters :
    Sys.startAll [(true, 0, 0)] (bootSys false blankTask) = .ok lettersBoard.sys := rfl

/-- `main` prints, the other task prints and exits, and then the device, the
timer and the CPU take turns. -/
def exitSlices (n : Nat) : BoardEvent :=
  if n = 2 then .timer
  else if n < 13 then .access
  else if n % 3 = 1 then .tick
  else if n % 3 = 2 then .timer
  else .access

theorem fairTimer_exitSlices : FairTimer exitSlices := by
  refine ⟨fun n => ⟨3 * n + 13, by omega, ?_⟩, fun n => ⟨3 * n + 14, by omega, ?_⟩,
    fun n hn => ⟨n + 1, by omega, ?_, fun i hi him => by omega⟩⟩
  · rw [exitSlices, if_neg (by omega), if_neg (by omega), if_pos (by omega)]
  · rw [exitSlices, if_neg (by omega), if_neg (by omega), if_neg (by omega), if_pos (by omega)]
  · by_cases htwo : n = 2
    · rw [htwo]
      rfl
    · have hmod : 13 ≤ n ∧ n % 3 = 2 := by
        rw [exitSlices, if_neg htwo] at hn
        split at hn
        · cases hn
        · split at hn
          · cases hn
          · split at hn
            · omega
            · cases hn
      rw [exitSlices, if_neg (by omega), if_neg (by omega), if_neg (by omega), if_neg (by omega)]

omit [DecidableEq T] in
/-- With nobody on `tasks_ready` the current task is alone in the line. -/
theorem line_of_alone {k : Kernel T} {q : Queue T} {c : T} (h : Sliced k q)
    (hcur : k.curtask = some c) (hready : (k.heap.list .tasksReady).head = none) :
    q.line = [c] := by
  have hcur' : q.current = c := Option.some.inj (h.resting.current.symm.trans hcur)
  have hnil : q.ready.head? = none := (h.resting.lists.rep .tasksReady).head.symm.trans hready
  rw [Queue.line, hcur', List.head?_eq_none_iff.mp hnil]

/-- After thirteen events `main` is alone. -/
theorem alone_letters : ∃ left a, (runOf (Board.next 8) exitSlices lettersBoard 13).Refines false
    left a ∧ a.queue.line = [false] := by
  have hfresh : (false :: [(true, (0 : Word), (0 : Word))].map Prod.fst).Nodup := by decide
  obtain ⟨g, hstart, -, hrefines⟩ := refines_start blankTask hfresh printing_letters
  obtain rfl := Except.ok.inj (startAll_letters.symm.trans hstart)
  have hspares : Along (Board.next 8) Board.Spares lettersBoard
      ((List.range 13).map exitSlices) :=
    ⟨nofun, nofun, fun _ => .inl rfl, nofun, nofun, nofun, nofun, nofun, nofun, nofun, nofun,
      nofun, nofun, trivial⟩
  obtain ⟨-, left, events, h⟩ := hrefines.run 8 hspares
  rw [foldl_range] at h
  exact ⟨left, _, h, line_of_alone (h.sliced rfl) rfl rfl⟩

theorem user_letters {n : Nat} (hn : 13 ≤ n) :
    (runOf (Board.next 8) exitSlices lettersBoard n).User ∧ ∃ left a,
      (runOf (Board.next 8) exitSlices lettersBoard n).Refines false left a ∧
      a.queue.line = [false] := by
  induction n, hn using Nat.le_induction with
  | base => exact ⟨rfl, alone_letters⟩
  | succ n _ ih =>
      obtain ⟨huser, left, a, h, halone⟩ := ih
      have hstay : a.Stays false (exitSlices n) := fun _ hexit =>
        hexit.2 (List.cons.inj halone).1
      obtain ⟨b', left', hstep, huser', h'⟩ := h.step_stay huser 8 hstay
      rw [runOf_succ, show Board.next 8 _ _ = b' from orStay_of_ok hstep]
      exact ⟨huser', left', _, h', Shared.line_alone halone _⟩

theorem spares_letters (n : Nat) :
    (runOf (Board.next 8) exitSlices lettersBoard n).Spares (exitSlices n) := by
  intro he
  by_cases hn : n < 13
  · by_cases htwo : n = 2
    · exact htwo ▸ .inl rfl
    · rw [exitSlices, if_neg htwo, if_pos hn] at he
      cases he
  · exact .inl (user_letters (Nat.le_of_not_lt hn)).1

/-- `main` prints `C`, and the task it starts prints `B`. -/
theorem board_completes_letters : ∃ n, ∀ k ≥ n, ∃ b : Board Bool,
    Board.run 8 lettersBoard ((List.range k).map exitSlices) = .ok b ∧
    (∀ t, b.machine.prog t = .ret ()) ∧ b.machine.dev.fifo = [] ∧
    (∃ zombie, Sliced b.sys.kernel ⟨false, [], zombie⟩ ∧ zombie.Perm [true]) ∧
    ∃ sent, Carries b.machine sent ∧ ∀ t, (ofTask sent t).Sublist (textOf (lettersCalls t)) := by
  have hfresh : (false :: [(true, (0 : Word), (0 : Word))].map Prod.fst).Nodup := by decide
  obtain ⟨g, hstart, -, hruns⟩ := board_completes blankTask hfresh (by decide) printing_letters
    (fun t ht => by cases t <;> simp at ht) (show 0 < 8 by decide) fairTimer_exitSlices
  obtain rfl := Except.ok.inj (startAll_letters.symm.trans hstart)
  exact hruns spares_letters

/-! ## Loss -/

/-- The timer does not fire between a task's look at the port and its write. -/
def Board.Quiet (b : Board T) (e : BoardEvent) : Prop :=
  e = .timer → ∀ t, b.sys.kernel.curtask = some t → ¬ AtWrite (b.machine.prog t)

/-- Only the running task may be between its look and its write. -/
def Shared.Focused (a : Shared T) : Prop :=
  ∀ t ≠ a.queue.current, ∃ rest, a.port.writer t = .polling rest

omit [DecidableEq T] in
theorem Shared.Focused.alone (h : a.Focused) (e : BoardEvent) : Port.Alone a.port (a.turn e) := by
  intro t ch rest hturn hw t' ht'
  cases e with
  | access =>
      cases hturn
      exact h t' ht'
  | tick => cases hturn
  | timer => cases hturn

theorem Shared.Focused.step (h : a.Focused) {e : BoardEvent}
    (hquiet : e = .timer → ∃ rest, a.port.writer a.queue.current = .polling rest) :
    (a.step depth kmain e).Focused := by
  -- with nobody after a look, it does not matter who is next
  have hall : ∀ {q : Queue T}, (∃ rest, a.port.writer a.queue.current = .polling rest) →
      Shared.Focused ⟨q, a.port⟩ := by
    intro q hcur t _
    by_cases ht : t = a.queue.current
    · rw [ht]
      exact hcur
    · exact h t ht
  cases e with
  | timer => exact hall (hquiet rfl)
  | tick =>
      intro t ht
      obtain ⟨rest, hw⟩ := h t ht
      have hsame : (a.port.step depth .tick).writer t = a.port.writer t :=
        writer_step_of_ne (by simp)
      exact ⟨rest, hsame.trans hw⟩
  | access =>
      by_cases hexit : a.Exits kmain
      · have hport : (a.step depth kmain .access).port = a.port := step_run_of_pending hexit.1
        have hcur : ∃ rest, a.port.writer a.queue.current = .polling rest := by
          cases hw : a.port.writer a.queue.current with
          | polling rest => exact ⟨rest, rfl⟩
          | writing ch rest =>
              have hnil := hexit.1
              rw [hw] at hnil
              cases hnil
        intro t ht
        rw [hport]
        exact hall (q := (a.step depth kmain .access).queue) hcur t ht
      · intro t ht
        rw [Shared.queue_stay depth hexit] at ht
        obtain ⟨rest, hw⟩ := h t ht
        have hsame : (a.port.step depth (.run a.queue.current)).writer t = a.port.writer t :=
          writer_step_of_ne fun hrun => ht (Turn.run.inj hrun).symm
        exact ⟨rest, hsame.trans hw⟩

theorem Board.Quiet.polling {left : Nat} {e : BoardEvent} (h : b.Quiet e)
    (hb : b.Refines kmain left a) (huser : b.User) (he : e = .timer) :
    ∃ rest, a.port.writer a.queue.current = .polling rest := by
  have hnot := h he _ (hb.sliced huser).resting.current
  rw [hb.shows.prog, atWrite_program_iff] at hnot
  cases hw : a.port.writer a.queue.current with
  | polling rest => exact ⟨rest, rfl⟩
  | writing ch rest => exact absurd ⟨ch, rest, hw⟩ hnot

/-- **No loss**, one event of the board. -/
theorem Board.Refines.step_lossless {texts : T → List Char} {left : Nat} {e : BoardEvent}
    (h : b.Refines kmain left a) (hlossless : Lossless depth texts a.port) (hfocused : a.Focused)
    (hspares : b.Spares e) (hquiet : b.Quiet e) :
    b.step depth e = .ok (b.next depth e) ∧ ∃ left' a', (b.next depth e).Refines kmain left' a' ∧
      Lossless depth texts a'.port ∧ a'.Focused := by
  obtain ⟨hstep, hb'⟩ := h.step depth hspares
  refine ⟨hstep, _, _, hb', ?_⟩
  rw [Board.seen]
  split
  · next hseen =>
    have hpolling : e = .timer → ∃ rest, a.port.writer a.queue.current = .polling rest := by
      rintro rfl
      exact hquiet.polling h (hseen.resolve_right (by simp)) rfl
    exact ⟨hlossless.step (hfocused.alone e), hfocused.step hpolling⟩
  · exact ⟨hlossless, hfocused⟩

/-- **No loss**, a whole run of the board. -/
theorem Board.Refines.lossless {texts : T → List Char} {left : Nat} (h : b.Refines kmain left a)
    (hlossless : Lossless depth texts a.port) (hfocused : a.Focused)
    (hquiet : Along (Board.next depth) (fun b e => b.Spares e ∧ b.Quiet e) b events) :
    ∃ b' left' a', b.run depth events = .ok b' ∧ b'.Refines kmain left' a' ∧
      Lossless depth texts a'.port := by
  induction events generalizing b left a with
  | nil => exact ⟨b, left, a, rfl, h, hlossless⟩
  | cons e events ih =>
      obtain ⟨⟨hspares, hquiet⟩, hrest⟩ := hquiet
      obtain ⟨hstep, left₁, a₁, h₁, hlossless₁, hfocused₁⟩ :=
        h.step_lossless hlossless hfocused hspares hquiet
      obtain ⟨b', left', a', hrun, h'⟩ := ih h₁ hlossless₁ hfocused₁ hrest
      refine ⟨b', left', a', ?_, h'⟩
      rw [Board.run, List.foldlM_cons, hstep, ok_bind]
      exact hrun

/-- **Nothing is lost** while the timer spares `task_exit` and does not fire
between a look at the port and the write: the line carries all that every task
has printed so far. -/
theorem board_lossless (task : T → Task T) (hfresh : (kmain :: tasks.map Prod.fst).Nodup)
    (hroom : tasks.length ≤ 3) (h : Printing fuel devs calls m) :
    ∃ g, Sys.startAll tasks (bootSys kmain task) = .ok g ∧ Roomy (bootSizes tasks) ∧
      ∀ events, Along (Board.next depth) (fun b e => b.Spares e ∧ b.Quiet e) ⟨g, m⟩ events →
        ∃ b : Board T, Board.run depth ⟨g, m⟩ events = .ok b ∧
          ∃ sent, Carries b.machine sent ∧ ∀ t, ∃ w,
            textOf (calls t) = ofTask sent t ++ Writer.pending w ∧
            b.machine.prog t = program w := by
  obtain ⟨g, hstart, -, hrefines⟩ := refines_start task hfresh h
  refine ⟨g, hstart, roomy_bootSizes_iff.mpr hroom, fun events hquiet => ?_⟩
  obtain ⟨b, left, a, hrun, hb, hlossless⟩ := hrefines.lossless (starts_startPort calls).lossless
    (fun t _ => ⟨_, rfl⟩) hquiet
  exact ⟨b, hrun, _, hb.shows.carries, fun t => ⟨_, hlossless.all t, hb.shows.prog t⟩⟩

/-- The timer interrupts `main` when it has printed its letter, and the other task
prints and exits. -/
theorem board_lossless_letters : ∃ b : Board Bool,
    Board.run 8 lettersBoard ((List.range 13).map exitSlices) = .ok b ∧
    ∃ sent, Carries b.machine sent ∧ ∀ t, ∃ w,
      textOf (lettersCalls t) = ofTask sent t ++ Writer.pending w ∧
      b.machine.prog t = program w := by
  have hfresh : (false :: [(true, (0 : Word), (0 : Word))].map Prod.fst).Nodup := by decide
  obtain ⟨g, hstart, -, hall⟩ := board_lossless blankTask hfresh (by decide) printing_letters
  obtain rfl := Except.ok.inj (startAll_letters.symm.trans hstart)
  have hpolling : ∀ t,
      ¬ AtWrite ((runOf (Board.next 8) exitSlices lettersBoard 2).machine.prog t) :=
    fun t => by cases t <;> exact id
  exact hall _ ⟨⟨nofun, nofun⟩, ⟨nofun, nofun⟩, ⟨fun _ => .inl rfl, fun _ t _ => hpolling t⟩,
    ⟨nofun, nofun⟩, ⟨nofun, nofun⟩, ⟨nofun, nofun⟩, ⟨nofun, nofun⟩, ⟨nofun, nofun⟩, ⟨nofun, nofun⟩,
    ⟨nofun, nofun⟩, ⟨nofun, nofun⟩, ⟨nofun, nofun⟩, ⟨nofun, nofun⟩, trivial⟩

theorem Shared.run_append (depth : Nat) (kmain : T) (a : Shared T)
    (events events' : List BoardEvent) :
    a.run depth kmain (events ++ events') = (a.run depth kmain events).run depth kmain events' :=
  List.foldl_append ..

/-- While nobody exits, an access is one of the running task. -/
theorem Shared.step_stay (depth : Nat) (h : ¬ a.Exits kmain) :
    a.step depth kmain .access = ⟨a.queue, a.port.step depth (.run a.queue.current)⟩ := by
  rw [Shared.Exits] at h
  simp [Shared.step, Shared.op, Shared.turn, h]

/-- `main` by itself. -/
theorem Shared.run_main (depth : Nat) (h : a.queue.current = kmain) (n : Nat) :
    a.run depth kmain (List.replicate n .access) =
      ⟨a.queue, a.port.run depth (List.replicate n (.run kmain))⟩ := by
  induction n generalizing a with
  | zero => rfl
  | succ n ih =>
      have hstep := Shared.step_stay depth (a := a) fun hexit => hexit.2 h
      rw [List.replicate_succ, Shared.run, List.foldl_cons, hstep, h]
      exact ih h

/-- `main` fills the FIFO up to the last place and looks; the timer fires and
the other task looks; and then, one slice after the other, both write. -/
def overlapEvents (depth : Nat) : List BoardEvent :=
  List.replicate (2 * (depth - 1) + 1) .access ++
    [.timer, .access, .timer, .access, .timer, .access]

theorem Shared.stays_main (h : a.queue.current = kmain) (n : Nat) :
    Along (Shared.step depth kmain) (Shared.Stays kmain) a (List.replicate n .access) := by
  induction n generalizing a with
  | zero => trivial
  | succ n ih =>
      have hstep := Shared.step_stay depth (a := a) fun hexit => hexit.2 h
      refine ⟨fun _ hexit => hexit.2 h, ?_⟩
      rw [hstep]
      exact ih h

/-- A task has as much left to print after its look as before. -/
theorem pending_look {t : T} {p : System T Char} {ch : Char} {rest : List Char}
    (ht : p.writer t = .polling (ch :: rest)) :
    ((p.step depth (.run t)).writer t).pending = ch :: rest := by
  by_cases hroom : p.port.queue.length < depth
  · simp [System.step, ht, hroom, Writer.pending]
  · simp [System.step, ht, hroom, Writer.pending]

/-- On the board the two tasks can overlap, and nobody exits. -/
theorem Shared.overlap {t : T} {p : System T Char} {ch : Char} {rest : List Char}
    (hne : t ≠ kmain) (ht : p.writer t = .polling (ch :: rest)) :
    Along (Shared.step depth kmain) (Shared.Stays kmain) ⟨⟨kmain, [t], []⟩, p⟩
        (overlapEvents depth) ∧
      (Shared.run depth kmain ⟨⟨kmain, [t], []⟩, p⟩ (overlapEvents depth)).port =
        p.run depth (Port.overlap depth kmain t) := by
  have hfill : Shared.run depth kmain ⟨⟨kmain, [t], []⟩, p⟩
      (List.replicate (2 * (depth - 1) + 1) .access) =
      ⟨⟨kmain, [t], []⟩, p.run depth (List.replicate (2 * (depth - 1) + 1) (.run kmain))⟩ :=
    Shared.run_main depth (a := ⟨⟨kmain, [t], []⟩, p⟩) rfl _
  -- when the other task first runs, it has not written anything
  have hwriter : ∀ n, (p.run depth (List.replicate n (.run kmain))).writer t =
      .polling (ch :: rest) := by
    intro n
    induction n with
    | zero => exact ht
    | succ n ih =>
        rw [List.replicate_succ', System.run_append]
        exact (writer_step_of_ne fun hrun => hne (Turn.run.inj hrun).symm).trans ih
  generalize hp : p.run depth (List.replicate (2 * (depth - 1) + 1) (.run kmain)) = p₀ at hfill
  have hp₀ : p₀.writer t = .polling (ch :: rest) := hp ▸ hwriter _
  have hlooked : (((p₀.step depth (.run t)).step depth (.run kmain)).writer t).pending =
      ch :: rest := by
    rw [writer_step_of_ne fun hrun => hne (Turn.run.inj hrun).symm, pending_look hp₀]
  have hmain : ∀ p : System T Char, ¬ Shared.Exits kmain ⟨⟨kmain, [t], []⟩, p⟩ :=
    fun p hexit => hexit.2 rfl
  have hother : ∀ p : System T Char, (p.writer t).pending ≠ [] →
      ¬ Shared.Exits kmain ⟨⟨t, [kmain], []⟩, p⟩ := fun p hp hexit => hp hexit.1
  have hfirst := hother p₀ (by rw [hp₀]; exact List.cons_ne_nil ch rest)
  have hsecond := hother ((p₀.step depth (.run t)).step depth (.run kmain))
    (by rw [hlooked]; exact List.cons_ne_nil ch rest)
  have hturn : ∀ c n : T, ∀ p : System T Char,
      Shared.step depth kmain ⟨⟨c, [n], []⟩, p⟩ .timer = ⟨⟨n, [c], []⟩, p⟩ := fun _ _ _ => rfl
  refine ⟨?_, ?_⟩
  · rw [overlapEvents, along_append]
    refine ⟨Shared.stays_main (a := ⟨⟨kmain, [t], []⟩, p⟩) rfl _, ?_⟩
    rw [show List.foldl _ _ _ = _ from hfill]
    simp only [Along, hturn, Shared.step_stay depth hfirst, Shared.step_stay depth (hmain _),
      Shared.Stays, hfirst, hsecond, hmain, reduceCtorEq, not_false_iff, false_implies,
      implies_true, and_true]
  · rw [overlapEvents, Shared.run_append, hfill]
    simp only [Shared.run, List.foldl_cons, List.foldl_nil, hturn, Shared.step_stay depth hfirst,
      Shared.step_stay depth hsecond, Shared.step_stay depth (hmain _)]
    rw [← hp, Port.overlap, System.run_append, List.replicate_succ', System.run_append]
    rfl

/-- **A loss on the board**: a timer that fires between a look and the write
loses a character, however deep the FIFO is.  The line carries what `main`
has written, and the other task has gone on to its next character. -/
theorem board_loses (task : T → Task T) {t : T} (hne : t ≠ kmain) (fn userdata : Word)
    (h : Printing fuel devs calls m) (hdepth : 0 < depth)
    (hlong : depth ≤ (textOf (calls kmain)).length) {ch : Char} {rest : List Char}
    (htext : textOf (calls t) = ch :: rest) :
    ∃ g, Sys.startAll [(t, fn, userdata)] (bootSys kmain task) = .ok g ∧ ∃ b : Board T,
      Board.run depth ⟨g, m⟩ (overlapEvents depth) = .ok b ∧
      b.machine.prog t = uartWrite rest ∧
      b.machine.dev.line ++ b.machine.dev.fifo = lineBytes ((textOf (calls kmain)).take depth) := by
  have hfresh : (kmain :: [(t, fn, userdata)].map Prod.fst).Nodup := by
    simpa using hne.symm
  obtain ⟨g, hstart, huser, hrefines⟩ := refines_start task hfresh h
  have hstarts := starts_startPort calls
  have hwriter : (startPort calls).writer t = .polling (ch :: rest) := by
    rw [hstarts.writer, htext]
  obtain ⟨hstay, hport⟩ : Along (Shared.step depth kmain) (Shared.Stays kmain)
        (Shared.start kmain [(t, fn, userdata)] calls) (overlapEvents depth) ∧
      (Shared.run depth kmain (Shared.start kmain [(t, fn, userdata)] calls)
        (overlapEvents depth)).port = (startPort calls).run depth (Port.overlap depth kmain t) :=
    Shared.overlap hne hwriter
  obtain ⟨b, left, hrun, -, hb⟩ := hrefines.run_stay huser depth hstay
  obtain ⟨hpolling, hpassed⟩ := lost_of_overlap hstarts hdepth hne.symm hlong htext
  rw [← hport] at hpolling hpassed
  refine ⟨g, hstart, b, hrun, ?_, ?_⟩
  · rw [hb.shows.prog, hpolling, program]
  · rw [show _ = _ from hb.shows.carries, hpassed, List.map_map]
    rfl

/-- With a FIFO of one byte, the second letter is lost. -/
theorem board_loses_letters :
    ∃ g, Sys.startAll [(true, 0, 0)] (bootSys false blankTask) = .ok g ∧ ∃ b : Board Bool,
      Board.run 1 ⟨g, lettersMachine⟩ (overlapEvents 1) = .ok b ∧
      b.machine.prog true = uartWrite [] ∧
      b.machine.dev.line ++ b.machine.dev.fifo =
        lineBytes ((textOf (lettersCalls false)).take 1) :=
  board_loses blankTask (by decide) 0 0 printing_letters (by decide) (by decide)
    (textOf_letters true)

end TeachingOs.Driver
