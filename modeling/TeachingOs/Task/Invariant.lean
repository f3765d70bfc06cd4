import Mathlib.Data.List.Perm.Basic
import TeachingOs.Task.Sched

/-!
# TeachingOs.Task.Invariant

The invariant of the scheduler at every statement.

`Core` is about the lists: they are well formed, and together with the task
that is outside of them they hold every started task once.  `At` says where
the running task stands: which task is outside at that statement, what the
mask and the levels are, and what the locals still promise.  Each statement
of `mi_switch`, the way out of it, and the way into and out of an interrupt
takes `Inv` to `Inv`, provided it does not go wrong in one of two ways
(`Safe`).
-/

namespace TeachingOs

open DList

variable {T : Type}

/-! ## The system -/

/-- The kernel with a record of the tasks: the bootstrap task, those that
`task_new` has created, and those of them that were started. -/
structure Sys (T : Type) where
  kernel : Kernel T
  bootstrap : T
  created : List T
  started : List T

/-- The contents of the two lists. -/
def queues (R Z : List T) : ListName → List T
  | .tasksReady => R
  | .tasksZombie => Z

section Queues

variable {R Z l : List T}

theorem queues_update_ready :
    Function.update (queues R Z) .tasksReady l = queues l Z := by
  funext k
  cases k <;> rfl

theorem queues_update_zombie :
    Function.update (queues R Z) .tasksZombie l = queues R l := by
  funext k
  cases k <;> rfl

end Queues

/-- The lists `R` and `Z` are well formed, and with the tasks `out` they
hold the bootstrap task and every started task exactly once. -/
structure Core (g : Sys T) (R Z out : List T) : Prop where
  lists : Lists g.kernel.heap (queues R Z)
  partition : (R ++ Z ++ out).Perm (g.bootstrap :: g.started)
  links : ∀ t ∈ out ++ g.created, g.kernel.heap.next t = none ∧ g.kernel.heap.prev t = none
  fresh : (g.bootstrap :: g.started ++ g.created).Nodup
  boot : g.bootstrap ∉ Z

/-- A started task that has not exited. -/
def Live (g : Sys T) (Z : List T) (t : T) : Prop := t ∈ g.bootstrap :: g.started ∧ t ∉ Z

/-! ## Control stacks -/

/-- Only the bootstrap task never leaves for `tasks_zombie`. -/
def Leaves (boot t : T) (into : TaskState) : Prop :=
  into = .ready ∨ into = .zombie ∧ t ≠ boot

/-- What holds of the local `next` from the scheduler call on: another live
task, or null when nothing else was ready. -/
def NextOk (live : T → Prop) (t : T) (into : TaskState) : Option T → Prop
  | none => into = .ready
  | some n => n ≠ t ∧ live n

/-- The control stack of a task at a point where an interrupt may hit it and
does no harm. -/
inductive Interrupted (boot : T) (live : T → Prop) (t : T) : List (Activation T) → Prop where
  | user : Interrupted boot live t []
  | entry {into : TaskState} (hi : Leaves boot t into) : Interrupted boot live t [.entry into]
  | chosen {into : TaskState} {next : Option T} (hi : Leaves boot t into)
      (hn : NextOk live t into next) : Interrupted boot live t [.chosen into next]

/-- What `mi_switch` was called from, and the level it will restore: the
task's own code, or an interrupt handler. -/
inductive Base (boot : T) (live : T → Prop) (t : T) : Int → List (Activation T) → Prop where
  | task : Base boot live t 0 []
  | trap {s : List (Activation T)} (hs : Interrupted boot live t s) :
      Base boot live t 1 (.trap 0 :: s)

/-- A control stack that `md_switch` may continue. -/
inductive Saved (boot : T) (live : T → Prop) (t : T) : List (Activation T) → Prop where
  | startup (fn userdata : Word) : Saved boot live t [.startup fn userdata]
  | switched {spl : Int} {s : List (Activation T)} (hb : Base boot live t spl s) :
      Saved boot live t (.switched spl :: s)

section Mono

variable {boot t : T} {live live' : T → Prop} {spl : Int} {s : List (Activation T)}

/-- What is below `mi_switch` stays good as long as the tasks it is about to
switch to stay live. -/
theorem Base.mono (h : Base boot live t spl s)
    (hl : ∀ n into, live n → n ≠ t → .chosen into (some n) ∈ s → live' n) :
    Base boot live' t spl s := by
  cases h with
  | task => exact .task
  | trap hs =>
      cases hs with
      | user => exact .trap .user
      | entry hi => exact .trap (.entry hi)
      | @chosen into next hi hn =>
          refine .trap (.chosen hi ?_)
          cases next with
          | none => exact hn
          | some n => exact ⟨hn.1, hl n into hn.2 hn.1 (by simp)⟩

theorem Saved.mono (h : Saved boot live t s)
    (hl : ∀ n into, live n → n ≠ t → .chosen into (some n) ∈ s → live' n) :
    Saved boot live' t s := by
  cases h with
  | startup fn userdata => exact .startup fn userdata
  | switched hb =>
      exact .switched (hb.mono fun n into hn hnt hm => hl n into hn hnt (List.mem_cons_of_mem _ hm))

end Mono

/-! ## Where the running task stands -/

/-- The levels while interrupts are masked exactly when `spl` is 1. -/
structure Level (k : Kernel T) (t : T) (spl : Int) : Prop where
  masked : k.masked = decide (spl = 1)
  curspl : k.curspl = spl
  spl : (k.heap.task t).spl = spl

/-- The running task is `c`, with control stack `s`; the tasks `out` are on
no list. -/
inductive At (g : Sys T) (R Z : List T) (c : T) : List (Activation T) → List T → Prop where
  | user (hcur : g.kernel.curtask = some c) (hl : Level g.kernel c 0) : At g R Z c [] [c]
  | entry {into : TaskState} {spl : Int} {s : List (Activation T)}
      (hcur : g.kernel.curtask = some c) (hl : Level g.kernel c spl)
      (hb : Base g.bootstrap (Live g Z) c spl s) (hi : Leaves g.bootstrap c into) :
      At g R Z c (.entry into :: s) [c]
  | chosen {into : TaskState} {next : Option T} {spl : Int} {s : List (Activation T)}
      (hcur : g.kernel.curtask = some c) (hl : Level g.kernel c spl)
      (hb : Base g.bootstrap (Live g Z) c spl s) (hi : Leaves g.bootstrap c into)
      (hn : NextOk (Live g Z) c into next) : At g R Z c (.chosen into next :: s) [c]
  | enqueued {next : Option T} {spl : Int} {s : List (Activation T)}
      (hcur : g.kernel.curtask = some c) (hl : Level g.kernel c spl)
      (hb : Base g.bootstrap (Live g Z) c spl s) (hc : c ∈ g.bootstrap :: g.started)
      (hn : next.getD c ∈ R) : At g R Z c (.enqueued next :: s) []
  | masked {n : T} {spl : Int} {s : List (Activation T)} (hcur : g.kernel.curtask = some c)
      (hm : g.kernel.masked = true) (hb : Base g.bootstrap (Live g Z) c spl s)
      (hc : c ∈ g.bootstrap :: g.started) (hn : n ∈ R) :
      At g R Z c (.masked (some n) spl :: s) []
  | dispatched {n : T} {spl : Int} {s : List (Activation T)} (hcur : g.kernel.curtask = some n)
      (hm : g.kernel.masked = true) (hb : Base g.bootstrap (Live g Z) c spl s)
      (hn : n ≠ c → ∃ s', (g.kernel.heap.task n).pcb = some s' ∧
        Saved g.bootstrap (Live g Z) n s') : At g R Z c (.dispatched (some c) spl :: s) [n]
  | switched {spl : Int} {s : List (Activation T)} (hcur : g.kernel.curtask = some c)
      (hm : g.kernel.masked = true) (hb : Base g.bootstrap (Live g Z) c spl s) :
      At g R Z c (.switched spl :: s) [c]
  | startup {fn userdata : Word} (hcur : g.kernel.curtask = some c)
      (hm : g.kernel.masked = true) : At g R Z c [.startup fn userdata] [c]
  | trap {s : List (Activation T)} (hcur : g.kernel.curtask = some c)
      (hm : g.kernel.masked = true) (hs : Interrupted g.bootstrap (Live g Z) c s) :
      At g R Z c (.trap 0 :: s) [c]

/-- Every ready task but the running one can be switched to. -/
def Suspended (g : Sys T) (R Z : List T) (c : T) : Prop :=
  ∀ t ∈ R, t ≠ c → ∃ s, (g.kernel.heap.task t).pcb = some s ∧ Saved g.bootstrap (Live g Z) t s

/-- The invariant at every statement. -/
structure Inv (g : Sys T) (R Z : List T) (c : T) (out : List T) : Prop where
  core : Core g R Z out
  here : At g R Z c g.kernel.stack out
  suspended : Suspended g R Z c

/-! ## Frames -/

namespace TaskHeap

variable {L : Type} [DecidableEq T] (h : TaskHeap T L) (p : Option T) (v : Int)
  (s : List (Activation T))

@[simp] theorem next_setSpl : (h.setSpl p v).next = h.next := by
  cases p with
  | none => rfl
  | some t =>
      funext u
      by_cases hu : u = t <;> simp [setSpl, next, hu]

@[simp] theorem prev_setSpl : (h.setSpl p v).prev = h.prev := by
  cases p with
  | none => rfl
  | some t =>
      funext u
      by_cases hu : u = t <;> simp [setSpl, prev, hu]

@[simp] theorem list_setSpl : (h.setSpl p v).list = h.list := by cases p <;> rfl

@[simp] theorem pcb_setSpl (t : T) : ((h.setSpl p v).task t).pcb = (h.task t).pcb := by
  cases p with
  | none => rfl
  | some u => by_cases hu : t = u <;> simp [setSpl, hu]

@[simp] theorem spl_setSpl_self (t : T) : ((h.setSpl (some t) v).task t).spl = v := by
  simp [setSpl]

@[simp] theorem next_setPcb : (h.setPcb p s).next = h.next := by
  cases p with
  | none => rfl
  | some t =>
      funext u
      by_cases hu : u = t <;> simp [setPcb, next, hu]

@[simp] theorem prev_setPcb : (h.setPcb p s).prev = h.prev := by
  cases p with
  | none => rfl
  | some t =>
      funext u
      by_cases hu : u = t <;> simp [setPcb, prev, hu]

@[simp] theorem list_setPcb : (h.setPcb p s).list = h.list := by cases p <;> rfl

@[simp] theorem pcb_setPcb_self (t : T) : ((h.setPcb (some t) s).task t).pcb = some s := by
  simp [setPcb]

theorem pcb_setPcb_of_ne {t u : T} (hut : u ≠ t) :
    ((h.setPcb (some t) s).task u).pcb = (h.task u).pcb := by
  simp [setPcb, hut]

@[simp] theorem spl_setPcb (t : T) : ((h.setPcb p s).task t).spl = (h.task t).spl := by
  cases p with
  | none => rfl
  | some u => by_cases hu : t = u <;> simp [setPcb, hu]

end TaskHeap

section Frames

variable {L : Type} {h h' : TaskHeap T L}

/-- Operations on the links keep the `pcb` of every task. -/
theorem pcb_of_info (hi : h'.info = h.info) (t : T) : (h'.task t).pcb = (h.task t).pcb := by
  have ht : (h'.info t).pcb = (h.info t).pcb := by rw [hi]
  exact ht

/-- Operations on the links keep the `spl` of every task. -/
theorem spl_of_info (hi : h'.info = h.info) (t : T) : (h'.task t).spl = (h.task t).spl := by
  have ht : (h'.info t).spl = (h.info t).spl := by rw [hi]
  exact ht

end Frames

section Levels

variable [DecidableEq T] (spl : Int) (k : Kernel T)

theorem curtask_splx : (splx spl k).2.curtask = k.curtask := by
  unfold splx
  split <;> rfl

theorem pcb_splx (t : T) : ((splx spl k).2.heap.task t).pcb = (k.heap.task t).pcb := by
  unfold splx
  split <;> simp [splhigh, spl0]

end Levels

/-! ## Consequences -/

section Core

variable {g g' : Sys T} {R Z out : List T} {c t n : T}

/-- `Core` reads the links and the lists only. -/
theorem Core.congr (h : Core g R Z out) {k : Kernel T}
    (hnext : k.heap.next = g.kernel.heap.next) (hprev : k.heap.prev = g.kernel.heap.prev)
    (hlist : k.heap.list = g.kernel.heap.list) : Core { g with kernel := k } R Z out where
  lists := ⟨fun l => by simpa [hnext, hprev, hlist] using h.lists.rep l, h.lists.disjoint⟩
  partition := h.partition
  links := by simpa only [hnext, hprev] using h.links
  fresh := h.fresh
  boot := h.boot

theorem Core.nodup (h : Core g R Z out) : (R ++ Z ++ out).Nodup :=
  h.partition.nodup_iff.mpr (List.nodup_append.mp h.fresh).1

theorem Core.mem_iff (h : Core g R Z out) : t ∈ g.bootstrap :: g.started ↔
    t ∈ R ∨ t ∈ Z ∨ t ∈ out := by
  rw [← h.partition.mem_iff]
  simp

/-- The task outside of the lists is on neither of them. -/
theorem Core.off (h : Core g R Z [c]) (l : ListName) : c ∉ queues R Z l := by
  have hn := h.nodup
  rw [List.nodup_append] at hn
  have hc := fun t ht => hn.2.2 t ht c (List.mem_singleton_self c)
  cases l with
  | tasksReady => exact fun hm => hc c (List.mem_append_left Z hm) rfl
  | tasksZombie => exact fun hm => hc c (List.mem_append_right R hm) rfl

/-- A created task is on no list. -/
theorem Core.not_mem_of_created (h : Core g R Z out) (ht : t ∈ g.created) :
    t ∉ R ∧ t ∉ Z ∧ t ∉ out := by
  have hall : t ∉ g.bootstrap :: g.started := by
    intro hm
    exact (List.nodup_append.mp h.fresh).2.2 t hm t ht rfl
  rw [h.mem_iff, not_or, not_or] at hall
  exact hall

/-- A live task other than the one outside is ready. -/
theorem Core.ready_of_live (h : Core g R Z out) (hn : Live g Z n) (hout : n ∉ out) : n ∈ R := by
  rcases h.mem_iff.mp hn.1 with hr | hz | ho
  · exact hr
  · exact absurd hz hn.2
  · exact absurd ho hout

/-- A ready task is live. -/
theorem Core.live_of_ready (h : Core g R Z out) (hn : n ∈ R) : Live g Z n := by
  refine ⟨h.mem_iff.mpr (Or.inl hn), fun hz => ?_⟩
  have hne : ListName.tasksReady = ListName.tasksZombie := h.lists.disjoint (t := n) hn hz
  cases hne

end Core

/-! ## Statements -/

section Steps

variable [DecidableEq T] {g : Sys T} {R Z : List T} {c : T} {s : List (Activation T)} {spl : Int}

/-- The scheduler call. -/
theorem Inv.step_entry {into : TaskState} (hcore : Core g R Z [c]) (hsusp : Suspended g R Z c)
    (hcur : g.kernel.curtask = some c) (hl : Level g.kernel c spl)
    (hb : Base g.bootstrap (Live g Z) c spl s) (hi : Leaves g.bootstrap c into)
    (hs : g.kernel.stack = .entry into :: s) :
    ∃ k, step g.kernel = .ok k ∧ Inv { g with kernel := k } R Z c [c] := by
  refine ⟨{ g.kernel with stack := .chosen into (scheduler g.kernel) :: s }, by simp [step, hs],
    hcore.congr rfl rfl rfl, .chosen hcur ⟨hl.masked, hl.curspl, hl.spl⟩ hb hi ?_, hsusp⟩
  have hhead : scheduler g.kernel = R.head? := (hcore.lists.rep .tasksReady).head
  rw [hhead]
  cases R with
  | nil =>
      rcases hi with hi | ⟨-, hne⟩
      · exact hi
      · rcases hcore.mem_iff.mp List.mem_cons_self with hm | hm | hm
        · cases hm
        · exact absurd hm hcore.boot
        · exact absurd (List.mem_singleton.mp hm).symm hne
  | cons n R =>
      have hn : n ∈ n :: R := List.mem_cons_self
      exact ⟨ne_of_mem_of_not_mem hn (hcore.off .tasksReady), hcore.live_of_ready hn⟩

/-- Enqueueing the running task on `tasks_ready`. -/
theorem Inv.step_chosen_ready {next : Option T} (hcore : Core g R Z [c])
    (hsusp : Suspended g R Z c) (hcur : g.kernel.curtask = some c) (hl : Level g.kernel c spl)
    (hb : Base g.bootstrap (Live g Z) c spl s) (hn : NextOk (Live g Z) c .ready next)
    (hs : g.kernel.stack = .chosen .ready next :: s) :
    ∃ k, step g.kernel = .ok k ∧ Inv { g with kernel := k } (R ++ [c]) Z c [] := by
  obtain ⟨hnext, hprev⟩ := hcore.links c (by simp)
  obtain ⟨h', hrun, hlists, hdiff⟩ :=
    taskListMoveTail_spec hcore.lists hcore.off hnext hprev .tasksReady
  rw [queues_update_ready] at hlists
  refine ⟨{ g.kernel with heap := h', stack := .enqueued next :: s }, ?_, ?_, ?_, ?_⟩
  · simp [step, hs, hcur, taskStateToList, hrun]
  · refine ⟨hlists, ?_, fun t ht => ?_, hcore.fresh, hcore.boot⟩
    · refine List.Perm.trans ?_ hcore.partition
      simpa using (@List.perm_append_comm _ [c] Z).append_left R
    · have htc : t ∈ g.created := by simpa using ht
      obtain ⟨hr, -, ho⟩ := hcore.not_mem_of_created htc
      have hoff : ¬ (t = c ∨ t ∈ R) := by
        rintro (rfl | hm)
        · exact ho (by simp)
        · exact hr hm
      obtain ⟨hn, hp⟩ := hcore.links t (by simp [htc])
      exact ⟨(hdiff.next t hoff).trans hn, (hdiff.prev t hoff).trans hp⟩
  · refine .enqueued hcur ⟨hl.masked, hl.curspl, (spl_of_info hdiff.info c).trans hl.spl⟩ hb
      (hcore.mem_iff.mpr (by simp)) ?_
    cases next with
    | none => simp
    | some n =>
        have hr : n ∈ R := hcore.ready_of_live hn.2 (by simpa using hn.1)
        simp [hr]
  · intro t ht htc
    have hr : t ∈ R := by simpa [htc] using ht
    obtain ⟨s', hpcb, hsaved⟩ := hsusp t hr htc
    exact ⟨s', (pcb_of_info hdiff.info t).trans hpcb, hsaved⟩

/-- Enqueueing the running task on `tasks_zombie`, when no other task is
about to switch to it. -/
theorem Inv.step_chosen_zombie {next : Option T} (hcore : Core g R Z [c])
    (hsusp : Suspended g R Z c) (hcur : g.kernel.curtask = some c) (hl : Level g.kernel c spl)
    (hb : Base g.bootstrap (Live g Z) c spl s) (hboot : c ≠ g.bootstrap)
    (hn : NextOk (Live g Z) c .zombie next)
    (hsafe : ∀ t ∈ R, ∀ s', (g.kernel.heap.task t).pcb = some s' →
      ∀ into, .chosen into (some c) ∉ s')
    (hs : g.kernel.stack = .chosen .zombie next :: s) :
    ∃ k, step g.kernel = .ok k ∧ Inv { g with kernel := k } R (Z ++ [c]) c [] := by
  obtain ⟨hnext, hprev⟩ := hcore.links c (by simp)
  obtain ⟨h', hrun, hlists, hdiff⟩ :=
    taskListMoveTail_spec hcore.lists hcore.off hnext hprev .tasksZombie
  rw [queues_update_zombie] at hlists
  have hlive : ∀ n, Live g Z n → n ≠ c → Live g (Z ++ [c]) n :=
    fun n hn hne => ⟨hn.1, by simp [hn.2, hne]⟩
  refine ⟨{ g.kernel with heap := h', stack := .enqueued next :: s }, ?_, ?_, ?_, ?_⟩
  · simp [step, hs, hcur, taskStateToList, hrun]
  · refine ⟨hlists, ?_, fun t ht => ?_, hcore.fresh, by simp [hcore.boot, hboot.symm]⟩
    · simpa using hcore.partition
    · have htc : t ∈ g.created := by simpa using ht
      obtain ⟨-, hz, ho⟩ := hcore.not_mem_of_created htc
      have hoff : ¬ (t = c ∨ t ∈ Z) := by
        rintro (rfl | hm)
        · exact ho (by simp)
        · exact hz hm
      obtain ⟨hn, hp⟩ := hcore.links t (by simp [htc])
      exact ⟨(hdiff.next t hoff).trans hn, (hdiff.prev t hoff).trans hp⟩
  · refine .enqueued hcur ⟨hl.masked, hl.curspl, (spl_of_info hdiff.info c).trans hl.spl⟩
      (hb.mono fun n _ hn hne _ => hlive n hn hne) (hcore.mem_iff.mpr (by simp)) ?_
    cases next with
    | none => cases hn
    | some n => exact hcore.ready_of_live hn.2 (by simpa using hn.1)
  · intro t ht htc
    obtain ⟨s', hpcb, hsaved⟩ := hsusp t ht htc
    refine ⟨s', (pcb_of_info hdiff.info t).trans hpcb,
      hsaved.mono fun n into hn _ hm => hlive n hn ?_⟩
    rintro rfl
    exact hsafe t ht s' hpcb into hm

/-- Masking interrupts, with the running task for a missing `next`. -/
theorem Inv.step_enqueued {next : Option T} (hcore : Core g R Z []) (hsusp : Suspended g R Z c)
    (hcur : g.kernel.curtask = some c) (hl : Level g.kernel c spl)
    (hb : Base g.bootstrap (Live g Z) c spl s) (hc : c ∈ g.bootstrap :: g.started)
    (hn : next.getD c ∈ R) (hs : g.kernel.stack = .enqueued next :: s) :
    ∃ k, step g.kernel = .ok k ∧ Inv { g with kernel := k } R Z c [] := by
  have hnext : (if next = none then some c else next) = some (next.getD c) := by
    cases next <;> rfl
  refine ⟨{ g.kernel with
      masked := true, curspl := 1, heap := g.kernel.heap.setSpl (some c) 1,
      stack := .masked (some (next.getD c)) spl :: s }, ?_, ?_, ?_, ?_⟩
  · simp only [step, hs, splhigh, hcur, hnext, hl.curspl]
  · exact hcore.congr (by simp) (by simp) (by simp)
  · exact .masked hcur rfl hb hc hn
  · intro t ht htc
    obtain ⟨s', hpcb, hsaved⟩ := hsusp t ht htc
    exact ⟨s', by simpa using hpcb, hsaved⟩

/-- Dispatching: `next` is on `tasks_ready`, from which it is unlinked. -/
theorem Inv.step_masked {n : T} (hcore : Core g R Z []) (hsusp : Suspended g R Z c)
    (hcur : g.kernel.curtask = some c) (hm : g.kernel.masked = true)
    (hb : Base g.bootstrap (Live g Z) c spl s) (hn : n ∈ R)
    (hs : g.kernel.stack = .masked (some n) spl :: s) :
    ∃ k, step g.kernel = .ok k ∧ Inv { g with kernel := k } (R.erase n) Z c [n] := by
  obtain ⟨h', hrun, hlists, hnext, hprev, hdiff⟩ :=
    taskUnlinkFrom_spec (l := .tasksReady) hcore.lists hn
  rw [queues_update_ready] at hlists
  refine ⟨{ g.kernel with
      heap := h', curtask := some n, stack := .dispatched (some c) spl :: s }, ?_, ?_, ?_, ?_⟩
  · simp [step, hs, hcur, hrun]
  · refine ⟨hlists, ?_, fun t ht => ?_, hcore.fresh, hcore.boot⟩
    · refine List.Perm.trans ?_ hcore.partition
      have hperm := (List.perm_cons_erase hn).symm.append_right Z
      simpa using (@List.perm_append_comm _ (R.erase n ++ Z) [n]).trans hperm
    · rcases List.mem_append.mp ht with htn | htc
      · obtain rfl := List.mem_singleton.mp htn
        exact ⟨hnext, hprev⟩
      · obtain ⟨hr, -, -⟩ := hcore.not_mem_of_created htc
        obtain ⟨hn, hp⟩ := hcore.links t (by simpa using htc)
        exact ⟨(hdiff.next t hr).trans hn, (hdiff.prev t hr).trans hp⟩
  · refine .dispatched rfl hm hb fun hne => ?_
    obtain ⟨s', hpcb, hsaved⟩ := hsusp n hn hne
    exact ⟨s', (pcb_of_info hdiff.info n).trans hpcb, hsaved⟩
  · intro t ht htc
    obtain ⟨s', hpcb, hsaved⟩ := hsusp t (List.mem_of_mem_erase ht) htc
    exact ⟨s', (pcb_of_info hdiff.info t).trans hpcb, hsaved⟩

/-- The context switch. -/
theorem Inv.step_dispatched {n : T} (hcore : Core g R Z [n]) (hsusp : Suspended g R Z c)
    (hcur : g.kernel.curtask = some n) (hm : g.kernel.masked = true)
    (hb : Base g.bootstrap (Live g Z) c spl s)
    (hn : n ≠ c → ∃ s', (g.kernel.heap.task n).pcb = some s' ∧
      Saved g.bootstrap (Live g Z) n s')
    (hs : g.kernel.stack = .dispatched (some c) spl :: s) :
    ∃ k, step g.kernel = .ok k ∧ Inv { g with kernel := k } R Z n [n] := by
  have hstep : step g.kernel = .ok { g.kernel with
      heap := g.kernel.heap.setPcb (some c) (.switched spl :: s),
      stack := (g.kernel.heap.setPcb (some c) (.switched spl :: s)).context (some n) } := by
    simp only [step, hs, mdSwitch, hcur]
  refine ⟨_, hstep, ?_, ?_, ?_⟩
  · exact hcore.congr (by simp) (by simp) (by simp)
  · show At _ R Z n ((g.kernel.heap.setPcb (some c) (.switched spl :: s)).context (some n)) [n]
    by_cases hnc : n = c
    · subst hnc
      simp only [TaskHeap.context, Option.bind_some, TaskHeap.pcb_setPcb_self, Option.getD_some]
      exact .switched hcur hm hb
    · obtain ⟨s', hpcb, hsaved⟩ := hn hnc
      simp only [TaskHeap.context, Option.bind_some, TaskHeap.pcb_setPcb_of_ne _ _ hnc, hpcb,
        Option.getD_some]
      cases hsaved with
      | startup fn userdata => exact .startup hcur hm
      | switched hb' => exact .switched hcur hm hb'
  · intro t ht htn
    by_cases htc : t = c
    · subst htc
      exact ⟨_, by simp, .switched hb⟩
    · obtain ⟨s', hpcb, hsaved⟩ := hsusp t ht htc
      exact ⟨s', by simpa [TaskHeap.pcb_setPcb_of_ne _ _ htc] using hpcb, hsaved⟩

/-- The end of `mi_switch` restores the level it was called at. -/
theorem Inv.step_switched (hcore : Core g R Z [c]) (hsusp : Suspended g R Z c)
    (hcur : g.kernel.curtask = some c) (hb : Base g.bootstrap (Live g Z) c spl s)
    (hs : g.kernel.stack = .switched spl :: s) :
    ∃ k, step g.kernel = .ok k ∧ Inv { g with kernel := k } R Z c [c] := by
  refine ⟨{ (splx spl g.kernel).2 with stack := s }, by simp only [step, hs], ?_⟩
  cases hb with
  | task =>
      refine ⟨hcore.congr (by simp [splx, spl0]) (by simp [splx, spl0]) (by simp [splx, spl0]),
        .user hcur ⟨by simp [splx, spl0], by simp [splx, spl0], by simp [splx, spl0, hcur]⟩, ?_⟩
      intro t ht htc
      obtain ⟨s', hpcb, hsaved⟩ := hsusp t ht htc
      exact ⟨s', by simpa [splx, spl0] using hpcb, hsaved⟩
  | trap hi =>
      refine ⟨hcore.congr (by simp [splx, splhigh]) (by simp [splx, splhigh])
        (by simp [splx, splhigh]), .trap (by simpa [splx, splhigh] using hcur)
        (by simp [splx, splhigh]) hi, ?_⟩
      intro t ht htc
      obtain ⟨s', hpcb, hsaved⟩ := hsusp t ht htc
      exact ⟨s', by simpa [splx, splhigh] using hpcb, hsaved⟩

/-- A new task unmasks interrupts before it runs its function. -/
theorem Inv.step_startup {fn userdata : Word} (hcore : Core g R Z [c])
    (hsusp : Suspended g R Z c) (hcur : g.kernel.curtask = some c)
    (hs : g.kernel.stack = [.startup fn userdata]) :
    ∃ k, step g.kernel = .ok k ∧ Inv { g with kernel := k } R Z c [c] := by
  refine ⟨{ (spl0 g.kernel).2 with stack := [] }, by simp only [step, hs],
    hcore.congr (by simp [spl0]) (by simp [spl0]) (by simp [spl0]),
    .user hcur ⟨by simp [spl0], by simp [spl0], by simp [spl0, hcur]⟩, ?_⟩
  intro t ht htc
  obtain ⟨s', hpcb, hsaved⟩ := hsusp t ht htc
  exact ⟨s', by simpa [spl0] using hpcb, hsaved⟩

/-- The way out of an interrupt. -/
theorem Inv.step_trap (hcore : Core g R Z [c]) (hsusp : Suspended g R Z c)
    (hcur : g.kernel.curtask = some c) (hi : Interrupted g.bootstrap (Live g Z) c s)
    (hs : g.kernel.stack = .trap 0 :: s) :
    ∃ k, step g.kernel = .ok k ∧ Inv { g with kernel := k } R Z c [c] := by
  have hl : Level { g.kernel with
      heap := g.kernel.heap.setSpl g.kernel.curtask 0, curspl := 0, masked := false, stack := s }
      c 0 := ⟨rfl, rfl, by simp [hcur]⟩
  refine ⟨_, by simp only [step, hs]; rfl, hcore.congr (by simp) (by simp) (by simp), ?_, ?_⟩
  · cases hi with
    | user => exact .user hcur hl
    | entry hi => exact .entry hcur hl .task hi
    | chosen hi hn => exact .chosen hcur hl .task hi hn
  · intro t ht htc
    obtain ⟨s', hpcb, hsaved⟩ := hsusp t ht htc
    exact ⟨s', by simpa using hpcb, hsaved⟩

end Steps

end TeachingOs
