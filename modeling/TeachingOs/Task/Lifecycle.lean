import TeachingOs.Lib.History
import TeachingOs.Task.Queue

/-!
# TeachingOs.Task.Lifecycle

What becomes of a task: when a task that has called `task_exit` is gone for
good, and when the `state` field says where a task is.

Both laws are about runs of whole operations, and both fail on the code.
`exited_gone_iff` and `statesAgree_iff` name the operations that break them:
the exit of the only task that can run, and any switch to another task.
-/

namespace TeachingOs

open DList

variable {T : Type} [DecidableEq T]

/-! ## Exited tasks -/

/-- A run that remembers the tasks that have executed `mi_switch(TS_ZOMBIE)`,
and those of them whose `task_exit` returned to `mi_task_startup`. -/
structure Exits (T : Type) where
  sys : Sys T
  exited : List T
  returned : List T

/-- An operation; a switch to a task continues the call in which that task
was switched away from, which for an exited task is `task_exit`. -/
def Exits.perform (s : Exits T) (o : Op T) : Except Panic (Exits T) := do
  let sys ← s.sys.perform o
  match o with
  | .new _ | .start _ _ _ => return { s with sys }
  | .yield =>
    return { s with sys, returned := sys.kernel.curtask.toList.filter (· ∈ s.exited) ++ s.returned }
  | .exit =>
    let exited := s.sys.kernel.curtask.toList ++ s.exited
    return ⟨sys, exited, sys.kernel.curtask.toList.filter (· ∈ exited) ++ s.returned⟩

/-- `t` is on a well-formed `tasks_zombie`. -/
def OnZombie (k : Kernel T) (t : T) : Prop :=
  ∃ Z, Rep k.heap.next k.heap.prev (k.heap.list .tasksZombie).head
    (k.heap.list .tasksZombie).tail Z ∧ t ∈ Z

/-- Every exited task is on `tasks_zombie`, does not run, and its call of
`task_exit` did not return. -/
structure Exits.Gone (s : Exits T) : Prop where
  zombie : ∀ t ∈ s.exited, OnZombie s.sys.kernel t
  curtask : ∀ t ∈ s.exited, s.sys.kernel.curtask ≠ some t
  returned : s.returned = []

/-- The invariant of runs in which no task exits alone. -/
def Exits.Inv (s : Exits T) : Prop :=
  ∃ q, Scheduled s.sys q ∧ (∀ t ∈ s.exited, t ∈ q.zombie) ∧ s.returned = []

/-- A run of operations from `task_bootstrap`, any task exiting at any time. -/
def ExitRun (kmain : T) (task : T → Task T) : List (Exits T × Op T) → Exits T → Prop :=
  History (· = ⟨bootSys kmain task, [], []⟩)
    fun s o s' => o.Possible s.sys ∧ s.perform o = .ok s'

section Gone

variable {s s' : Exits T} {q : Queue T}

omit [DecidableEq T] in
theorem Idle.not_current_of_zombie {k : Kernel T} {t : T} (h : Idle k q) (ht : t ∈ q.zombie) :
    k.curtask ≠ some t := by
  intro hc
  obtain rfl := Option.some.inj (h.current.symm.trans hc)
  exact h.off .tasksZombie ht

omit [DecidableEq T] in
theorem Exits.Inv.gone (h : s.Inv) : s.Gone := by
  obtain ⟨q, hs, hz, hr⟩ := h
  exact ⟨fun t ht => ⟨_, hs.idle.lists.rep .tasksZombie, hz t ht⟩,
    fun t ht => hs.idle.not_current_of_zombie (hz t ht), hr⟩

/-- The control stacks of a `mi_switch` whose scheduler call found nothing. -/
inductive Alone (c : T) : List (Activation T) → Prop where
  | chosen (into : TaskState) : Alone c [.chosen into none]
  | enqueued : Alone c [.enqueued none]
  | masked (spl : Int) : Alone c [.masked (some c) spl]
  | dispatched (spl : Int) : Alone c [.dispatched (some c) spl]
  | switched (spl : Int) : Alone c [.switched spl]
  | user : Alone c []

/-- Each statement of such a call keeps the running task. -/
theorem Alone.step {c : T} {k k' : Kernel T} (h : Alone c k.stack) (hcur : k.curtask = some c)
    (hstep : step k = .ok k') : Alone c k'.stack ∧ k'.curtask = some c := by
  obtain ⟨stack, hs⟩ : ∃ stack, k.stack = stack := ⟨_, rfl⟩
  rw [hs] at h
  unfold TeachingOs.step at hstep
  rw [hs] at hstep
  cases h with
  | chosen into =>
      simp only [bind_eq_ok, pure_eq_ok, Except.ok.injEq] at hstep
      obtain ⟨-, -, list, -, heap, -, rfl⟩ := hstep
      exact ⟨.enqueued, hcur⟩
  | enqueued =>
      cases hstep
      refine ⟨?_, hcur⟩
      rw [if_pos rfl, hcur]
      exact .masked _
  | masked spl =>
      simp only [bind_eq_ok, pure_eq_ok, Except.ok.injEq] at hstep
      obtain ⟨heap, -, rfl⟩ := hstep
      rw [hcur]
      exact ⟨.dispatched _, rfl⟩
  | dispatched spl =>
      cases hstep
      refine ⟨?_, hcur⟩
      simp only [mdSwitch, hcur, TaskHeap.context, Option.bind_some, TaskHeap.pcb_setPcb_self,
        Option.getD_some]
      exact .switched spl
  | switched spl =>
      cases hstep
      exact ⟨.user, (curtask_splx spl k).trans hcur⟩
  | user =>
      cases hstep
      rw [hs]
      exact ⟨.user, hcur⟩

theorem Alone.steps {c : T} {n : Nat} {k k' : Kernel T} (h : Alone c k.stack)
    (hcur : k.curtask = some c) (hsteps : steps n k = .ok k') : k'.curtask = some c := by
  induction n generalizing k with
  | zero => exact Except.ok.inj hsteps ▸ hcur
  | succ n ih =>
      obtain ⟨k₁, hstep, hsteps⟩ := bind_eq_ok.mp hsteps
      obtain ⟨h₁, hcur₁⟩ := h.step hcur hstep
      exact ih h₁ hcur₁ hsteps

/-- When no task is ready, `mi_switch` switches from the running task to
itself. -/
theorem curtask_miSwitch_alone {into : TaskState} {c : T} {k k' : Kernel T} (hs : k.stack = [])
    (hcur : k.curtask = some c) (hsched : scheduler k = none) (h : miSwitch into k = .ok k') :
    k'.curtask = some c := by
  have hentry : step (callSwitch into k) = .ok { k with stack := [.chosen into none] } := by
    unfold scheduler at hsched
    simp [step, callSwitch, hs, scheduler, hsched]
  obtain ⟨k₁, hstep, hsteps⟩ := bind_eq_ok.mp h
  obtain rfl := Except.ok.inj (hentry.symm.trans hstep)
  have halone : Alone c ({ k with stack := [.chosen into none] } : Kernel T).stack := .chosen into
  exact halone.steps hcur hsteps

theorem Exits.Inv.boot (kmain : T) (task : T → Task T) :
    Exits.Inv ⟨bootSys kmain task, [], []⟩ :=
  ⟨_, scheduled_boot kmain task, by simp, rfl⟩

omit [DecidableEq T] in
theorem Scheduled.scheduler_eq_none_iff {g : Sys T} (h : Scheduled g q) :
    scheduler g.kernel = none ↔ q.after .exit = none := by
  rw [h.idle.scheduler]
  unfold Queue.after
  cases q.ready <;> simp

omit [DecidableEq T] in
/-- Every operation has a result but the exit of the last task. -/
theorem Scheduled.exists_after {g : Sys T} {o : Op T} (h : Scheduled g q)
    (hlast : o = .exit → scheduler g.kernel ≠ none) : ∃ q', q.after o = some q' := by
  cases o with
  | exit =>
      rw [ne_eq, h.scheduler_eq_none_iff] at hlast
      exact Option.ne_none_iff_exists'.mp (hlast rfl)
  | new t => exact ⟨_, rfl⟩
  | start t fn userdata => exact ⟨_, rfl⟩
  | yield =>
      unfold Queue.after
      cases q.ready <;> exact ⟨_, rfl⟩

/-- An operation that is not the exit of the last task keeps the invariant. -/
theorem Exits.Inv.perform {o : Op T} (h : s.Inv) (hp : o.Possible s.sys)
    (hperform : s.perform o = .ok s') (hlast : o = .exit → scheduler s.sys.kernel ≠ none) :
    s'.Inv := by
  obtain ⟨q, hs, hz, hr⟩ := h
  obtain ⟨sys, hsys, hperform⟩ := bind_eq_ok.mp hperform
  obtain ⟨q', ha⟩ := hs.exists_after hlast
  obtain ⟨sys', hsys', hs'⟩ := hs.perform hp ha
  obtain rfl : sys' = sys := Except.ok.inj (hsys'.symm.trans hsys)
  have hzombie := Queue.zombie_after ha
  -- a switch never ends in a task on `tasks_zombie`
  have hback : ∀ exited : List T, (∀ t ∈ exited, t ∈ q'.zombie) →
      sys'.kernel.curtask.toList.filter (· ∈ exited) = [] := by
    intro exited hexited
    have hcur : q'.current ∉ exited := fun hm => hs'.idle.off .tasksZombie (hexited _ hm)
    simp [hs'.idle.current, hcur]
  cases o with
  | new t =>
      cases hperform
      exact ⟨q', hs', by simpa [hzombie, Op.leaves] using hz, hr⟩
  | start t fn userdata =>
      cases hperform
      exact ⟨q', hs', by simpa [hzombie, Op.leaves] using hz, hr⟩
  | yield =>
      cases hperform
      have hz' : ∀ t ∈ s.exited, t ∈ q'.zombie := by simpa [hzombie, Op.leaves] using hz
      exact ⟨q', hs', hz', by rw [hback _ hz', hr]; rfl⟩
  | exit =>
      cases hperform
      have hz' : ∀ t ∈ s.sys.kernel.curtask.toList ++ s.exited, t ∈ q'.zombie := by
        rw [hzombie, hs.idle.current]
        grind [Op.leaves]
      exact ⟨q', hs', hz', by rw [hback _ hz', hr]; rfl⟩

/-- The exit of the last task returns. -/
theorem Exits.Inv.not_gone (h : s.Inv) (hperform : s.perform .exit = .ok s')
    (hlast : scheduler s.sys.kernel = none) : ¬ s'.Gone := by
  obtain ⟨q, hs, -, -⟩ := h
  obtain ⟨sys, hsys, hperform⟩ := bind_eq_ok.mp hperform
  obtain ⟨k, hk, hsys⟩ := bind_eq_ok.mp hsys
  cases hsys
  cases hperform
  have hcur := curtask_miSwitch_alone hs.idle.user hs.idle.current hlast hk
  intro hgone
  exact hgone.curtask q.current (by simp [hs.idle.current]) hcur

/-- **Exited tasks are gone** in all states of a run exactly when no task
exits while no other task is ready. -/
theorem exited_gone_iff {kmain : T} {task : T → Task T} {past : List (Exits T × Op T)}
    (h : ExitRun kmain task past s) : (s.Gone ∧ ∀ p ∈ past, p.1.Gone) ↔
      ∀ p ∈ past, p.2 = .exit → scheduler p.1.sys.kernel ≠ none := by
  have hinit : ∀ s : Exits T, s = ⟨bootSys kmain task, [], []⟩ → s.Inv ∧ s.Gone := by
    intro s hs
    subst hs
    exact ⟨.boot kmain task, (Exits.Inv.boot kmain task).gone⟩
  refine h.good_iff (fun s o => o = .exit → scheduler s.sys.kernel ≠ none) hinit ?_
  intro s o s' hinv hstep
  obtain ⟨hp, hperform⟩ := hstep
  refine ⟨⟨fun hgone ho hlast => ?_, fun hlast => (hinv.perform hp hperform hlast).gone⟩,
    hinv.perform hp hperform⟩
  subst ho
  exact hinv.not_gone hperform hlast hgone

/-- `main` starts a task and yields to it, and the task exits. -/
theorem exited_gone_iff_second : ∃ past s, ExitRun false blankTask past s ∧ s.exited = [true] ∧
    s.Gone ∧ ∀ p ∈ past, p.1.Gone := by
  have hrun := ((((History.init rfl : ExitRun false blankTask [] _).snoc (e := Op.new true)
    ⟨by simp [Op.Possible, bootSys], rfl⟩).snoc (e := Op.start true 0 0)
    ⟨List.mem_cons_self, rfl⟩).snoc (e := Op.yield) ⟨trivial, rfl⟩).snoc (e := Op.exit)
    ⟨trivial, rfl⟩
  refine ⟨_, _, hrun, rfl, (exited_gone_iff hrun).mpr ?_⟩
  rw [List.forall_mem_cons]
  constructor
  · intro _ hlast
    cases hlast
  · simp

/-- The bootstrap task exits alone, and runs on. -/
theorem not_gone_bootstrap : ¬ ∀ past s, ExitRun false blankTask past s →
    s.Gone ∧ ∀ p ∈ past, p.1.Gone := by
  intro h
  have hrun := (History.init rfl : ExitRun false blankTask [] _).snoc (e := Op.exit) ⟨trivial, rfl⟩
  exact (h _ _ hrun).1.curtask false List.mem_cons_self rfl

end Gone

/-! ## The state field -/

/-- The `state` of a task. -/
def TaskHeap.state {L : Type} (h : TaskHeap T L) (t : T) : TaskState := (h.task t).state

/-- The running task is `TS_RUNNING`, and the tasks on `tasks_ready` and
`tasks_zombie` are `TS_READY` and `TS_ZOMBIE`. -/
def StatesAgree (g : Sys T) : Prop :=
  ∃ R Z c, g.kernel.curtask = some c ∧ Lists g.kernel.heap (queues R Z) ∧
    g.kernel.heap.state c = .running ∧ (∀ t ∈ R, g.kernel.heap.state t = .ready) ∧
    ∀ t ∈ Z, g.kernel.heap.state t = .zombie

/-- A run of operations from `task_bootstrap`; the bootstrap task never exits. -/
def OpRun (kmain : T) (task : T → Task T) : List (Sys T × Op T) → Sys T → Prop :=
  History (· = bootSys kmain task) fun g o g' => o.Enabled g ∧ g.perform o = .ok g'

/-- No statement of the scheduler stores to `state`. -/
theorem step_state {k k' : Kernel T} (h : step k = .ok k') : k'.heap.state = k.heap.state := by
  funext t
  unfold step at h
  split at h
  · cases h
    rfl
  · cases h
    rfl
  · simp only [bind_eq_ok, pure_eq_ok, Except.ok.injEq] at h
    obtain ⟨-, -, list, -, heap, hmove, rfl⟩ := h
    exact state_of_info (info_taskListMoveTail hmove) t
  · cases h
    simp [TaskHeap.state]
  · simp only [bind_eq_ok, pure_eq_ok, Except.ok.injEq] at h
    obtain ⟨heap, hunlink, rfl⟩ := h
    exact state_of_info (info_taskUnlinkFrom hunlink) t
  · cases h
    simp [mdSwitch, TaskHeap.state]
  · cases h
    simp only [splx]
    split <;> simp [splhigh, spl0, TaskHeap.state]
  · cases h
    simp [spl0, TaskHeap.state]
  · cases h
    simp [TaskHeap.state]
  · cases h
    rfl

theorem steps_state {n : Nat} {k k' : Kernel T} (h : steps n k = .ok k') :
    k'.heap.state = k.heap.state := by
  induction n generalizing k with
  | zero => exact Except.ok.inj h ▸ rfl
  | succ n ih =>
      obtain ⟨k₁, hstep, hsteps⟩ := bind_eq_ok.mp h
      exact (ih hsteps).trans (step_state hstep)

theorem miSwitch_state {into : TaskState} {k k' : Kernel T} (h : miSwitch into k = .ok k') :
    k'.heap.state = k.heap.state := (steps_state h :)

theorem taskStart_state {t : T} {fn userdata : Word} {k k' : Kernel T}
    (h : taskStart t fn userdata k = .ok k') : k'.heap.state = k.heap.state := by
  funext u
  simp only [taskStart, bind_eq_ok, pure_eq_ok, Except.ok.injEq] at h
  obtain ⟨heap, hmove, rfl⟩ := h
  simpa [TaskHeap.state] using state_of_info (info_taskListMoveHead hmove) u

/-- The invariant of runs that never switch: only the bootstrap task has run. -/
structure OnlyBootstrap (g : Sys T) (R : List T) : Prop where
  scheduled : Scheduled g ⟨g.bootstrap, R, []⟩
  running : g.kernel.heap.state g.bootstrap = .running
  ready : ∀ t ∈ R ++ g.created, g.kernel.heap.state t = .ready

section States

variable {g g' : Sys T} {R : List T}

omit [DecidableEq T] in
theorem OnlyBootstrap.agree (h : OnlyBootstrap g R) : StatesAgree g :=
  ⟨R, [], g.bootstrap, h.scheduled.idle.current, h.scheduled.idle.lists, h.running,
    fun t ht => h.ready t (List.mem_append_left _ ht), by simp⟩

theorem onlyBootstrap_boot (kmain : T) (task : T → Task T) :
    OnlyBootstrap (bootSys kmain task) [] :=
  ⟨scheduled_boot kmain task, by simp [bootSys, taskBootstrap, TaskHeap.state], by simp [bootSys]⟩

/-- A yield does what it does to the queue, and keeps the states. -/
theorem Scheduled.of_yield {q' : Queue T} (h : Scheduled g q) (ha : q.after .yield = some q')
    (hperform : g.perform .yield = .ok g') : ∃ k, g' = { g with kernel := k } ∧
      Scheduled { g with kernel := k } q' ∧ k.heap.state = g.kernel.heap.state := by
  obtain ⟨k, hk, hperform⟩ := bind_eq_ok.mp hperform
  obtain ⟨k', hk', hs⟩ := h.yield ha
  obtain rfl : k' = k := Except.ok.inj (hk'.symm.trans hk)
  cases hperform
  exact ⟨k', rfl, hs, miSwitch_state hk⟩

/-- Operations without a switch to another task keep it so. -/
theorem OnlyBootstrap.perform {o : Op T} (h : OnlyBootstrap g R) (hen : o.Enabled g)
    (hperform : g.perform o = .ok g') (halone : o = .yield → scheduler g.kernel = none) :
    ∃ R', OnlyBootstrap g' R' := by
  cases o with
  | new t =>
      cases hperform
      have hstate : ∀ u, u ≠ t → (taskNew t g.kernel).heap.state u = g.kernel.heap.state u :=
        fun u hu => congrArg Task.state (task_taskNew_of_ne hu)
      have hboot : g.bootstrap ≠ t := fun hb => hen (by simp [hb])
      refine ⟨R, h.scheduled.new hen, (hstate _ hboot).trans h.running, ?_⟩
      intro u hu
      by_cases hut : u = t
      · subst hut
        simp [taskNew, TaskHeap.state]
      · refine (hstate u hut).trans (h.ready u ?_)
        simpa [hut] using hu
  | start t fn userdata =>
      obtain ⟨k, hk, hperform⟩ := bind_eq_ok.mp hperform
      obtain ⟨k', hk', hs⟩ := h.scheduled.start hen fn userdata
      obtain rfl : k' = k := Except.ok.inj (hk'.symm.trans hk)
      cases hperform
      have hstate := taskStart_state hk
      refine ⟨t :: R, hs, (congrFun hstate _).trans h.running, ?_⟩
      intro u hu
      refine (congrFun hstate u).trans (h.ready u ?_)
      simp only [List.cons_append, List.mem_cons, List.mem_append] at hu ⊢
      rcases hu with rfl | hu | hu
      · exact Or.inr hen
      · exact Or.inl hu
      · exact Or.inr (List.mem_of_mem_erase hu)
  | yield =>
      have hempty := halone rfl
      rw [h.scheduled.idle.scheduler, List.head?_eq_none_iff] at hempty
      subst hempty
      obtain ⟨k, rfl, hs, hstate⟩ := h.scheduled.of_yield rfl hperform
      exact ⟨[], hs, (congrFun hstate _).trans h.running,
        fun u hu => (congrFun hstate u).trans (h.ready u hu)⟩
  | exit => exact absurd h.scheduled.idle.current hen

/-- A switch to another task leaves that task `TS_READY`. -/
theorem OnlyBootstrap.not_agree (h : OnlyBootstrap g R) (hperform : g.perform .yield = .ok g')
    (hready : scheduler g.kernel ≠ none) : ¬ StatesAgree g' := by
  rw [h.scheduled.idle.scheduler, ne_eq, List.head?_eq_none_iff] at hready
  obtain ⟨n, rest, rfl⟩ := List.exists_cons_of_ne_nil hready
  obtain ⟨k, rfl, hs, hstate⟩ := h.scheduled.of_yield rfl hperform
  rintro ⟨R, Z, c, hcur, -, hrunning, -, -⟩
  obtain rfl : n = c := Option.some.inj (hs.idle.current.symm.trans hcur)
  have hn : k.heap.state n = .ready := (congrFun hstate n).trans (h.ready n (by simp))
  rw [hn] at hrunning
  cases hrunning

/-- **The states agree** in all states of a run exactly when the bootstrap
task never yields while another task is ready. -/
theorem statesAgree_iff {kmain : T} {task : T → Task T} {past : List (Sys T × Op T)}
    (h : OpRun kmain task past g) : (StatesAgree g ∧ ∀ p ∈ past, StatesAgree p.1) ↔
      ∀ p ∈ past, p.2 = .yield → scheduler p.1.kernel = none := by
  have hinit : ∀ g, g = bootSys kmain task → (∃ R, OnlyBootstrap g R) ∧ StatesAgree g := by
    intro g hg
    subst hg
    exact ⟨⟨_, onlyBootstrap_boot kmain task⟩, (onlyBootstrap_boot kmain task).agree⟩
  refine h.good_iff (fun g o => o = .yield → scheduler g.kernel = none) hinit ?_
  intro g o g' hinv hstep
  obtain ⟨R, hinv⟩ := hinv
  obtain ⟨hen, hperform⟩ := hstep
  constructor
  · constructor
    · intro hagree ho
      subst ho
      by_contra hready
      exact hinv.not_agree hperform hready hagree
    · intro halone
      obtain ⟨R', hinv'⟩ := hinv.perform hen hperform halone
      exact hinv'.agree
  · exact hinv.perform hen hperform

/-- `main` yields to nobody before and after it creates a task. -/
theorem statesAgree_iff_alone : ∃ past g, OpRun false blankTask past g ∧ past.length = 3 ∧
    StatesAgree g ∧ ∀ p ∈ past, StatesAgree p.1 := by
  have hrun := (((History.init rfl : OpRun false blankTask [] _).snoc (e := Op.yield)
    ⟨trivial, rfl⟩).snoc (e := Op.new true)
    ⟨by simp [Op.Enabled, bootSys], rfl⟩).snoc (e := Op.yield) ⟨trivial, rfl⟩
  refine ⟨_, _, hrun, rfl, (statesAgree_iff hrun).mpr ?_⟩
  simp only [List.forall_mem_cons]
  have hnew : Op.new true ≠ .yield := by simp
  exact ⟨fun _ => rfl, fun h => absurd h hnew, fun _ => rfl, by simp⟩

/-- A started task still is `TS_READY` when it runs. -/
theorem not_statesAgree_yield : ¬ ∀ past g, OpRun false blankTask past g →
    StatesAgree g ∧ ∀ p ∈ past, StatesAgree p.1 := by
  intro h
  have hrun := (((History.init rfl : OpRun false blankTask [] _).snoc (e := Op.new true)
    ⟨by simp [Op.Enabled, bootSys], rfl⟩).snoc (e := Op.start true 0 0)
    ⟨List.mem_cons_self, rfl⟩).snoc (e := Op.yield) ⟨trivial, rfl⟩
  obtain ⟨R, Z, c, hcur, -, hrunning, -, -⟩ := (h _ _ hrun).1
  obtain rfl : true = c := Option.some.inj hcur
  cases hrunning

end States

end TeachingOs
