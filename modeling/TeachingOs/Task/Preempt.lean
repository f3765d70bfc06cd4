import TeachingOs.Task.Invariant

/-!
# TeachingOs.Task.Preempt

Runs of the scheduler under preemption.  Between any two statements an
unmasked timer interrupt may start a nested `mi_switch`; the running task
may also create, start, yield and exit.  As long as no event is unsafe, in
the two ways that `Event.Safe` excludes, every state reached is `Sound` and
no assertion fails (`Run.sound`).
-/

namespace TeachingOs

open DList

variable {T : Type} [DecidableEq T]

/-! ## Events -/

/-- What may happen next: a statement of the call in progress, a call from
the running task's own code, or a timer interrupt. -/
inductive Event (T : Type) where
  | step
  | irq
  | yield
  | exit
  | new (t : T)
  | start (t : T) (fn userdata : Word)

/-- A call can be made from a task's own code only, `main` never returns,
`kzalloc` returns a fresh block, and an interrupt needs to be unmasked. -/
def Event.Enabled (g : Sys T) : Event T → Prop
  | .step => g.kernel.stack ≠ []
  | .irq => g.kernel.masked = false
  | .yield => g.kernel.stack = []
  | .exit => g.kernel.stack = [] ∧ g.kernel.curtask ≠ some g.bootstrap
  | .new t => g.kernel.stack = [] ∧ t ∉ g.bootstrap :: g.started ++ g.created
  | .start t _ _ => g.kernel.stack = [] ∧ t ∈ g.created

/-- The state after an event. -/
def Sys.exec (g : Sys T) : Event T → Except Panic (Sys T)
  | .step => do
    let kernel ← TeachingOs.step g.kernel
    return { g with kernel }
  | .irq => .ok { g with kernel := TeachingOs.irq g.kernel }
  | .yield => .ok { g with kernel := callSwitch .ready g.kernel }
  | .exit => .ok { g with kernel := callSwitch .zombie g.kernel }
  | .new t => .ok { g with kernel := taskNew t g.kernel, created := t :: g.created }
  | .start t fn userdata => do
    let kernel ← taskStart t fn userdata g.kernel
    return { g with kernel, created := g.created.erase t, started := t :: g.started }

/-- Some suspended task was interrupted after its scheduler call had chosen
`c`, which it will switch to without asking again. -/
def StaleNext (g : Sys T) (c : T) : Prop :=
  ∃ t ∈ g.bootstrap :: g.started, ∃ s into,
    (g.kernel.heap.task t).pcb = some s ∧ .chosen into (some c) ∈ s

/-- The events that keep the scheduler sound: no interrupt between
`task_list_move_tail` and `splhigh`, and no exit of a task that a suspended
task is about to switch to. -/
def Event.Safe (g : Sys T) : Event T → Prop
  | .irq => ∀ next s, g.kernel.stack ≠ .enqueued next :: s
  | .step => ∀ c next s, g.kernel.curtask = some c →
      g.kernel.stack = .chosen .zombie next :: s → ¬ StaleNext g c
  | _ => True

/-! ## Preservation -/

section Preserve

variable {g : Sys T} {R Z : List T} {c : T} {out : List T}

/-- Every statement keeps the invariant. -/
theorem Inv.step (h : Inv g R Z c out) (hne : g.kernel.stack ≠ [])
    (hsafe : (Event.step : Event T).Safe g) :
    ∃ k R' Z' c' out', TeachingOs.step g.kernel = .ok k ∧
      Inv { g with kernel := k } R' Z' c' out' := by
  obtain ⟨hcore, hhere, hsusp⟩ := h
  generalize hs : g.kernel.stack = stack at hhere
  cases hhere with
  | user => exact absurd hs hne
  | entry hcur hl hb hi =>
      obtain ⟨k, hk, hinv⟩ := Inv.step_entry hcore hsusp hcur hl hb hi hs
      exact ⟨k, _, _, _, _, hk, hinv⟩
  | chosen hcur hl hb hi hn =>
      rcases hi with rfl | ⟨rfl, hboot⟩
      · obtain ⟨k, hk, hinv⟩ := Inv.step_chosen_ready hcore hsusp hcur hl hb hn hs
        exact ⟨k, _, _, _, _, hk, hinv⟩
      · have hstale : ∀ t ∈ R, ∀ s', (g.kernel.heap.task t).pcb = some s' →
            ∀ into, .chosen into (some c) ∉ s' := by
          intro t ht s' hpcb into hm
          exact hsafe c _ _ hcur hs ⟨t, (hcore.live_of_ready ht).1, s', into, hpcb, hm⟩
        obtain ⟨k, hk, hinv⟩ := Inv.step_chosen_zombie hcore hsusp hcur hl hb hboot hn hstale hs
        exact ⟨k, _, _, _, _, hk, hinv⟩
  | enqueued hcur hl hb hc hn =>
      obtain ⟨k, hk, hinv⟩ := Inv.step_enqueued hcore hsusp hcur hl hb hc hn hs
      exact ⟨k, _, _, _, _, hk, hinv⟩
  | masked hcur hm hb hc hn =>
      obtain ⟨k, hk, hinv⟩ := Inv.step_masked hcore hsusp hcur hm hb hn hs
      exact ⟨k, _, _, _, _, hk, hinv⟩
  | dispatched hcur hm hb hn =>
      obtain ⟨k, hk, hinv⟩ := Inv.step_dispatched hcore hsusp hcur hm hb hn hs
      exact ⟨k, _, _, _, _, hk, hinv⟩
  | switched hcur hm hb =>
      obtain ⟨k, hk, hinv⟩ := Inv.step_switched hcore hsusp hcur hb hs
      exact ⟨k, _, _, _, _, hk, hinv⟩
  | startup hcur hm =>
      obtain ⟨k, hk, hinv⟩ := Inv.step_startup hcore hsusp hcur hs
      exact ⟨k, _, _, _, _, hk, hinv⟩
  | trap hcur hm hi =>
      obtain ⟨k, hk, hinv⟩ := Inv.step_trap hcore hsusp hcur hi hs
      exact ⟨k, _, _, _, _, hk, hinv⟩

omit [DecidableEq T] in
/-- An unmasked point that is not behind the enqueue can be interrupted. -/
theorem At.interrupted {stack : List (Activation T)} (h : At g R Z c stack out)
    (hmask : g.kernel.masked = false) (hsafe : ∀ next s, stack ≠ .enqueued next :: s) :
    g.kernel.curtask = some c ∧ (g.kernel.heap.task c).spl = 0 ∧ out = [c] ∧
      Interrupted g.bootstrap (Live g Z) c stack := by
  cases h with
  | user hcur hl => exact ⟨hcur, hl.spl, rfl, .user⟩
  | entry hcur hl hb hi =>
      cases hb with
      | task => exact ⟨hcur, hl.spl, rfl, .entry hi⟩
      | trap => exact absurd (hl.masked.symm.trans hmask) (by decide)
  | chosen hcur hl hb hi hn =>
      cases hb with
      | task => exact ⟨hcur, hl.spl, rfl, .chosen hi hn⟩
      | trap => exact absurd (hl.masked.symm.trans hmask) (by decide)
  | enqueued => exact absurd rfl (hsafe _ _)
  | masked _ hm => rw [hm] at hmask; cases hmask
  | dispatched _ hm => rw [hm] at hmask; cases hmask
  | switched _ hm => rw [hm] at hmask; cases hmask
  | startup _ hm => rw [hm] at hmask; cases hmask
  | trap _ hm => rw [hm] at hmask; cases hmask

/-- An interrupt at such a point keeps the invariant. -/
theorem Inv.irq (h : Inv g R Z c out) (hmask : g.kernel.masked = false)
    (hsafe : (Event.irq : Event T).Safe g) :
    Inv { g with kernel := TeachingOs.irq g.kernel } R Z c [c] := by
  obtain ⟨hcur, hspl, rfl, hint⟩ := h.here.interrupted hmask hsafe
  have hstack : (TeachingOs.irq g.kernel).stack = .entry .ready :: .trap 0 :: g.kernel.stack := by
    simp [TeachingOs.irq, callSwitch, hcur, hspl]
  have hheap : (TeachingOs.irq g.kernel).heap = g.kernel.heap.setSpl (some c) 1 := by
    simp [TeachingOs.irq, callSwitch, hcur]
  refine ⟨h.core.congr (by simp [hheap]) (by simp [hheap]) (by simp [hheap]), ?_, ?_⟩
  · show At _ R Z c (TeachingOs.irq g.kernel).stack [c]
    rw [hstack]
    refine .entry hcur ⟨rfl, rfl, ?_⟩ (.trap hint) (Or.inl rfl)
    show ((TeachingOs.irq g.kernel).heap.task c).spl = 1
    rw [hheap, TaskHeap.spl_setSpl_self]
  · intro t ht htc
    obtain ⟨s', hpcb, hsaved⟩ := h.suspended t ht htc
    refine ⟨s', ?_, hsaved⟩
    show ((TeachingOs.irq g.kernel).heap.task t).pcb = some s'
    rw [hheap, TaskHeap.pcb_setSpl, hpcb]

omit [DecidableEq T] in
/-- In its own code the running task is outside of the lists. -/
theorem Inv.user (h : Inv g R Z c out) (hs : g.kernel.stack = []) :
    g.kernel.curtask = some c ∧ Level g.kernel c 0 ∧ out = [c] := by
  have hhere := h.here
  rw [hs] at hhere
  cases hhere with
  | user hcur hl => exact ⟨hcur, hl, rfl⟩

omit [DecidableEq T] in
/-- A call of `mi_switch` from a task's own code. -/
theorem Inv.callSwitch (h : Inv g R Z c out) (hs : g.kernel.stack = []) {into : TaskState}
    (hi : Leaves g.bootstrap c into) :
    Inv { g with kernel := TeachingOs.callSwitch into g.kernel } R Z c [c] := by
  obtain ⟨hcur, hl, rfl⟩ := h.user hs
  refine ⟨h.core.congr rfl rfl rfl, ?_, h.suspended⟩
  show At _ R Z c (.entry into :: g.kernel.stack) [c]
  rw [hs]
  exact .entry hcur ⟨hl.masked, hl.curspl, hl.spl⟩ .task hi

theorem task_taskNew_of_ne {k : Kernel T} {t u : T} (hu : u ≠ t) :
    (taskNew t k).heap.task u = k.heap.task u := by
  simp [taskNew, hu]

/-- `task_new` touches the fresh block only. -/
theorem Inv.new (h : Inv g R Z c out) (hs : g.kernel.stack = []) {t : T}
    (ht : t ∉ g.bootstrap :: g.started ++ g.created) :
    Inv { g with kernel := taskNew t g.kernel, created := t :: g.created } R Z c [c] := by
  obtain ⟨hcur, hl, rfl⟩ := h.user hs
  rw [List.mem_append, not_or] at ht
  have hne : ∀ u, u ∈ R ∨ u ∈ Z ∨ u ∈ [c] → u ≠ t :=
    fun u hu => ne_of_mem_of_not_mem (h.core.mem_iff.mpr hu) ht.1
  refine ⟨⟨⟨fun l => ?_, h.core.lists.disjoint⟩, h.core.partition, fun u hu => ?_, ?_,
    h.core.boot⟩, ?_, fun u hu huc => ?_⟩
  · have hq : ∀ u ∈ queues R Z l, u ≠ t := by
      intro u hu
      cases l with
      | tasksReady => exact hne u (Or.inl hu)
      | tasksZombie => exact hne u (Or.inr (Or.inl hu))
    exact (h.core.lists.rep l).congr
      (fun u hu => congrArg Task.listNext (task_taskNew_of_ne (hq u hu)))
      fun u hu => congrArg Task.listPrev (task_taskNew_of_ne (hq u hu))
  · by_cases hut : u = t
    · subst hut
      simp [taskNew, TaskHeap.next, TaskHeap.prev]
    · have hin : u ∈ [c] ++ g.created := by
        rcases List.mem_append.mp hu with hu | hu
        · exact List.mem_append_left _ hu
        · exact List.mem_append_right _ ((List.mem_cons.mp hu).resolve_left hut)
      obtain ⟨hn, hp⟩ := h.core.links u hin
      exact ⟨(congrArg Task.listNext (task_taskNew_of_ne hut)).trans hn,
        (congrArg Task.listPrev (task_taskNew_of_ne hut)).trans hp⟩
  · refine (List.perm_middle.nodup_iff).mpr (List.nodup_cons.mpr ⟨?_, h.core.fresh⟩)
    rw [List.mem_append, not_or]
    exact ht
  · show At _ R Z c g.kernel.stack [c]
    rw [hs]
    have hct : (taskNew t g.kernel).heap.task c = g.kernel.heap.task c :=
      task_taskNew_of_ne (hne c (by simp))
    exact .user hcur ⟨hl.masked, hl.curspl, (congrArg Task.spl hct).trans hl.spl⟩
  · obtain ⟨s', hpcb, hsaved⟩ := h.suspended u hu huc
    exact ⟨s', (congrArg Task.pcb (task_taskNew_of_ne (hne u (Or.inl hu)))).trans hpcb, hsaved⟩

omit [DecidableEq T] in
/-- A start ends no task. -/
theorem Live.start {n : T} (hn : Live g Z n) (t : T) :
    Live { g with started := t :: g.started } Z n := by
  refine ⟨?_, hn.2⟩
  rcases List.mem_cons.mp hn.1 with hb | hst
  · exact List.mem_cons.mpr (Or.inl hb)
  · exact List.mem_cons_of_mem _ (List.mem_cons_of_mem _ hst)

/-- A start moves one task from the created to the started ones. -/
theorem perm_started {t : T} (ht : t ∈ g.created) :
    (g.bootstrap :: (t :: g.started) ++ g.created.erase t).Perm
      (g.bootstrap :: g.started ++ g.created) := by
  have hmid : (t :: (g.started ++ g.created.erase t)).Perm (g.started ++ g.created) :=
    List.perm_middle.symm.trans ((List.perm_cons_erase ht).symm.append_left g.started)
  exact hmid.cons g.bootstrap

/-- `task_start` puts the new task in front of `tasks_ready`. -/
theorem Inv.start (h : Inv g R Z c out) (hs : g.kernel.stack = []) {t : T} (ht : t ∈ g.created)
    (fn userdata : Word) :
    ∃ k, taskStart t fn userdata g.kernel = .ok k ∧
      Inv { g with kernel := k, created := g.created.erase t, started := t :: g.started }
        (t :: R) Z c [c] := by
  obtain ⟨hcur, hl, rfl⟩ := h.user hs
  obtain ⟨htR, htZ, htc⟩ := h.core.not_mem_of_created ht
  obtain ⟨hnext, hprev⟩ := h.core.links t (by simp [ht])
  have hoff : ∀ l, t ∉ queues R Z l := by
    intro l
    cases l with
    | tasksReady => exact htR
    | tasksZombie => exact htZ
  obtain ⟨h', hrun, hlists, hdiff⟩ :=
    taskListMoveHead_spec h.core.lists hoff hnext hprev .tasksReady
  rw [queues_update_ready] at hlists
  have hrep : ∀ l, Rep h'.next h'.prev (h'.list l).head (h'.list l).tail (queues (t :: R) Z l) :=
    hlists.rep
  have hnodup := (List.nodup_append.mp h.core.fresh).2.1
  have hctx : ∀ u, u ≠ t → ((h'.setPcb (some t) [.startup fn userdata]).task u).pcb =
      (g.kernel.heap.task u).pcb :=
    fun u hut => (TaskHeap.pcb_setPcb_of_ne _ _ hut).trans (pcb_of_info hdiff.info u)
  refine ⟨{ g.kernel with heap := h'.setPcb (some t) [.startup fn userdata] }, ?_,
    ⟨⟨fun l => by simpa using hrep l, hlists.disjoint⟩, ?_, fun u hu => ?_, ?_,
      h.core.boot⟩, ?_, fun u hu huc => ?_⟩
  · simp [taskStart, hrun]
  · exact ((h.core.partition).cons t).trans (List.Perm.swap _ _ _)
  · have hut : u ≠ t := by
      rintro rfl
      rcases List.mem_append.mp hu with hu | hu
      · exact htc hu
      · exact hnodup.not_mem_erase hu
    have hin : u ∈ [c] ++ g.created := by
      rcases List.mem_append.mp hu with hu | hu
      · exact List.mem_append_left _ hu
      · exact List.mem_append_right _ (List.mem_of_mem_erase hu)
    have huR : u ∉ R := by
      rcases List.mem_append.mp hu with hu | hu
      · rw [List.mem_singleton] at hu
        exact hu ▸ h.core.off .tasksReady
      · exact (h.core.not_mem_of_created (List.mem_of_mem_erase hu)).1
    have hon : ¬ (u = t ∨ u ∈ R) := by simp [hut, huR]
    obtain ⟨hn, hp⟩ := h.core.links u hin
    exact ⟨by simpa using (hdiff.next u hon).trans hn, by simpa using (hdiff.prev u hon).trans hp⟩
  · exact (perm_started ht).nodup_iff.mpr h.core.fresh
  · show At _ (t :: R) Z c g.kernel.stack [c]
    rw [hs]
    exact .user hcur ⟨hl.masked, hl.curspl, by simpa using (spl_of_info hdiff.info c).trans hl.spl⟩
  · by_cases hut : u = t
    · subst hut
      exact ⟨_, by simp, .startup fn userdata⟩
    · have huR : u ∈ R := (List.mem_cons.mp hu).resolve_left hut
      obtain ⟨s', hpcb, hsaved⟩ := h.suspended u huR huc
      exact ⟨s', (hctx u hut).trans hpcb, hsaved.mono fun _ _ hn _ _ => hn.start t⟩

/-- Every safe event succeeds and keeps the invariant. -/
theorem Inv.exec (h : Inv g R Z c out) (e : Event T) (hen : e.Enabled g) (hsafe : e.Safe g) :
    ∃ g', g.exec e = .ok g' ∧ ∃ R' Z' c' out', Inv g' R' Z' c' out' := by
  cases e with
  | step =>
      obtain ⟨k, R', Z', c', out', hk, hinv⟩ := h.step hen hsafe
      exact ⟨_, by simp [Sys.exec, hk], R', Z', c', out', hinv⟩
  | irq => exact ⟨_, rfl, _, _, _, _, h.irq hen hsafe⟩
  | yield => exact ⟨_, rfl, _, _, _, _, h.callSwitch hen (Or.inl rfl)⟩
  | exit =>
      have hne : c ≠ g.bootstrap := by
        rintro rfl
        exact hen.2 (h.user hen.1).1
      exact ⟨_, rfl, _, _, _, _, h.callSwitch hen.1 (Or.inr ⟨rfl, hne⟩)⟩
  | new t => exact ⟨_, rfl, _, _, _, _, h.new hen.1 hen.2⟩
  | start t fn userdata =>
      obtain ⟨k, hk, hinv⟩ := h.start hen.1 hen.2 fn userdata
      exact ⟨_, by simp [Sys.exec, hk], _, _, _, _, hinv⟩

end Preserve

/-! ## Runs -/

/-- The scheduler right after `task_bootstrap`: `kmain` runs, nothing is
ready, and interrupts are unmasked. -/
def bootSys (kmain : T) (task : T → Task T) : Sys T where
  kernel := taskBootstrap kmain
    { heap := ⟨task, fun _ => ⟨none, none⟩⟩, curtask := none, curspl := 0, masked := false
      stack := [] }
  bootstrap := kmain
  created := []
  started := []

/-- The states reached by enabled events that all satisfy `ok`. -/
inductive Run (kmain : T) (task : T → Task T) (ok : Sys T → Event T → Prop) : Sys T → Prop where
  | boot : Run kmain task ok (bootSys kmain task)
  | event {g g' : Sys T} {e : Event T} (hr : Run kmain task ok g) (hen : e.Enabled g)
      (hok : ok g e) (he : g.exec e = .ok g') : Run kmain task ok g'

/-- The lists are well formed, no started task is lost or listed twice, and
a task about to be unlinked from `tasks_ready` is on it. -/
def Sound (g : Sys T) : Prop :=
  ∃ R Z, Lists g.kernel.heap (queues R Z) ∧ (R ++ Z).Nodup ∧
    (∀ t, t ∈ g.bootstrap :: g.started ↔ t ∈ R ∨ t ∈ Z ∨ g.kernel.curtask = some t) ∧
    ∀ next spl s, g.kernel.stack = .masked next spl :: s → ∃ n ∈ R, next = some n

/-- What preemption must not break: the state is sound, and no event that
is possible there fails an assertion. -/
def PreemptionSafe (ok : Sys T → Event T → Prop) (g : Sys T) : Prop :=
  Sound g ∧ ∀ e, Event.Enabled g e → ok g e → ∃ g', g.exec e = .ok g'

theorem bootSys_inv (kmain : T) (task : T → Task T) :
    Inv (bootSys kmain task) [] [] kmain [kmain] := by
  have hself : (bootSys kmain task).kernel.heap.task kmain = ⟨none, none, none, .running, 0⟩ := by
    simp [bootSys, taskBootstrap]
  refine ⟨⟨⟨fun l => ?_, fun l k t ht => ?_⟩, by rfl, fun t ht => ?_, by simp [bootSys], by simp⟩,
    ?_, fun t ht => by cases ht⟩
  · cases l <;> exact Rep.nil _ _
  · cases l <;> cases ht
  · obtain rfl : t = kmain := by simpa [bootSys] using ht
    exact ⟨congrArg Task.listNext hself, congrArg Task.listPrev hself⟩
  · exact .user rfl ⟨rfl, rfl, congrArg Task.spl hself⟩

omit [DecidableEq T] in
/-- The task outside of the lists, if there is one, is `curtask`. -/
theorem At.curtask {g : Sys T} {R Z out : List T} {c : T} {stack : List (Activation T)}
    (h : At g R Z c stack out) : ∃ t, g.kernel.curtask = some t ∧
      (out = [t] ∨ out = [] ∧ t ∈ g.bootstrap :: g.started) := by
  cases h with
  | user hcur | entry hcur | chosen hcur | switched hcur | startup hcur | trap hcur =>
      exact ⟨c, hcur, Or.inl rfl⟩
  | enqueued hcur _ _ hc => exact ⟨c, hcur, Or.inr ⟨rfl, hc⟩⟩
  | masked hcur _ _ hc => exact ⟨c, hcur, Or.inr ⟨rfl, hc⟩⟩
  | @dispatched n _ _ hcur => exact ⟨n, hcur, Or.inl rfl⟩

omit [DecidableEq T] in
/-- The invariant contains soundness. -/
theorem Inv.sound {g : Sys T} {R Z out : List T} {c : T} (h : Inv g R Z c out) : Sound g := by
  have hcore := h.core
  obtain ⟨x, hcur, hout⟩ := h.here.curtask
  refine ⟨R, Z, hcore.lists, (List.nodup_append.mp hcore.nodup).1, fun t => ?_, ?_⟩
  · rw [hcore.mem_iff, hcur]
    rcases hout with rfl | ⟨rfl, hx⟩
    · simp [eq_comm]
    · have hxl : x ∈ R ∨ x ∈ Z := by simpa using hcore.mem_iff.mp hx
      constructor
      · rintro (hr | hz | ho)
        · exact Or.inl hr
        · exact Or.inr (Or.inl hz)
        · cases ho
      · rintro (hr | hz | ht)
        · exact Or.inl hr
        · exact Or.inr (Or.inl hz)
        · obtain rfl := Option.some.inj ht
          exact hxl.imp id Or.inl
  · intro next spl s hs
    have hhere := h.here
    rw [hs] at hhere
    cases hhere with
    | masked _ _ _ _ hn => exact ⟨_, hn, rfl⟩

/-- A run of safe events keeps the invariant. -/
theorem Run.inv {kmain : T} {task : T → Task T} {g : Sys T}
    (h : Run kmain task (fun g e => e.Safe g) g) : ∃ R Z c out, Inv g R Z c out := by
  induction h with
  | boot => exact ⟨_, _, _, _, bootSys_inv kmain task⟩
  | event _ hen hok he ih =>
      obtain ⟨R, Z, c, out, hinv⟩ := ih
      obtain ⟨g', he', hinv'⟩ := hinv.exec _ hen hok
      rw [he'] at he
      cases he
      exact hinv'

/-- **Preemption is harmless in runs of safe events**: every state reached
is sound, and no safe event that is possible there fails an assertion. -/
theorem Run.preemptionSafe (kmain : T) (task : T → Task T) (g : Sys T)
    (h : Run kmain task (fun g e => e.Safe g) g) :
    PreemptionSafe (fun g e => e.Safe g) g := by
  obtain ⟨R, Z, c, out, hinv⟩ := h.inv
  refine ⟨hinv.sound, fun e hen hok => ?_⟩
  obtain ⟨g', he, -⟩ := hinv.exec e hen hok
  exact ⟨g', he⟩

/-- Memory before the first allocation. -/
def blankTask {T : Type} (_ : T) : Task T := ⟨none, none, none, .ready, 0⟩

/-- `main` is interrupted in `task_yield` after the scheduler call. -/
theorem Run.preemptionSafe_interrupted :
    ∃ g, [Event.yield, .step, .irq].foldlM Sys.exec (bootSys () blankTask) = .ok g ∧
      PreemptionSafe (fun g e => e.Safe g) g := by
  have h0 : Run () blankTask (fun g e => e.Safe g) _ := .boot
  have h1 := h0.event (e := .yield) rfl trivial rfl
  have h2 := h1.event (e := .step) (List.cons_ne_nil _ _) (fun _ _ _ _ h => by cases h) rfl
  have h3 := h2.event (e := .irq) rfl (fun _ _ h => by cases h) rfl
  exact ⟨_, rfl, Run.preemptionSafe () blankTask _ h3⟩

/-! ## The window before `splhigh` -/

/-- Enqueueing the last task of a list a second time makes it its own
neighbour, which the function notices itself. -/
theorem taskListMoveTail_twice {L : Type} [DecidableEq L] {h : TaskHeap T L} {t : T} {l : L}
    (htail : (h.list l).tail = some t) :
    taskListMoveTail h (some t) none (some l) =
      .error (.assertion "task_list_move_tail" "task->list_next == NULL") := by
  obtain ⟨h', hrun, hlist⟩ : ∃ h', taskUnlinkFrom h (some t) (none : Option L) = .ok h' ∧
      h'.list = h.list := ⟨_, rfl, by simp⟩
  have hnext : (h'.linkTail t l).next t ≠ none := by
    simp [TaskHeap.next_linkTail, hlist, htail]
  simp only [taskListMoveTail, assertNotNull, ok_bind, hrun]
  rw [assert_of_false hnext]
  rfl

/-- An interrupt between `task_list_move_tail` and `splhigh` always ends in
a failed assertion, two statements into the nested `mi_switch`. -/
theorem steps_irq_enqueued {k : Kernel T} {c : T} (hcur : k.curtask = some c)
    (htail : (k.heap.list .tasksReady).tail = some c) :
    steps 2 (irq k) = .error (.assertion "task_list_move_tail" "task->list_next == NULL") := by
  have htail' : ((k.heap.setSpl (some c) 1).list .tasksReady).tail = some c := by simpa using htail
  simp [steps, irq, callSwitch, step, hcur, taskStateToList, taskListMoveTail_twice htail']

/-- With `main` alone, an interrupt between `task_list_move_tail` and
`splhigh` of its `task_yield` enqueues it a second time, and
`assert(task->list_next == NULL)` fails. -/
theorem not_preemptionSafe :
    ¬ ∀ g, Run () blankTask (fun _ _ => True) g → PreemptionSafe (fun _ _ => True) g := by
  intro h
  let g := bootSys () blankTask
  obtain ⟨heap, hrun, hlists, -⟩ := taskListMoveTail_spec (h := g.kernel.heap) (t := ())
    (bootSys_inv () blankTask).core.lists (bootSys_inv () blankTask).core.off rfl rfl .tasksReady
  have htail : (heap.list .tasksReady).tail = some () := (hlists.rep .tasksReady).tail
  let chosen : Kernel Unit := { g.kernel with stack := [.chosen .ready none] }
  let enqueued : Kernel Unit := { g.kernel with heap, stack := [.enqueued none] }
  have henqueue : step chosen = .ok enqueued := by
    have hcur : chosen.curtask = some () := rfl
    have hheap : chosen.heap = g.kernel.heap := rfl
    simp only [step, show chosen.stack = [.chosen .ready none] from rfl, hcur, hheap,
      taskStateToList, ok_bind, hrun]
    rfl
  have h1 : Run () blankTask (fun _ _ => True) _ := Run.boot.event (e := .yield) rfl trivial rfl
  have h2 : Run () blankTask (fun _ _ => True) { g with kernel := chosen } :=
    h1.event (e := .step) (List.cons_ne_nil _ _) trivial rfl
  have h3 : Run () blankTask (fun _ _ => True) { g with kernel := enqueued } :=
    h2.event (e := .step) (List.cons_ne_nil _ _) trivial (by simp [Sys.exec, henqueue])
  have h4 := h3.event (e := .irq) rfl trivial rfl
  have h5 := h4.event (e := .step) (List.cons_ne_nil _ _) trivial rfl
  obtain ⟨g', he⟩ := (h _ h5).2 .step (List.cons_ne_nil _ _) trivial
  simp only [Sys.exec, bind_eq_ok] at he
  obtain ⟨k, hk, -⟩ := he
  have hok : steps 2 (irq enqueued) = .ok k := by
    show (step _ >>= steps 0) = _
    rw [hk]
    rfl
  have hfail : steps 2 (irq enqueued) = .error _ := steps_irq_enqueued rfl htail
  rw [hok] at hfail
  cases hfail

end TeachingOs
