import TeachingOs.Task.Run

/-!
# TeachingOs.Task.Queue

What the scheduler is for: a round-robin queue.  `Queue` is the running task
and the contents of the two lists, and `Queue.after` says what an operation
does to them, without links, levels or control stacks.

`Idle.miSwitch` computes a whole `mi_switch` from any well-formed state, and
`Scheduled.perform` shows that the operations of `kern/task/task.c` refine
those of the queue.
-/

namespace TeachingOs

open DList

variable {T : Type}

/-! ## The abstract queue -/

/-- The running task, and the tasks on `tasks_ready` and `tasks_zombie`. -/
structure Queue (T : Type) where
  current : T
  ready : List T
  zombie : List T
deriving DecidableEq, Repr

/-- The next task at the head of the queue runs, and the old one goes to the
tail; the last task cannot exit. -/
def Queue.after (q : Queue T) : Op T → Option (Queue T)
  | .new _ => some q
  | .start t _ _ => some { q with ready := t :: q.ready }
  | .yield =>
    match q.ready with
    | [] => some q
    | n :: rest => some ⟨n, rest ++ [q.current], q.zombie⟩
  | .exit =>
    match q.ready with
    | [] => none
    | n :: rest => some ⟨n, rest, q.zombie ++ [q.current]⟩

/-- Every task of the queue. -/
def Queue.tasks (q : Queue T) : List T := q.current :: q.ready ++ q.zombie

/-! ## Between operations -/

/-- The running task executes its own code, the lists hold the tasks of `q`,
and a ready task is one statement away from its own code. -/
structure Idle (k : Kernel T) (q : Queue T) : Prop where
  current : k.curtask = some q.current
  user : k.stack = []
  lists : Lists k.heap (queues q.ready q.zombie)
  off : ∀ l, q.current ∉ queues q.ready q.zombie l
  next : k.heap.next q.current = none
  prev : k.heap.prev q.current = none
  saved : ∀ t ∈ q.ready, ∃ s, (k.heap.task t).pcb = some s ∧ rank s = 1

/-- The same for ready tasks that were suspended as `P` says. -/
structure Resting (P : List (Activation T) → Prop) (k : Kernel T) (q : Queue T) : Prop where
  current : k.curtask = some q.current
  user : k.stack = []
  lists : Lists k.heap (queues q.ready q.zombie)
  off : ∀ l, q.current ∉ queues q.ready q.zombie l
  next : k.heap.next q.current = none
  prev : k.heap.prev q.current = none
  saved : ∀ t ∈ q.ready, ∃ s, (k.heap.task t).pcb = some s ∧ P s

/-- The statements that set the interrupt level of the running task, on the
way back to its own code. -/
def Activation.setsLevel : Activation T → Bool
  | .switched _ | .startup _ _ | .trap _ => true
  | _ => false

section Frames

variable {L : Type} [DecidableEq T] (h : TaskHeap T L) (p : Option T) (t : T)

@[simp] theorem TaskHeap.state_setSpl (v : Int) :
    ((h.setSpl p v).task t).state = (h.task t).state := by
  cases p with
  | none => rfl
  | some u => by_cases hu : t = u <;> simp [setSpl, hu]

@[simp] theorem TaskHeap.state_setPcb (s : List (Activation T)) :
    ((h.setPcb p s).task t).state = (h.task t).state := by
  cases p with
  | none => rfl
  | some u => by_cases hu : t = u <;> simp [setPcb, hu]

omit [DecidableEq T] in
/-- Operations on the links keep the `state` of every task. -/
theorem state_of_info {h h' : TaskHeap T L} (hi : h'.info = h.info) (t : T) :
    (h'.task t).state = (h.task t).state := by
  have ht : (h'.info t).state = (h.info t).state := by rw [hi]
  exact ht

end Frames

variable [DecidableEq T] {k : Kernel T} {q : Queue T} {P : List (Activation T) → Prop}

omit [DecidableEq T] in
/-- The lists read the links and the ends only. -/
theorem Lists.congr {L : Type} {h h' : TaskHeap T L} {f : L → List T} (hf : Lists h f)
    (hnext : h'.next = h.next) (hprev : h'.prev = h.prev) (hlist : h'.list = h.list) :
    Lists h' f :=
  ⟨fun l => by simpa only [hnext, hprev, hlist] using hf.rep l, hf.disjoint⟩

omit [DecidableEq T] in
theorem idle_iff_resting : Idle k q ↔ Resting (fun s => rank s = 1) k q :=
  ⟨fun h => ⟨h.current, h.user, h.lists, h.off, h.next, h.prev, h.saved⟩,
    fun h => ⟨h.current, h.user, h.lists, h.off, h.next, h.prev, h.saved⟩⟩

omit [DecidableEq T] in
theorem Resting.scheduler (h : Resting P k q) : scheduler k = q.ready.head? :=
  (h.lists.rep .tasksReady).head

omit [DecidableEq T] in
theorem Idle.scheduler (h : Idle k q) : scheduler k = q.ready.head? :=
  (idle_iff_resting.mp h).scheduler

/-- Levels do not matter between operations. -/
theorem Resting.setSpl (h : Resting P k q) (p : Option T) (v spl : Int) (m : Bool) :
    Resting P { k with heap := k.heap.setSpl p v, curspl := spl, masked := m } q := by
  refine ⟨h.current, h.user, h.lists.congr (by simp) (by simp) (by simp), h.off, ?_, ?_, ?_⟩
  · simpa using h.next
  · simpa using h.prev
  · simpa using h.saved

/-! ## One switch -/

theorem steps_add (m n : Nat) (k : Kernel T) :
    steps (m + n) k = (do
      let k ← steps m k
      steps n k) := by
  induction m generalizing k with
  | zero => rw [Nat.zero_add]; rfl
  | succ m ih => simp only [Nat.succ_add, steps, ih, bind_assoc]

/-- A statement that sets the level sets nothing else. -/
theorem step_level {a : Activation T} {s : List (Activation T)} (hs : k.stack = a :: s)
    (ha : a.setsLevel = true) : ∃ v m, step k =
      .ok { k with heap := k.heap.setSpl k.curtask v, curspl := v, masked := m, stack := s } := by
  cases a with
  | switched spl =>
      by_cases hspl : spl > 0
      · exact ⟨1, true, by simp [step, hs, splx, hspl, splhigh]⟩
      · exact ⟨0, false, by simp [step, hs, splx, hspl, spl0]⟩
  | startup fn userdata => exact ⟨0, false, by simp [step, hs, spl0]⟩
  | trap oldspl => exact ⟨oldspl, false, by simp [step, hs]⟩
  | _ => cases ha

omit [DecidableEq T] in
/-- One statement away from its own code, a task has a level to set. -/
theorem of_rank_one {s : List (Activation T)} (hr : rank s = 1) :
    ∃ a, s = [a] ∧ a.setsLevel = true := by
  cases s with
  | nil => cases hr
  | cons a s =>
      obtain rfl := eq_nil_of_rank_pos (hr ▸ Nat.one_pos)
      cases a with
      | switched | startup => exact ⟨_, rfl, rfl⟩
      | _ => simp [rank] at hr

/-- A switch to `n`: what is left of the five statements up to `md_switch`
once the lists have been changed.  The calls below `mi_switch` wait with it. -/
theorem dispatch_stack_eq {into : TaskState} {l : ListName} {c n : T} {h₁ h₂ : TaskHeap T ListName}
    {s : List (Activation T)} (hcur : k.curtask = some c) (hs : k.stack = s)
    (hl : taskStateToList into = .ok l) (hn : (scheduler k).getD c = n)
    (hmove : taskListMoveTail k.heap (some c) none (some l) = .ok h₁)
    (hunlink : taskUnlinkFrom (h₁.setSpl (some c) 1) (some n) (some .tasksReady) = .ok h₂) :
    steps 5 (callSwitch into k) = .ok
      { heap := h₂.setPcb (some c) (.switched k.curspl :: s)
        curtask := some n, curspl := 1, masked := true
        stack := (h₂.setPcb (some c) (.switched k.curspl :: s)).context (some n) } := by
  have hinto : into ≠ .running := by
    rintro rfl
    cases hl
  have hnext : (if scheduler k = none then some c else scheduler k) = some n := by
    rw [← hn]
    cases scheduler k <;> rfl
  have hchosen : step (callSwitch into k) =
      .ok { k with stack := .chosen into (scheduler k) :: s } := by
    simp [step, callSwitch, hs, scheduler]
  have henqueued : step { k with stack := .chosen into (scheduler k) :: s } =
      .ok { k with heap := h₁, stack := .enqueued (scheduler k) :: s } := by
    simp [step, hcur, hinto, hl, hmove]
  have hmasked : step { k with heap := h₁, stack := .enqueued (scheduler k) :: s } =
      .ok { k with
        heap := h₁.setSpl (some c) 1, curspl := 1, masked := true
        stack := .masked (some n) k.curspl :: s } := by
    simp [step, splhigh, hcur, hnext]
  have hdispatched : step { k with
        heap := h₁.setSpl (some c) 1, curspl := 1, masked := true
        stack := .masked (some n) k.curspl :: s } =
      .ok { k with
        heap := h₂, curtask := some n, curspl := 1, masked := true
        stack := .dispatched (some c) k.curspl :: s } := by
    simp [step, hcur, hunlink]
  have hswitched : step { k with
        heap := h₂, curtask := some n, curspl := 1, masked := true
        stack := .dispatched (some c) k.curspl :: s } = .ok
      { heap := h₂.setPcb (some c) (.switched k.curspl :: s)
        curtask := some n, curspl := 1, masked := true
        stack := (h₂.setPcb (some c) (.switched k.curspl :: s)).context (some n) } := by
    simp [step, mdSwitch]
  simp only [steps, hchosen, ok_bind, henqueued, hmasked, hdispatched, hswitched]

omit [DecidableEq T] in
/-- Once the running task is enqueued, the ready tasks are it or were ready. -/
theorem Queue.mem_ready_of_enqueue {l : ListName} {R Z : List T}
    (hf : Function.update (queues q.ready q.zombie) l (queues q.ready q.zombie l ++ [q.current]) =
      queues R Z) {t : T} (ht : t ∈ R) : t = q.current ∨ t ∈ q.ready := by
  have htl : t ∈ Function.update (queues q.ready q.zombie) l
      (queues q.ready q.zombie l ++ [q.current]) .tasksReady := by
    rw [hf]
    exact ht
  cases l with
  | tasksReady => simpa [queues, or_comm] using htl
  | tasksZombie => exact Or.inr (by simpa [queues] using htl)

/-- **A switch up to `md_switch`** with the calls `s` below it: with `R` and `Z`
on the lists once the running task is enqueued, it takes `n` off `R`, and
`n` continues as it was suspended. -/
theorem Resting.dispatch_stack {into : TaskState} {l : ListName} {n : T} {R Z : List T}
    {s : List (Activation T)} (h : Resting P { k with stack := [] } q) (hs : k.stack = s)
    (hP : P (.switched k.curspl :: s)) (hl : taskStateToList into = .ok l)
    (hn : q.ready.head?.getD q.current = n)
    (hf : Function.update (queues q.ready q.zombie) l (queues q.ready q.zombie l ++ [q.current]) =
      queues R Z) (hmem : n ∈ R) :
    ∃ w, steps 5 (callSwitch into k) = .ok w ∧ P w.stack ∧
      Resting P { w with stack := [] } ⟨n, R.erase n, Z⟩ ∧
      ∀ u, u ∉ q.tasks → w.heap.next u = k.heap.next u ∧ w.heap.prev u = k.heap.prev u := by
  have hcur : k.curtask = some q.current := h.current
  have hlists : Lists k.heap (queues q.ready q.zombie) := h.lists
  obtain ⟨h₁, hmove, hlists₁, hdiff₁⟩ := taskListMoveTail_spec hlists h.off h.next h.prev l
  rw [hf] at hlists₁
  have hspl : Lists (h₁.setSpl (some q.current) 1) (queues R Z) :=
    hlists₁.congr (by simp) (by simp) (by simp)
  obtain ⟨h₂, hunlink, hlists₂, hnext, hprev, hdiff₂⟩ :=
    taskUnlinkFrom_spec (l := .tasksReady) hspl hmem
  rw [queues_update_ready] at hlists₂
  have hpcb : ∀ t, (h₂.task t).pcb = (k.heap.task t).pcb := by
    intro t
    rw [pcb_of_info hdiff₂.info, TaskHeap.pcb_setSpl, pcb_of_info hdiff₁.info]
  -- what a ready task continues with: what it was suspended with, or this call
  have hcontext : ∀ t ∈ R, ∃ s',
      ((h₂.setPcb (some q.current) (.switched k.curspl :: s)).task t).pcb = some s' ∧ P s' := by
    intro t ht
    by_cases htc : t = q.current
    · subst htc
      exact ⟨_, TaskHeap.pcb_setPcb_self _ _ _, hP⟩
    · obtain ⟨s, hs, hPs⟩ := h.saved t ((Queue.mem_ready_of_enqueue hf ht).resolve_left htc)
      exact ⟨s, by rw [TaskHeap.pcb_setPcb_of_ne _ _ htc, hpcb, hs], hPs⟩
  have hscheduler : TeachingOs.scheduler k = q.ready.head? := h.scheduler
  have hrun := dispatch_stack_eq hcur hs hl (by rw [hscheduler, hn]) hmove hunlink
  refine ⟨_, hrun, ?_, ⟨rfl, rfl, ?_, ?_, ?_, ?_, ?_⟩, ?_⟩
  · obtain ⟨s, hs, hPs⟩ := hcontext n hmem
    rwa [TaskHeap.context, Option.bind_some, hs, Option.getD_some]
  · exact hlists₂.congr (by simp) (by simp) (by simp)
  · intro k' hm
    cases k' with
    | tasksReady => exact (hlists₁.rep .tasksReady).nodup.not_mem_erase hm
    | tasksZombie =>
        have heq : ListName.tasksReady = .tasksZombie := hlists₁.disjoint (t := n) hmem hm
        cases heq
  · simpa using hnext
  · simpa using hprev
  · exact fun t ht => hcontext t (List.mem_of_mem_erase ht)
  · intro u hu
    have hoff₁ : ¬ (u = q.current ∨ u ∈ queues q.ready q.zombie l) := by
      cases l <;> grind [Queue.tasks, queues]
    have hoff₂ : u ∉ queues R Z .tasksReady := by
      intro hm
      have hm := Queue.mem_ready_of_enqueue hf hm
      grind [Queue.tasks]
    have hnext₁ := hdiff₁.next u hoff₁
    have hprev₁ := hdiff₁.prev u hoff₁
    have hnext₂ := hdiff₂.next u hoff₂
    have hprev₂ := hdiff₂.prev u hoff₂
    simp only [TaskHeap.next_setSpl, TaskHeap.prev_setSpl] at hnext₂ hprev₂
    simp [hnext₁, hnext₂, hprev₁, hprev₂]

/-- A switch with no calls below it. -/
theorem Resting.dispatch {into : TaskState} {l : ListName} {n : T} {R Z : List T}
    (h : Resting P k q) (hP : ∀ spl, P [.switched spl]) (hl : taskStateToList into = .ok l)
    (hn : q.ready.head?.getD q.current = n)
    (hf : Function.update (queues q.ready q.zombie) l (queues q.ready q.zombie l ++ [q.current]) =
      queues R Z) (hmem : n ∈ R) :
    ∃ w, steps 5 (callSwitch into k) = .ok w ∧ P w.stack ∧
      Resting P { w with stack := [] } ⟨n, R.erase n, Z⟩ ∧
      ∀ u, u ∉ q.tasks → w.heap.next u = k.heap.next u ∧ w.heap.prev u = k.heap.prev u := by
  have h' : Resting P { k with stack := [] } q :=
    ⟨h.current, rfl, h.lists, h.off, h.next, h.prev, h.saved⟩
  exact h'.dispatch_stack h.user (hP _) hl hn hf hmem

/-- **A whole `mi_switch`** from a well-formed state: with `R` and `Z` on the
lists once the running task is enqueued, it takes `n` off `R`. -/
theorem Idle.miSwitch {into : TaskState} {l : ListName} {n : T} {R Z : List T} (h : Idle k q)
    (hl : taskStateToList into = .ok l) (hn : q.ready.head?.getD q.current = n)
    (hf : Function.update (queues q.ready q.zombie) l (queues q.ready q.zombie l ++ [q.current]) =
      queues R Z) (hmem : n ∈ R) :
    ∃ k', TeachingOs.miSwitch into k = .ok k' ∧ Idle k' ⟨n, R.erase n, Z⟩ ∧
      ∀ u, u ∉ q.tasks → k'.heap.next u = k.heap.next u ∧ k'.heap.prev u = k.heap.prev u := by
  obtain ⟨w, hw, hrank, hresting, hlinks⟩ :=
    (idle_iff_resting.mp h).dispatch (fun _ => rfl) hl hn hf hmem
  obtain ⟨a, hstack, ha⟩ := of_rank_one hrank
  obtain ⟨v, m, hlast⟩ := step_level hstack ha
  refine ⟨_, ?_, idle_iff_resting.mpr (hresting.setSpl w.curtask v v m), fun u hu => ?_⟩
  · rw [TeachingOs.miSwitch, steps_add 5 1, hw, ok_bind, steps, hlast]
    rfl
  · simpa using hlinks u hu

/-! ## Refinement -/

/-- The tasks that an operation puts on the lists. -/
def Op.enters : Op T → List T
  | .start t _ _ => [t]
  | _ => []

/-- The tasks that an operation of `c` sends to `tasks_zombie`. -/
def Op.leaves (c : T) : Op T → List T
  | .exit => [c]
  | _ => []

omit [DecidableEq T] in
theorem Queue.zombie_after {q' : Queue T} {o : Op T} (h : q.after o = some q') :
    q'.zombie = q.zombie ++ o.leaves q.current := by
  obtain ⟨c, ready, zombie⟩ := q
  cases o <;> cases ready <;> cases h <;> simp [Op.leaves]

omit [DecidableEq T] in
/-- No operation of the queue loses a task or doubles it. -/
theorem Queue.perm_after {q' : Queue T} {o : Op T} (h : q.after o = some q') :
    q'.tasks.Perm (o.enters ++ q.tasks) := by
  obtain ⟨c, ready, zombie⟩ := q
  cases o with
  | new t =>
      cases h
      exact List.Perm.refl _
  | start t fn userdata =>
      cases h
      exact List.Perm.swap t c _
  | yield =>
      cases ready with
      | nil =>
          cases h
          exact List.Perm.refl _
      | cons n rest =>
          cases h
          have hmid : (c :: n :: rest).Perm (n :: (rest ++ [c])) :=
            @List.perm_append_comm _ [c] (n :: rest)
          simpa [tasks, Op.enters] using (hmid.append_right zombie).symm
  | exit =>
      cases ready with
      | nil => cases h
      | cons n rest =>
          cases h
          have hmid : (c :: (n :: rest ++ zombie)).Perm (n :: rest ++ zombie ++ [c]) :=
            @List.perm_append_comm _ [c] _
          simpa [tasks, Op.enters] using hmid.symm

/-- What `task.c` asks of its callers: a fresh block for `task_new` and one
start for each task. -/
def Op.Possible (g : Sys T) : Op T → Prop
  | .new t => t ∉ g.bootstrap :: g.started ++ g.created
  | .start t _ _ => t ∈ g.created
  | .yield => True
  | .exit => True

/-- The kernel is between operations and shows the queue; created tasks wait
without links. -/
structure Scheduled (g : Sys T) (q : Queue T) : Prop where
  idle : Idle g.kernel q
  fresh : (q.tasks ++ g.created).Nodup
  links : ∀ t ∈ g.created, g.kernel.heap.next t = none ∧ g.kernel.heap.prev t = none
  known : ∀ t ∈ q.tasks, t ∈ g.bootstrap :: g.started

theorem scheduled_boot (kmain : T) (task : T → Task T) :
    Scheduled (bootSys kmain task) ⟨kmain, [], []⟩ := by
  have hself : (bootSys kmain task).kernel.heap.task kmain = ⟨none, none, none, .running, 0⟩ := by
    simp [bootSys, taskBootstrap]
  refine ⟨⟨rfl, rfl, ⟨fun l => ?_, fun l k t ht => ?_⟩, fun l => ?_, congrArg Task.listNext hself,
    congrArg Task.listPrev hself, by simp⟩, ?_, ?_, ?_⟩
  · cases l <;> exact Rep.nil _ _
  · cases l <;> cases ht
  · cases l <;> exact List.not_mem_nil
  · simp [Queue.tasks, bootSys]
  · simp [bootSys]
  · simp [Queue.tasks, bootSys]

section Refinement

variable {g : Sys T} {t : T}

omit [DecidableEq T] in
theorem Scheduled.notMem_of_created (h : Scheduled g q) (ht : t ∈ g.created) : t ∉ q.tasks :=
  fun hm => (List.nodup_append.mp h.fresh).2.2 t hm t ht rfl

omit [DecidableEq T] in
theorem Queue.notMem_queues (ht : t ∉ q.tasks) (l : ListName) : t ∉ queues q.ready q.zombie l := by
  cases l <;> grind [Queue.tasks, queues]

/-- `task_new` touches the fresh block only. -/
theorem Scheduled.new (h : Scheduled g q) (ht : t ∉ g.bootstrap :: g.started ++ g.created) :
    Scheduled { g with kernel := taskNew t g.kernel, created := t :: g.created } q := by
  rw [List.mem_append, not_or] at ht
  have hoff : t ∉ q.tasks := fun hm => ht.1 (h.known t hm)
  have htask : ∀ u ∈ q.tasks, (taskNew t g.kernel).heap.task u = g.kernel.heap.task u :=
    fun u hu => task_taskNew_of_ne (ne_of_mem_of_not_mem hu hoff)
  have hcur : q.current ∈ q.tasks := by simp [Queue.tasks]
  refine ⟨⟨h.idle.current, h.idle.user, ⟨fun l => ?_, h.idle.lists.disjoint⟩, h.idle.off, ?_, ?_,
    fun u hu => ?_⟩, ?_, fun u hu => ?_, h.known⟩
  · have hin : ∀ u ∈ queues q.ready q.zombie l, u ∈ q.tasks := by
      intro u hu
      by_contra hc
      exact Queue.notMem_queues hc l hu
    exact (h.idle.lists.rep l).congr
      (fun u hu => congrArg Task.listNext (htask u (hin u hu)))
      fun u hu => congrArg Task.listPrev (htask u (hin u hu))
  · exact (congrArg Task.listNext (htask _ hcur)).trans h.idle.next
  · exact (congrArg Task.listPrev (htask _ hcur)).trans h.idle.prev
  · obtain ⟨s, hs, hrank⟩ := h.idle.saved u hu
    exact ⟨s, (congrArg Task.pcb (htask u (by simp [Queue.tasks, hu]))).trans hs, hrank⟩
  · refine List.perm_middle.nodup_iff.mpr (List.nodup_cons.mpr ⟨?_, h.fresh⟩)
    rw [List.mem_append, not_or]
    exact ⟨hoff, ht.2⟩
  · by_cases hut : u = t
    · subst hut
      simp [taskNew, TaskHeap.next, TaskHeap.prev]
    · obtain ⟨hnext, hprev⟩ := h.links u ((List.mem_cons.mp hu).resolve_left hut)
      exact ⟨(congrArg Task.listNext (task_taskNew_of_ne hut)).trans hnext,
        (congrArg Task.listPrev (task_taskNew_of_ne hut)).trans hprev⟩

/-- `task_start` puts the new task in front of `tasks_ready`. -/
theorem Scheduled.start (h : Scheduled g q) (ht : t ∈ g.created) (fn userdata : Word) :
    ∃ k, taskStart t fn userdata g.kernel = .ok k ∧
      Scheduled { g with kernel := k, created := g.created.erase t, started := t :: g.started }
        { q with ready := t :: q.ready } := by
  have hoff := h.notMem_of_created ht
  obtain ⟨hnext, hprev⟩ := h.links t ht
  obtain ⟨h', hrun, hlists, hdiff⟩ :=
    taskListMoveHead_spec h.idle.lists (Queue.notMem_queues hoff) hnext hprev .tasksReady
  rw [queues_update_ready] at hlists
  have hcur : ¬ (q.current = t ∨ q.current ∈ q.ready) := by
    rintro (rfl | hm)
    · exact hoff (by simp [Queue.tasks])
    · exact h.idle.off .tasksReady hm
  have hperm : ({ q with ready := t :: q.ready } : Queue T).tasks.Perm (t :: q.tasks) :=
    Queue.perm_after (q := q) (o := .start t fn userdata) rfl
  refine ⟨{ g.kernel with heap := h'.setPcb (some t) [.startup fn userdata] }, ?_,
    ⟨⟨h.idle.current, h.idle.user, hlists.congr (by simp) (by simp) (by simp), fun l => ?_, ?_, ?_,
      fun u hu => ?_⟩, ?_, fun u hu => ?_, fun u hu => ?_⟩⟩
  · simp [taskStart, hrun]
  · cases l with
    | tasksReady => exact fun hm => hcur (List.mem_cons.mp hm)
    | tasksZombie => exact h.idle.off .tasksZombie
  · simpa using (hdiff.next _ hcur).trans h.idle.next
  · simpa using (hdiff.prev _ hcur).trans h.idle.prev
  · by_cases hut : u = t
    · subst hut
      exact ⟨_, TaskHeap.pcb_setPcb_self _ _ _, rfl⟩
    · obtain ⟨s, hs, hrank⟩ := h.idle.saved u ((List.mem_cons.mp hu).resolve_left hut)
      refine ⟨s, ?_, hrank⟩
      exact (TaskHeap.pcb_setPcb_of_ne _ _ hut).trans ((pcb_of_info hdiff.info u).trans hs)
  · refine ((hperm.append_right _).trans ?_).nodup_iff.mpr h.fresh
    exact List.perm_middle.symm.trans ((List.perm_cons_erase ht).symm.append_left q.tasks)
  · have hin := List.mem_of_mem_erase hu
    have hon : ¬ (u = t ∨ u ∈ q.ready) := by
      rintro (rfl | hm)
      · exact (List.nodup_append.mp h.fresh).2.1.not_mem_erase hu
      · exact h.notMem_of_created hin (by simp [Queue.tasks, hm])
    obtain ⟨hn, hp⟩ := h.links u hin
    exact ⟨by simpa using (hdiff.next u hon).trans hn, by simpa using (hdiff.prev u hon).trans hp⟩
  · rcases List.mem_cons.mp (hperm.mem_iff.mp hu) with rfl | hu
    · exact List.mem_cons_of_mem _ List.mem_cons_self
    · rcases List.mem_cons.mp (h.known u hu) with hb | hst
      · exact List.mem_cons.mpr (Or.inl hb)
      · exact List.mem_cons_of_mem _ (List.mem_cons_of_mem _ hst)

/-- A switch, given what it does to the two lists. -/
theorem Scheduled.miSwitch {into : TaskState} {l : ListName} {R Z : List T} {q' : Queue T}
    (h : Scheduled g q) (hl : taskStateToList into = .ok l)
    (hn : q.ready.head?.getD q.current = q'.current)
    (hf : Function.update (queues q.ready q.zombie) l (queues q.ready q.zombie l ++ [q.current]) =
      queues R Z) (hmem : q'.current ∈ R) (hready : q'.ready = R.erase q'.current)
    (hzombie : q'.zombie = Z) (hperm : q'.tasks.Perm q.tasks) :
    ∃ k, TeachingOs.miSwitch into g.kernel = .ok k ∧ Scheduled { g with kernel := k } q' := by
  obtain ⟨k, hrun, hidle, hlinks⟩ := h.idle.miSwitch hl hn hf hmem
  rw [← hready, ← hzombie] at hidle
  refine ⟨k, hrun, hidle, (hperm.append_right _).nodup_iff.mpr h.fresh, fun u hu => ?_,
    fun u hu => h.known u (hperm.mem_iff.mp hu)⟩
  obtain ⟨hnext, hprev⟩ := hlinks u (h.notMem_of_created hu)
  exact ⟨hnext.trans (h.links u hu).1, hprev.trans (h.links u hu).2⟩

theorem Scheduled.yield {q' : Queue T} (h : Scheduled g q) (ha : q.after .yield = some q') :
    ∃ k, taskYield g.kernel = .ok k ∧ Scheduled { g with kernel := k } q' := by
  have hperm := Queue.perm_after ha
  obtain ⟨c, ready, zombie⟩ := q
  cases ready with
  | nil =>
      cases ha
      exact h.miSwitch rfl rfl queues_update_ready (by simp [queues]) (by simp [queues]) rfl hperm
  | cons n rest =>
      cases ha
      exact h.miSwitch rfl rfl queues_update_ready (by simp [queues]) (by simp [queues]) rfl hperm

theorem Scheduled.exit {q' : Queue T} (h : Scheduled g q) (ha : q.after .exit = some q') :
    ∃ k, taskExit g.kernel = .ok k ∧ Scheduled { g with kernel := k } q' := by
  have hperm := Queue.perm_after ha
  obtain ⟨c, ready, zombie⟩ := q
  cases ready with
  | nil => cases ha
  | cons n rest =>
      cases ha
      exact h.miSwitch rfl rfl queues_update_zombie (by simp) (by simp) rfl hperm

/-- **Refinement.** What the queue can do, the code does. -/
theorem Scheduled.perform {q' : Queue T} {o : Op T} (h : Scheduled g q) (hp : o.Possible g)
    (ha : q.after o = some q') : ∃ g', g.perform o = .ok g' ∧ Scheduled g' q' := by
  cases o with
  | new t =>
      cases ha
      exact ⟨_, rfl, h.new hp⟩
  | start t fn userdata =>
      cases ha
      obtain ⟨k, hk, hs⟩ := h.start hp fn userdata
      exact ⟨_, by simp [Sys.perform, hk], hs⟩
  | yield =>
      obtain ⟨k, hk, hs⟩ := h.yield ha
      exact ⟨_, by simp [Sys.perform, hk], hs⟩
  | exit =>
      obtain ⟨k, hk, hs⟩ := h.exit ha
      exact ⟨_, by simp [Sys.perform, hk], hs⟩

end Refinement

end TeachingOs
