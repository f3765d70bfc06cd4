import Mathlib.Logic.Relation
import TeachingOs.Arch.Code

/-!
# TeachingOs.Arch.Transparent

A task that calls `aarch64_switch` and is later switched back to, and a task
that is interrupted, against any other tasks that run in between.  Of the
compiled C code between the two assembly files the theorems assume what a
caller may: other tasks leave the stack and the pcb of the task alone, its
own handler leaves the trap frame alone, and, as AAPCS64 says, returns with
the stack pointer it was called with, provided the calls it makes do.
-/

namespace TeachingOs.Arch

open ByteMem Relation

/-! ## Tasks -/

/-- The stacks and pcbs of the tasks, none of which overlap. -/
structure Regions (T : Type) where
  stack : T → Set Addr
  pcb : T → Addr
  stack_stack : ∀ {t u}, t ≠ u → ∀ a ∈ stack t, a ∉ stack u
  stack_pcb : ∀ {t u}, ∀ a ∈ stack t, a ∉ bytes (pcb u) 8
  pcb_pcb : ∀ {t u}, t ≠ u → ∀ a ∈ bytes (pcb t) 8, a ∉ bytes (pcb u) 8

variable {T : Type} {R : Regions T} {me t u : T} {s s' : Machine} {m m' : Mem}

/-- The stack and the pcb of a task. -/
def Regions.owned (R : Regions T) (t : T) : Set Addr := R.stack t ∪ bytes (R.pcb t) 8

/-- `t` calls `aarch64_switch(pcb t, pcb u)` with room on its stack. -/
structure Calls (R : Regions T) (t u : T) (s : Machine) : Prop where
  old : s.x 0 = R.pcb t
  new : s.x 1 = R.pcb u
  room : bytes (s.sp - 256) 256 ⊆ R.stack t

/-- A step of the tasks other than `me`, with the task that runs: code of
any kind, traps included, that leaves what `me` owns alone, or a switch. -/
inductive Others (R : Regions T) (me : T) : T × Machine → T × Machine → Prop where
  | code {u : T} {s s' : Machine} (hu : u ≠ me) (hmem : ∀ a ∈ R.owned me, s'.mem a = s.mem a) :
      Others R me (u, s) (u, s')
  | switch {u v : T} {s : Machine} (hu : u ≠ me) (hv : v ≠ me) (h : Calls R u v s) :
      Others R me (u, s) (v, exec aarch64Switch s)

/-- `me` calls `aarch64_switch` in the first state, and the call returns in
the second: at once if it switches to itself, else after the switch of
another task back to its pcb. -/
inductive Resumes (R : Regions T) (me : T) : Machine → Machine → Prop where
  | self {s : Machine} (h : Calls R me me s) : Resumes R me s (exec aarch64Switch s)
  | away {u v : T} {s s' : Machine} (hu : u ≠ me) (hv : v ≠ me) (h : Calls R me u s)
      (hothers : ReflTransGen (Others R me) (u, exec aarch64Switch s) (v, s'))
      (hback : Calls R v me s') : Resumes R me s (exec aarch64Switch s')

/-- The C code of a trap handler of `me`, from its call to its return, with
the calls of `aarch64_switch` it makes and their returns. -/
inductive Handler (R : Regions T) (me : T) (frame : Addr) :
    List (Machine × Machine) → Machine → Machine → Prop where
  | done {s : Machine} : Handler R me frame [] s s
  | code {calls : List (Machine × Machine)} {s s₁ s' : Machine}
      (hmem : ∀ a ∈ bytes frame 288, s₁.mem a = s.mem a)
      (hrun : Handler R me frame calls s₁ s') : Handler R me frame calls s s'
  | switch {calls : List (Machine × Machine)} {s s₁ s' : Machine} (h : Resumes R me s s₁)
      (hbelow : ∀ a ∈ bytes frame 288, a ∉ bytes (s.sp - 256) 256)
      (hrun : Handler R me frame calls s₁ s') : Handler R me frame ((s, s₁) :: calls) s s'

/-- A call returned as its caller expects: to the link address, with the
registers and the stack pointer of the call. -/
def Returned (s s' : Machine) : Prop := s'.x = s.x ∧ s'.sp = s.sp ∧ s'.pc = s.x 30

/-- AAPCS64 for the handler: if its calls return as it expects, it returns
with the stack pointer it was called with. -/
def Conforms (calls : List (Machine × Machine)) (s s' : Machine) : Prop :=
  (∀ c ∈ calls, Returned c.1 c.2) → s'.sp = s.sp

/-! ## A saved task -/

/-- The memory holds the frame of a switch away of `me` in state `s`, and
the rest of its stack as it was. -/
structure Saved (R : Regions T) (me : T) (s : Machine) (m : Mem) : Prop where
  room : bytes (s.sp - 256) 256 ⊆ R.stack me
  pcb : load64 m (R.pcb me) = s.sp - 256
  frame : ∀ p ∈ switchFrame, load64 m (s.sp - 256 + .ofNat 64 p.2) = s.x p.1
  rest : ∀ a ∈ R.stack me, a ∉ bytes (s.sp - 256) 256 → m a = s.mem a

/-- A switch changes nothing outside its frame and the pcb. -/
theorem switchMem_of_notMem {a : Addr} (hframe : a ∉ bytes (s.sp - 256) 256)
    (hpcb : a ∉ bytes (s.x 0) 8) : switchMem s a = s.mem a :=
  (store64_of_notMem hpcb).trans (storeAll_of_notMem (switchFrame_layout s.x) (by decide) hframe)

/-- Switching away saves the task. -/
theorem Calls.saved (h : Calls R me u s) : Saved R me s (switchMem s) where
  room := h.room
  pcb := by rw [switchMem, h.old, load64_store64]
  frame p hp := by
    have hinside := switchFrame_inside p hp
    have hmem : ∀ a ∈ bytes (s.sp - 256 + .ofNat 64 p.2) 8,
        switchMem s a = storeAll (s.sp - 256) (switchFrame.slots s.x) s.mem a := by
      intro a ha
      refine store64_of_notMem ?_
      rw [h.old]
      exact R.stack_pcb a (h.room (bytes_add_subset hinside (by decide) ha))
    rw [load64_congr hmem]
    exact load64_storeAll (p := (p.2, s.x p.1)) (switchFrame_layout s.x) (by decide)
      (Saves.mem_slots hp s.x)
  rest a ha hframe := by
    refine switchMem_of_notMem hframe ?_
    rw [h.old]
    exact R.stack_pcb a ha

/-- A saved task stays saved while what it owns is left alone. -/
theorem Saved.congr (h : Saved R me s m) (hmem : ∀ a ∈ R.owned me, m' a = m a) :
    Saved R me s m' where
  room := h.room
  pcb := (load64_congr fun a ha => hmem a (Or.inr ha)).trans h.pcb
  frame p hp := by
    have hinside := switchFrame_inside p hp
    refine (load64_congr fun a ha => hmem a (Or.inl (h.room ?_))).trans (h.frame p hp)
    exact bytes_add_subset hinside (by decide) ha
  rest a ha hframe := (hmem a (Or.inl ha)).trans (h.rest a ha hframe)

/-- A switch of another task leaves what `me` owns alone. -/
theorem Calls.mem_of_ne (h : Calls R t u s) (ht : t ≠ me) {a : Addr} (ha : a ∈ R.owned me) :
    switchMem s a = s.mem a := by
  rcases ha with ha | ha
  · refine switchMem_of_notMem (fun hframe => ?_) (h.old ▸ R.stack_pcb a ha)
    exact R.stack_stack ht a (h.room hframe) ha
  · refine switchMem_of_notMem (fun hframe => ?_) (h.old ▸ R.pcb_pcb ht.symm a ha)
    exact R.stack_pcb a (h.room hframe) ha

/-- A step of other tasks keeps a saved task. -/
theorem Saved.others (h : Saved R me s m) {c c' : T × Machine} (hc : c.2.mem = m)
    (hstep : Others R me c c') : Saved R me s c'.2.mem := by
  subst hc
  cases hstep with
  | code hu hmem => exact h.congr hmem
  | switch hu hv hcall =>
      refine h.congr fun a ha => ?_
      rw [mem_exec_aarch64Switch, hcall.mem_of_ne hu ha]

/-- Any run of other tasks keeps a saved task. -/
theorem Saved.run (h : Saved R me s m) {c c' : T × Machine} (hc : c.2.mem = m)
    (hrun : ReflTransGen (Others R me) c c') : Saved R me s c'.2.mem := by
  induction hrun with
  | refl => exact hc ▸ h
  | tail _ hstep ih => exact ih.others rfl hstep

/-- A switch to a saved task returns from its call. -/
theorem Saved.returned (h : Saved R me s (switchMem s')) (hnew : s'.x 1 = R.pcb me) :
    Returned s (exec aarch64Switch s') := by
  obtain ⟨-, hx, hsp, hpc⟩ := exec_aarch64Switch (s := s') (by rw [hnew]; exact h.pcb) h.frame
  exact ⟨hx, hsp.trans (BitVec.sub_add_cancel _ _), hpc⟩

/-! ## Transparency -/

/-- The task is saved when the last switch of a call starts to load. -/
theorem Resumes.saved (h : Resumes R me s s') :
    ∃ t, s' = exec aarch64Switch t ∧ t.x 1 = R.pcb me ∧ Saved R me s (switchMem t) := by
  cases h with
  | self h => exact ⟨s, rfl, h.new, h.saved⟩
  | @away u v _ t hu hv h hothers hback =>
      have hsaved : Saved R me s t.mem :=
        h.saved.run (mem_exec_aarch64Switch s) hothers
      exact ⟨t, rfl, hback.new, hsaved.congr fun a ha => hback.mem_of_ne hv ha⟩

/-- **Switching away and back** returns to the caller with its registers. -/
theorem Resumes.returned (h : Resumes R me s s') : Returned s s' := by
  obtain ⟨t, rfl, hnew, hsaved⟩ := h.saved
  exact hsaved.returned hnew

/-- It changes nothing of the task's stack but the frame of the switch. -/
theorem Resumes.mem_stack (h : Resumes R me s s') {a : Addr} (ha : a ∈ R.stack me)
    (hframe : a ∉ bytes (s.sp - 256) 256) : s'.mem a = s.mem a := by
  obtain ⟨t, rfl, -, hsaved⟩ := h.saved
  rw [mem_exec_aarch64Switch]
  exact hsaved.rest a ha hframe

/-- A handler leaves the trap frame alone, and its calls return. -/
theorem Handler.spec {frame : Addr} {calls : List (Machine × Machine)}
    (h : Handler R me frame calls s s') (hframe : bytes frame 288 ⊆ R.stack me) :
    (∀ a ∈ bytes frame 288, s'.mem a = s.mem a) ∧ ∀ c ∈ calls, Returned c.1 c.2 := by
  induction h with
  | done => exact ⟨fun _ _ => rfl, nofun⟩
  | code hmem _ ih => exact ⟨fun a ha => (ih.1 a ha).trans (hmem a ha), ih.2⟩
  | switch hresumes hbelow _ ih =>
      refine ⟨fun a ha => (ih.1 a ha).trans (hresumes.mem_stack (hframe ha) (hbelow a ha)), ?_⟩
      exact List.forall_mem_cons.mpr ⟨hresumes.returned, ih.2⟩

/-- A slot of the trap frame, when the handler returns. -/
theorem Handler.load_slot {id : Nat} {link : BitVec 64} {calls : List (Machine × Machine)}
    (h : Handler R me (s.sp - 288) calls (exec (trapEntry id link) s) s')
    (hframe : bytes (s.sp - 288) 288 ⊆ R.stack me) {p : Slot} (hp : p ∈ trapSlots id s) :
    load64 s'.mem (s.sp - 288 + .ofNat 64 p.1) = p.2 := by
  have hlayout := trapSlots_layout id s
  have hinside := hlayout.inside p.1 (List.mem_map_of_mem hp)
  rw [load64_congr fun a ha => (h.spec hframe).1 a (bytes_add_subset hinside (by decide) ha),
    (exec_trapEntry id link s).2, load64_storeAll hlayout (by decide) hp]

/-- **Preemption is transparent**: a call of `aarch64_switch` that is resumed
returns to its caller with every register and the stack pointer as at the
call, and a trap whose handler switches away any number of times ends with
the registers, the stack pointer, `ELR_EL1` and `SPSR_EL1` of the interrupted
code. -/
theorem preemption_transparent (R : Regions T) (me : T) :
    (∀ s s', Resumes R me s s' → Returned s s') ∧
      ∀ id link s s' calls, bytes (s.sp - 288) 288 ⊆ R.stack me →
        Handler R me (s.sp - 288) calls (exec (trapEntry id link) s) s' →
        Conforms calls (exec (trapEntry id link) s) s' →
        (exec trapExit s').x = s.x ∧ (exec trapExit s').sp = s.sp ∧
          (exec trapExit s').sys .elr = s.sys .elr ∧ (exec trapExit s').sys .spsr = s.sys .spsr := by
  refine ⟨fun s s' h => h.returned, fun id link s s' calls hframe hrun hconforms => ?_⟩
  have hsp : s'.sp = s.sp - 288 :=
    (hconforms (hrun.spec hframe).2).trans (exec_trapEntry id link s).1
  have hx : ∀ p ∈ trapPairs.saves ++ [(0, 8)],
      load64 s'.mem (s'.sp + .ofNat 64 p.2) = s.x p.1 := by
    intro p hp
    rw [hsp]
    refine hrun.load_slot hframe (p := (p.2, s.x p.1)) ?_
    rcases List.mem_append.mp hp with hp | hp
    · have hslot := Saves.mem_slots hp s.x
      simp [trapSlots, hslot]
    · obtain rfl := List.mem_singleton.mp hp
      simp [trapSlots]
  have helr : load64 s'.mem (s'.sp + .ofNat 64 (16 * 16 + 8)) = s.sys .elr := by
    rw [hsp]
    exact hrun.load_slot hframe (p := (16 * 16 + 8, s.sys .elr)) (by simp [trapSlots])
  have hspsr : load64 s'.mem (s'.sp + .ofNat 64 (16 * 17)) = s.sys .spsr := by
    rw [hsp]
    exact hrun.load_slot hframe (p := (16 * 17, s.sys .spsr)) (by simp [trapSlots])
  obtain ⟨hx', hsp', helr', hspsr'⟩ := exec_trapExit hx helr hspsr
  refine ⟨hx', ?_, helr', hspsr'⟩
  rw [hsp', hsp]
  exact BitVec.sub_add_cancel _ _

/-! ## Two tasks -/

/-- Two stacks of 4096 bytes, and the pcbs behind them. -/
def twoTasks : Regions Bool where
  stack
    | false => bytes 0x1000 4096
    | true => bytes 0x3000 4096
  pcb
    | false => 0x5000
    | true => 0x5008
  stack_stack {t u} htu a ha ha' := by
    cases t <;> cases u <;> simp only [mem_bytes, ne_eq, not_true_eq_false] at * <;> bv_omega
  stack_pcb {t u} a ha ha' := by
    cases t <;> cases u <;> simp only [mem_bytes] at * <;> bv_omega
  pcb_pcb {t u} htu a ha ha' := by
    cases t <;> cases u <;> simp only [mem_bytes, ne_eq, not_true_eq_false] at * <;> bv_omega

/-- An interrupted task with an empty stack. -/
def interrupted : Machine where
  x r := .ofNat 64 r.val
  sp := 0x2000
  pc := 0
  sys _ := 7
  mem _ := 0

/-- Code that calls `aarch64_switch(old, new)` with the stack pointer `sp`. -/
def Machine.calling (s : Machine) (old new sp : BitVec 64) : Machine :=
  { s with x := fun r => if r = 0 then old else new, sp }

/-- The first task can call a switch to the second one. -/
theorem twoTasks_calls (s : Machine) :
    Calls twoTasks false true (s.calling 0x5000 0x5008 0x1E00) := by
  refine ⟨rfl, rfl, fun a ha => ?_⟩
  change (a - 0x1000).toNat < 4096
  rw [mem_bytes, Machine.calling] at ha
  bv_omega

/-- The first task calls a switch to the second one, which switches back. -/
theorem twoTasks_resumes (s : Machine) :
    ∃ s', Resumes twoTasks false (s.calling 0x5000 0x5008 0x1E00) s' := by
  have hback : ∀ t : Machine, Calls twoTasks true false (t.calling 0x5008 0x5000 0x4000) := by
    refine fun t => ⟨rfl, rfl, fun a ha => ?_⟩
    change (a - 0x3000).toNat < 4096
    rw [mem_bytes, Machine.calling] at ha
    bv_omega
  have hothers : Others twoTasks false
      (true, exec aarch64Switch (s.calling 0x5000 0x5008 0x1E00))
      (true, (exec aarch64Switch (s.calling 0x5000 0x5008 0x1E00)).calling 0x5008 0x5000 0x4000) :=
    .code Bool.noConfusion fun a _ => rfl
  exact ⟨_, .away Bool.noConfusion Bool.noConfusion (twoTasks_calls s) (.single hothers) (hback _)⟩

/-- A handler of the first task that calls that switch. -/
theorem twoTasks_handler (s : Machine) : ∃ c r s', Handler twoTasks false 0x1EE0 [(c, r)] s s' ∧
    Resumes twoTasks false c r ∧ s'.sp = s.sp := by
  obtain ⟨r, hresumes⟩ := twoTasks_resumes s
  have hcall : ∀ a ∈ bytes 0x1EE0 288, (s.calling 0x5000 0x5008 0x1E00).mem a = s.mem a :=
    fun _ _ => rfl
  have hreturn : ∀ a ∈ bytes 0x1EE0 288, { r with sp := s.sp }.mem a = r.mem a := fun _ _ => rfl
  have hbelow : ∀ a ∈ bytes 0x1EE0 288, a ∉ bytes (0x1E00 - 256) 256 := by
    intro a ha ha'
    rw [mem_bytes] at ha ha'
    bv_omega
  exact ⟨_, r, _, .code hcall (.switch hresumes hbelow (.code hreturn .done)), hresumes, rfl⟩

/-- The first task is interrupted, its handler switches to the second one,
which switches back. -/
theorem preemption_transparent_twoTasks :
    ∃ c r s', Handler twoTasks false (interrupted.sp - 288) [(c, r)]
        (exec (trapEntry 5 0) interrupted) s' ∧
      Returned c r ∧ (exec trapExit s').x = interrupted.x := by
  obtain ⟨hreturned, htrap⟩ := preemption_transparent twoTasks false
  have hframe : interrupted.sp - 288 = 0x1EE0 := by decide
  have hstack : bytes (interrupted.sp - 288) 288 ⊆ twoTasks.stack false := by
    intro a ha
    change (a - 0x1000).toNat < 4096
    rw [hframe, mem_bytes] at ha
    bv_omega
  obtain ⟨c, r, s', hrun, hresumes, hsp⟩ := twoTasks_handler (exec (trapEntry 5 0) interrupted)
  rw [← hframe] at hrun
  exact ⟨c, r, s', hrun, hreturned c r hresumes,
    (htrap 5 0 interrupted s' _ hstack hrun fun _ => hsp).1⟩

end TeachingOs.Arch
