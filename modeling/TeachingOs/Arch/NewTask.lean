import TeachingOs.Arch.Transparent
import TeachingOs.Libc.String

/-!
# TeachingOs.Arch.NewTask

`md_init_new_task_pcb` of `pcb.c` forges the frame that `aarch64_switch`
will unload.  A new task is a saved task in the sense of `Arch.Transparent`:
one that called `aarch64_switch` with the registers of a first call of
`mi_task_startup` and an empty stack.
-/

namespace TeachingOs.Arch

open ByteMem Libc Relation

/-- `STACK_SIZE`. -/
abbrev stackSize : Nat := 4096

/-- The bytes of a local variable of eight bytes. -/
def localBytes (v : BitVec 64) (i : Nat) : BitVec 8 := v.extractLsb' (8 * i) 8

/-- `md_init_new_task_pcb`, with the address of `mi_task_startup`. -/
def mdInitNewTaskPcb (miTaskStartup pcb stack entryFn userdata : BitVec 64) (m : Mem) : Mem :=
  let m := store64 m pcb (stack + .ofNat 64 stackSize)
  let m := store64 m pcb (load64 m pcb - 256)
  let stackdata := load64 m pcb
  let m := memcpy (stackdata + 0xF0) (localBytes miTaskStartup) 8 m
  let m := memcpy (stackdata + 0x00) (localBytes entryFn) 8 m
  memcpy (stackdata + 0x08) (localBytes userdata) 8 m

variable {miTaskStartup pcb stack entryFn userdata : BitVec 64} {m : Mem} {a : Addr}

/-! ## The forged frame -/

/-- The first stack pointer of the task, below its frame. -/
def frameBase (stack : BitVec 64) : BitVec 64 := stack + .ofNat 64 stackSize - 256

/-- What `md_init_new_task_pcb` puts into the frame. -/
def newTaskSlots (miTaskStartup entryFn userdata : BitVec 64) : List Slot :=
  [(0xF0, miTaskStartup), (0x00, entryFn), (0x08, userdata)]

theorem newTaskSlots_layout :
    Layout 256 ((newTaskSlots miTaskStartup entryFn userdata).map Prod.fst) := by
  change Layout 256 [0xF0, 0x00, 0x08]
  exact ⟨by decide, by decide⟩

/-- The pcb gets the stack pointer and the frame its slots. -/
theorem mdInitNewTaskPcb_eq : mdInitNewTaskPcb miTaskStartup pcb stack entryFn userdata m =
    storeAll (frameBase stack) (newTaskSlots miTaskStartup entryFn userdata)
      (store64 m pcb (frameBase stack)) := by
  have hcopy : ∀ dest v m, memcpy dest (localBytes v) 8 m = store64 m dest v := memcpy_doubleword
  have htwice : ∀ v v', store64 (store64 m pcb v) pcb v' = store64 m pcb v' := by
    intro v v'
    funext b
    by_cases hb : b ∈ bytes pcb 8
    · exact (if_pos hb).trans (if_pos hb).symm
    · rw [store64_of_notMem hb, store64_of_notMem hb, store64_of_notMem hb]
  simp only [mdInitNewTaskPcb, hcopy, htwice, load64_store64]
  rfl

/-- **Frame**: only the stack pointer in the pcb and the top 256 bytes of the
stack are written. -/
theorem mdInitNewTaskPcb_of_notMem (hpcb : a ∉ bytes pcb 8)
    (hframe : a ∉ bytes (frameBase stack) 256) :
    mdInitNewTaskPcb miTaskStartup pcb stack entryFn userdata m a = m a := by
  rw [mdInitNewTaskPcb_eq, storeAll_of_notMem newTaskSlots_layout (by decide) hframe,
    store64_of_notMem hpcb]

/-- The top of the stack block. -/
theorem bytes_frameBase_subset : bytes (frameBase stack) 256 ⊆ bytes stack stackSize := by
  intro b hb
  rw [mem_bytes, frameBase, stackSize] at hb
  rw [mem_bytes, stackSize]
  bv_omega

/-- A doubleword of zero bytes. -/
theorem load64_eq_zero (h : ∀ b ∈ bytes a 8, m b = 0) : load64 m a = 0 := by
  rw [@load64_congr m (fun _ => 0) a h]
  simp only [load64]
  decide

/-- The slots of the frame that nothing is put into. -/
theorem switchFrame_apart : ∀ p ∈ switchFrame, p.1 ≠ 0 → p.1 ≠ 1 → p.1 ≠ 30 →
    ∀ i ∈ [0xF0, 0x00, 0x08], p.2 + 8 ≤ i ∨ i + 8 ≤ p.2 := by
  decide

/-! ## A new task is a saved task -/

/-- The registers with which a task starts. -/
def firstRegs (miTaskStartup entryFn userdata : BitVec 64) (r : Reg) : BitVec 64 :=
  if r = 0 then entryFn else if r = 1 then userdata else if r = 30 then miTaskStartup else 0

/-- The state of the call of `aarch64_switch` that the frame pretends. -/
def firstCall (miTaskStartup stack entryFn userdata : BitVec 64) (m : Mem) : Machine where
  x := firstRegs miTaskStartup entryFn userdata
  sp := stack + .ofNat 64 stackSize
  pc := 0
  sys _ := 0
  mem := m

variable {T : Type} {R : Regions T} {me : T}

/-- Every register has its slot: three that were written, the others zero
as the block was. -/
theorem load_switchFrame (hzero : ∀ b ∈ bytes stack stackSize, m b = 0)
    (hpcb : ∀ b ∈ bytes stack stackSize, b ∉ bytes pcb 8) {p : Reg × Nat} (hp : p ∈ switchFrame) :
    load64 (mdInitNewTaskPcb miTaskStartup pcb stack entryFn userdata m)
        (frameBase stack + .ofNat 64 p.2) =
      firstRegs miTaskStartup entryFn userdata p.1 := by
  have hslot : ∀ q ∈ newTaskSlots miTaskStartup entryFn userdata,
      load64 (mdInitNewTaskPcb miTaskStartup pcb stack entryFn userdata m)
        (frameBase stack + .ofNat 64 q.1) = q.2 := by
    intro q hq
    rw [mdInitNewTaskPcb_eq]
    exact load64_storeAll newTaskSlots_layout (by decide) hq
  have hoff := switchFrame_offset p hp
  by_cases h0 : p.1 = 0
  · rw [hoff, h0]
    exact hslot (0x00, entryFn) (by simp [newTaskSlots])
  by_cases h1 : p.1 = 1
  · rw [hoff, h1]
    exact hslot (0x08, userdata) (by simp [newTaskSlots])
  by_cases h30 : p.1 = 30
  · rw [hoff, h30]
    exact hslot (0xF0, miTaskStartup) (by simp [newTaskSlots])
  rw [firstRegs, if_neg h0, if_neg h1, if_neg h30]
  refine load64_eq_zero fun b hb => ?_
  have hinside := switchFrame_inside p hp
  have hblock := bytes_frameBase_subset (bytes_add_subset hinside (by decide) hb)
  have hfree : ∀ q ∈ newTaskSlots miTaskStartup entryFn userdata,
      b ∉ bytes (frameBase stack + .ofNat 64 q.1) 8 := by
    intro q hq
    have hq' := List.mem_map_of_mem (f := Prod.fst) hq
    have hqin := newTaskSlots_layout.inside q.1 hq'
    have hapart := switchFrame_apart p hp h0 h1 h30 q.1 hq'
    exact notMem_bytes_add hapart (by omega) (by omega) hb
  rw [mdInitNewTaskPcb_eq, storeAll_apart hfree, store64_of_notMem (hpcb b hblock), hzero b hblock]

/-- **A new task is saved**, as if it had called `aarch64_switch`. -/
theorem saved_firstCall (miTaskStartup entryFn userdata : BitVec 64)
    (hstack : bytes stack stackSize ⊆ R.stack me)
    (hzero : ∀ b ∈ bytes stack stackSize, m b = 0) :
    Saved R me (firstCall miTaskStartup stack entryFn userdata
        (mdInitNewTaskPcb miTaskStartup (R.pcb me) stack entryFn userdata m))
      (mdInitNewTaskPcb miTaskStartup (R.pcb me) stack entryFn userdata m) where
  room := bytes_frameBase_subset.trans hstack
  pcb := by
    have hkeep : ∀ b ∈ bytes (R.pcb me) 8,
        mdInitNewTaskPcb miTaskStartup (R.pcb me) stack entryFn userdata m b =
          store64 m (R.pcb me) (frameBase stack) b := by
      intro b hb
      rw [mdInitNewTaskPcb_eq]
      refine storeAll_of_notMem newTaskSlots_layout (by decide) fun hframe => ?_
      exact R.stack_pcb b (hstack (bytes_frameBase_subset hframe)) hb
    rw [load64_congr hkeep, load64_store64]
    rfl
  frame p hp := load_switchFrame hzero (fun b hb => R.stack_pcb b (hstack hb)) hp
  rest _ _ _ := rfl

/-- **The frame fits the switch.**  `md_init_new_task_pcb` writes the stack
pointer in the pcb and the top 256 bytes of the stack.  Whatever other tasks
do then, the first switch to the task continues at `mi_task_startup` with its
two arguments, an empty aligned stack and zeroes in `x2` to `x29`. -/
theorem newTask_starts (R : Regions T) (me : T) (miTaskStartup : BitVec 64) :
    (∀ pcb stack entryFn userdata m, ∀ a ∉ bytes pcb 8,
      a ∉ bytes (stack + .ofNat 64 stackSize - 256) 256 →
      mdInitNewTaskPcb miTaskStartup pcb stack entryFn userdata m a = m a) ∧
    ∀ stack entryFn userdata m, stack.toNat % 16 = 0 → bytes stack stackSize ⊆ R.stack me →
      (∀ a ∈ bytes stack stackSize, m a = 0) → ∀ u v s s',
      s.mem = mdInitNewTaskPcb miTaskStartup (R.pcb me) stack entryFn userdata m →
      ReflTransGen (Others R me) (u, s) (v, s') → v ≠ me → Calls R v me s' →
      (exec aarch64Switch s').pc = miTaskStartup ∧
        (exec aarch64Switch s').x 0 = entryFn ∧ (exec aarch64Switch s').x 1 = userdata ∧
        (exec aarch64Switch s').sp = stack + .ofNat 64 stackSize ∧
        (exec aarch64Switch s').sp.toNat % 16 = 0 ∧
        ∀ r : Reg, 2 ≤ r.val → r.val ≤ 29 → (exec aarch64Switch s').x r = 0 := by
  refine ⟨fun pcb stack entryFn userdata m a hpcb hframe => mdInitNewTaskPcb_of_notMem hpcb hframe,
    fun stack entryFn userdata m halign hstack hzero u v s s' hs hothers hv hcall => ?_⟩
  have hsaved := (saved_firstCall miTaskStartup entryFn userdata hstack hzero).run hs hothers
  obtain ⟨hx, hsp, hpc⟩ := (hsaved.congr fun a ha => hcall.mem_of_ne hv ha).returned hcall.new
  rw [hx, hsp, hpc]
  refine ⟨rfl, rfl, rfl, rfl, ?_, fun r h2 h29 => ?_⟩
  · change (stack + 4096).toNat % 16 = 0
    bv_omega
  · have hne : ∀ q : Reg, q.val < 2 ∨ 29 < q.val → r ≠ q := by
      rintro q hq rfl
      omega
    change firstRegs miTaskStartup entryFn userdata r = 0
    rw [firstRegs, if_neg (hne 0 (by decide)), if_neg (hne 1 (by decide)),
      if_neg (hne 30 (by decide))]

/-- The first of two tasks starts the second one. -/
theorem newTask_starts_twoTasks :
    (exec aarch64Switch ({ interrupted with
        mem := mdInitNewTaskPcb 0x90000 0x5008 0x3000 0x80000 7 fun _ => 0 }.calling
      0x5000 0x5008 0x1E00)).pc = 0x90000 :=
  ((newTask_starts twoTasks true 0x90000).2 0x3000 0x80000 7 (fun _ => 0) (by decide)
    (fun _ ha => ha) (fun _ _ => rfl) false false _ _ rfl .refl Bool.noConfusion
    (twoTasks_calls _)).1

end TeachingOs.Arch
