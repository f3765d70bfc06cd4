import TeachingOs.Irq.Install
import TeachingOs.Mem.Kzalloc
import TeachingOs.Mmu.FrameLists
import TeachingOs.Task.Invariant

/-!
# TeachingOs.Fatal.Early

Errors during the boot sequence of `kern/main/main.c`: `mmu_init`,
`irq_init`, `task_bootstrap` and `load_devices`.

Both ways into the error path go through the running task.  `panic` calls
`splhigh`, which stores to `curtask->spl`, and `aarch64_trapentry` loads
from there first.  `curtask` is NULL until the last statement of
`task_bootstrap`, and from then on it never is, not even after interrupts
that switch tasks: `errorPath_isSome_iff`.  Before it only `mmu_init`
panics (`panic_errorPath_iff`), for want of memory for page tables, but
exceptions are enabled all along.
-/

namespace TeachingOs.Fatal

open ByteMem

/-! ## The error path -/

section ErrorPath

variable {T : Type} [DecidableEq T]

/-- `splhigh`; `none` when it accesses a null task. -/
def splhigh (k : Kernel T) : Option (Int × Kernel T) := do
  let result := k.curspl
  let k := { k with masked := true, curspl := 1 }
  let t ← k.curtask
  return (result, { k with heap := k.heap.setSpl (some t) 1 })

/-- `aarch64_trapentry` before it looks at the trap frame, giving `oldspl`;
`none` when it accesses a null task. -/
def aarch64Trapentry (k : Kernel T) : Option (Int × Kernel T) := do
  -- the processor has turned off interrupts
  let k := { k with masked := true }
  let t ← k.curtask
  let oldspl := (k.heap.task t).spl
  return (oldspl, { k with heap := k.heap.setSpl (some t) 1, curspl := 1 })

/-- What ends in the error path. -/
inductive Fault where
  | panic (p : Panic)
  | exception
deriving DecidableEq, Repr

/-- The error path up to where it prints. -/
def Fault.errorPath : Fault → Kernel T → Option (Kernel T)
  | .panic _, k => (splhigh k).map (·.2)
  | .exception, k => (aarch64Trapentry k).map (·.2)

/-- An interrupt of `k` has come as far as `k'`, with or without
`preempt_fire`. -/
def InHandler (k k' : Kernel T) : Prop :=
  ∃ r n, k.masked = false ∧ aarch64Trapentry k = some r ∧
    (steps n { r.2 with stack := .trap r.1 :: k.stack } = .ok k' ∨
      steps n (callSwitch .ready { r.2 with stack := .trap r.1 :: k.stack }) = .ok k')

end ErrorPath

/-! ## The boot sequence -/

/-- The linked image and what memory holds when `main` is entered; function
pointers are words. -/
structure Image where
  layout : KernelLayout
  bumpHeap : Mem.BumpHeap
  physMem : PhysMem
  ram : LinkedList.Heap FramePtr
  bytes : ByteMem.Mem
  el1TimerIrq : Word

/-- What the boot sequence sets up.  `kmain` is the local variable of
`task_bootstrap`, `devices` the class and name of each `INSTALL_DEVICE`, the
latest first. -/
structure BootState where
  mmu : KernelMmu
  heap : Mem.Heap
  irqMap : Irq.IrqMap
  kmain : Addr
  kernel : Kernel Addr
  gic : Irq.Gic400
  devices : List (String × String)

/-- The statics when `main` is entered.  `boot.S` has enabled exceptions. -/
def Image.start (img : Image) : BootState where
  mmu := bootState img.physMem img.ram
  heap := img.bumpHeap.boot img.bytes
  irqMap := ⟨fun _ => .zero, 0, 0, 0⟩
  kmain := 0
  kernel :=
    { heap := ⟨fun _ => ⟨none, none, none, .ready, 0⟩, fun _ => ⟨none, none⟩⟩
      curtask := none, curspl := 0, masked := false, stack := [] }
  gic := ⟨0, ⟨fun _ => 0, 0⟩, [], []⟩
  devices := []

/-- The statements of the boot sequence. -/
inductive BootStmt where
  | mmuInit
  | irqInit
  | kzallocKmain
  | initKmain
  | setCurtask
  | miniuartInit
  | gic400Init
  | gic400InstallPpi
  | wdogInit
  | el1TimerSetup
deriving DecidableEq, Repr

/-- `task_bootstrap`. -/
def taskBootstrapBody : List BootStmt := [.kzallocKmain, .initKmain, .setCurtask]

/-- `load_devices`. -/
def loadDevices : List BootStmt :=
  [.miniuartInit, .gic400Init, .gic400InstallPpi, .wdogInit, .el1TimerSetup]

/-- The boot sequence of `main`. -/
def mainBody : List BootStmt := [.mmuInit, .irqInit] ++ taskBootstrapBody ++ loadDevices

/-- A pointer as the scheduler has it. -/
def ptr (a : Addr) : Option Addr := if a = 0 then none else some a

/-- `sizeof(struct irq_map_entry)` and `sizeof(struct task)`. -/
def sizeofIrqMapEntry : Word := 24
def sizeofTask : Word := 40

/-- `kzalloc` of `n` entries of an interrupt table. -/
def irqHeap (s : Mem.Heap) : Irq.Heap := fun n =>
  let r := Mem.kzalloc (BitVec.ofNat 64 n * sizeofIrqMapEntry) s
  if r.1 = 0 then none
  else some fun i =>
    let entry := r.1 + BitVec.ofNat 64 i * sizeofIrqMapEntry
    ⟨(load64 r.2.mem entry).toNat, load64 r.2.mem (entry + 8), load64 r.2.mem (entry + 16)⟩

/-- `kzalloc` of a table of words. -/
def wordHeap (s : Mem.Heap) : Irq.WordHeap := fun size =>
  let r := Mem.kzalloc size s
  if r.1 = 0 then none
  else some fun i => (load64 r.2.mem (r.1 + BitVec.ofNat 64 i * 8)).toNat

/-- The heap after `irq_register`, which allocates when it rehashes. -/
def irqRegisterHeap (m : Irq.IrqMap) (s : Mem.Heap) : Mem.Heap :=
  if (m.used + 1) * 2 ≥ m.allocated then
    (Mem.kzalloc (BitVec.ofNat 64 (Irq.newAlloc m.allocated) * sizeofIrqMapEntry) s).2
  else s

/-- `IRQ_EL1_PHYSICAL_TIMER`. -/
def irqEl1PhysicalTimer : Nat := 2

/-- One statement. -/
def BootStmt.exec (img : Image) (memoryMap : PhysicalMemoryMap) (s : BootState) :
    BootStmt → Except Panic BootState
  | .mmuInit => do
    let mmu ← TeachingOs.mmuInit img.layout memoryMap s.mmu
    return { s with mmu }
  | .irqInit => do
    let irqMap ← Irq.irqInit (irqHeap s.heap)
    return { s with irqMap, heap := (Mem.kzalloc (8 * sizeofIrqMapEntry) s.heap).2 }
  | .kzallocKmain =>
    let r := Mem.kzalloc sizeofTask s.heap
    .ok { s with kmain := r.1, heap := r.2 }
  | .initKmain =>
    let task := Function.update s.kernel.heap.task s.kmain ⟨none, none, none, .running, 0⟩
    .ok { s with kernel.heap.task := task }
  | .setCurtask => .ok { s with kernel.curtask := ptr s.kmain }
  | .miniuartInit =>
    .ok { s with
      devices := ("con_vt100", "miniuart") :: ("console", "con_vt100") :: s.devices }
  | .gic400Init => do
    let totalGicIrqs := 32 + 96
    let gic ← Irq.gic400Init (wordHeap s.heap) (0x40000000 + (0xFF840000 - 0xC0000000)) totalGicIrqs
    return { s with
      gic, heap := (Mem.kzalloc (totalGicIrqs * 8) s.heap).2
      devices := ("intc", "aarch64_gic_400") :: s.devices }
  | .gic400InstallPpi =>
    .ok { s with
      gic := Irq.gic400InstallPpi s.gic 30 (BitVec.ofNat 64 irqEl1PhysicalTimer) }
  | .wdogInit => .ok { s with devices := ("power", "bcm2711_watchdog") :: s.devices }
  | .el1TimerSetup => do
    let irqMap ← Irq.irqRegister (irqHeap s.heap) s.irqMap irqEl1PhysicalTimer img.el1TimerIrq 0
    return { s with
      irqMap, heap := irqRegisterHeap s.irqMap s.heap
      devices := ("preempt", "aarch64_el1_pns_timer") :: s.devices }

section Boot

variable (img : Image) (memoryMap : PhysicalMemoryMap)

/-- The points of the boot sequence: the statements to come and the state. -/
inductive Booting : List BootStmt → BootState → Prop where
  | start : Booting mainBody img.start
  | stmt {st : BootStmt} {rest : List BootStmt} {s s' : BootState} (h : Booting (st :: rest) s)
      (hs : st.exec img memoryMap s = .ok s') : Booting rest s'
  | interrupt {rest : List BootStmt} {s : BootState} {kernel : Kernel Addr}
      (h : Booting rest s) (hk : InHandler s.kernel kernel)
      (hstack : kernel.stack = s.kernel.stack) : Booting rest { s with kernel }

/-- What may be raised at a point, and the scheduler's state there: the
panic that a statement ends in, which has not touched that state, an
exception, and either of them in the handler of an interrupt. -/
inductive Raises : List BootStmt → BootState → Fault → Kernel Addr → Prop where
  | panic {st : BootStmt} {rest : List BootStmt} {s : BootState} {p : Panic}
      (h : st.exec img memoryMap s = .error p) : Raises (st :: rest) s (.panic p) s.kernel
  | exception (rest : List BootStmt) (s : BootState) : Raises rest s .exception s.kernel
  | handlerPanic {rest : List BootStmt} {s : BootState} {k : Kernel Addr} {p : Panic}
      (h : InHandler s.kernel k) (hp : step k = .error p) : Raises rest s (.panic p) k
  | handlerException {rest : List BootStmt} {s : BootState} {k : Kernel Addr}
      (h : InHandler s.kernel k) : Raises rest s .exception k

end Boot

/-! ## A running task stays a running task -/

section CurtaskSet

variable {T : Type} [DecidableEq T] {k k' : Kernel T} {n : Nat} {s : List (Activation T)}

/-- What a control stack is about to make the running task is not NULL. -/
def NextSet : Activation T → Prop
  | .masked next _ => next ≠ none
  | _ => True

/-- `curtask` is not NULL, and no control stack will make it NULL. -/
structure CurtaskSet (k : Kernel T) : Prop where
  curtask : k.curtask ≠ none
  stack : ∀ a ∈ k.stack, NextSet a
  saved : ∀ t s, (k.heap.task t).pcb = some s → ∀ a ∈ s, NextSet a

omit [DecidableEq T] in
/-- One statement that changes links and levels only. -/
theorem CurtaskSet.move (h : CurtaskSet k) {k' : Kernel T} (hcur : k'.curtask ≠ none)
    (hstack : ∀ a ∈ k'.stack, NextSet a)
    (hpcb : ∀ t, (k'.heap.task t).pcb = (k.heap.task t).pcb) : CurtaskSet k' :=
  ⟨hcur, hstack, fun t s hs => h.saved t s (hpcb t ▸ hs)⟩

omit [DecidableEq T] in
theorem forall_nextSet_cons {a : Activation T} :
    (∀ b ∈ a :: s, NextSet b) ↔ NextSet a ∧ ∀ b ∈ s, NextSet b := List.forall_mem_cons

/-- `md_switch` exchanges one control stack for another. -/
theorem CurtaskSet.mdSwitch (h : CurtaskSet k) (prev next : Option T) :
    CurtaskSet (mdSwitch prev next k) := by
  have hsaved : ∀ t s, ((k.heap.setPcb prev k.stack).task t).pcb = some s →
      ∀ a ∈ s, NextSet a := by
    intro t s hs
    cases prev with
    | none => exact h.saved t s hs
    | some u =>
        by_cases hut : t = u
        · subst hut
          rw [TaskHeap.pcb_setPcb_self, Option.some.injEq] at hs
          exact hs ▸ h.stack
        · rw [TaskHeap.pcb_setPcb_of_ne _ _ hut] at hs
          exact h.saved t s hs
  refine ⟨h.curtask, ?_, hsaved⟩
  cases hctx : next.bind fun t => ((k.heap.setPcb prev k.stack).task t).pcb with
  | none => simp [TeachingOs.mdSwitch, TaskHeap.context, hctx, NextSet]
  | some s =>
      obtain ⟨t, -, hs⟩ := Option.bind_eq_some_iff.mp hctx
      simpa [TeachingOs.mdSwitch, TaskHeap.context, hctx] using hsaved t s hs

/-- One statement keeps it. -/
theorem CurtaskSet.step (h : CurtaskSet k) (hstep : step k = .ok k') : CurtaskSet k' := by
  have hstack := h.stack
  unfold TeachingOs.step at hstep
  cases hs : k.stack with
  | nil =>
      rw [hs] at hstep
      cases hstep
      exact h
  | cons a s =>
      rw [hs] at hstep hstack
      have hrest := (forall_nextSet_cons.mp hstack).2
      cases a with
      | entry into =>
          cases hstep
          exact h.move h.curtask (forall_nextSet_cons.mpr ⟨trivial, hrest⟩) fun t => rfl
      | chosen into next =>
          simp only [bind_eq_ok, pure_eq_ok, Except.ok.injEq] at hstep
          obtain ⟨-, -, list, -, heap, hmove, rfl⟩ := hstep
          exact h.move h.curtask (forall_nextSet_cons.mpr ⟨trivial, hrest⟩)
            fun t => pcb_of_info (info_taskListMoveTail hmove) t
      | enqueued next =>
          cases hstep
          refine h.move h.curtask (forall_nextSet_cons.mpr ⟨?_, hrest⟩) fun t => by simp
          show (if next = none then k.curtask else next) ≠ none
          split
          · exact h.curtask
          · assumption
      | masked next spl =>
          simp only [bind_eq_ok, pure_eq_ok, Except.ok.injEq] at hstep
          obtain ⟨heap, hunlink, rfl⟩ := hstep
          exact h.move (forall_nextSet_cons.mp hstack).1
            (forall_nextSet_cons.mpr ⟨trivial, hrest⟩)
            fun t => pcb_of_info (info_taskUnlinkFrom hunlink) t
      | dispatched prev spl =>
          cases hstep
          have hk : CurtaskSet { k with stack := .switched spl :: s } :=
            h.move h.curtask (forall_nextSet_cons.mpr ⟨trivial, hrest⟩) fun t => rfl
          exact hk.mdSwitch prev k.curtask
      | switched spl =>
          cases hstep
          exact h.move (curtask_splx spl k ▸ h.curtask) hrest (pcb_splx spl k)
      | startup fn userdata =>
          cases hstep
          exact h.move h.curtask hrest fun t => by simp [spl0]
      | trap oldspl =>
          cases hstep
          exact h.move h.curtask hrest fun t => by simp
      | lost =>
          cases hstep
          exact h

theorem CurtaskSet.steps (h : CurtaskSet k) (hsteps : steps n k = .ok k') : CurtaskSet k' := by
  induction n generalizing k with
  | zero => exact Except.ok.inj hsteps ▸ h
  | succ n ih =>
      obtain ⟨k₁, hstep, hsteps⟩ := bind_eq_ok.mp hsteps
      exact ih (h.step hstep) hsteps

/-- With a running task these are the functions of the scheduler's model. -/
theorem splhigh_eq {t : T} (h : k.curtask = some t) : splhigh k = some (TeachingOs.splhigh k) := by
  simp [splhigh, TeachingOs.splhigh, h]

theorem irq_eq {r : Int × Kernel T} (h : aarch64Trapentry k = some r) :
    irq k = callSwitch .ready { r.2 with stack := .trap r.1 :: k.stack } := by
  cases hcur : k.curtask with
  | none => simp [aarch64Trapentry, hcur] at h
  | some t =>
      simp only [aarch64Trapentry, hcur, Option.pure_def, Option.bind_eq_bind, Option.bind_some,
        Option.some.injEq] at h
      subst h
      simp [irq, hcur]

/-- The error path accesses the running task and no other. -/
theorem Fault.isSome_errorPath (f : Fault) (k : Kernel T) :
    (f.errorPath k).isSome ↔ k.curtask ≠ none := by
  cases f <;> cases hcur : k.curtask <;> simp [errorPath, splhigh, aarch64Trapentry, hcur]

theorem InHandler.curtask_ne_none (h : InHandler k k') : k.curtask ≠ none := by
  obtain ⟨r, n, -, htrap, -⟩ := h
  have hpath : (Fault.exception.errorPath k).isSome := by simp [Fault.errorPath, htrap]
  exact (Fault.isSome_errorPath .exception k).mp hpath

/-- An interrupt leaves a running task, wherever its handler is. -/
theorem CurtaskSet.inHandler (h : CurtaskSet k) (hk : InHandler k k') : CurtaskSet k' := by
  obtain ⟨r, n, -, htrap, hsteps⟩ := hk
  obtain ⟨t, ht⟩ := Option.ne_none_iff_exists'.mp h.curtask
  simp only [aarch64Trapentry, ht, Option.pure_def, Option.bind_eq_bind, Option.bind_some,
    Option.some.injEq] at htrap
  have hentered : CurtaskSet { r.2 with stack := .trap r.1 :: k.stack } := by
    subst htrap
    exact h.move (Option.some_ne_none t) (forall_nextSet_cons.mpr ⟨trivial, h.stack⟩)
      fun u => by simp
  rcases hsteps with hsteps | hsteps
  · exact hentered.steps hsteps
  · have hcalled : CurtaskSet (callSwitch .ready { r.2 with stack := .trap r.1 :: k.stack }) :=
      hentered.move hentered.curtask (forall_nextSet_cons.mpr ⟨trivial, hentered.stack⟩)
        fun u => rfl
    exact hcalled.steps hsteps

end CurtaskSet

/-! ## The points of the boot sequence -/

/-- The three statements are `task_bootstrap` of the scheduler's model. -/
theorem exec_taskBootstrapBody (img : Image) (memoryMap : PhysicalMemoryMap) (s : BootState)
    (h : (Mem.kzalloc sizeofTask s.heap).1 ≠ 0) :
    taskBootstrapBody.foldlM (BootStmt.exec img memoryMap) s = .ok { s with
      kmain := (Mem.kzalloc sizeofTask s.heap).1
      heap := (Mem.kzalloc sizeofTask s.heap).2
      kernel := taskBootstrap (Mem.kzalloc sizeofTask s.heap).1 s.kernel } := by
  simp only [taskBootstrapBody, List.foldlM_cons, List.foldlM_nil, BootStmt.exec, ok_bind,
    pure_eq_ok, taskBootstrap, ptr, if_neg h]

/-- The scheduler before `task_bootstrap` is through. -/
structure NoTask (k : Kernel Addr) : Prop where
  curtask : k.curtask = none
  stack : k.stack = []
  saved : ∀ t, (k.heap.task t).pcb = none

/-- `task_bootstrap` ends with a running task. -/
theorem NoTask.setCurtask {k : Kernel Addr} (h : NoTask k) {kmain : Addr} (hkmain : kmain ≠ 0) :
    CurtaskSet { k with curtask := ptr kmain } := by
  refine ⟨?_, ?_, ?_⟩
  · rw [ptr, if_neg hkmain]
    exact Option.some_ne_none kmain
  · simp [h.stack]
  · intro t s hs
    rw [h.saved t] at hs
    cases hs

section Points

variable {img : Image} {memoryMap : PhysicalMemoryMap} {st : BootStmt} {rest : List BootStmt}
  {s s' : BootState} {f : Fault} {k : Kernel Addr} {p : Panic}

/-- What holds at each point: no task and room in the heap, then a block for
the task, then a running task. -/
inductive BootInv (img : Image) : List BootStmt → BootState → Prop where
  | mmuInit {s : BootState} (hk : NoTask s.kernel) (hu : img.bumpHeap.Used 0 s.heap)
      (hmmu : s.mmu = img.start.mmu) :
      BootInv img
        (.mmuInit :: .irqInit :: .kzallocKmain :: .initKmain :: .setCurtask :: loadDevices) s
  | irqInit {s : BootState} (hk : NoTask s.kernel) (hu : img.bumpHeap.Used 0 s.heap) :
      BootInv img (.irqInit :: .kzallocKmain :: .initKmain :: .setCurtask :: loadDevices) s
  | kzallocKmain {s : BootState} (hk : NoTask s.kernel) (hu : img.bumpHeap.Used 192 s.heap) :
      BootInv img (.kzallocKmain :: .initKmain :: .setCurtask :: loadDevices) s
  | initKmain {s : BootState} (hk : NoTask s.kernel) (hkmain : s.kmain ≠ 0) :
      BootInv img (.initKmain :: .setCurtask :: loadDevices) s
  | setCurtask {s : BootState} (hk : NoTask s.kernel) (hkmain : s.kmain ≠ 0) :
      BootInv img (.setCurtask :: loadDevices) s
  | loadDevices {rest : List BootStmt} {s : BootState} (hrest : rest <:+ Fatal.loadDevices)
      (hk : CurtaskSet s.kernel) : BootInv img rest s

theorem BootInv.start (img : Image) : BootInv img mainBody img.start :=
  .mmuInit ⟨rfl, rfl, fun _ => rfl⟩ (img.bumpHeap.used_boot img.bytes) rfl

/-- The devices do not touch the scheduler. -/
theorem kernel_exec_loadDevices (hst : st ∈ loadDevices) (h : st.exec img memoryMap s = .ok s') :
    s'.kernel = s.kernel := by
  simp only [loadDevices, List.mem_cons, List.not_mem_nil, or_false] at hst
  rcases hst with rfl | rfl | rfl | rfl | rfl
  · cases h
    rfl
  · simp only [BootStmt.exec, bind_eq_ok, pure_eq_ok, Except.ok.injEq] at h
    obtain ⟨gic, -, rfl⟩ := h
    rfl
  · cases h
    rfl
  · cases h
    rfl
  · simp only [BootStmt.exec, bind_eq_ok, pure_eq_ok, Except.ok.injEq] at h
    obtain ⟨irqMap, -, rfl⟩ := h
    rfl

theorem ne_of_suffix_loadDevices {st' : BootStmt} (h : st :: rest <:+ loadDevices)
    (hst : st' ∉ loadDevices) : st ≠ st' := by
  rintro rfl
  exact hst (h.subset List.mem_cons_self)

theorem BootInv.stmt (h : BootInv img (st :: rest) s) (hs : st.exec img memoryMap s = .ok s') :
    BootInv img rest s' := by
  cases h with
  | mmuInit hk hu =>
      simp only [BootStmt.exec, bind_eq_ok, pure_eq_ok, Except.ok.injEq] at hs
      obtain ⟨mmu, -, rfl⟩ := hs
      exact .irqInit hk hu
  | irqInit hk hu =>
      simp only [BootStmt.exec, bind_eq_ok, pure_eq_ok, Except.ok.injEq] at hs
      obtain ⟨irqMap, -, rfl⟩ := hs
      have hfit : 0 + Mem.roundUp (8 * sizeofIrqMapEntry) ≤ Mem.bumpHeapSize := by decide
      exact .kzallocKmain hk (hu.kzalloc hfit)
  | kzallocKmain hk hu =>
      cases hs
      exact .initKmain hk hu.heapNext_ne_zero
  | initKmain hk hkmain =>
      cases hs
      refine .setCurtask ⟨hk.curtask, hk.stack, fun t => ?_⟩ hkmain
      show (Function.update s.kernel.heap.task s.kmain _ t).pcb = none
      by_cases ht : t = s.kmain
      · rw [ht, Function.update_self]
      · rw [Function.update_of_ne ht, hk.saved]
  | setCurtask hk hkmain =>
      cases hs
      exact .loadDevices (List.suffix_refl _) (hk.setCurtask hkmain)
  | loadDevices hrest hk =>
      have hst : st ∈ Fatal.loadDevices := hrest.subset List.mem_cons_self
      refine .loadDevices ((List.suffix_cons st rest).trans hrest) ?_
      rw [kernel_exec_loadDevices hst hs]
      exact hk

theorem Booting.inv (h : Booting img memoryMap rest s) : BootInv img rest s := by
  induction h with
  | start => exact .start img
  | stmt _ hs ih => exact ih.stmt hs
  | interrupt _ hk _ ih =>
      have hcur := hk.curtask_ne_none
      cases ih with
      | mmuInit hk' | irqInit hk' | kzallocKmain hk' | initKmain hk' | setCurtask hk' =>
          exact absurd hk'.curtask hcur
      | loadDevices hrest hk' => exact .loadDevices hrest (hk'.inHandler hk)

/-- The store to `curtask` makes the difference. -/
theorem BootInv.cases_setCurtask (h : BootInv img rest s) :
    (.setCurtask ∈ rest ∧ s.kernel.curtask = none) ∨
      (.setCurtask ∉ rest ∧ CurtaskSet s.kernel) := by
  cases h with
  | mmuInit hk | irqInit hk | kzallocKmain hk | initKmain hk | setCurtask hk =>
      exact .inl ⟨by simp, hk.curtask⟩
  | loadDevices hrest hk =>
      refine .inr ⟨fun hmem => ?_, hk⟩
      have hdev : BootStmt.setCurtask ∈ Fatal.loadDevices := hrest.subset hmem
      exact absurd hdev (by decide)

/-- **The early error path**: for every memory map, every point of the boot
sequence and every panic and exception there, the path to the message
accesses no null task exactly if `task_bootstrap` has set `curtask`. -/
theorem errorPath_isSome_iff (h : Booting img memoryMap rest s)
    (hf : Raises img memoryMap rest s f k) :
    (f.errorPath k).isSome ↔ .setCurtask ∉ rest := by
  rw [f.isSome_errorPath]
  rcases h.inv.cases_setCurtask with ⟨hmem, hcur⟩ | ⟨hmem, hset⟩
  · refine iff_of_false (fun hne => ?_) (not_not_intro hmem)
    cases hf with
    | panic | exception => exact hne hcur
    | handlerPanic hk _ | handlerException hk => exact hk.curtask_ne_none hcur
  · refine iff_of_true ?_ hmem
    cases hf with
    | panic | exception => exact hset.curtask
    | handlerPanic hk _ | handlerException hk => exact (hset.inHandler hk).curtask

/-! ## Panics before there is a task -/

/-- `irq_init` cannot fail: the heap is not used up. -/
theorem exec_irqInit_ok (img : Image) (memoryMap : PhysicalMemoryMap) {used : Nat}
    (hu : img.bumpHeap.Used used s.heap) :
    ∃ s', BootStmt.irqInit.exec img memoryMap s = .ok s' := by
  have hheap : (Mem.kzalloc (BitVec.ofNat 64 8 * sizeofIrqMapEntry) s.heap).1 ≠ 0 :=
    hu.heapNext_ne_zero
  simp only [BootStmt.exec, Irq.irqInit, Irq.kzallocOrDie, irqHeap, if_neg hheap, ok_bind,
    pure_eq_ok]
  exact ⟨_, rfl⟩

/-- The panics that come too early are those of `mmu_init`. -/
theorem panic_errorPath_iff (h : Booting img memoryMap (st :: rest) s)
    (hp : st.exec img memoryMap s = .error p) :
    ((Fault.panic p).errorPath s.kernel).isSome ↔ st ≠ .mmuInit := by
  rw [Fault.isSome_errorPath]
  cases h.inv with
  | mmuInit hk => exact iff_of_false (not_not_intro hk.curtask) (not_not_intro rfl)
  | irqInit hk hu =>
      obtain ⟨s', hs'⟩ := exec_irqInit_ok img memoryMap hu
      rw [hs'] at hp
      cases hp
  | kzallocKmain | initKmain | setCurtask => cases hp
  | loadDevices hrest hk =>
      exact iff_of_true hk.curtask (ne_of_suffix_loadDevices hrest (by decide))

/-- On a memory map every panic gets to its message exactly if `mmu_init`
returns. -/
theorem panics_safe_iff (img : Image) (memoryMap : PhysicalMemoryMap) :
    (∀ st rest s p, Booting img memoryMap (st :: rest) s → st.exec img memoryMap s = .error p →
      ((Fault.panic p).errorPath s.kernel).isSome) ↔
    ∃ mmu, mmuInit img.layout memoryMap img.start.mmu = .ok mmu := by
  constructor
  · intro hsafe
    cases hmmu : mmuInit img.layout memoryMap img.start.mmu with
    | ok mmu => exact ⟨mmu, rfl⟩
    | error p =>
        have hexec : BootStmt.mmuInit.exec img memoryMap img.start = .error p := by
          simp only [BootStmt.exec, hmmu, error_bind]
        have hpath := hsafe _ _ _ p .start hexec
        exact absurd rfl ((panic_errorPath_iff .start hexec).mp hpath)
  · rintro ⟨mmu, hmmu⟩ st rest s p h hp
    refine (panic_errorPath_iff h hp).mpr ?_
    rintro rfl
    cases h.inv with
    | mmuInit _ _ hstart =>
        simp only [BootStmt.exec, hstart, hmmu, ok_bind, pure_eq_ok] at hp
        cases hp
    | loadDevices hrest _ => exact absurd rfl (ne_of_suffix_loadDevices hrest (by decide))

/-- If `mmu_init` returns, the boot sequence gets to `load_devices`. -/
theorem booting_loadDevices {mmu : KernelMmu}
    (h : mmuInit img.layout memoryMap img.start.mmu = .ok mmu) :
    ∃ s, Booting img memoryMap loadDevices s := by
  have hmmu : BootStmt.mmuInit.exec img memoryMap img.start = .ok { img.start with mmu } := by
    simp only [BootStmt.exec, h, ok_bind, pure_eq_ok]
  have hirq := Booting.start.stmt hmmu
  have hused : img.bumpHeap.Used 0 { img.start with mmu }.heap :=
    img.bumpHeap.used_boot img.bytes
  obtain ⟨s, hs⟩ := exec_irqInit_ok img memoryMap hused
  exact ⟨_, (((hirq.stmt hs).stmt rfl).stmt rfl).stmt rfl⟩

/-- A memory map without a page for the root table. -/
theorem mmuInit_no_page {layout : KernelLayout} {m : KernelMmu}
    (h : earlyCandidate (layout.kernEnd - PAGE_SIZE - KERNEL_VIRTUAL_BASE + 4096)
      memoryMap.areas = none) :
    mmuInit layout memoryMap m =
      .error (.message "aarch64 mmu: could not allocate early physical frames") := by
  simp only [mmuInit, initTables, allocatePageTable, h, error_bind]

end Points

/-! ## On the Raspberry Pi -/

/-- The image of `rpiLayout`, with `bump_heap` in its data. -/
def rpiImage : Image where
  layout := rpiLayout
  bumpHeap := ⟨0xFFFF000000190000, by decide, by decide, by decide⟩
  physMem := fun _ => 0
  ram := fun _ => ⟨.null, .null⟩
  bytes := fun _ => 0
  el1TimerIrq := 0xFFFF000000186000

/-- On the gigabyte that `aarch64_boot` passes, an exception in
`load_devices` is reported. -/
theorem errorPath_isSome_rpi :
    ∃ s, Booting rpiImage ⟨[⟨0, 0x40000000⟩]⟩ loadDevices s ∧
      (Fault.exception.errorPath s.kernel).isSome := by
  have hend : (0x40000000 : Word).toNat ≤ 2 ^ 48 := by decide
  obtain ⟨mmu, hmmu⟩ := @mmuInit_ok rpiLayout 0x40000000 rpiImage.physMem rpiImage.ram hend
    (fun _ _ => rfl) rpiLayout_room
  obtain ⟨s, hs⟩ := @booting_loadDevices rpiImage _ _ hmmu
  exact ⟨s, hs, (errorPath_isSome_iff hs (.exception loadDevices s)).mpr (by decide)⟩

/-- When memory ends with the kernel image, the panic of
`allocate_page_table` accesses a null task. -/
theorem early_panic_null_task :
    ¬ ∀ rest s f k, Booting rpiImage ⟨[⟨0, 0x1A1000⟩]⟩ rest s →
      Raises rpiImage ⟨[⟨0, 0x1A1000⟩]⟩ rest s f k → (f.errorPath k).isSome := by
  intro h
  have hexec : BootStmt.mmuInit.exec rpiImage ⟨[⟨0, 0x1A1000⟩]⟩ rpiImage.start =
      .error (.message "aarch64 mmu: could not allocate early physical frames") := by
    simp only [BootStmt.exec]
    rw [mmuInit_no_page (by decide)]
    rfl
  have hpath := h mainBody rpiImage.start _ _ .start (.panic hexec)
  cases hpath

end TeachingOs.Fatal
