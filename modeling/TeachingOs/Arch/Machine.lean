import TeachingOs.Lib.ByteMem

/-!
# TeachingOs.Arch.Machine

The AArch64 instructions of `switch.S` and `interrupt.S` on a machine with
the general registers `x0` to `x30`, the stack pointer, the exception
registers and byte-addressed memory.  Blocks of stores and of loads relative
to `sp` are the frames of `Lib.ByteMem` (`exec_strs`, `exec_ldrs`).
-/

namespace TeachingOs.Arch

open ByteMem

/-! ## The machine -/

/-- The general registers `x0` to `x30`. -/
abbrev Reg := Fin 31

instance Reg.neZero : NeZero 31 := ⟨by decide⟩

/-- The exception registers of EL1. -/
inductive SysReg where
  | esr | elr | spsr | far
deriving DecidableEq

/-- The state of the processor and the memory. -/
structure Machine where
  x : Reg → BitVec 64
  sp : BitVec 64
  pc : BitVec 64
  sys : SysReg → BitVec 64
  mem : Mem

/-- The register `r` set to `v`. -/
def Machine.setX (s : Machine) (r : Reg) (v : BitVec 64) : Machine :=
  { s with x := fun q => if q = r then v else s.x q }

/-- The exception register `r` set to `v`. -/
def Machine.setSys (s : Machine) (r : SysReg) (v : BitVec 64) : Machine :=
  { s with sys := fun q => if q = r then v else s.sys q }

/-! ## Instructions -/

/-- The base of an address. -/
inductive Base where
  | sp
  | x (r : Reg)

/-- The instructions that the two files use. -/
inductive Instr where
  | str (r : Reg) (base : Base) (off : Nat)
  | ldr (r : Reg) (base : Base) (off : Nat)
  | stp (r₁ r₂ : Reg) (off : Nat)
  | ldp (r₁ r₂ : Reg) (off : Nat)
  | subSp (imm : Nat)
  | addSp (imm : Nat)
  | movFromSp (r : Reg)
  | movToSp (r : Reg)
  | mov (r : Reg) (imm : Nat)
  | mrs (r : Reg) (sys : SysReg)
  | msr (sys : SysReg) (r : Reg)
  | bl (link : BitVec 64)
  | ret
  | eret

/-- The address of an access. -/
def Machine.addr (s : Machine) (base : Base) (off : Nat) : Addr :=
  match base with
  | .sp => s.sp + .ofNat 64 off
  | .x r => s.x r + .ofNat 64 off

/-- `str`. -/
def Machine.str (s : Machine) (r : Reg) (base : Base) (off : Nat) : Machine :=
  { s with mem := store64 s.mem (s.addr base off) (s.x r) }

/-- `ldr`. -/
def Machine.ldr (s : Machine) (r : Reg) (base : Base) (off : Nat) : Machine :=
  s.setX r (load64 s.mem (s.addr base off))

/-- One instruction.  `bl` is followed by the code of its callee, `ret` and
`eret` by that at `pc`. -/
def step (s : Machine) : Instr → Machine
  | .str r base off => s.str r base off
  | .ldr r base off => s.ldr r base off
  | .stp r₁ r₂ off => (s.str r₁ .sp off).str r₂ .sp (off + 8)
  | .ldp r₁ r₂ off => (s.ldr r₁ .sp off).ldr r₂ .sp (off + 8)
  | .subSp imm => { s with sp := s.sp - .ofNat 64 imm }
  | .addSp imm => { s with sp := s.sp + .ofNat 64 imm }
  | .movFromSp r => s.setX r s.sp
  | .movToSp r => { s with sp := s.x r }
  | .mov r imm => s.setX r (.ofNat 64 imm)
  | .mrs r sys => s.setX r (s.sys sys)
  | .msr sys r => s.setSys sys (s.x r)
  | .bl link => s.setX 30 link
  | .ret => { s with pc := s.x 30 }
  | .eret => { s with pc := s.sys .elr }

/-- Straight-line code. -/
def exec (code : List Instr) (s : Machine) : Machine := code.foldl step s

theorem exec_append (code code' : List Instr) (s : Machine) :
    exec (code ++ code') s = exec code' (exec code s) := List.foldl_append

/-! ## Blocks of stores and loads -/

/-- Registers and the offsets they are saved at. -/
abbrev Saves := List (Reg × Nat)

/-- The slots that a block of stores fills. -/
def Saves.slots (l : Saves) (x : Reg → BitVec 64) : List Slot := l.map fun p => (p.2, x p.1)

theorem Saves.mem_slots {l : Saves} {p : Reg × Nat} (hp : p ∈ l) (x : Reg → BitVec 64) :
    (p.2, x p.1) ∈ l.slots x :=
  List.mem_map_of_mem (f := fun p : Reg × Nat => (p.2, x p.1)) hp

theorem Saves.map_fst_slots (l : Saves) (x : Reg → BitVec 64) :
    (l.slots x).map Prod.fst = l.map Prod.snd := by
  simp [slots, Function.comp_def]

/-- The stores of a block. -/
def Saves.strs (l : Saves) : List Instr := l.map fun p => .str p.1 .sp p.2

/-- The loads of a block. -/
def Saves.ldrs (l : Saves) : List Instr := l.map fun p => .ldr p.1 .sp p.2

theorem Saves.ldrs_append (l l' : Saves) : (l ++ l').ldrs = l.ldrs ++ l'.ldrs := List.map_append

/-- A block of stores fills its slots. -/
theorem exec_strs (l : Saves) (s : Machine) :
    exec l.strs s = { s with mem := storeAll s.sp (l.slots s.x) s.mem } := by
  induction l generalizing s with
  | nil => rfl
  | cons p l ih => exact ih (s.str p.1 .sp p.2)

/-- A block of loads changes only registers, and each register it names has
the value of its slots. -/
theorem exec_ldrs (l : Saves) {s : Machine} {v : Reg → BitVec 64}
    (h : ∀ p ∈ l, load64 s.mem (s.sp + .ofNat 64 p.2) = v p.1) :
    ∃ x, exec l.ldrs s = { s with x } ∧ (∀ p ∈ l, x p.1 = v p.1) ∧
      ∀ r, (∀ p ∈ l, p.1 ≠ r) → x r = s.x r := by
  induction l generalizing s with
  | nil => exact ⟨s.x, rfl, nofun, fun _ _ => rfl⟩
  | cons p l ih =>
      have hp := h p List.mem_cons_self
      obtain ⟨x, hexec, hset, hkeep⟩ := ih (s := s.ldr p.1 .sp p.2)
        fun q hq => h q (List.mem_cons_of_mem _ hq)
      refine ⟨x, hexec, fun q hq => ?_, fun r hr => ?_⟩
      · by_cases hlater : ∃ q' ∈ l, q'.1 = q.1
        · obtain ⟨q', hq', heq⟩ := hlater
          rw [← heq]
          exact hset q' hq'
        · have hq : q = p := (List.mem_cons.mp hq).resolve_right fun hq => hlater ⟨q, hq, rfl⟩
          rw [hq, hkeep p.1 fun q' hq' heq => hlater ⟨q', hq', heq.trans (by rw [hq])⟩]
          exact (if_pos rfl).trans hp
      · rw [hkeep r fun q hq => hr q (List.mem_cons_of_mem _ hq)]
        exact if_neg (hr p List.mem_cons_self).symm

/-! ## Pairs -/

/-- Pairs of registers and the offsets they are saved at. -/
abbrev Pairs := List (Reg × Reg × Nat)

/-- The saves that pairs stand for. -/
def Pairs.saves : Pairs → Saves
  | [] => []
  | (r₁, r₂, off) :: l => (r₁, off) :: (r₂, off + 8) :: saves l

/-- The stores of pairs. -/
def Pairs.stps (l : Pairs) : List Instr := l.map fun p => .stp p.1 p.2.1 p.2.2

/-- The loads of pairs. -/
def Pairs.ldps (l : Pairs) : List Instr := l.map fun p => .ldp p.1 p.2.1 p.2.2

/-- A block of pair stores is a block of stores. -/
theorem exec_stps (l : Pairs) (s : Machine) : exec l.stps s = exec l.saves.strs s := by
  induction l generalizing s with
  | nil => rfl
  | cons p l ih => exact ih _

/-- A block of pair loads is a block of loads. -/
theorem exec_ldps (l : Pairs) (s : Machine) : exec l.ldps s = exec l.saves.ldrs s := by
  induction l generalizing s with
  | nil => rfl
  | cons p l ih => exact ih _

end TeachingOs.Arch
