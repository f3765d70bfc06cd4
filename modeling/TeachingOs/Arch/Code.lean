import TeachingOs.Arch.Machine

/-!
# TeachingOs.Arch.Code

`aarch64_switch` of `switch.S`, and `define_entry` with the two halves of
`finish_trap` of `interrupt.S`, instruction by instruction, and what they
save and restore.
-/

namespace TeachingOs.Arch

open ByteMem

/-! ## aarch64_switch -/

/-- `aarch64_switch`, with the old pcb in `x0` and the new one in `x1`. -/
def aarch64Switch : List Instr := [
  .subSp 256,
  .str 30 .sp 0xF0,
  .str 29 .sp 0xE8,
  .str 28 .sp 0xE0,
  .str 27 .sp 0xD8,
  .str 26 .sp 0xD0,
  .str 25 .sp 0xC8,
  .str 24 .sp 0xC0,
  .str 23 .sp 0xB8,
  .str 22 .sp 0xB0,
  .str 21 .sp 0xA8,
  .str 20 .sp 0xA0,
  .str 19 .sp 0x98,
  .str 18 .sp 0x90,
  .str 17 .sp 0x88,
  .str 16 .sp 0x80,
  .str 15 .sp 0x78,
  .str 14 .sp 0x70,
  .str 13 .sp 0x68,
  .str 12 .sp 0x60,
  .str 11 .sp 0x58,
  .str 10 .sp 0x50,
  .str 9 .sp 0x48,
  .str 8 .sp 0x40,
  .str 7 .sp 0x38,
  .str 6 .sp 0x30,
  .str 5 .sp 0x28,
  .str 4 .sp 0x20,
  .str 3 .sp 0x18,
  .str 2 .sp 0x10,
  .str 1 .sp 0x08,
  .str 0 .sp 0x00,
  .movFromSp 2,
  .str 2 (.x 0) 0,
  .ldr 2 (.x 1) 0,
  .movToSp 2,
  .ldr 30 .sp 0xF0,
  .ldr 29 .sp 0xE8,
  .ldr 28 .sp 0xE0,
  .ldr 27 .sp 0xD8,
  .ldr 26 .sp 0xD0,
  .ldr 25 .sp 0xC8,
  .ldr 24 .sp 0xC0,
  .ldr 23 .sp 0xB8,
  .ldr 22 .sp 0xB0,
  .ldr 21 .sp 0xA8,
  .ldr 20 .sp 0xA0,
  .ldr 19 .sp 0x98,
  .ldr 18 .sp 0x90,
  .ldr 17 .sp 0x88,
  .ldr 16 .sp 0x80,
  .ldr 15 .sp 0x78,
  .ldr 14 .sp 0x70,
  .ldr 13 .sp 0x68,
  .ldr 12 .sp 0x60,
  .ldr 11 .sp 0x58,
  .ldr 10 .sp 0x50,
  .ldr 9 .sp 0x48,
  .ldr 8 .sp 0x40,
  .ldr 7 .sp 0x38,
  .ldr 6 .sp 0x30,
  .ldr 5 .sp 0x28,
  .ldr 4 .sp 0x20,
  .ldr 3 .sp 0x18,
  .ldr 2 .sp 0x10,
  .ldr 1 .sp 0x08,
  .ldr 0 .sp 0x00,
  .addSp 256,
  .ret]

/-- The frame of `aarch64_switch`. -/
def switchFrame : Saves :=
  [(30, 0xF0), (29, 0xE8), (28, 0xE0), (27, 0xD8), (26, 0xD0), (25, 0xC8), (24, 0xC0), (23,
  0xB8), (22, 0xB0), (21, 0xA8), (20, 0xA0), (19, 0x98), (18, 0x90), (17, 0x88), (16, 0x80),
  (15, 0x78), (14, 0x70), (13, 0x68), (12, 0x60), (11, 0x58), (10, 0x50), (9, 0x48), (8,
  0x40), (7, 0x38), (6, 0x30), (5, 0x28), (4, 0x20), (3, 0x18), (2, 0x10), (1, 0x08), (0,
  0x00)]

/-- The code between the saves and the restores. -/
def swapStacks : List Instr := [.movFromSp 2, .str 2 (.x 0) 0, .ldr 2 (.x 1) 0, .movToSp 2]

theorem aarch64Switch_eq : aarch64Switch =
    [.subSp 256] ++ switchFrame.strs ++ swapStacks ++ switchFrame.ldrs ++ [.addSp 256, .ret] := rfl

/-! ## Traps -/

/-- `define_entry id` and `finish_trap` up to the call of
`aarch64_trapentry`, which returns to `link`. -/
def trapEntry (id : Nat) (link : BitVec 64) : List Instr := [
  .subSp 288,
  .str 0 .sp 8,
  .mov 0 id,
  .str 0 .sp 0,
  .stp 1 2 (16 * 1),
  .stp 3 4 (16 * 2),
  .stp 5 6 (16 * 3),
  .stp 7 8 (16 * 4),
  .stp 9 10 (16 * 5),
  .stp 11 12 (16 * 6),
  .stp 13 14 (16 * 7),
  .stp 15 16 (16 * 8),
  .stp 17 18 (16 * 9),
  .stp 19 20 (16 * 10),
  .stp 21 22 (16 * 11),
  .stp 23 24 (16 * 12),
  .stp 25 26 (16 * 13),
  .stp 27 28 (16 * 14),
  .stp 29 30 (16 * 15),
  .mrs 0 .esr,
  .mrs 1 .elr,
  .mrs 2 .spsr,
  .mrs 3 .far,
  .stp 0 1 (16 * 16),
  .stp 2 3 (16 * 17),
  .movFromSp 0,
  .bl link]

/-- `finish_trap` after the call. -/
def trapExit : List Instr := [
  .ldp 0 1 (16 * 16),
  .ldp 2 3 (16 * 17),
  .msr .elr 1,
  .msr .spsr 2,
  .ldp 1 2 (16 * 1),
  .ldp 3 4 (16 * 2),
  .ldp 5 6 (16 * 3),
  .ldp 7 8 (16 * 4),
  .ldp 9 10 (16 * 5),
  .ldp 11 12 (16 * 6),
  .ldp 13 14 (16 * 7),
  .ldp 15 16 (16 * 8),
  .ldp 17 18 (16 * 9),
  .ldp 19 20 (16 * 10),
  .ldp 21 22 (16 * 11),
  .ldp 23 24 (16 * 12),
  .ldp 25 26 (16 * 13),
  .ldp 27 28 (16 * 14),
  .ldp 29 30 (16 * 15),
  .ldr 0 .sp 8,
  .addSp 288,
  .eret]

/-- Where a trap frame keeps `x1` to `x30`. -/
def trapPairs : Pairs :=
  [(1, 2, 16 * 1), (3, 4, 16 * 2), (5, 6, 16 * 3), (7, 8, 16 * 4), (9, 10, 16 * 5), (11, 12,
  16 * 6), (13, 14, 16 * 7), (15, 16, 16 * 8), (17, 18, 16 * 9), (19, 20, 16 * 10), (21, 22,
  16 * 11), (23, 24, 16 * 12), (25, 26, 16 * 13), (27, 28, 16 * 14), (29, 30, 16 * 15)]

/-- The trap frame, `struct trapframe`. -/
def trapSlots (id : Nat) (s : Machine) : List Slot :=
  [(8, s.x 0), (0, .ofNat 64 id)] ++ trapPairs.saves.slots s.x ++
    [(16 * 16, s.sys .esr), (16 * 16 + 8, s.sys .elr), (16 * 17, s.sys .spsr),
      (16 * 17 + 8, s.sys .far)]

/-! ## What a switch saves and restores -/

variable {s : Machine} {v : Reg → BitVec 64}

theorem mem_switchFrame (r : Reg) : (r, 8 * r.val) ∈ switchFrame := by
  revert r
  decide

theorem switchFrame_layout (x : Reg → BitVec 64) :
    Layout 256 ((switchFrame.slots x).map Prod.fst) := by
  rw [Saves.map_fst_slots]
  exact ⟨by decide, by decide⟩

/-- The memory after the saves, with the stack pointer in the old pcb. -/
def switchMem (s : Machine) : Mem :=
  store64 (storeAll (s.sp - 256) (switchFrame.slots s.x) s.mem) (s.x 0) (s.sp - 256)

theorem exec_swapStacks (s : Machine) : ∃ x, exec swapStacks s = { s with
    x
    sp := load64 (store64 s.mem (s.x 0) s.sp) (s.x 1)
    mem := store64 s.mem (s.x 0) s.sp } := by
  refine ⟨fun r => if r = 2 then load64 (store64 s.mem (s.x 0) s.sp) (s.x 1)
    else if r = 2 then s.sp else s.x r, ?_⟩
  simp [exec, swapStacks, step, Machine.str, Machine.ldr, Machine.setX, Machine.addr]

/-- **A switch** writes its frame and the old pcb, and loads whatever frame
the new pcb points to. -/
theorem exec_aarch64Switch {a : Addr} (hpcb : load64 (switchMem s) (s.x 1) = a)
    (hv : ∀ p ∈ switchFrame, load64 (switchMem s) (a + .ofNat 64 p.2) = v p.1) :
    (exec aarch64Switch s).mem = switchMem s ∧ (exec aarch64Switch s).x = v ∧
      (exec aarch64Switch s).sp = a + 256 ∧ (exec aarch64Switch s).pc = v 30 := by
  have hsave : exec switchFrame.strs (exec [.subSp 256] s) = { s with
      sp := s.sp - 256
      mem := storeAll (s.sp - 256) (switchFrame.slots s.x) s.mem } :=
    exec_strs switchFrame _
  obtain ⟨x, hswap⟩ := exec_swapStacks { s with
    sp := s.sp - 256
    mem := storeAll (s.sp - 256) (switchFrame.slots s.x) s.mem }
  obtain ⟨x', hload, hset, -⟩ := exec_ldrs switchFrame (v := v) (s := { s with
    x
    sp := a
    mem := switchMem s }) hv
  have hx : x' = v := funext fun r => hset _ (mem_switchFrame r)
  have hexec : exec aarch64Switch s = exec [.addSp 256, .ret] { s with
      x := v
      sp := a
      mem := switchMem s } := by
    rw [aarch64Switch_eq, exec_append, exec_append, exec_append, exec_append, hsave, hswap, ← hx,
      ← hload, ← hpcb]
    rfl
  rw [hexec]
  exact ⟨rfl, rfl, rfl, rfl⟩

theorem switchFrame_inside : ∀ p ∈ switchFrame, p.2 + 8 ≤ 256 := by
  decide

theorem switchFrame_offset : ∀ p ∈ switchFrame, p.2 = 8 * p.1.val := by
  decide

theorem mem_exec_aarch64Switch (s : Machine) : (exec aarch64Switch s).mem = switchMem s :=
  (exec_aarch64Switch (v := fun r => load64 (switchMem s)
    (load64 (switchMem s) (s.x 1) + .ofNat 64 (8 * r.val))) rfl
    fun p hp => by rw [switchFrame_offset p hp]).1

/-! ## What a trap saves and restores -/

theorem mem_trapPairs (r : Reg) : (r, 8 * r.val + 8) ∈ trapPairs.saves ++ [(0, 8)] := by
  revert r
  decide

theorem trapSlots_layout (id : Nat) (s : Machine) : Layout 288 ((trapSlots id s).map Prod.fst) := by
  have hoffsets : (trapSlots id s).map Prod.fst = [8, 0] ++ trapPairs.saves.map Prod.snd ++
      [16 * 16, 16 * 16 + 8, 16 * 17, 16 * 17 + 8] := by
    simp [trapSlots, Saves.map_fst_slots]
  rw [hoffsets]
  exact ⟨by decide, by decide⟩

/-- What trap entry does before it saves `x1` to `x30`. -/
def defineEntry (id : Nat) : List Instr := [.subSp 288, .str 0 .sp 8, .mov 0 id, .str 0 .sp 0]

/-- What trap entry does after it has saved `x1` to `x30`. -/
def saveSys (link : BitVec 64) : List Instr :=
  [.mrs 0 .esr, .mrs 1 .elr, .mrs 2 .spsr, .mrs 3 .far, .stp 0 1 (16 * 16), .stp 2 3 (16 * 17),
    .movFromSp 0, .bl link]

/-- What trap exit does before it restores the general registers. -/
def restoreSys : List Instr := [.ldp 0 1 (16 * 16), .ldp 2 3 (16 * 17), .msr .elr 1, .msr .spsr 2]

theorem trapEntry_eq (id : Nat) (link : BitVec 64) :
    trapEntry id link = defineEntry id ++ trapPairs.stps ++ saveSys link := rfl

theorem trapExit_eq : trapExit =
    restoreSys ++ trapPairs.ldps ++ Saves.ldrs [(0, 8)] ++ [.addSp 288, .eret] := rfl

/-- **Trap entry** fills a trap frame below the stack pointer. -/
theorem exec_trapEntry (id : Nat) (link : BitVec 64) (s : Machine) :
    (exec (trapEntry id link) s).sp = s.sp - 288 ∧
      (exec (trapEntry id link) s).mem = storeAll (s.sp - 288) (trapSlots id s) s.mem := by
  have hslots : trapPairs.saves.slots (fun r => if r = 0 then .ofNat 64 id else s.x r) =
      trapPairs.saves.slots s.x := by
    refine List.map_congr_left fun p hp => ?_
    have hne : p.1 ≠ 0 := by
      revert p
      decide
    exact congrArg (Prod.mk p.2) (if_neg hne)
  rw [trapEntry_eq, exec_append, exec_append, exec_stps, exec_strs, trapSlots, storeAll_append,
    storeAll_append, ← hslots]
  exact ⟨rfl, rfl⟩

/-- **Trap exit** restores what the trap frame at the stack pointer holds. -/
theorem exec_trapExit {elr spsr : BitVec 64}
    (hv : ∀ p ∈ trapPairs.saves ++ [(0, 8)], load64 s.mem (s.sp + .ofNat 64 p.2) = v p.1)
    (helr : load64 s.mem (s.sp + .ofNat 64 (16 * 16 + 8)) = elr)
    (hspsr : load64 s.mem (s.sp + .ofNat 64 (16 * 17)) = spsr) :
    (exec trapExit s).x = v ∧ (exec trapExit s).sp = s.sp + 288 ∧
      (exec trapExit s).sys .elr = elr ∧ (exec trapExit s).sys .spsr = spsr := by
  obtain ⟨x, hload, hset, -⟩ := exec_ldrs (trapPairs.saves ++ [(0, 8)]) (v := v)
    (s := exec restoreSys s) hv
  have hx : x = v := funext fun r => hset _ (mem_trapPairs r)
  have hexec : exec trapExit s = exec [.addSp 288, .eret] { exec restoreSys s with x := v } := by
    rw [trapExit_eq, exec_append, exec_append, exec_append, exec_ldps, ← hx, ← hload,
      Saves.ldrs_append, exec_append]
  rw [hexec]
  exact ⟨rfl, rfl, helr, hspsr⟩

end TeachingOs.Arch
