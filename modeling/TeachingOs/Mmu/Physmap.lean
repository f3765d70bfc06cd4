import Mathlib.Data.BitVec
import Mathlib.Tactic.Ring
import TeachingOs.Mmu.Denote

/-!
# TeachingOs.Mmu.Physmap

The logical map: the 256 level-1 tables at `_physmap_pagetable_level1` that
`boot.S` fills, the upper half of its level-0 table that points at them, and
the copy of that half which `mmu_init` writes into `k_page_table`.

Both assembly loops store `flags | offset` through a pointer that advances
by one word while the offset advances by a stride, so they are one
`fillLoop`.  `hwWalk_physmap` computes where the hardware then sends
`logical_map(p)`: to the block number `p >> 30` *divided by 512*, because the
level-1 loop advances by 2 MB where a level-1 block covers 1 GB.
-/

namespace TeachingOs

/-! ## boot.S -/

/-- The section `.data.boot`: its tables lie one after the other from a
4 KB aligned physical address. -/
structure BootData where
  base : Word
  aligned : base.toNat % 4096 = 0
  bound : base.toNat + 0x102000 ≤ 2 ^ 48

namespace BootData

variable (b : BootData)

/-- `_init_pagetable_level1`. -/
def initPagetableLevel1 : Word := b.base

/-- `_init_pagetable_level0`. -/
def initPagetableLevel0 : Word := b.base + 0x1000

/-- `_init_pagetable_level0_end`. -/
def initPagetableLevel0End : Word := b.base + 0x2000

/-- `_physmap_pagetable_level1`. -/
def physmapPagetableLevel1 : Word := b.base + 0x2000

/-- `_physmap_pagetable_end`: 256 tables of 512 entries further. -/
def physmapPagetableEnd : Word := b.base + 0x102000

end BootData

/-- A store loop of `boot.S` from the label to the `blt`: `x0` is the slot
pointer, `x1` the offset, `x2` the value stored.  The branch compares
signed.  `none` means that the fuel did not suffice. -/
def fillLoop (flags stride endPtr : Word) : Nat → Word → Word → PhysMem → Option PhysMem
  | 0, _, _, _ => none
  | fuel + 1, x0, x1, m =>
    let x2 := flags ||| x1
    let m := Function.update m x0 x2
    let x0 := x0 + 8
    let x1 := x1 + stride
    if x0.slt endPtr then fillLoop flags stride endPtr fuel x0 x1 m else some m

/-- The attributes of a logical-map block: kernel read/write, inner shared. -/
def physmapFlags : Word := 1 ||| (1 <<< 10) ||| (3 <<< 8)

/-- `load_physmap`: fill the level-1 tables. -/
def loadPhysmap (b : BootData) (fuel : Nat) (m : PhysMem) : Option PhysMem :=
  fillLoop physmapFlags 0x200000 b.physmapPagetableEnd fuel b.physmapPagetableLevel1 0 m

/-- `load_physmap2`: point the upper half of level 0 at them. -/
def loadPhysmap2 (b : BootData) (fuel : Nat) (m : PhysMem) : Option PhysMem :=
  fillLoop 0b11 4096 b.initPagetableLevel0End fuel (b.initPagetableLevel0 + 8 * 256)
    b.physmapPagetableLevel1 m

/-- The page-table part of `boot.S`: link level 1 into slot 0 of level 0,
then build the logical map. -/
def bootPageTables (b : BootData) (fuel : Nat) (m : PhysMem) : Option PhysMem := do
  let m := Function.update m b.initPagetableLevel0
    (m b.initPagetableLevel0 ||| b.initPagetableLevel1)
  let m ← loadPhysmap b fuel m
  loadPhysmap2 b fuel m

/-! ## mmu_init -/

/-- The loop of `mmu_init` that maps the logical map onto the latter 256
entries of `k_page_table`. -/
def installPhysmap (b : BootData) (kPageTable : Word) (m : PhysMem) : PhysMem :=
  (List.range 256).foldl (fun m i =>
    store m (logicalMap (kPageTable + (256 + BitVec.ofNat 64 i) * 8))
      ((b.physmapPagetableLevel1 + 4096 * BitVec.ofNat 64 i) ||| 3)) m

/-! ## What the loops store -/

/-- `n` rounds of a store loop, without the loop test. -/
def fillWords (flags stride : Word) : Nat → Word → Word → PhysMem → PhysMem
  | 0, _, _, m => m
  | n + 1, x0, x1, m =>
    fillWords flags stride n (x0 + 8) (x1 + stride) (Function.update m x0 (flags ||| x1))

/-- With enough fuel the loop runs until the pointer reaches its end. -/
theorem fillLoop_eq {flags stride endPtr : Word} (hend : endPtr.toNat < 2 ^ 63) :
    ∀ (n fuel : Nat) (x0 x1 : Word) (m : PhysMem), x0.toNat + 8 * n = endPtr.toNat →
      0 < n → n ≤ fuel → fillLoop flags stride endPtr fuel x0 x1 m =
        some (fillWords flags stride n x0 x1 m) := by
  intro n
  induction n with
  | zero => intro _ _ _ _ _ hn; omega
  | succ n ih =>
      intro fuel x0 x1 m hx _ hfuel
      obtain ⟨fuel, rfl⟩ : ∃ k, fuel = k + 1 := ⟨fuel - 1, by omega⟩
      have hx8 : (x0 + 8).toNat = x0.toNat + 8 := by bv_omega
      rw [fillLoop, fillWords]
      by_cases hn : n = 0
      · subst hn
        have hlast : x0 + 8 = endPtr := by bv_omega
        have hstop : ¬ (x0 + 8).slt endPtr := by
          rw [hlast]
          simp [BitVec.slt]
        exact if_neg hstop
      · have hgo : (x0 + 8).slt endPtr := by
          rw [BitVec.slt_eq_ult_of_msb_eq]
          · simp only [BitVec.ult, hx8, decide_eq_true_eq]
            omega
          · rw [BitVec.msb_eq_false_iff_two_mul_lt.mpr, BitVec.msb_eq_false_iff_two_mul_lt.mpr] <;>
              omega
        exact (if_pos hgo).trans (ih fuel (x0 + 8) (x1 + stride) _ (by omega) (by omega) (by omega))

/-- Words outside the filled range keep their contents. -/
theorem fillWords_of_outside {flags stride : Word} {a : Word} :
    ∀ (n : Nat) (x0 x1 : Word) (m : PhysMem), x0.toNat + 8 * n < 2 ^ 64 →
      (a.toNat < x0.toNat ∨ x0.toNat + 8 * n ≤ a.toNat) →
      fillWords flags stride n x0 x1 m a = m a := by
  intro n
  induction n with
  | zero => intros; rfl
  | succ n ih =>
      intro x0 x1 m hx ha
      have hx8 : (x0 + 8).toNat = x0.toNat + 8 := by bv_omega
      have hne : a ≠ x0 := by
        rintro rfl
        omega
      rw [fillWords, ih (x0 + 8) (x1 + stride) _ (by omega) (by omega),
        Function.update_of_ne hne]

/-- The `j`-th word filled holds the offset of round `j`. -/
theorem fillWords_get {flags stride : Word} :
    ∀ (n j : Nat) (x0 x1 : Word) (m : PhysMem), x0.toNat + 8 * n < 2 ^ 64 → j < n →
      fillWords flags stride n x0 x1 m (x0 + BitVec.ofNat 64 (8 * j)) =
        flags ||| (x1 + BitVec.ofNat 64 j * stride) := by
  intro n
  induction n with
  | zero => intros; omega
  | succ n ih =>
      intro j x0 x1 m hx hj
      have hx8 : (x0 + 8).toNat = x0.toNat + 8 := by bv_omega
      rw [fillWords]
      cases j with
      | zero =>
          have hout : fillWords flags stride n (x0 + 8) (x1 + stride)
              (Function.update m x0 (flags ||| x1)) x0 = flags ||| x1 := by
            rw [fillWords_of_outside n _ _ _ (by omega) (by omega), Function.update_self]
          simpa using hout
      | succ j =>
          have hptr : x0 + BitVec.ofNat 64 (8 * (j + 1)) = x0 + 8 + BitVec.ofNat 64 (8 * j) := by
            bv_omega
          have hval : x1 + stride + BitVec.ofNat 64 j * stride =
              x1 + BitVec.ofNat 64 (j + 1) * stride := by
            have hone : BitVec.ofNat 64 1 = 1 := rfl
            rw [BitVec.ofNat_add, hone]
            ring
          rw [hptr, ih j (x0 + 8) (x1 + stride) _ (by omega) (by omega), hval]

/-- A loop of stores through `logicalMap` leaves other words alone. -/
theorem foldl_store_of_ne {addr val : Nat → Word} {a : Word} (n : Nat) (m : PhysMem)
    (ha : ∀ i < n, a ≠ addr i) :
    ((List.range n).foldl (fun m i => store m (logicalMap (addr i)) (val i)) m) a = m a := by
  induction n with
  | zero => rfl
  | succ n ih =>
      rw [List.range_succ, List.foldl_append, List.foldl_cons, List.foldl_nil, store_logicalMap,
        Function.update_of_ne (ha n (Nat.lt_succ_self n)), ih fun i hi => ha i (by omega)]

/-- A loop of stores to distinct words leaves each word with its value. -/
theorem foldl_store_get {addr val : Nat → Word} (n : Nat) (m : PhysMem)
    (hinj : ∀ i < n, ∀ j < n, addr i = addr j → i = j) (i : Nat) (hi : i < n) :
    ((List.range n).foldl (fun m i => store m (logicalMap (addr i)) (val i)) m) (addr i) =
      val i := by
  induction n with
  | zero => omega
  | succ n ih =>
      rw [List.range_succ, List.foldl_append, List.foldl_cons, List.foldl_nil, store_logicalMap]
      by_cases hin : i = n
      · rw [hin, Function.update_self]
      · have hne : addr i ≠ addr n := fun h => hin (hinj i hi n (by omega) h)
        rw [Function.update_of_ne hne]
        exact ih (fun i hi j hj => hinj i (by omega) j (by omega)) (by omega)

/-! ## The tables in memory -/

namespace BootData

variable (b : BootData)

theorem toNat_initPagetableLevel0 : b.initPagetableLevel0.toNat = b.base.toNat + 0x1000 := by
  have := b.bound
  simp only [initPagetableLevel0]
  bv_omega

theorem toNat_physmapPagetableLevel1 :
    b.physmapPagetableLevel1.toNat = b.base.toNat + 0x2000 := by
  have := b.bound
  simp only [physmapPagetableLevel1]
  bv_omega

/-- The level-0 table of `boot.S` as a page frame. -/
def level0 : Frame :=
  ⟨b.initPagetableLevel0, IsFrame.masked (by
    have := b.aligned
    have := b.bound
    rw [IsFrame, b.toNat_initPagetableLevel0]
    omega)⟩

@[simp] theorem level0_addr : b.level0.addr = b.initPagetableLevel0 := rfl

theorem toNat_physmapTable (j : Fin 256) :
    (b.physmapPagetableLevel1 + BitVec.ofNat 64 (4096 * j)).toNat =
      b.base.toNat + 0x2000 + 4096 * j := by
  have := b.bound
  rw [BitVec.toNat_add, BitVec.toNat_ofNat, b.toNat_physmapPagetableLevel1]
  omega

/-- The `j`-th level-1 table of the logical map as a page frame. -/
def physmapTable (j : Fin 256) : Frame :=
  ⟨b.physmapPagetableLevel1 + BitVec.ofNat 64 (4096 * j), IsFrame.masked (by
    have := b.aligned
    have := b.bound
    rw [IsFrame, b.toNat_physmapTable]
    omega)⟩

/-- Slot `i` of the `j`-th table is entry `512 * j + i` of the whole array. -/
theorem physmapTable_slot (j : Fin 256) (i : Fin 512) :
    (b.physmapTable j).slot i =
      b.physmapPagetableLevel1 + BitVec.ofNat 64 (8 * (512 * j + i)) := by
  simp only [physmapTable, Frame.slot]
  bv_omega

end BootData

/-- The upper slots of a level-0 table, seen as an array of 256 words. -/
theorem Frame.slot_upper (f : Frame) (j : Nat) (hj : 256 + j < 512) :
    f.slot ⟨256 + j, hj⟩ = f.addr + 8 * 256 + BitVec.ofNat 64 (8 * j) := by
  simp only [Frame.slot]
  bv_omega

/-- The level-1 tables hold `flags | i * 2 MB` in entry `i`. -/
def PhysmapTables (b : BootData) (m : PhysMem) : Prop :=
  ∀ i < 256 * 512, m (b.physmapPagetableLevel1 + BitVec.ofNat 64 (8 * i)) =
    physmapFlags ||| (BitVec.ofNat 64 i * 0x200000)

/-- Slot `256 + j` of a level-0 table points at the `j`-th level-1 table. -/
def PhysmapRoot (b : BootData) (root : Frame) (m : PhysMem) : Prop :=
  ∀ j : Fin 256, m (root.slot ⟨256 + j, by omega⟩) = (b.physmapTable j).addr ||| 3

/-- `load_physmap` fills the 256 tables. -/
theorem loadPhysmap_eq (b : BootData) {fuel : Nat} (hfuel : 256 * 512 ≤ fuel) (m : PhysMem) :
    loadPhysmap b fuel m = some
      (fillWords physmapFlags 0x200000 (256 * 512) b.physmapPagetableLevel1 0 m) := by
  have hbound := b.bound
  have hl1 := b.toNat_physmapPagetableLevel1
  have hend : b.physmapPagetableEnd.toNat = b.base.toNat + 0x102000 := by
    simp only [BootData.physmapPagetableEnd]
    bv_omega
  exact fillLoop_eq (by omega) (256 * 512) fuel _ 0 m (by omega) (by omega) hfuel

/-- `load_physmap2` fills the upper half of level 0. -/
theorem loadPhysmap2_eq (b : BootData) {fuel : Nat} (hfuel : 256 ≤ fuel) (m : PhysMem) :
    loadPhysmap2 b fuel m = some
      (fillWords 0b11 4096 256 (b.initPagetableLevel0 + 8 * 256) b.physmapPagetableLevel1 m) := by
  have hbound := b.bound
  have hl0 := b.toNat_initPagetableLevel0
  have hmid : (b.initPagetableLevel0 + 8 * 256).toNat = b.base.toNat + 0x1800 := by bv_omega
  have hend : b.initPagetableLevel0End.toNat = b.base.toNat + 0x2000 := by
    simp only [BootData.initPagetableLevel0End]
    bv_omega
  exact fillLoop_eq (by omega) 256 fuel _ _ m (by omega) (by omega) hfuel

/-- `boot.S` terminates and leaves both in memory. -/
theorem bootPageTables_spec (b : BootData) (m : PhysMem) {fuel : Nat} (hfuel : 256 * 512 ≤ fuel) :
    ∃ m', bootPageTables b fuel m = some m' ∧ PhysmapTables b m' ∧
      PhysmapRoot b b.level0 m' := by
  have hbound := b.bound
  have hl0 := b.toNat_initPagetableLevel0
  have hl1 := b.toNat_physmapPagetableLevel1
  have hmid : (b.initPagetableLevel0 + 8 * 256).toNat = b.base.toNat + 0x1800 := by bv_omega
  refine ⟨fillWords 0b11 4096 256 (b.initPagetableLevel0 + 8 * 256) b.physmapPagetableLevel1
    (fillWords physmapFlags 0x200000 (256 * 512) b.physmapPagetableLevel1 0
      (Function.update m b.initPagetableLevel0
        (m b.initPagetableLevel0 ||| b.initPagetableLevel1))), ?_, ?_, ?_⟩
  · simp only [bootPageTables, loadPhysmap_eq b hfuel, Option.bind_eq_bind, Option.bind_some]
    exact loadPhysmap2_eq b (by omega) _
  · intro i hi
    have hptr : (b.physmapPagetableLevel1 + BitVec.ofNat 64 (8 * i)).toNat =
        b.base.toNat + 0x2000 + 8 * i := by
      rw [BitVec.toNat_add, BitVec.toNat_ofNat, hl1]
      omega
    rw [fillWords_of_outside 256 _ _ _ (by omega) (by omega),
      fillWords_get (256 * 512) i _ _ _ (by omega) hi]
    simp
  · intro j
    have hj := j.isLt
    have hval : b.physmapPagetableLevel1 + BitVec.ofNat 64 j * 4096 = (b.physmapTable j).addr := by
      simp only [BootData.physmapTable]
      bv_omega
    rw [Frame.slot_upper, b.level0_addr, fillWords_get 256 j _ _ _ (by omega) hj, hval,
      BitVec.or_comm]

/-! ## The copy in `k_page_table` -/

/-- The slot that `mmu_init` writes in round `i`. -/
theorem Frame.slot_install (f : Frame) (i : Nat) (hi : 256 + i < 512) :
    f.addr + (256 + BitVec.ofNat 64 i) * 8 = f.slot ⟨256 + i, hi⟩ := by
  simp only [Frame.slot]
  bv_omega

/-- The copy points at the same level-1 tables. -/
theorem installPhysmap_root (b : BootData) (root : Frame) (m : PhysMem) :
    PhysmapRoot b root (installPhysmap b root.addr m) := by
  intro j
  have hj := j.isLt
  have hinj : ∀ i < 256, ∀ k < 256, root.addr + (256 + BitVec.ofNat 64 i) * 8 =
      root.addr + (256 + BitVec.ofNat 64 k) * 8 → i = k := by
    intro i hi k hk h
    bv_omega
  have hval : 4096 * BitVec.ofNat 64 j = BitVec.ofNat 64 (4096 * j) := by bv_omega
  rw [← root.slot_install j (by omega), installPhysmap, foldl_store_get 256 m hinj j hj, hval]
  rfl

/-- Nothing but the upper slots of the root is written. -/
theorem installPhysmap_of_ne (b : BootData) (root : Frame) (m : PhysMem) {a : Word}
    (ha : ∀ j : Fin 256, a ≠ root.slot ⟨256 + j, by omega⟩) :
    installPhysmap b root.addr m a = m a := by
  refine foldl_store_of_ne 256 m fun i hi => ?_
  rw [root.slot_install i (by omega)]
  exact ha ⟨i, hi⟩

/-- A root outside the level-1 tables leaves them as they are. -/
theorem PhysmapTables.install {b : BootData} {root : Frame} {m : PhysMem}
    (h : PhysmapTables b m) (hroot : ∀ j, b.physmapTable j ≠ root) :
    PhysmapTables b (installPhysmap b root.addr m) := by
  intro i hi
  have hslot := b.physmapTable_slot ⟨i / 512, by omega⟩ ⟨i % 512, by omega⟩
  simp only [Nat.div_add_mod] at hslot
  rw [installPhysmap_of_ne, h i hi]
  intro j heq
  rw [← hslot] at heq
  exact hroot _ (Frame.slot_inj heq).1

/-! ## Where the hardware goes -/

/-- The output address of a block: its own bits above the offset. -/
theorem toNat_block_output (d v : Word) :
    ((d &&& ~~~((1 <<< 30 : Word) - 1)) ||| (v &&& ((1 <<< 30 : Word) - 1))).toNat =
      d.toNat / 2 ^ 30 * 2 ^ 30 + v.toNat % 2 ^ 30 := by
  have hmask : ((1 <<< 30 : Word) - 1).toNat = 2 ^ 30 - 1 := by decide
  have hlow : (v &&& ((1 <<< 30 : Word) - 1)).toNat = v.toNat % 2 ^ 30 := by
    rw [BitVec.toNat_and, hmask, Nat.and_two_pow_sub_one_eq_mod]
  have hhigh : d &&& ~~~((1 <<< 30 : Word) - 1) = (d >>> 30) <<< 30 := by
    ext i hi
    rw [BitVec.getElem_and, BitVec.getElem_not,
      BitVec.getElem_eq_testBit_toNat ((1 <<< 30 : Word) - 1) i, hmask,
      Nat.testBit_two_pow_sub_one, BitVec.getElem_shiftLeft]
    by_cases h : i < 30
    · simp [h]
    · simp [h, BitVec.getElem_eq_testBit_toNat, show 30 + (i - 30) = i by omega]
  have hshift : ((d >>> 30) <<< 30).toNat = (d.toNat / 2 ^ 30) <<< 30 := by
    have hd := d.isLt
    rw [BitVec.toNat_shiftLeft, BitVec.toNat_ushiftRight, Nat.shiftRight_eq_div_pow,
      Nat.shiftLeft_eq]
    omega
  rw [BitVec.toNat_or, hlow, hhigh, hshift,
    ← Nat.shiftLeft_add_eq_or_of_lt (Nat.mod_lt _ (by decide)), Nat.shiftLeft_eq]

/-- The address field of entry `n` of the level-1 tables is 2 MB times `n`. -/
def physmapBlock (n : Nat) (hn : n < 256 * 512) : Frame :=
  ⟨BitVec.ofNat 64 n * 0x200000, IsFrame.masked ⟨by bv_omega, by bv_omega⟩⟩

theorem toNat_logicalMap {p : Word} (hp : p.toNat < 2 ^ 47) :
    (logicalMap p).toNat = 0xFFFF800000000000 + p.toNat := by
  simp only [logicalMap, KERNEL_PHYSICAL_BASE]
  bv_omega

/-- The slots that a pointer of the logical map goes through. -/
theorem index_logicalMap {p : Word} (hp : p.toNat < 2 ^ 47) :
    index (logicalMap p) 39 = ⟨256 + p.toNat / 2 ^ 39, by omega⟩ ∧
      index (logicalMap p) 30 = ⟨p.toNat / 2 ^ 30 % 512, by omega⟩ := by
  have hv := toNat_logicalMap hp
  constructor <;>
    · apply Fin.ext
      simp only [index, hv]
      omega

/-- The entry that a pointer of the logical map ends at. -/
theorem PhysmapTables.entry {b : BootData} {m : PhysMem} (h : PhysmapTables b m) {p : Word}
    (hp : p.toNat < 2 ^ 47) :
    m ((b.physmapTable ⟨p.toNat / 2 ^ 39, by omega⟩).slot ⟨p.toNat / 2 ^ 30 % 512, by omega⟩) =
      (physmapBlock (p.toNat / 2 ^ 30) (by omega)).addr ||| physmapFlags := by
  have hentry : 512 * (p.toNat / 2 ^ 39) + p.toNat / 2 ^ 30 % 512 = p.toNat / 2 ^ 30 := by omega
  rw [b.physmapTable_slot]
  simp only [hentry]
  rw [h _ (by omega), BitVec.or_comm, physmapBlock]

/-- Level 1 ends at a block of the logical map. -/
theorem exists_hwWalkFrom_block {m : PhysMem} {f : Frame} {p : Word} (hp : p.toNat < 2 ^ 47)
    (hd : m (f.slot ⟨p.toNat / 2 ^ 30 % 512, by omega⟩) =
      (physmapBlock (p.toNat / 2 ^ 30) (by omega)).addr ||| physmapFlags) :
    ∃ t, hwWalkFrom m (logicalMap p) 2 f.addr = some t ∧ t.attributes = physmapFlags ∧
      t.outputAddress.toNat = p.toNat / 2 ^ 30 / 512 * 2 ^ 30 + p.toNat % 2 ^ 30 := by
  have hn : p.toNat / 2 ^ 30 < 256 * 512 := by omega
  rw [hwWalkFrom]
  simp only [Frame.add_slotIndex, Nat.reduceAdd, Nat.reduceMul, (index_logicalMap hp).2, hd]
  rw [Frame.or_and_attr _ _ (by decide), Frame.or_and_attr _ _ (by decide),
    Frame.or_and_addrMask _ (by decide), if_neg (by decide), if_neg (by decide), if_neg (by decide)]
  refine ⟨_, rfl, ?_, ?_⟩
  · rw [Frame.or_and_attr _ _ (by decide)]
    exact show physmapFlags &&& ~~~addrMask = physmapFlags by decide
  · rw [toNat_block_output, toNat_logicalMap hp]
    have hblock : (physmapBlock _ hn).addr.toNat = p.toNat / 2 ^ 30 * 0x200000 := by
      simp only [physmapBlock]
      bv_omega
    rw [hblock]
    omega

/-- Level 0 and level 1 end at a block of the logical map. -/
theorem exists_hwWalk_physmap {b : BootData} {root : Frame} {m : PhysMem}
    (htables : PhysmapTables b m) (hroot : PhysmapRoot b root m) {p : Word}
    (hp : p.toNat < 2 ^ 47) :
    ∃ t, hwWalk m root.addr (logicalMap p) = some t ∧ t.attributes = physmapFlags ∧
      t.outputAddress.toNat = p.toNat / 2 ^ 30 / 512 * 2 ^ 30 + p.toNat % 2 ^ 30 := by
  have hlevel0 := (index_logicalMap hp).1
  have hd0 := hroot ⟨p.toNat / 2 ^ 39, by omega⟩
  rw [hwWalk, hwWalkFrom_table (k := 2) (Or.inr ⟨_, by rw [hlevel0, hd0]⟩), hlevel0, hd0,
    childTable_table, Option.bind_some]
  exact exists_hwWalkFrom_block hp (htables.entry hp)

/-- **The logical map**: level 0 and level 1 send `logical_map(p)` to the
1 GB block whose number is that of `p` divided by 512. -/
theorem hwWalk_physmap {b : BootData} {root : Frame} {m : PhysMem} (htables : PhysmapTables b m)
    (hroot : PhysmapRoot b root m) {p : Word} (hp : p.toNat < 2 ^ 47) :
    (hwWalk m root.addr (logicalMap p)).map (·.outputAddress.toNat) =
      some (p.toNat / 2 ^ 30 / 512 * 2 ^ 30 + p.toNat % 2 ^ 30) := by
  obtain ⟨t, ht, -, hout⟩ := exists_hwWalk_physmap htables hroot hp
  rw [ht, Option.map_some, hout]

/-! ## The identity -/

/-- The hardware translates `logical_map(p)` to `p`. -/
def TranslatesTo (m : PhysMem) (root p : Word) : Prop :=
  (hwWalk m root (logicalMap p)).map (·.outputAddress) = some p

theorem translatesTo_iff {b : BootData} {root : Frame} {m : PhysMem} (htables : PhysmapTables b m)
    (hroot : PhysmapRoot b root m) {p : Word} (hp : p.toNat < 2 ^ 47) :
    TranslatesTo m root.addr p ↔ p.toNat < 2 ^ 30 := by
  have hwalk := hwWalk_physmap htables hroot hp
  rw [Option.map_eq_some_iff] at hwalk
  obtain ⟨t, ht, hout⟩ := hwalk
  rw [TranslatesTo, ht, Option.map_some, Option.some_inj, ← BitVec.toNat_inj, hout]
  omega

/-- The level-1 tables are in `m` as they are in `m₁`. -/
def SamePhysmapTables (b : BootData) (m₁ m : PhysMem) : Prop :=
  ∀ i < 256 * 512, m (b.physmapPagetableLevel1 + BitVec.ofNat 64 (8 * i)) =
    m₁ (b.physmapPagetableLevel1 + BitVec.ofNat 64 (8 * i))

theorem SamePhysmapTables.tables {b : BootData} {m₁ m : PhysMem} (h : SamePhysmapTables b m₁ m)
    (htables : PhysmapTables b m₁) : PhysmapTables b m := by
  intro i hi
  rw [h i hi, htables i hi]

/-- The logical map is the identity exactly on the first gigabyte, under the
level-0 table of `boot.S` and, as long as its level-1 tables are left alone,
under every root into which `mmu_init` copies the entries. -/
theorem logicalMap_identity_iff (b : BootData) (m : PhysMem) {fuel : Nat}
    (hfuel : 256 * 512 ≤ fuel) :
    ∃ m₁, bootPageTables b fuel m = some m₁ ∧ ∀ p : Word, p.toNat < 2 ^ 47 →
      (TranslatesTo m₁ b.level0.addr p ↔ p.toNat < 2 ^ 30) ∧
      ∀ (m₂ : PhysMem) (root : Frame), SamePhysmapTables b m₁ m₂ →
        (∀ j, b.physmapTable j ≠ root) →
        (TranslatesTo (installPhysmap b root.addr m₂) root.addr p ↔ p.toNat < 2 ^ 30) := by
  obtain ⟨m₁, hrun, htables, hroot⟩ := bootPageTables_spec b m hfuel
  refine ⟨m₁, hrun, fun p hp => ⟨translatesTo_iff htables hroot hp, ?_⟩⟩
  intro m₂ root hsame hne
  exact translatesTo_iff ((hsame.tables htables).install hne) (installPhysmap_root b root m₂) hp

/-- Boot data as the Raspberry Pi image is linked. -/
def rpiBootData : BootData := ⟨0x81000, by decide, by decide⟩

/-- What `.data.boot` holds before `boot.S` runs. -/
def rpiBootImage : PhysMem :=
  Function.update (Function.update (Function.update (fun _ => 0)
    rpiBootData.initPagetableLevel1 (1 ||| (1 <<< 10) ||| (3 <<< 8)))
    (rpiBootData.initPagetableLevel1 + 8)
      (1 ||| (1 <<< 10) ||| (3 <<< 8) ||| (1 <<< 2) ||| 0xC0000000))
    rpiBootData.initPagetableLevel0 3

/-- A frame past the kernel image. -/
def rpiRoot : Frame := ⟨0x200000, by decide⟩

theorem rpiBootData_physmapTable_ne (j : Fin 256) : rpiBootData.physmapTable j ≠ rpiRoot := by
  intro h
  have hj := rpiBootData.toNat_physmapTable j
  have haddr : rpiBootData.physmapPagetableLevel1 + BitVec.ofNat 64 (4096 * j) = 0x200000 :=
    congrArg Frame.addr h
  have hbase : rpiBootData.base.toNat = 0x81000 := rfl
  have hroot : (0x200000 : Word).toNat = 0x200000 := rfl
  rw [haddr, hbase, hroot] at hj
  omega

/-- The last byte of the first gigabyte translates to itself. -/
theorem logicalMap_identity_iff_below :
    ∃ m₁, bootPageTables rpiBootData (256 * 512) rpiBootImage = some m₁ ∧
      TranslatesTo m₁ rpiBootData.level0.addr 0x3FFFFFFF ∧
      TranslatesTo (installPhysmap rpiBootData rpiRoot.addr m₁) rpiRoot.addr 0x3FFFFFFF := by
  obtain ⟨m₁, hrun, hid⟩ :=
    logicalMap_identity_iff rpiBootData rpiBootImage (Nat.le_refl (256 * 512))
  obtain ⟨hboot, hcopy⟩ := hid 0x3FFFFFFF (by decide)
  have hroot := hcopy m₁ rpiRoot (fun _ _ => rfl) rpiBootData_physmapTable_ne
  exact ⟨m₁, hrun, hboot.mpr (by decide), hroot.mpr (by decide)⟩

/-- The first byte of the second gigabyte does not, in either map. -/
theorem logicalMap_not_identity :
    ∃ m₁, bootPageTables rpiBootData (256 * 512) rpiBootImage = some m₁ ∧
      ¬ TranslatesTo m₁ rpiBootData.level0.addr 0x40000000 ∧
      ¬ TranslatesTo (installPhysmap rpiBootData rpiRoot.addr m₁) rpiRoot.addr 0x40000000 := by
  obtain ⟨m₁, hrun, htables, hroot⟩ :=
    bootPageTables_spec rpiBootData rpiBootImage (Nat.le_refl (256 * 512))
  have hp : (0x40000000 : Word).toNat < 2 ^ 47 := by decide
  have hfar : ¬ (0x40000000 : Word).toNat < 2 ^ 30 := by decide
  have hcopy := htables.install rpiBootData_physmapTable_ne
  exact ⟨m₁, hrun, mt (translatesTo_iff htables hroot hp).mp hfar,
    mt (translatesTo_iff hcopy (installPhysmap_root _ _ _) hp).mp hfar⟩

end TeachingOs
