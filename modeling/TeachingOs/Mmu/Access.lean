import TeachingOs.Mmu.Image

/-!
# TeachingOs.Mmu.Access

Page tables built through the map that is in force.  While `mmu_init` runs,
the kernel's pointers go through the level-0 table of `boot.S`, and the
accesses land where the hardware's walk of that table ends; a pointer that it
does not translate stops the kernel.

`TeachingOs.Mmu.PageTable` has `logical_map` as the identity.  That is what it
is below 1 GB, and there the two agree (`Filling.mmuMapAllAt`).
-/

namespace TeachingOs

/-! ## The code -/

/-- Why the kernel stops: a `panic`, or an access that the hardware refuses. -/
inductive Stop where
  | panic (p : Panic)
  | fault (ptr : Word)
deriving DecidableEq, Repr

instance (t : Translation) : Decidable t.Accessible := inferInstanceAs (Decidable (_ ≠ _))

instance (t : Translation) : Decidable t.Writable := inferInstanceAs (Decidable (_ = _))

/-- Where the byte at `ptr` is.  Both halves of the address space have the
level-0 table at `root`; between them, and where the walk does not end or ends
without the right, the access faults. -/
def access (root : Word) (m : PhysMem) (write : Bool) (ptr : Word) : Except Stop Word :=
  match hwWalk m root ptr with
  | some t =>
    if (ptr >>> 48 = 0 ∨ ptr >>> 48 = 0xFFFF) ∧ t.Accessible ∧ (write = true → t.Writable) then
      .ok t.outputAddress
    else .error (.fault ptr)
  | none => .error (.fault ptr)

/-- `*ptr`. -/
def loadAt (root : Word) (m : PhysMem) (ptr : Word) : Except Stop Word := do
  let p ← access root m false ptr
  return m p

/-- `*ptr = val`. -/
def storeAt (root : Word) (m : PhysMem) (ptr val : Word) : Except Stop PhysMem := do
  let p ← access root m true ptr
  return Function.update m p val

/-- `walk_or_create`. -/
def walkOrCreateAt (root : Word) (s : Mmu) (tableAddress addr : Word) (shift : Nat) :
    Except Stop (Word × Mmu) := do
  let mapping := walk tableAddress addr shift
  let d ← loadAt root s.mem mapping
  if d &&& 1 = 0 then
    let (result, alloc) ← (allocatePageTable s.alloc).mapError .panic
    let mem ← storeAt root s.mem mapping (result ||| 3)
    return (result, { mem, alloc })
  (assert "walk_or_create" "(*mapping & 3) == 3" (d &&& 3 = 3)).mapError .panic
  return (d &&& ~~~3, s)

/-- `mmu_map`. -/
def mmuMapAt (root : Word) (s : Mmu) (table virtualAddress physicalAddress : Word)
    (flags : MapFlags) : Except Stop Mmu := do
  let (level1, s) ← walkOrCreateAt root s table virtualAddress 39
  let (level2, s) ← walkOrCreateAt root s level1 virtualAddress 30
  let (level3, s) ← walkOrCreateAt root s level2 virtualAddress 21
  let pte := walk level3 virtualAddress 12
  let mem ← storeAt root s.mem pte (leafDescriptor physicalAddress flags)
  return { s with mem }

/-- `init_k_map`. -/
def initKMapAt (root kPageTable start endPtr : Word) (flags : MapFlags) (s : Mmu) :
    Except Stop Mmu := do
  (assert "init_k_map" "start % 4096 == 0" (start % 4096 = 0)).mapError .panic
  let pageCount := ((endPtr + PAGE_SIZE - 1) - start) / PAGE_SIZE
  (List.range pageCount.toNat).foldlM (fun s i =>
    let pageAddr := start + BitVec.ofNat 64 i * 4096
    mmuMapAt root s kPageTable pageAddr (pageAddr - KERNEL_VIRTUAL_BASE) flags) s

/-- `mmu_init` up to its third call of `init_k_map`, on the map of `boot.S`. -/
def kernelMapsAt (k : KernelLayout) (memoryMap : PhysicalMemoryMap) (s : Mmu) :
    Except Stop (Word × Mmu) := do
  let root := k.boot.initPagetableLevel0
  let alloc :=
    { s.alloc with
      earlyLast := k.kernEnd - PAGE_SIZE - KERNEL_VIRTUAL_BASE
      earlySrc := some memoryMap }
  let (kPageTable, alloc) ← (allocatePageTable alloc).mapError .panic
  let s := { s with alloc }
  let s ← initKMapAt root kPageTable k.kernTextStart k.kernTextEnd (PROT_EXEC ||| PROT_READ) s
  let s ← initKMapAt root kPageTable k.kernRodataStart k.kernRodataEnd PROT_READ s
  let s ← initKMapAt root kPageTable k.kernDataStart k.kernDataEnd (PROT_READ ||| PROT_WRITE) s
  return (kPageTable, s)

/-- A sequence of `mmu_map` calls on one table. -/
def mmuMapAllAt (root table : Word) (s : Mmu) (calls : List MapCall) : Except Stop Mmu :=
  calls.foldlM (fun s c => mmuMapAt root s table c.virtualAddress c.physicalAddress c.flags) s

theorem ImageRange.initKMapAt_eq (r : ImageRange) (root table : Word) (s : Mmu) :
    initKMapAt root table r.start r.endPtr r.flags s = mmuMapAllAt root table s r.calls := by
  have haligned := r.aligned
  have hassert : r.start % 4096 = 0 := by bv_omega
  rw [initKMapAt, assert_of_true hassert, mmuMapAllAt, calls, List.foldlM_map]
  rfl

theorem mmuMapAllAt_append (root table : Word) (s : Mmu) (calls calls' : List MapCall) :
    mmuMapAllAt root table s (calls ++ calls') =
      mmuMapAllAt root table s calls >>= fun s => mmuMapAllAt root table s calls' :=
  List.foldlM_append

/-- `mmu_init` takes the root and makes the calls. -/
theorem kernelMapsAt_eq (k : KernelLayout) (memoryMap : PhysicalMemoryMap) (s : Mmu) :
    kernelMapsAt k memoryMap s = do
      let (kPageTable, alloc) ←
        (allocatePageTable (earlyAlloc k memoryMap s.alloc)).mapError .panic
      let s ← mmuMapAllAt k.boot.initPagetableLevel0 kPageTable ⟨s.mem, alloc⟩ k.imageCalls
      return (kPageTable, s) := by
  have hcalls : k.imageCalls = k.text.calls ++ (k.rodata.calls ++ k.data.calls) := by
    simp [KernelLayout.imageCalls, KernelLayout.ranges]
  unfold kernelMapsAt
  refine bind_congr fun x => ?_
  obtain ⟨table, alloc⟩ := x
  have htext := fun s => k.text.initKMapAt_eq k.boot.initPagetableLevel0 table s
  have hrodata := fun s => k.rodata.initKMapAt_eq k.boot.initPagetableLevel0 table s
  have hdata := fun s => k.data.initKMapAt_eq k.boot.initPagetableLevel0 table s
  simp only [KernelLayout.text, KernelLayout.rodata, KernelLayout.data] at htext hrodata hdata
  simp only [htext, hrodata, hdata, hcalls, mmuMapAllAt_append, bind_assoc]
  rfl

/-! ## Calls that return -/

section Returns

variable {root : Word} {m : PhysMem} {write : Bool} {ptr p : Word}

/-- An access ends where the walk does, with the right to read. -/
theorem access_eq_ok (h : access root m write ptr = .ok p) :
    ∃ t, hwWalk m root ptr = some t ∧ t.Accessible ∧ t.outputAddress = p ∧
      (ptr >>> 48 = 0 ∨ ptr >>> 48 = 0xFFFF) := by
  unfold access at h
  split at h
  · next t ht =>
    split at h
    · next hright =>
      obtain ⟨hcanonical, haccessible, -⟩ := hright
      exact ⟨t, ht, haccessible, Except.ok.inj h, hcanonical⟩
    · cases h
  · cases h

/-- A store lands where a load of the pointer does. -/
theorem access_unique {p' : Word} {write' : Bool} (h : access root m write ptr = .ok p)
    (h' : access root m write' ptr = .ok p') : p' = p := by
  obtain ⟨t, ht, -, hout, -⟩ := access_eq_ok h
  obtain ⟨t', ht', -, hout', -⟩ := access_eq_ok h'
  rw [← hout, ← hout', Option.some.inj (ht.symm.trans ht')]

theorem mapError_eq_ok {ε ε' α : Type} {f : ε → ε'} {x : Except ε α} {a : α}
    (h : x.mapError f = .ok a) : x = .ok a := by
  cases x with
  | error e => cases h
  | ok b =>
      cases h
      rfl

/-- What a call of `walk_or_create` that returns has done: it has linked a new
table where it read an invalid descriptor, or it has read a link. -/
theorem walkOrCreateAt_eq_ok {s s' : Mmu} {table addr r : Word} {shift : Nat}
    (h : walkOrCreateAt root s table addr shift = .ok (r, s')) :
    ∃ p, access root s.mem false (walk table addr shift) = .ok p ∧
      ((s.mem p &&& 1 = 0 ∧ ∃ alloc, allocatePageTable s.alloc = .ok (r, alloc) ∧
          s' = ⟨Function.update s.mem p (r ||| 3), alloc⟩) ∨
        (s.mem p &&& 3 = 3 ∧ r = s.mem p &&& ~~~3 ∧ s' = s)) := by
  unfold walkOrCreateAt at h
  obtain ⟨d, hload, h⟩ := bind_eq_ok.mp h
  obtain ⟨p, hp, hload⟩ := bind_eq_ok.mp hload
  cases hload
  refine ⟨p, hp, ?_⟩
  split at h
  · next hempty =>
    obtain ⟨⟨r', alloc⟩, halloc, h⟩ := bind_eq_ok.mp h
    obtain ⟨mem, hstore, h⟩ := bind_eq_ok.mp h
    obtain ⟨p', hp', hstore⟩ := bind_eq_ok.mp hstore
    obtain rfl := access_unique hp hp'
    cases hstore
    cases h
    exact .inl ⟨hempty, alloc, mapError_eq_ok halloc, rfl⟩
  · next hvalid =>
    obtain ⟨u, hassert, h⟩ := bind_eq_ok.mp h
    cases h
    refine .inr ⟨?_, rfl, rfl⟩
    by_contra hne
    rw [assert_of_false hne] at hassert
    cases hassert

/-- What a call of `mmu_map` that returns has done. -/
theorem mmuMapAt_eq_ok {s s' : Mmu} {table va pa : Word} {flags : MapFlags}
    (h : mmuMapAt root s table va pa flags = .ok s') :
    ∃ level1 level2 level3 s₁ s₂ s₃ p,
      walkOrCreateAt root s table va 39 = .ok (level1, s₁) ∧
      walkOrCreateAt root s₁ level1 va 30 = .ok (level2, s₂) ∧
      walkOrCreateAt root s₂ level2 va 21 = .ok (level3, s₃) ∧
      access root s₃.mem true (walk level3 va 12) = .ok p ∧
      s' = { s₃ with mem := Function.update s₃.mem p (leafDescriptor pa flags) } := by
  unfold mmuMapAt at h
  obtain ⟨⟨level1, s₁⟩, h₁, h⟩ := bind_eq_ok.mp h
  obtain ⟨⟨level2, s₂⟩, h₂, h⟩ := bind_eq_ok.mp h
  obtain ⟨⟨level3, s₃⟩, h₃, h⟩ := bind_eq_ok.mp h
  obtain ⟨mem, hstore, h⟩ := bind_eq_ok.mp h
  obtain ⟨p, hp, hstore⟩ := bind_eq_ok.mp hstore
  cases hstore
  cases h
  exact ⟨level1, level2, level3, s₁, s₂, s₃, p, h₁, h₂, h₃, hp, rfl⟩

end Returns

/-! ## The map of boot.S -/

/-- A word of an array that starts at `start`, if `a` is one: its number. -/
def wordIndex (start a : Word) : Nat := (a.toNat - start.toNat) / 8

/-- `a` is one of the `n` words from `start` on. -/
def InWords (start : Word) (n : Nat) (a : Word) : Prop :=
  start.toNat ≤ a.toNat ∧ a.toNat < start.toNat + 8 * n ∧ (a.toNat - start.toNat) % 8 = 0

instance (start : Word) (n : Nat) (a : Word) : Decidable (InWords start n a) :=
  inferInstanceAs (Decidable (_ ∧ _))

/-- A store loop fills the words of its range and no others. -/
theorem fillWords_eq {flags stride a : Word} (n : Nat) (x0 x1 : Word) (m : PhysMem)
    (hx : x0.toNat + 8 * n < 2 ^ 64) : fillWords flags stride n x0 x1 m a =
      if InWords x0 n a then flags ||| (x1 + BitVec.ofNat 64 (wordIndex x0 a) * stride)
      else m a := by
  induction n generalizing x0 x1 m with
  | zero =>
      have hout : ¬ InWords x0 0 a := fun h => by
        obtain ⟨h₁, h₂, -⟩ := h
        omega
      rw [fillWords, if_neg hout]
  | succ n ih =>
      have hx8 : (x0 + 8).toNat = x0.toNat + 8 := by bv_omega
      rw [fillWords, ih (x0 + 8) (x1 + stride) _ (by omega)]
      by_cases ha : a = x0
      · subst ha
        have hfirst : InWords a (n + 1) a := ⟨by omega, by omega, by omega⟩
        have hrest : ¬ InWords (a + 8) n a := fun h => by
          have := h.1
          omega
        rw [if_pos hfirst, if_neg hrest, Function.update_self]
        simp [wordIndex]
      · have hne : a.toNat ≠ x0.toNat := fun h => ha (BitVec.eq_of_toNat_eq h)
        have hiff : InWords (x0 + 8) n a ↔ InWords x0 (n + 1) a := by
          unfold InWords
          omega
        rw [Function.update_of_ne ha]
        by_cases hin : InWords (x0 + 8) n a
        · have hnext : wordIndex x0 a = wordIndex (x0 + 8) a + 1 := by
            obtain ⟨h₁, -, -⟩ := hin
            unfold wordIndex
            omega
          have hval : x1 + stride + BitVec.ofNat 64 (wordIndex (x0 + 8) a) * stride =
              x1 + BitVec.ofNat 64 (wordIndex x0 a) * stride := by
            have hone : BitVec.ofNat 64 1 = 1 := rfl
            rw [hnext, BitVec.ofNat_add, hone]
            ring
          rw [if_pos hin, if_pos (hiff.mp hin), hval]
        · rw [if_neg hin, if_neg fun h => hin (hiff.mpr h)]

/-- The memory with the tables of `boot.S`. -/
def bootedRam (b : BootData) (m : PhysMem) : PhysMem := fun a =>
  if InWords (b.initPagetableLevel0 + 8 * 256) 256 a then
    3 ||| (b.physmapPagetableLevel1 +
      BitVec.ofNat 64 (wordIndex (b.initPagetableLevel0 + 8 * 256) a) * 4096)
  else if InWords b.physmapPagetableLevel1 (256 * 512) a then
    physmapFlags ||| (BitVec.ofNat 64 (wordIndex b.physmapPagetableLevel1 a) * 0x200000)
  else if a = b.initPagetableLevel0 then m a ||| b.initPagetableLevel1
  else m a

/-- What `boot.S` leaves in memory. -/
theorem bootPageTables_eq (b : BootData) (m : PhysMem) {fuel : Nat} (hfuel : 256 * 512 ≤ fuel) :
    bootPageTables b fuel m = some (bootedRam b m) := by
  have hbound := b.bound
  have hl0 := b.toNat_initPagetableLevel0
  have hl1 := b.toNat_physmapPagetableLevel1
  have hmid : (b.initPagetableLevel0 + 8 * 256).toNat = b.base.toNat + 0x1800 := by bv_omega
  simp only [bootPageTables, loadPhysmap_eq b hfuel, Option.bind_eq_bind, Option.bind_some]
  refine (loadPhysmap2_eq b (by omega) _).trans (congrArg some (funext fun a => ?_))
  rw [fillWords_eq 256 _ _ _ (by omega), fillWords_eq (256 * 512) _ _ _ (by omega), bootedRam]
  split
  · rfl
  · split
    · simp
    · by_cases ha : a = b.initPagetableLevel0
      · rw [if_pos ha, ha, Function.update_self]
      · rw [if_neg ha, Function.update_of_ne ha]

/-- The tables of `boot.S` are in memory. -/
structure Booted (b : BootData) (m : PhysMem) : Prop where
  tables : PhysmapTables b m
  root : PhysmapRoot b b.level0 m

theorem booted_bootedRam (b : BootData) (m : PhysMem) : Booted b (bootedRam b m) := by
  obtain ⟨fuel, hfuel⟩ : ∃ fuel, 256 * 512 ≤ fuel := ⟨_, Nat.le_refl _⟩
  obtain ⟨m', hrun, htables, hroot⟩ := bootPageTables_spec b m hfuel
  rw [bootPageTables_eq b m hfuel] at hrun
  rw [Option.some.inj hrun]
  exact ⟨htables, hroot⟩

/-- Where `logical_map(p)` is on the map of `boot.S`. -/
def bootAlias (p : Word) : Word :=
  .ofNat 64 (p.toNat / 2 ^ 30 / 512 * 2 ^ 30 + p.toNat % 2 ^ 30)

theorem toNat_bootAlias {p : Word} (hp : p.toNat < 2 ^ 47) :
    (bootAlias p).toNat = p.toNat / 2 ^ 30 / 512 * 2 ^ 30 + p.toNat % 2 ^ 30 := by
  rw [bootAlias, BitVec.toNat_ofNat]
  omega

theorem bootAlias_of_lt {p : Word} (hp : p.toNat < 2 ^ 30) : bootAlias p = p := by
  apply BitVec.eq_of_toNat_eq
  rw [toNat_bootAlias (by omega)]
  omega

/-- Every access through `logical_map` reaches its alias. -/
theorem Booted.access {b : BootData} {m : PhysMem} (h : Booted b m) {p : Word}
    (hp : p.toNat < 2 ^ 47) (write : Bool) :
    access b.initPagetableLevel0 m write (logicalMap p) = .ok (bootAlias p) := by
  obtain ⟨t, ht, hattributes, hout⟩ := exists_hwWalk_physmap h.tables h.root hp
  have hhigh : logicalMap p >>> 48 = 0xFFFF := by
    apply BitVec.eq_of_toNat_eq
    rw [BitVec.toNat_ushiftRight, toNat_logicalMap hp, Nat.shiftRight_eq_div_pow]
    show _ = 0xFFFF
    omega
  have hrights : t.Accessible ∧ (write = true → t.Writable) := by
    rw [Translation.Accessible, Translation.Writable, hattributes]
    exact ⟨by decide, fun _ => by decide⟩
  have haddr : t.outputAddress = bootAlias p := by
    apply BitVec.eq_of_toNat_eq
    rw [hout, toNat_bootAlias hp]
  rw [b.level0_addr] at ht
  rw [TeachingOs.access, ht]
  exact (if_pos ⟨.inr hhigh, hrights⟩).trans (congrArg Except.ok haddr)

/-! ## Below 1 GB -/

/-- The memory before the end of the image, with the tables of `boot.S`, has
not changed. -/
def SameBelow (k : KernelLayout) (mem m : PhysMem) : Prop :=
  ∀ w, w.toNat < k.imageEnd → m w = mem w

section Below

variable {k : KernelLayout} {mem m : PhysMem} {p val : Word}

theorem KernelLayout.boot_le_imageEnd (k : KernelLayout) :
    k.boot.base.toNat + 0x102000 ≤ k.imageEnd := by
  have h1 := k.boot_le_text
  have h2 := k.text_le
  have h3 := k.text_le_rodata
  have h4 := k.rodata_le
  have h5 := k.rodata_le_data
  have h6 := k.data_le
  have h7 := k.data_le_end
  unfold imageEnd
  omega

theorem SameBelow.refl (k : KernelLayout) (mem : PhysMem) : SameBelow k mem mem := fun _ _ => rfl

theorem SameBelow.update (h : SameBelow k mem m) (hp : k.imageEnd ≤ p.toNat) (val : Word) :
    SameBelow k mem (Function.update m p val) := by
  intro w hw
  have hne : w ≠ p := by
    rintro rfl
    omega
  rw [Function.update_of_ne hne]
  exact h w hw

theorem SameBelow.booted (h : SameBelow k mem m) (hboot : Booted k.boot mem) :
    Booted k.boot m := by
  have hend := k.boot_le_imageEnd
  have hl0 := k.boot.toNat_initPagetableLevel0
  have hl1 := k.boot.toNat_physmapPagetableLevel1
  refine ⟨fun i hi => ?_, fun j => ?_⟩
  · have hword : (k.boot.physmapPagetableLevel1 + BitVec.ofNat 64 (8 * i)).toNat =
        k.boot.base.toNat + 0x2000 + 8 * i := by
      have hbound := k.boot.bound
      rw [BitVec.toNat_add, BitVec.toNat_ofNat, hl1]
      omega
    rw [h _ (by omega)]
    exact hboot.tables i hi
  · have hj := j.isLt
    have hslot := k.boot.level0.toNat_slot ⟨256 + j, by omega⟩
    rw [k.boot.level0_addr, hl0] at hslot
    simp only at hslot
    rw [h _ (by omega)]
    exact hboot.root j

/-- A table below 1 GB: its slots are where `logical_map` says. -/
theorem Booted.access_slot (h : Booted k.boot m) {t : Frame} (ht : t.addr.toNat + 4096 ≤ 2 ^ 30)
    (i : Fin 512) (write : Bool) :
    TeachingOs.access k.boot.initPagetableLevel0 m write (logicalMap (t.slot i)) =
      .ok (t.slot i) := by
  have hslot := t.toNat_slot i
  have hi := i.isLt
  rw [h.access (by omega), bootAlias_of_lt (by omega)]

end Below

/-- The run on the map of `boot.S` beside the run with the identity: the same
valid descriptors behind the image, and nothing new before its end. -/
structure Beside (k : KernelLayout) (mem : PhysMem) (s t : Mmu) : Prop where
  follows : Follows s t
  below : SameBelow k mem t.mem

namespace Beside

variable {k : KernelLayout} {mem : PhysMem} {s s' t : Mmu} {f : Frame} {r v : Word} {shift : Nat}

/-- `walk_or_create` at a table below 1 GB. -/
theorem walkOrCreateAt (h : Beside k mem s t) (hboot : Booted k.boot mem)
    (hlow : k.imageEnd ≤ f.addr.toNat) (hhigh : f.addr.toNat + 4096 ≤ 2 ^ 30)
    (hok : walkOrCreate s f.addr v shift = .ok (r, s')) :
    ∃ t', TeachingOs.walkOrCreateAt k.boot.initPagetableLevel0 t f.addr v shift = .ok (r, t') ∧
      Beside k mem s' t' := by
  obtain ⟨t', hok', hfollows⟩ := h.follows.walkOrCreate hok
  have hbooted := h.below.booted hboot
  have hslot := f.toNat_slot (index v shift)
  refine ⟨t', ?_, hfollows, ?_⟩
  · simp only [TeachingOs.walkOrCreateAt, walk_frame, loadAt, storeAt, hbooted.access_slot hhigh,
      ok_bind, pure_eq_ok]
    simp only [walkOrCreate, walk_frame, load_logicalMap, store_logicalMap] at hok'
    split at hok'
    · next hempty =>
      rw [if_pos hempty]
      obtain ⟨⟨w, alloc⟩, hw, hok'⟩ := bind_eq_ok.mp hok'
      cases hok'
      rw [hw]
      rfl
    · next hvalid =>
      rw [if_neg hvalid]
      obtain ⟨u, hassert, hok'⟩ := bind_eq_ok.mp hok'
      cases hok'
      rw [hassert]
      rfl
  · simp only [walkOrCreate, walk_frame, load_logicalMap, store_logicalMap] at hok'
    split at hok'
    · obtain ⟨⟨w, alloc⟩, -, hok'⟩ := bind_eq_ok.mp hok'
      cases hok'
      exact h.below.update (by omega) _
    · obtain ⟨u, -, hok'⟩ := bind_eq_ok.mp hok'
      cases hok'
      exact h.below

/-- A page descriptor in a table below 1 GB. -/
theorem storeAt (h : Beside k mem s t) (hboot : Booted k.boot mem)
    (hlow : k.imageEnd ≤ f.addr.toNat) (hhigh : f.addr.toNat + 4096 ≤ 2 ^ 30) (v : Word)
    (shift : Nat) (d : Word) :
    TeachingOs.storeAt k.boot.initPagetableLevel0 t.mem (walk f.addr v shift) d =
        .ok (Function.update t.mem (f.slot (index v shift)) d) ∧
      Beside k mem { s with mem := Function.update s.mem (f.slot (index v shift)) d }
        { t with mem := Function.update t.mem (f.slot (index v shift)) d } := by
  have hslot := f.toNat_slot (index v shift)
  refine ⟨?_, ⟨h.follows.mem.update _ d, h.follows.alloc⟩, h.below.update (by omega) d⟩
  rw [TeachingOs.storeAt, walk_frame, (h.below.booted hboot).access_slot hhigh, ok_bind]
  rfl

end Beside

/-- The level-0 table that `mmu_init` fills, and the tables of the run with the
identity. -/
structure Filling (k : KernelLayout) (mem : PhysMem) (s t : Mmu) (root : Frame) (area : MemArea)
    (l : List (List (Fin 512))) : Prop extends Beside k mem s t where
  tabled : Tabled s root LowerHalf area l
  base : root.addr.toNat = k.imageEnd

section Filling

variable {k : KernelLayout} {mem : PhysMem} {s t : Mmu} {root : Frame} {area : MemArea}
  {l : List (List (Fin 512))} {v : Word}

/-- `mmu_map`, while the tables stay below 1 GB. -/
theorem Filling.mmuMapAt (h : Filling k mem s t root area l) (hboot : Booted k.boot mem)
    (hv : LowerHalf (index v 39)) (hend : area.endAddr.toNat < 2 ^ 62)
    (hroom : Room root area (createTables v l))
    (hlow : k.imageEnd + 4096 * (createTables v l).length ≤ 2 ^ 30) (pa : Word)
    (flags : MapFlags) : ∃ s' t', mmuMap s root.addr v pa flags = .ok s' ∧
      TeachingOs.mmuMapAt k.boot.initPagetableLevel0 t root.addr v pa flags = .ok t' ∧
      Filling k mem s' t' root area (createTables v l) := by
  have hbase := h.base
  obtain ⟨f₁, f₂, f₃, s₁, s₂, s₃, ⟨h₁, ht₁, hf₁⟩, ⟨h₂, ht₂, hf₂⟩, h₃, ht₃, hf₃⟩ :=
    h.tabled.walk hv hend hroom
  have hlen₀ := (sublist_createTables v l).length_le
  have hlen₂ := (sublist_addTable (tablePath v)
    (addTable [index v 39, index v 30] (addTable [index v 39] l))).length_le
  have hlen₁ := (sublist_addTable [index v 39, index v 30] (addTable [index v 39] l)).length_le
  rw [createTables] at hlow
  obtain ⟨-, hb₀⟩ := h.tabled.bounds (p := []) trivial (by simp) rfl
  obtain ⟨hb₁, hb₁'⟩ := ht₁.bounds (p := [_]) hv (by simp) hf₁
  obtain ⟨hb₂, hb₂'⟩ := ht₂.bounds (p := [_, _]) hv (by simp) hf₂
  obtain ⟨hb₃, hb₃'⟩ := ht₃.bounds (p := tablePath v) hv (Nat.le_refl 3) hf₃
  rw [createTables] at hlen₀ hb₃'
  obtain ⟨t₁, h₁', hs₁⟩ := h.walkOrCreateAt hboot (by omega) (by omega) h₁
  obtain ⟨t₂, h₂', hs₂⟩ := hs₁.walkOrCreateAt hboot (by omega) (by omega) h₂
  obtain ⟨t₃, h₃', hs₃⟩ := hs₂.walkOrCreateAt hboot (by omega) (by omega) h₃
  obtain ⟨hstore, hs'⟩ :=
    hs₃.storeAt (f := f₃) hboot (by omega) (by omega) v 12 (leafDescriptor pa flags)
  refine ⟨_, _, ?_, ?_, hs', ?_, hbase⟩
  · simp only [mmuMap, h₁, h₂, h₃, ok_bind, walk_frame, store_logicalMap]
    rfl
  · simp only [TeachingOs.mmuMapAt, h₁', h₂', h₃', hstore, ok_bind]
    rfl
  · exact ht₃.setPage (p := tablePath v) hv rfl hf₃ (leafDescriptor_and_three pa flags) _

/-- A run of `mmu_map` calls whose tables stay below 1 GB. -/
theorem Filling.mmuMapAllAt {calls : List MapCall} (h : Filling k mem s t root area l)
    (hboot : Booted k.boot mem) (hcalls : ∀ c ∈ calls, LowerHalf (index c.virtualAddress 39))
    (hend : area.endAddr.toNat < 2 ^ 62) (hroom : Room root area (createAll calls l))
    (hlow : k.imageEnd + 4096 * (createAll calls l).length ≤ 2 ^ 30) :
    ∃ s' t', mmuMapAll root.addr s calls = .ok s' ∧
      TeachingOs.mmuMapAllAt k.boot.initPagetableLevel0 root.addr t calls = .ok t' ∧
      Filling k mem s' t' root area (createAll calls l) := by
  induction calls generalizing s t l with
  | nil => exact ⟨s, t, rfl, rfl, h⟩
  | cons c calls ih =>
      rw [List.forall_mem_cons] at hcalls
      have hsub := sublist_createAll calls (createTables c.virtualAddress l)
      have hlen := Nat.mul_le_mul_left 4096 hsub.length_le
      obtain ⟨s₁, t₁, hmap, hmap', h₁⟩ := h.mmuMapAt hboot hcalls.1 hend (hroom.mono hsub)
        (Nat.le_trans (Nat.add_le_add_left hlen _) hlow) c.physicalAddress c.flags
      obtain ⟨s', t', hrun, hrun', h'⟩ := ih h₁ hcalls.2 hroom hlow
      refine ⟨s', t', ?_, ?_, h'⟩
      · rw [mmuMapAll, List.foldlM_cons, hmap, ok_bind]
        exact hrun
      · rw [TeachingOs.mmuMapAllAt, List.foldlM_cons, hmap', ok_bind]
        exact hrun'

end Filling

end TeachingOs
