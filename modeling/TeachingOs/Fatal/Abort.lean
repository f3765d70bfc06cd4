import TeachingOs.Fatal.Trap
import TeachingOs.Mmu.KernelSpace
import TeachingOs.Mmu.Rights

/-!
# TeachingOs.Fatal.Abort

What the MMU makes of an access of the kernel once `mmu_init` has returned,
and what `aarch64_trapentry` says about it.

The hardware refuses an access to a page that is not mapped, or not with the
right that the access needs, and puts the reason and the level where its walk
ended into `ESR_EL1`.  `access_checked`: it lets through what the flags of the
`mmu_map` calls allow, and the headline of the report gives the reason for all
else.
-/

namespace TeachingOs.Fatal

open RadixTree Trap Printf

/-! ## The hardware -/

/-- The accesses of a program. -/
inductive AccessKind where
  | load
  | store
  | fetch
deriving DecidableEq, Repr

instance (d : Word) (el : ExceptionLevel) : Decidable (canRead d el) :=
  match el with
  | .el0 => inferInstanceAs (Decidable (_ = _))
  | .el1 => inferInstanceAs (Decidable True)

instance (d : Word) (el : ExceptionLevel) : Decidable (canWrite d el) :=
  match el with
  | .el0 => inferInstanceAs (Decidable (_ ∧ _))
  | .el1 => inferInstanceAs (Decidable (_ = _))

instance (d : Word) (el : ExceptionLevel) : Decidable (canExecute d el) :=
  match el with
  | .el0 => inferInstanceAs (Decidable (_ = _))
  | .el1 => inferInstanceAs (Decidable (_ ∧ _))

/-- The attributes of the page allow the access at EL1. -/
def AccessKind.Allowed (d : Word) : AccessKind → Prop
  | load => canRead d .el1
  | store => canWrite d .el1
  | fetch => canExecute d .el1

instance (d : Word) (kind : AccessKind) : Decidable (kind.Allowed d) :=
  match kind with
  | .load => inferInstanceAs (Decidable (canRead d .el1))
  | .store => inferInstanceAs (Decidable (canWrite d .el1))
  | .fetch => inferInstanceAs (Decidable (canExecute d .el1))

/-- The level of the table where the walk of `hwWalkFrom` ends. -/
def walkLevel (m : PhysMem) (v : Word) : Nat → Word → Nat
  | 0, _ => 3
  | k + 1, table =>
    let d := m (table + slotIndex v (12 + 9 * (k + 1)) * 8)
    if d &&& 3 = 3 then walkLevel m v k (d &&& addrMask) else 2 - k

/-- `ESR_EL1` of an abort that is taken without a change of the exception
level; the status is 1 for a translation fault, 2 for the access flag and 3
for a permission fault. -/
def AccessKind.syndrome (kind : AccessKind) (status : Word) (level : Nat) : Word :=
  (match kind with
  | load => 0x96000000
  | store => 0x96000040
  | fetch => 0x86000000) ||| status <<< 2 ||| BitVec.ofNat 64 level

/-- An access at EL1; `none` when it is let through. -/
def abortOf (m : PhysMem) (root v : Word) (kind : AccessKind) : Option Word :=
  let level := walkLevel m v 3 root
  match hwWalk m root v with
  | none => some (kind.syndrome 1 level)
  | some t =>
    if t.attributes &&& AF = 0 then some (kind.syndrome 2 level)
    else if ¬ kind.Allowed t.attributes then some (kind.syndrome 3 level)
    else none

/-! ## What it is for -/

/-- The page of `v` is one that `mmu_init` maps with these flags. -/
inductive Maps (k : KernelLayout) (endAddr v : Word) : MapFlags → Prop where
  | image {r : ImageRange} {u : Word} (hr : r ∈ k.ranges) (hlow : r.start ≤ u)
      (hhigh : u < r.endPtr) (hpage : pageNumber u = pageNumber v) : Maps k endAddr v r.flags
  | arrays (h : k.InArrays endAddr v) : Maps k endAddr v (PROT_READ ||| PROT_WRITE)

/-- The flag that stands for the access. -/
def AccessKind.right : AccessKind → MapFlags
  | load => PROT_READ
  | store => PROT_WRITE
  | fetch => PROT_EXEC

/-- The first line of the report. -/
def abortLine (kind : AccessKind) (fault : String) (level : Nat) : List Char :=
  if kind = .fetch then "Synchronous: Instruction abort, same EL ".toList
  else "Synchronous: Data abort, same EL, ".toList ++ fault.toList ++ " at level ".toList ++
    decimalText (BitVec.ofNat 64 level)

/-! ## Levels -/

section Level

variable {m : PhysMem} {a : PageTableAlloc} {root t f : Frame} {S : Fin 512 → Prop} {v : Word}
  {k : Nat}

theorem walkLevel_table (hd : TableDesc (m (t.slot (index v (12 + 9 * (k + 1))))))
    (hf : childTable (m (t.slot (index v (12 + 9 * (k + 1))))) = some f) :
    walkLevel m v (k + 1) t.addr = walkLevel m v k f.addr := by
  rw [walkLevel]
  simp only [t.add_slotIndex]
  rcases hd with hd | ⟨g, hd⟩
  · rw [childTable_of_invalid hd] at hf
    cases hf
  · rw [hd, childTable_table, Option.some.injEq] at hf
    subst hf
    have hthree : (g.addr ||| 3) &&& 3 = 3 := by
      rw [g.or_and_attr 3 (by decide)]; decide
    rw [hd, if_pos hthree, g.or_and_addrMask (by decide)]

/-- The tree has no blocks: the walk of a mapped page ends at level 3. -/
theorem walkLevel_of_hwWalk (hinv : TreeInv m a root S) (hS : S (index v 39)) {tr : Translation}
    (h : hwWalk m root.addr v = some tr) : walkLevel m v 3 root.addr = 3 := by
  have h0 : pageLayout.descend m root [] = some root := rfl
  have hstep : ∀ {p : List (Fin 512)} {t f : Frame} {i : Fin 512},
      pageLayout.descend m root p = some t → childTable (m (t.slot i)) = some f →
      pageLayout.descend m root (p ++ [i]) = some f := by
    intro p t f i hp hf
    rw [Layout.descend_concat, hp]
    exact hf
  have htable0 := hinv.table (p := []) (index v 39) hS (by simp) h0
  rw [hwWalk, hwWalkFrom_table (k := 2) htable0, Option.bind_eq_some_iff] at h
  obtain ⟨f1, hf1, h⟩ := h
  have htable1 := hinv.table (p := [_]) (index v 30) hS (by simp) (hstep h0 hf1)
  rw [hwWalkFrom_table (k := 1) htable1, Option.bind_eq_some_iff] at h
  obtain ⟨f2, hf2, h⟩ := h
  have htable2 := hinv.table (p := [_, _]) (index v 21) hS (by simp) (hstep (hstep h0 hf1) hf2)
  rw [hwWalkFrom_table (k := 0) htable2, Option.bind_eq_some_iff] at h
  obtain ⟨f3, hf3, -⟩ := h
  rw [walkLevel_table (k := 2) htable0 hf1, walkLevel_table (k := 1) htable1 hf2,
    walkLevel_table (k := 0) htable2 hf3, walkLevel]

theorem walkLevel_le (m : PhysMem) (v table : Word) (k : Nat) : walkLevel m v k table ≤ 3 := by
  induction k generalizing table with
  | zero => exact Nat.le_refl 3
  | succ k ih =>
      simp only [walkLevel]
      split
      · exact ih _
      · omega

end Level

/-! ## Rights -/

theorem accessible_leafAttributes (flags : MapFlags) : leafAttributes flags &&& AF ≠ 0 := by
  intro h
  have hbit := congrArg (·.getLsbD 10) h
  simp [leafAttributes, AF] at hbit

/-- The flags of `mmu_init`'s calls. -/
theorem allowed_leafAttributes {flags : MapFlags} (h : flags = PROT_EXEC ||| PROT_READ ∨
    flags = PROT_READ ∨ flags = PROT_READ ||| PROT_WRITE) (kind : AccessKind) :
    kind.Allowed (leafAttributes flags) ↔ flags &&& kind.right ≠ 0 := by
  rcases h with rfl | rfl | rfl <;> cases kind <;> decide

section Space

variable {k : KernelLayout} {endAddr v : Word} {s : Mmu} {root : Frame} {calls : List MapCall}
  {flags flags' : MapFlags} {kind : AccessKind}

theorem Maps.cases_flags (h : Maps k endAddr v flags) : flags = PROT_EXEC ||| PROT_READ ∨
    flags = PROT_READ ∨ flags = PROT_READ ||| PROT_WRITE := by
  cases h with
  | image hr =>
      simp only [KernelLayout.ranges, List.mem_cons, List.not_mem_nil, or_false] at hr
      rcases hr with rfl | rfl | rfl
      · exact .inl rfl
      · exact .inr (.inl rfl)
      · exact .inr (.inr rfl)
  | arrays => exact .inr (.inr rfl)

/-- A mapped page has a call. -/
theorem Maps.exists_call (h : Maps k endAddr v flags) (harrays : ArrayCalls k endAddr calls) :
    ∃ c ∈ k.imageCalls ++ calls, c.flags = flags ∧
      pageNumber c.virtualAddress = pageNumber v := by
  cases h with
  | @image r u hr hlow hhigh hpage =>
      obtain ⟨i, hi, hstart⟩ := ImageRange.exists_call hlow hhigh
      have hcall : r.call i ∈ k.imageCalls := KernelLayout.mem_imageCalls.mpr ⟨r, hr, i, hi, rfl⟩
      refine ⟨r.call i, List.mem_append_left _ hcall, rfl, ?_⟩
      rw [← hpage, pageNumber, pageNumber, (ImageRange.toNat_call hi).1, hstart]
      omega
  | arrays h =>
      obtain ⟨c, hc, hpage⟩ := harrays.exists_call h
      exact ⟨c, List.mem_append_right _ hc, (harrays.call c hc).flags, hpage⟩

/-- The page of a call is mapped. -/
theorem maps_of_call {c : MapCall} (harrays : ArrayCalls k endAddr calls)
    (hc : c ∈ k.imageCalls ++ calls) (hpage : pageNumber c.virtualAddress = pageNumber v) :
    Maps k endAddr v c.flags := by
  rcases List.mem_append.mp hc with hc | hc
  · obtain ⟨r, hr, i, hi, rfl⟩ := KernelLayout.mem_imageCalls.mp hc
    obtain ⟨hva, hlt⟩ := ImageRange.toNat_call hi
    exact .image hr (u := (r.call i).virtualAddress) (by bv_omega) (by bv_omega) hpage
  · obtain ⟨u, hlow, hhigh, hu⟩ := harrays.inArrays hc
    rw [(harrays.call c hc).flags]
    exact .arrays ⟨u, hlow, hhigh, hu.trans hpage⟩

/-- The flags of a page are the only ones. -/
theorem maps_unique (harrays : ArrayCalls k endAddr calls)
    (h : KernelSpace k endAddr s root (k.imageCalls ++ calls)) (hm : Maps k endAddr v flags)
    (hm' : Maps k endAddr v flags') : flags = flags' := by
  obtain ⟨c, hc, rfl, hpage⟩ := hm.exists_call harrays
  obtain ⟨c', hc', rfl, hpage'⟩ := hm'.exists_call harrays
  rw [h.apart c hc c' hc' (.inl (hpage.trans hpage'.symm))]

/-- On a mapped page the flags decide. -/
theorem abortOf_of_maps (harrays : ArrayCalls k endAddr calls)
    (h : KernelSpace k endAddr s root (k.imageCalls ++ calls)) (hv : LowerHalf (index v 39))
    (hm : Maps k endAddr v flags) (kind : AccessKind) :
    abortOf s.mem root.addr v kind =
      if flags &&& kind.right ≠ 0 then none else some (kind.syndrome 3 3) := by
  obtain ⟨c, hc, hflags, hpage⟩ := hm.exists_call harrays
  have hwalk : hwWalk s.mem root.addr v = some (c.translation v) := by
    rw [h.hwWalk_eq hv, h.lastCall_eq hc hpage, Option.map_some]
  have hattributes : (c.translation v).attributes = leafAttributes flags := by
    rw [MapCall.translation, hflags]
  have hallowed := allowed_leafAttributes hm.cases_flags kind
  simp only [abortOf, hwalk, hattributes, if_neg (accessible_leafAttributes flags),
    walkLevel_of_hwWalk h.inv hv hwalk, hallowed]
  split_ifs <;> rfl

/-- On any other page every access is a translation fault. -/
theorem abortOf_of_not_maps (harrays : ArrayCalls k endAddr calls)
    (h : KernelSpace k endAddr s root (k.imageCalls ++ calls)) (hv : LowerHalf (index v 39))
    (hm : ∀ flags, ¬ Maps k endAddr v flags) (kind : AccessKind) :
    abortOf s.mem root.addr v kind =
      some (kind.syndrome 1 (walkLevel s.mem v 3 root.addr)) := by
  have hwalk : hwWalk s.mem root.addr v = none := by
    by_contra hne
    obtain ⟨t, ht⟩ := Option.ne_none_iff_exists'.mp hne
    obtain ⟨c, hc, hpage, -⟩ := h.exists_call hv ht
    exact hm _ (maps_of_call harrays hc hpage)
  simp only [abortOf, hwalk]

/-! ## The report -/

theorem headline_data {tf : Trapframe} (h : tf.type = 0b100101) :
    headline "Synchronous" tf = "Synchronous: Data abort, same EL, ".toList ++
      (faultName (tf.esr >>> 2 &&& 3)).toList ++ " at level ".toList ++
      decimalText (tf.esr &&& 3) := by
  have hname : typeName tf.type = "Data abort, same EL" := by rw [h]; rfl
  rw [headline, if_pos (.inr h), hname]
  rfl

theorem headline_instruction {tf : Trapframe} (h : tf.type = 0b100001) :
    headline "Synchronous" tf = "Synchronous: Instruction abort, same EL ".toList := by
  have hname : typeName tf.type = "Instruction abort, same EL" := by rw [h]; rfl
  have hnot : ¬ tf.IsDataAbort := by
    rw [Trapframe.IsDataAbort, h]
    decide
  rw [headline, if_neg hnot, hname]
  rfl

section Syndrome

variable {status : Word} {level : Nat}

theorem type_syndrome (kind : AccessKind) (hstatus : status = 1 ∨ status = 3) (hlevel : level ≤ 3) :
    kind.syndrome status level >>> 26 = if kind = .fetch then 0b100001 else 0b100101 := by
  rcases hstatus with rfl | rfl <;> interval_cases level <;> cases kind <;> rfl

theorem fault_syndrome (kind : AccessKind) (hstatus : status = 1 ∨ status = 3)
    (hlevel : level ≤ 3) : kind.syndrome status level >>> 2 &&& 3 = status := by
  rcases hstatus with rfl | rfl <;> interval_cases level <;> cases kind <;> rfl

theorem level_syndrome (kind : AccessKind) (hstatus : status = 1 ∨ status = 3)
    (hlevel : level ≤ 3) : kind.syndrome status level &&& 3 = BitVec.ofNat 64 level := by
  rcases hstatus with rfl | rfl <;> interval_cases level <;> cases kind <;> rfl

/-- What the handler makes of the syndrome. -/
theorem headline_syndrome (kind : AccessKind) (hstatus : status = 1 ∨ status = 3)
    (hlevel : level ≤ 3) (elr spsr far : Word) :
    headline "Synchronous" ⟨4, kind.syndrome status level, elr, spsr, far⟩ =
      abortLine kind (faultName status) level := by
  obtain ⟨tf, htf⟩ : ∃ tf : Trapframe, tf = ⟨4, kind.syndrome status level, elr, spsr, far⟩ :=
    ⟨_, rfl⟩
  have hesr : tf.esr = kind.syndrome status level := by rw [htf]
  have htype : tf.type = if kind = .fetch then 0b100001 else 0b100101 := by
    rw [Trapframe.type, hesr, type_syndrome kind hstatus hlevel]
  rw [← htf]
  by_cases hkind : kind = .fetch
  · rw [if_pos hkind] at htype
    rw [headline_instruction htype, abortLine, if_pos hkind]
  · rw [if_neg hkind] at htype
    rw [headline_data htype, hesr, fault_syndrome kind hstatus hlevel,
      level_syndrome kind hstatus hlevel, abortLine, if_neg hkind]

end Syndrome

end Space

/-! ## After mmu_init -/

section Init

variable {k : KernelLayout} {endAddr : Word} {mem : PhysMem} {ram : LinkedList.Heap FramePtr}

/-- **The accesses of the kernel** to its half of the address space, once
`mmu_init` has returned: the hardware lets through exactly those that the flags
of the page allow, and the report on any other one says that the page has no
such right, or how far it is from being mapped. -/
theorem access_checked (hend : endAddr.toNat ≤ 2 ^ 30)
    (hzero : ∀ w : Word, k.imageEnd ≤ w.toNat → mem w = 0)
    (hroom : k.imageEnd + 4096 * initFrames k endAddr ≤ endAddr.toNat) :
    ∃ after root, mmuInit k ⟨[⟨0, endAddr⟩]⟩ (bootState mem ram) = .ok after ∧
      after.kPageTable = root ∧ ∀ v kind, LowerHalf (index v 39) →
        (abortOf after.mmu.mem root v kind = none ↔
          ∃ flags, Maps k endAddr v flags ∧ flags &&& kind.right ≠ 0) ∧
        ∀ esr elr spsr, abortOf after.mmu.mem root v kind = some esr →
          ((∃ flags, Maps k endAddr v flags) → headline "Synchronous" ⟨4, esr, elr, spsr, v⟩ =
            abortLine kind "Permission fault" 3) ∧
          ((∀ flags, ¬ Maps k endAddr v flags) →
            headline "Synchronous" ⟨4, esr, elr, spsr, v⟩ =
              abortLine kind "Translation fault" (walkLevel after.mmu.mem v 3 root)) := by
  have hend' : endAddr.toNat ≤ 2 ^ 48 := by omega
  obtain ⟨after, root, calls, hrun, hroot, harrays, h⟩ :=
    @KernelSpace.exists_mmuInit k endAddr mem ram hend' hzero hroom
  refine ⟨after, root.addr, hrun, hroot, fun v kind hv => ⟨?_, fun esr elr spsr hesr => ⟨?_, ?_⟩⟩⟩
  · constructor
    · intro hnone
      by_cases hm : ∃ flags, Maps k endAddr v flags
      · obtain ⟨flags, hm⟩ := hm
        rw [abortOf_of_maps harrays h hv hm] at hnone
        exact ⟨flags, hm, by simpa using hnone⟩
      · rw [abortOf_of_not_maps harrays h hv (not_exists.mp hm)] at hnone
        cases hnone
    · rintro ⟨flags, hm, hright⟩
      rw [abortOf_of_maps harrays h hv hm, if_pos hright]
  · rintro ⟨flags, hm⟩
    rw [abortOf_of_maps harrays h hv hm] at hesr
    split_ifs at hesr
    cases hesr
    exact headline_syndrome kind (.inr rfl) (Nat.le_refl 3) elr spsr v
  · intro hm
    rw [abortOf_of_not_maps harrays h hv hm] at hesr
    cases hesr
    exact headline_syndrome kind (.inl rfl) (walkLevel_le ..) elr spsr v

/-- On the gigabyte that `aarch64_boot` passes. -/
theorem access_checked_rpi : ∃ after root,
    mmuInit rpiLayout ⟨[⟨0, 0x40000000⟩]⟩ (bootState (fun _ => 0) fun _ => ⟨.null, .null⟩) =
      .ok after ∧
    after.kPageTable = root ∧ ∀ v kind, LowerHalf (index v 39) →
      (abortOf after.mmu.mem root v kind = none ↔
        ∃ flags, Maps rpiLayout 0x40000000 v flags ∧ flags &&& kind.right ≠ 0) ∧
      ∀ esr elr spsr, abortOf after.mmu.mem root v kind = some esr →
        ((∃ flags, Maps rpiLayout 0x40000000 v flags) →
          headline "Synchronous" ⟨4, esr, elr, spsr, v⟩ = abortLine kind "Permission fault" 3) ∧
        ((∀ flags, ¬ Maps rpiLayout 0x40000000 v flags) →
          headline "Synchronous" ⟨4, esr, elr, spsr, v⟩ =
            abortLine kind "Translation fault" (walkLevel after.mmu.mem v 3 root)) :=
  access_checked (by decide) (fun _ _ => rfl) rpiLayout_room

end Init

end TeachingOs.Fatal
