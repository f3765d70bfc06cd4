import TeachingOs.Mmu.Denote

/-!
# TeachingOs.Mmu.Rights

The access rights that the hardware reads off a leaf descriptor, against the
flags of the `mmu_map` call that wrote it.  The access permission starts as 0,
which is `AP_K_RW`, so a page mapped with neither `PROT_WRITE` nor `PROT_READ`
can be written by the kernel.
-/

namespace TeachingOs

open RadixTree

/-! ## Rights -/

/-- The exception levels of user programs and of the kernel. -/
inductive ExceptionLevel where
  | el0 | el1

/-- A read is allowed: for the user by AP[1]. -/
def canRead (d : Word) : ExceptionLevel → Prop
  | .el0 => d.getLsbD 6 = true
  | .el1 => True

/-- A write is allowed: AP[2] makes a page read-only. -/
def canWrite (d : Word) : ExceptionLevel → Prop
  | .el0 => d.getLsbD 6 = true ∧ d.getLsbD 7 = false
  | .el1 => d.getLsbD 7 = false

/-- An instruction fetch is allowed.  What the user can write the kernel does
not execute, whatever PXN says. -/
def canExecute (d : Word) : ExceptionLevel → Prop
  | .el0 => d.getLsbD 54 = false
  | .el1 => d.getLsbD 53 = false ∧ ¬ canWrite d .el0

/-- The rights of a descriptor do not exceed the flags. -/
structure RightsWithin (d : Word) (flags : MapFlags) : Prop where
  write : ∀ el, canWrite d el → flags &&& PROT_WRITE ≠ 0
  user : canRead d .el0 ∨ canWrite d .el0 ∨ canExecute d .el0 → flags &&& PROT_USER ≠ 0
  execute : ∀ el, canExecute d el → flags &&& PROT_EXEC ≠ 0

/-- Every mapped address has the rights of the last call for its page. -/
def PageWithin (m : PhysMem) (root : Word) (calls : List MapCall) (v : Word) : Prop :=
  ∀ t, hwWalk m root v = some t →
    ∃ c, lastCall calls v = some c ∧ RightsWithin t.attributes c.flags

/-- The call asks for an access that `mmu_map` has a permission for, and its
physical address has no bit where a descriptor keeps the permission. -/
structure MapCall.Permitted (c : MapCall) : Prop where
  access : c.flags &&& PROT_WRITE ≠ 0 ∨ c.flags &&& PROT_READ ≠ 0 ∨
    c.physicalAddress.getLsbD 7 = true
  user : c.flags &&& PROT_USER ≠ 0 ∨ c.physicalAddress.getLsbD 6 = false

/-! ## Bits of a leaf descriptor -/

theorem getLsbD_leafDescriptor (pa : Word) (flags : MapFlags) (i : Nat) :
    (leafDescriptor pa flags).getLsbD i =
      (pa.getLsbD i || (leafAttributes flags).getLsbD i) := by
  have hd : leafDescriptor pa flags = pa ||| leafAttributes flags := by
    simp only [leafDescriptor, leafAttributes, BitVec.or_assoc]
  rw [hd, BitVec.getLsbD_or]

section Attributes

attribute [local simp] UXN PXN AF SH_INNER_SHAREABLE AP_K_RW AP_U_RW AP_K_R AP_U_R MAIR_IDX0
  MAIR_IDX1

theorem getLsbD_seven (flags : MapFlags) : (leafAttributes flags).getLsbD 7 = true ↔
    flags &&& PROT_WRITE = 0 ∧ flags &&& PROT_READ ≠ 0 := by
  simp only [leafAttributes, pteFlags, BitVec.getLsbD_or, decide_eq_true_eq]
  split_ifs <;> simp_all

theorem getLsbD_six (flags : MapFlags) : (leafAttributes flags).getLsbD 6 = true ↔
    flags &&& PROT_USER ≠ 0 ∧ (flags &&& PROT_WRITE ≠ 0 ∨ flags &&& PROT_READ ≠ 0) := by
  simp only [leafAttributes, pteFlags, BitVec.getLsbD_or, decide_eq_true_eq]
  split_ifs <;> simp_all

theorem getLsbD_fiftyFour (flags : MapFlags) : (leafAttributes flags).getLsbD 54 = true ↔
    flags &&& PROT_EXEC = 0 ∨ flags &&& PROT_USER = 0 := by
  simp only [leafAttributes, pteFlags, BitVec.getLsbD_or, decide_eq_true_eq]
  split_ifs <;> simp_all

theorem getLsbD_fiftyThree (flags : MapFlags) : (leafAttributes flags).getLsbD 53 = true ↔
    flags &&& PROT_EXEC = 0 := by
  simp only [leafAttributes, pteFlags, BitVec.getLsbD_or, decide_eq_true_eq]
  split_ifs <;> simp_all

end Attributes

/-- The bits of the permission are the same in the descriptor and in the
attributes that the hardware keeps of it. -/
theorem getLsbD_attributes {d : Word} {i : Nat} (hi : i < 64) (haddr : addrMask.getLsbD i = false) :
    (d &&& ~~~addrMask).getLsbD i = d.getLsbD i := by
  rw [BitVec.getLsbD_and, BitVec.getLsbD_not, haddr, decide_eq_true hi]
  simp

theorem rightsWithin_attributes {d : Word} {flags : MapFlags} :
    RightsWithin (d &&& ~~~addrMask) flags ↔ RightsWithin d flags := by
  have h6 := getLsbD_attributes (d := d) (i := 6) (by decide) (by decide)
  have h7 := getLsbD_attributes (d := d) (i := 7) (by decide) (by decide)
  have h53 := getLsbD_attributes (d := d) (i := 53) (by decide) (by decide)
  have h54 := getLsbD_attributes (d := d) (i := 54) (by decide) (by decide)
  have hread : ∀ el, canRead (d &&& ~~~addrMask) el ↔ canRead d el := by
    rintro (_ | _) <;> simp only [canRead, h6]
  have hwrite : ∀ el, canWrite (d &&& ~~~addrMask) el ↔ canWrite d el := by
    rintro (_ | _) <;> simp only [canWrite, h6, h7]
  have hexecute : ∀ el, canExecute (d &&& ~~~addrMask) el ↔ canExecute d el := by
    rintro (_ | _) <;> simp only [canExecute, hwrite, h53, h54]
  constructor
  · intro h
    refine ⟨fun el hel => h.write el ((hwrite el).mpr hel), fun hel => h.user ?_,
      fun el hel => h.execute el ((hexecute el).mpr hel)⟩
    rwa [hread, hwrite, hexecute]
  · intro h
    refine ⟨fun el hel => h.write el ((hwrite el).mp hel), fun hel => h.user ?_,
      fun el hel => h.execute el ((hexecute el).mp hel)⟩
    rwa [hread, hwrite, hexecute] at hel

section Leaf

variable {pa : Word} {flags : MapFlags} {i : Nat}

theorem leaf_eq_true : (leafDescriptor pa flags).getLsbD i = true ↔
    pa.getLsbD i = true ∨ (leafAttributes flags).getLsbD i = true := by
  rw [getLsbD_leafDescriptor, Bool.or_eq_true]

theorem leaf_eq_false : (leafDescriptor pa flags).getLsbD i = false ↔
    ¬ (pa.getLsbD i = true ∨ (leafAttributes flags).getLsbD i = true) := by
  rw [← leaf_eq_true, Bool.not_eq_true]

/-- A page that is not read-only was asked to be writable. -/
theorem write_of_leaf
    (haccess : flags &&& PROT_WRITE ≠ 0 ∨ flags &&& PROT_READ ≠ 0 ∨ pa.getLsbD 7 = true)
    (hd : (leafDescriptor pa flags).getLsbD 7 = false) : flags &&& PROT_WRITE ≠ 0 := by
  intro hzero
  have hnot := leaf_eq_false.mp hd
  rcases haccess with hw | hr | hpa
  · exact hw hzero
  · exact hnot (Or.inr ((getLsbD_seven flags).mpr ⟨hzero, hr⟩))
  · exact hnot (Or.inl hpa)

/-- A page of the user was asked to be one. -/
theorem user_of_leaf (huser : flags &&& PROT_USER ≠ 0 ∨ pa.getLsbD 6 = false)
    (hd : (leafDescriptor pa flags).getLsbD 6 = true) : flags &&& PROT_USER ≠ 0 := by
  rcases leaf_eq_true.mp hd with hpa | hattr
  · exact huser.resolve_right (by simp [hpa])
  · exact ((getLsbD_six flags).mp hattr).1

/-- What the user can execute was asked to be executable by the user. -/
theorem exec_user_of_leaf (hd : (leafDescriptor pa flags).getLsbD 54 = false) :
    flags &&& PROT_EXEC ≠ 0 ∧ flags &&& PROT_USER ≠ 0 := by
  have hnot := fun hattr => leaf_eq_false.mp hd (Or.inr ((getLsbD_fiftyFour flags).mpr hattr))
  exact ⟨fun hx => hnot (Or.inl hx), fun hu => hnot (Or.inr hu)⟩

/-- What the kernel can execute was asked to be executable. -/
theorem exec_of_leaf (hd : (leafDescriptor pa flags).getLsbD 53 = false) :
    flags &&& PROT_EXEC ≠ 0 :=
  fun hx => leaf_eq_false.mp hd (Or.inr ((getLsbD_fiftyThree flags).mpr hx))

/-- **Exactly when a leaf descriptor keeps to its flags**. -/
theorem rightsWithin_leafDescriptor :
    RightsWithin (leafDescriptor pa flags) flags ↔
      (flags &&& PROT_WRITE ≠ 0 ∨ flags &&& PROT_READ ≠ 0 ∨ pa.getLsbD 7 = true) ∧
      (flags &&& PROT_USER ≠ 0 ∨ pa.getLsbD 6 = false) := by
  constructor
  · intro h
    constructor
    · -- without a permission bit the page is left kernel-writable
      by_contra hnone
      rw [not_or, not_or] at hnone
      refine hnone.1 (h.write .el1 (leaf_eq_false.mpr ?_))
      rintro (hpa | hattr)
      · exact hnone.2.2 hpa
      · exact hnone.2.1 ((getLsbD_seven flags).mp hattr).2
    · by_contra hpa
      rw [not_or, Bool.not_eq_false] at hpa
      exact hpa.1 (h.user (Or.inl (leaf_eq_true.mpr (Or.inl hpa.2))))
  · rintro ⟨haccess, huser⟩
    refine ⟨?_, ?_, ?_⟩
    · rintro (_ | _) hel
      · exact write_of_leaf haccess hel.2
      · exact write_of_leaf haccess hel
    · rintro (hel | hel | hel)
      · exact user_of_leaf huser hel
      · exact user_of_leaf huser hel.1
      · exact (exec_user_of_leaf hel).2
    · rintro (_ | _) hel
      · exact (exec_user_of_leaf hel).1
      · exact exec_of_leaf hel.1

end Leaf

/-! ## Runs -/

/-- After a run from a root without valid slots the hardware finds the
descriptor of the last call. -/
theorem hwWalk_mmuMapAll {s s' : Mmu} {root : Frame} {calls : List MapCall}
    (hroot : ∀ i, s.mem (root.slot i) &&& 1 = 0) (hfresh : FreshFrames s.mem s.alloc root)
    (h : mmuMapAll root.addr s calls = .ok s') (v : Word) :
    hwWalk s'.mem root.addr v = (lastCall calls v).map fun c =>
      pageTranslation v (leafDescriptor c.physicalAddress c.flags) := by
  have hempty : ∀ i, (fun _ : Fin 512 => True) i → s.mem (root.slot i) &&& 1 = 0 :=
    fun i _ => hroot i
  have hall : ∀ p : List (Fin 512), Starts (fun _ => True) p := by
    intro p
    cases p <;> trivial
  obtain ⟨hinv, hpte⟩ := (mmuMapAll_spec (TreeInv.of_invalid hempty hfresh) calls
    (fun _ _ => trivial)).of_eq_ok h
  rw [hwWalk_eq hinv trivial, hpte v trivial, pteAt_of_invalid hempty (hall _) rfl,
    Option.or_none, Option.map_map]
  rfl

theorem permitted_iff (c : MapCall) (v : Word) : c.Permitted ↔
    RightsWithin (pageTranslation v (leafDescriptor c.physicalAddress c.flags)).attributes
      c.flags := by
  rw [pageTranslation, rightsWithin_attributes, rightsWithin_leafDescriptor]
  exact ⟨fun hc => ⟨hc.access, hc.user⟩, fun hc => ⟨hc.1, hc.2⟩⟩

/-- **Exactly when a page keeps to its flags**: after any run of `mmu_map`
calls from a root without valid slots, when the last call for the page asks
for reading or writing. -/
theorem pageWithin_iff (s : Mmu) (root : Frame) (calls : List MapCall)
    (hroot : ∀ i, s.mem (root.slot i) &&& 1 = 0) (hfresh : FreshFrames s.mem s.alloc root)
    {s' : Mmu} (h : mmuMapAll root.addr s calls = .ok s') (v : Word) :
    PageWithin s'.mem root.addr calls v ↔ ∀ c, lastCall calls v = some c → c.Permitted := by
  rw [PageWithin, hwWalk_mmuMapAll hroot hfresh h]
  cases hlast : lastCall calls v with
  | none => simp
  | some c => simp [permitted_iff c v]

/-! ## A single call -/

/-- Memory of zeroes with eight free frames behind the root. -/
def eightFrames : Mmu := ⟨fun _ => 0, ⟨fun _ => 0, 64, some ⟨[⟨0, 0x89000⟩]⟩, 0x80000⟩⟩

theorem eightFrames_invalid (i : Fin 512) :
    eightFrames.mem (Frame.slot ⟨0x80000, by decide⟩ i) &&& 1 = 0 := by
  change (0 : Word) &&& 1 = 0
  decide

theorem freshFrames_eightFrames :
    FreshFrames eightFrames.mem eightFrames.alloc ⟨0x80000, by decide⟩ := by
  have harea : eightFrames.alloc.earlySrc = some ⟨[⟨0, 0x89000⟩]⟩ := rfl
  exact FreshFrames.of_single harea (by decide) (by decide) (by decide) (by decide)
    (fun _ _ _ _ => rfl)

theorem eightFrames_ok (c : MapCall) : ∃ s', mmuMapAll 0x80000 eightFrames [c] = .ok s' := by
  have harea : eightFrames.alloc.earlySrc = some ⟨[⟨0, 0x89000⟩]⟩ := rfl
  have hroom : 0x80000 + 4096 * (3 * [c].length + 1) ≤ 0x89000 := by
    rw [List.length_singleton]
    decide
  obtain ⟨s', l, h, -⟩ := (mmuMapAll_spec (S := fun _ => True)
    (TreeInv.of_invalid (fun i _ => eightFrames_invalid i) freshFrames_eightFrames) [c]
    (fun _ _ => trivial)).exists_ok (Hands.single_room harea (by decide) hroom)
  exact ⟨s', h⟩

/-- A page that the user may read. -/
theorem pageWithin_iff_read : ∃ s',
    mmuMapAll 0x80000 eightFrames [⟨0x400000, 0x90000, PROT_READ ||| PROT_USER⟩] = .ok s' ∧
      (PageWithin s'.mem 0x80000 [⟨0x400000, 0x90000, PROT_READ ||| PROT_USER⟩] 0x400123 ↔
        ∀ c, lastCall [⟨0x400000, 0x90000, PROT_READ ||| PROT_USER⟩] 0x400123 = some c →
          c.Permitted) := by
  obtain ⟨s', h⟩ := eightFrames_ok ⟨0x400000, 0x90000, PROT_READ ||| PROT_USER⟩
  exact ⟨s', h, pageWithin_iff eightFrames ⟨0x80000, by decide⟩ _ eightFrames_invalid
    freshFrames_eightFrames h 0x400123⟩

/-- A page mapped to be executed only can be written by the kernel. -/
theorem not_pageWithin_execute : ¬ ∀ (s : Mmu) (root : Frame) (calls : List MapCall) (s' : Mmu)
    (v : Word), (∀ i, s.mem (root.slot i) &&& 1 = 0) → FreshFrames s.mem s.alloc root →
    mmuMapAll root.addr s calls = .ok s' → PageWithin s'.mem root.addr calls v := by
  intro h
  obtain ⟨s', hok⟩ := eightFrames_ok ⟨0x400000, 0x90000, PROT_EXEC⟩
  have hwalk := hwWalk_mmuMapAll eightFrames_invalid freshFrames_eightFrames hok 0x400000
  have hlast : lastCall [⟨0x400000, 0x90000, PROT_EXEC⟩] 0x400000 =
      some ⟨0x400000, 0x90000, PROT_EXEC⟩ := rfl
  rw [hlast, Option.map_some] at hwalk
  obtain ⟨c, hc, hwithin⟩ := h eightFrames ⟨0x80000, by decide⟩ _ s' 0x400000 eightFrames_invalid
    freshFrames_eightFrames hok _ hwalk
  rw [hlast, Option.some_inj] at hc
  rw [← hc] at hwithin
  have hpermitted := (permitted_iff ⟨0x400000, 0x90000, PROT_EXEC⟩ 0x400000).mpr hwithin
  have haccess := hpermitted.access
  revert haccess
  decide

end TeachingOs
