import TeachingOs.Mmu.Access

/-!
# TeachingOs.Mmu.Scrawl

A run of `mmu_map` calls that does not know where it writes.  Once a table lies
where `logical_map` does not lead, its slots are some other words, perhaps of
the map itself.  What is stored stays the same: the links to the pages taken
and the descriptors of the calls (`Written`).  When a memory holds nothing else
(`Scrawled`), the hardware finds one of these or nothing
(`Scrawled.hwWalkFrom`).
-/

namespace TeachingOs

/-! ## Cold RAM -/

/-- What `.data.boot` holds before `boot.S` runs: the blocks of the first
gigabyte and of the devices, and the bits of the link to them. -/
def BootData.image (b : BootData) : PhysMem :=
  Function.update (Function.update (Function.update (fun _ => 0)
    b.initPagetableLevel1 (1 ||| (1 <<< 10) ||| (3 <<< 8)))
    (b.initPagetableLevel1 + 8) (1 ||| (1 <<< 10) ||| (3 <<< 8) ||| (1 <<< 2) ||| 0xC0000000))
    b.initPagetableLevel0 3

/-- The physical address behind `.data.boot`. -/
def BootData.bootEnd (b : BootData) : Nat := b.base.toNat + 0x102000

/-- RAM that is zero but for `.data.boot`, as `boot.S` leaves it. -/
def coldRam (b : BootData) : PhysMem := bootedRam b b.image

section Cold

variable {b : BootData} {w : Word}

theorem booted_coldRam (b : BootData) : Booted b (coldRam b) := booted_bootedRam b b.image

theorem image_of_ge (hw : b.base.toNat + 0x1008 ≤ w.toNat) : b.image w = 0 := by
  have hbound := b.bound
  have hl0 := b.toNat_initPagetableLevel0
  have hne : ∀ p : Word, p.toNat < w.toNat → w ≠ p := by
    rintro p hp rfl
    omega
  have hl1 : b.initPagetableLevel1.toNat = b.base.toNat := rfl
  have hdev : (b.initPagetableLevel1 + 8).toNat = b.base.toNat + 8 := by bv_omega
  rw [BootData.image, Function.update_of_ne (hne _ (by omega)),
    Function.update_of_ne (hne _ (by omega)), Function.update_of_ne (hne _ (by omega))]

/-- `boot.S` writes `.data.boot` only. -/
theorem bootedRam_of_ge {m : PhysMem} (hw : b.bootEnd ≤ w.toNat) : bootedRam b m w = m w := by
  have hbound := b.bound
  have hl0 := b.toNat_initPagetableLevel0
  have hl1 := b.toNat_physmapPagetableLevel1
  have hmid : (b.initPagetableLevel0 + 8 * 256).toNat = b.base.toNat + 0x1800 := by bv_omega
  unfold BootData.bootEnd at hw
  have hupper : ¬ InWords (b.initPagetableLevel0 + 8 * 256) 256 w := fun h => by
    have := h.2.1
    omega
  have htables : ¬ InWords b.physmapPagetableLevel1 (256 * 512) w := fun h => by
    have := h.2.1
    omega
  have hroot : w ≠ b.initPagetableLevel0 := by
    rintro rfl
    omega
  rw [bootedRam, if_neg hupper, if_neg htables, if_neg hroot]

theorem coldRam_of_ge (hw : b.bootEnd ≤ w.toNat) : coldRam b w = 0 := by
  rw [coldRam, bootedRam_of_ge hw]
  unfold BootData.bootEnd at hw
  exact image_of_ge (by omega)

/-- Of the words in `.data.boot` only the link is a table's. -/
theorem eq_of_image (hw : b.image w &&& 3 = 3) : w = b.initPagetableLevel0 := by
  by_contra hl0
  rw [BootData.image, Function.update_of_ne hl0] at hw
  by_cases hdev : w = b.initPagetableLevel1 + 8
  · rw [hdev, Function.update_self] at hw
    exact absurd hw (by decide)
  · rw [Function.update_of_ne hdev] at hw
    by_cases hl1 : w = b.initPagetableLevel1
    · rw [hl1, Function.update_self] at hw
      exact absurd hw (by decide)
    · rw [Function.update_of_ne hl1] at hw
      exact absurd hw (by decide)

/-- The upper half of the level-0 table links to the tables of the logical
map. -/
theorem exists_physmapTable (hupper : InWords (b.initPagetableLevel0 + 8 * 256) 256 w) :
    ∃ j, bootedRam b b.image w = (b.physmapTable j).addr ||| 3 := by
  have hj : wordIndex (b.initPagetableLevel0 + 8 * 256) w < 256 := by
    have := hupper.2.1
    unfold wordIndex
    omega
  have hmul : BitVec.ofNat 64 (wordIndex (b.initPagetableLevel0 + 8 * 256) w) * 4096 =
      BitVec.ofNat 64 (4096 * wordIndex (b.initPagetableLevel0 + 8 * 256) w) := by
    bv_omega
  refine ⟨⟨_, hj⟩, ?_⟩
  rw [bootedRam, if_pos hupper, BitVec.or_comm, hmul]
  rfl

/-- The table descriptors are the links between the tables of `boot.S`. -/
theorem coldRam_table (hw : coldRam b w &&& 3 = 3) :
    ∃ f : Frame, coldRam b w = f.addr ||| 3 ∧ f.addr.toNat + 4096 ≤ b.bootEnd := by
  have hbound := b.bound
  have haligned := b.aligned
  unfold BootData.bootEnd
  rw [coldRam] at hw ⊢
  by_cases hupper : InWords (b.initPagetableLevel0 + 8 * 256) 256 w
  · obtain ⟨j, hj⟩ := exists_physmapTable hupper
    have htable : (b.physmapTable j).addr.toNat = b.base.toNat + 0x2000 + 4096 * j :=
      b.toNat_physmapTable j
    have hlt := j.isLt
    exact ⟨b.physmapTable j, hj, by omega⟩
  · rw [bootedRam, if_neg hupper] at hw ⊢
    by_cases hin : InWords b.physmapPagetableLevel1 (256 * 512) w
    · have hn : wordIndex b.physmapPagetableLevel1 w < 256 * 512 := by
        have := hin.2.1
        unfold wordIndex
        omega
      have hblock := (physmapBlock _ hn).or_and_attr physmapFlags (c := 3) (by decide)
      rw [if_pos hin, BitVec.or_comm] at hw
      exact absurd (hblock.symm.trans hw) (by decide)
    · rw [if_neg hin] at hw ⊢
      by_cases hroot : w = b.initPagetableLevel0
      · have hframe : IsFrame b.initPagetableLevel1 := ⟨haligned, by
          rw [BootData.initPagetableLevel1]
          omega⟩
        have himage : b.image b.initPagetableLevel0 = 3 := Function.update_self ..
        refine ⟨⟨_, hframe.masked⟩, ?_, ?_⟩
        · rw [if_pos hroot, hroot, himage, BitVec.or_comm]
        · show b.base.toNat + 4096 ≤ _
          omega
      · rw [if_neg hroot] at hw
        exact absurd (eq_of_image hw) hroot

end Cold

/-! ## What is written -/

/-- A word that the calls store while they take `n` pages behind the root: the
link to a page, or the descriptor of a call. -/
inductive Written (k : KernelLayout) (n : Nat) (calls : List MapCall) : Word → Prop where
  | link (f : Frame) (hlow : k.imageEnd ≤ f.addr.toNat)
      (hhigh : f.addr.toNat ≤ k.imageEnd + 4096 * n) : Written k n calls (f.addr ||| 3)
  | page (c : MapCall) (hc : c ∈ calls) :
      Written k n calls (leafDescriptor c.physicalAddress c.flags)

/-- The words from `bound` on are as `boot.S` left them or written by the calls,
and the allocator takes the pages behind the image. -/
structure Scrawled (k : KernelLayout) (bound n : Nat) (calls : List MapCall) (s : Mmu) :
    Prop where
  src : ∃ area, s.alloc.earlySrc = some ⟨[area]⟩
  aligned : s.alloc.earlyLast.toNat % 4096 = 0
  low : k.imageEnd ≤ s.alloc.earlyLast.toNat
  high : s.alloc.earlyLast.toNat ≤ k.imageEnd + 4096 * n
  words : ∀ w, bound ≤ w.toNat → s.mem w = coldRam k.boot w ∨ Written k n calls (s.mem w)

namespace KernelLayout

variable {k : KernelLayout} {c : MapCall}

theorem bootEnd_le (k : KernelLayout) : k.boot.bootEnd ≤ k.imageEnd := k.boot_le_imageEnd

/-- The pages of the image lie between `.data.boot` and its end. -/
theorem call_bounds (hc : c ∈ k.imageCalls) : k.boot.bootEnd ≤ c.physicalAddress.toNat ∧
    c.physicalAddress.toNat + 4096 ≤ k.imageEnd := by
  obtain ⟨r, hr, i, hi, rfl⟩ := mem_imageCalls.mp hc
  have hpa := ImageRange.toNat_physicalAddress hi
  obtain ⟨-, hlt⟩ := ImageRange.toNat_call hi
  have haligned := r.aligned
  have hend := k.end_aligned
  have hlimits : k.boot.base.toNat + 0x102000 + 0xFFFF000000000000 ≤ r.start.toNat ∧
      r.endPtr.toNat ≤ k.kernEnd.toNat := by
    have h1 := k.boot_le_text
    have h2 := k.text_le
    have h3 := k.text_le_rodata
    have h4 := k.rodata_le
    have h5 := k.rodata_le_data
    have h6 := k.data_le
    have h7 := k.data_le_end
    simp only [ranges, List.mem_cons, List.not_mem_nil, or_false] at hr
    rcases hr with rfl | rfl | rfl <;> simp only [text, rodata, data] <;> omega
  unfold BootData.bootEnd imageEnd
  omega

/-- No two calls are for one physical page. -/
theorem call_unique_physical {d : MapCall} (hc : c ∈ k.imageCalls) (hd : d ∈ k.imageCalls)
    (h : c.physicalAddress = d.physicalAddress) : c = d := by
  have hbase : ∀ {c : MapCall}, c ∈ k.imageCalls →
      c.physicalAddress = c.virtualAddress - KERNEL_VIRTUAL_BASE := by
    intro c hc
    obtain ⟨r, -, i, -, rfl⟩ := mem_imageCalls.mp hc
    rfl
  have hva : c.virtualAddress = d.virtualAddress := by
    rw [hbase hc, hbase hd] at h
    exact (BitVec.sub_left_inj _).mp h
  exact call_unique hc hd (congrArg pageNumber hva)

end KernelLayout

theorem leafDescriptor_and_addrMask (f : Frame) (flags : MapFlags) :
    leafDescriptor f.addr flags &&& addrMask = f.addr := by
  have hd : leafDescriptor f.addr flags = f.addr ||| leafAttributes flags := by
    simp only [leafDescriptor, leafAttributes, BitVec.or_assoc]
  rw [hd, f.or_and_addrMask (leafAttributes_and_addrMask flags)]

namespace Written

variable {k : KernelLayout} {n n' : Nat} {calls : List MapCall} {d : Word}

theorem mono (h : Written k n calls d) (hn : n ≤ n') : Written k n' calls d := by
  cases h with
  | link f hlow hhigh => exact .link f hlow (by omega)
  | page c hc => exact .page c hc

theorem and_three (h : Written k n calls d) : d &&& 3 = 3 := by
  cases h with
  | link f => rw [f.or_and_attr 3 (by decide)]; decide
  | page c => exact leafDescriptor_and_three c.physicalAddress c.flags

/-- A descriptor names a page of the image or one behind it. -/
theorem frame_ge (h : Written k n calls d) (hcalls : ∀ c ∈ calls, c ∈ k.imageCalls) :
    k.boot.bootEnd ≤ (frameOf d).addr.toNat := by
  cases h with
  | link f hlow =>
      show k.boot.bootEnd ≤ ((f.addr ||| 3) &&& addrMask).toNat
      rw [f.or_and_addrMask (by decide)]
      exact k.bootEnd_le.trans hlow
  | page c hc =>
      have hframe := KernelLayout.isFrame_call (hcalls c hc)
      have hpage : (frameOf (leafDescriptor c.physicalAddress c.flags)).addr = c.physicalAddress :=
        leafDescriptor_and_addrMask ⟨_, hframe.masked⟩ c.flags
      rw [hpage]
      exact (KernelLayout.call_bounds (hcalls c hc)).1

end Written

namespace Scrawled

variable {k : KernelLayout} {bound n n' : Nat} {calls : List MapCall} {s s' : Mmu}
  {root table addr r p d : Word} {shift : Nat}

theorem mono (h : Scrawled k bound n calls s) (hn : n ≤ n') : Scrawled k bound n' calls s := by
  have hhigh := h.high
  exact ⟨h.src, h.aligned, h.low, by omega, fun w hw => (h.words w hw).imp id (·.mono hn)⟩

/-- A store of such a word, wherever it lands; below the bound any store will do. -/
theorem update (h : Scrawled k bound n calls s) (hd : p.toNat < bound ∨ Written k n calls d) :
    Scrawled k bound n calls { s with mem := Function.update s.mem p d } := by
  refine ⟨h.src, h.aligned, h.low, h.high, fun w hw => ?_⟩
  by_cases hp : w = p
  · subst hp
    refine .inr ?_
    simp only [Function.update_self]
    exact hd.resolve_left (by omega)
  · simp only [Function.update_of_ne hp]
    exact h.words w hw

/-- The next page. -/
theorem allocate {alloc : PageTableAlloc} (h : Scrawled k bound n calls s)
    (hn : n < 2 ^ 30) (hok : allocatePageTable s.alloc = .ok (r, alloc)) :
    ∃ f : Frame, r = f.addr ∧ f.addr.toNat = s.alloc.earlyLast.toNat + 4096 ∧
      k.imageEnd ≤ f.addr.toNat ∧ f.addr.toNat ≤ k.imageEnd + 4096 * (n + 1) ∧
      alloc.earlyLast = f.addr ∧ Scrawled k bound (n + 1) calls { s with alloc } := by
  obtain ⟨area, hsrc⟩ := h.src
  have haligned := h.aligned
  have hlow := h.low
  have hhigh := h.high
  obtain ⟨-, -, himage⟩ := k.le_imageEnd
  rw [allocatePageTable_single hsrc] at hok
  split at hok
  · obtain ⟨rfl, rfl⟩ := Prod.mk.inj (Except.ok.inj hok)
    have hnext : (s.alloc.earlyLast + 4096).toNat = s.alloc.earlyLast.toNat + 4096 := by bv_omega
    have hframe : IsFrame (s.alloc.earlyLast + 4096) := ⟨by omega, by omega⟩
    exact ⟨⟨_, hframe.masked⟩, rfl, hnext, by simp only [hnext]; omega, by simp only [hnext]; omega,
      rfl, ⟨area, hsrc⟩, by simp only [hnext]; omega, by simp only [hnext]; omega,
      by simp only [hnext]; omega, (h.mono (by omega)).words⟩
  · cases hok

/-- `walk_or_create`, on any map. -/
theorem walkOrCreateAt (h : Scrawled k bound n calls s)
    (hn : n < 2 ^ 30)
    (hok : TeachingOs.walkOrCreateAt root s table addr shift = .ok (r, s')) :
    Scrawled k bound (n + 1) calls s' := by
  obtain ⟨p, -, ⟨-, alloc, halloc, rfl⟩ | ⟨-, -, rfl⟩⟩ := walkOrCreateAt_eq_ok hok
  · obtain ⟨f, rfl, -, hlow, hhigh, -, hnext⟩ := h.allocate hn halloc
    exact hnext.update (.inr (.link f hlow hhigh))
  · exact h.mono (by omega)

/-- `mmu_map`, on any map. -/
theorem mmuMapAt {c : MapCall} (h : Scrawled k bound n calls s) (hc : c ∈ calls)
    (hn : n + 2 < 2 ^ 30)
    (hok : TeachingOs.mmuMapAt root s table c.virtualAddress c.physicalAddress c.flags = .ok s') :
    Scrawled k bound (n + 3) calls s' := by
  obtain ⟨level1, level2, level3, s₁, s₂, s₃, p, h₁, h₂, h₃, -, rfl⟩ := mmuMapAt_eq_ok hok
  have hs₁ := h.walkOrCreateAt (by omega) h₁
  have hs₂ := hs₁.walkOrCreateAt (by omega) h₂
  have hs₃ := hs₂.walkOrCreateAt hn h₃
  exact hs₃.update (.inr (.page c hc))

/-- A run of calls, on any map. -/
theorem mmuMapAllAt {cs : List MapCall} (h : Scrawled k bound n calls s)
    (hcs : ∀ c ∈ cs, c ∈ calls) (hn : n + 3 * cs.length ≤ 2 ^ 30)
    (hok : TeachingOs.mmuMapAllAt root table s cs = .ok s') :
    Scrawled k bound (n + 3 * cs.length) calls s' := by
  induction cs generalizing n s with
  | nil =>
      cases hok
      exact h
  | cons c cs ih =>
      rw [List.forall_mem_cons] at hcs
      rw [TeachingOs.mmuMapAllAt, List.foldlM_cons] at hok
      obtain ⟨s₁, h₁, hok⟩ := bind_eq_ok.mp hok
      rw [List.length_cons] at hn ⊢
      have hs₁ := h.mmuMapAt hcs.1 (by omega) h₁
      have hs' := ih hs₁ hcs.2 (by omega) hok
      rwa [show n + 3 * (cs.length + 1) = n + 3 + 3 * cs.length by omega]

/-! ## What the hardware finds -/

/-- Above the last level the hardware follows a link. -/
theorem hwWalkFrom_of_three {m : PhysMem} {v : Word} {level : Nat} {f : Frame}
    (h : m (f.slot (index v (12 + 9 * (level + 1)))) &&& 3 = 3) :
    TeachingOs.hwWalkFrom m v (level + 1) f.addr = TeachingOs.hwWalkFrom m v level
      (frameOf (m (f.slot (index v (12 + 9 * (level + 1)))))).addr := by
  have hbit : ∀ {d b : Word}, d &&& 3 = 3 → (3 : Word) &&& b = b → b ≠ 0 → d &&& b ≠ 0 := by
    intro d b hd hb hne hzero
    rw [← hb, ← BitVec.and_assoc, hd, hb] at hzero
    exact hne hzero
  rw [TeachingOs.hwWalkFrom]
  simp only [f.add_slotIndex]
  rw [if_neg (hbit h (by decide) (by decide)), if_pos (hbit h (by decide) (by decide))]
  rfl

/-- From a table behind `.data.boot` the hardware finds a written descriptor or
nothing. -/
theorem hwWalkFrom (h : Scrawled k bound n calls s) (hbound : bound ≤ k.boot.bootEnd)
    (hcalls : ∀ c ∈ calls, c ∈ k.imageCalls) {v : Word} {t : Translation} (level : Nat) {f : Frame}
    (hf : k.boot.bootEnd ≤ f.addr.toNat)
    (ht : TeachingOs.hwWalkFrom s.mem v level f.addr = some t) :
    ∃ d, Written k n calls d ∧ t = pageTranslation v d := by
  have hslot : ∀ f : Frame, k.boot.bootEnd ≤ f.addr.toNat → ∀ i,
      s.mem (f.slot i) = 0 ∨ Written k n calls (s.mem (f.slot i)) := by
    intro f hf i
    have hi := f.toNat_slot i
    rw [← coldRam_of_ge (b := k.boot) (w := f.slot i) (by omega)]
    exact h.words (f.slot i) (by omega)
  induction level generalizing f with
  | zero =>
      rw [TeachingOs.hwWalkFrom] at ht
      simp only [f.add_slotIndex] at ht
      rcases hslot f hf (index v 12) with hzero | hwritten
      · rw [hzero, if_neg (by decide)] at ht
        cases ht
      · rw [if_pos hwritten.and_three] at ht
        exact ⟨_, hwritten, (Option.some.inj ht).symm⟩
  | succ level ih =>
      rcases hslot f hf (index v (12 + 9 * (level + 1))) with hzero | hwritten
      · rw [TeachingOs.hwWalkFrom] at ht
        simp only [f.add_slotIndex] at ht
        rw [hzero, if_pos (by decide)] at ht
        cases ht
      · rw [hwWalkFrom_of_three hwritten.and_three] at ht
        exact ih (hwritten.frame_ge hcalls) ht

end Scrawled

end TeachingOs
