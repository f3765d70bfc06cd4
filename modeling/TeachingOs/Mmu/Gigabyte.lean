import TeachingOs.Mmu.Scrawl

/-!
# TeachingOs.Mmu.Gigabyte

The kernel image on the map of `boot.S`.  That map is the identity on the
first gigabyte only, so `mmu_init` builds what it means to build while its
tables lie there (`kernelMapsAt_low`).  A table behind the first gigabyte is
written somewhere else: the hardware finds a blank page in its place, and some
page of the image is not mapped (`kernelMaps_image_iff`).
-/

namespace TeachingOs

open RadixTree

/-! ## Tables in the first gigabyte -/

/-- RAM that is zero from the end of the image to the end of the area. -/
def ZeroRam (k : KernelLayout) (area : MemArea) (mem : PhysMem) : Prop :=
  ∀ w : Word, k.imageEnd ≤ w.toNat → w.toNat < area.endAddr.toNat → mem w = 0

section Low

variable {k : KernelLayout} {mem : PhysMem} {area : MemArea} {a : PageTableAlloc}

theorem ZeroRam.blank (h : ZeroRam k area mem) (hroom : k.tablesEnd ≤ area.endAddr.toNat) :
    ∀ w, k.TableWord w → mem w = 0 := by
  rintro w ⟨-, hend, hin⟩
  exact h w (by omega) (by omega)

/-- Both runs start from the page behind the image. -/
theorem exists_filling (hzero : ZeroRam k area mem) (hroom : k.tablesEnd ≤ area.endAddr.toNat)
    (a : PageTableAlloc) : ∃ (root : Frame) (alloc alloc' : PageTableAlloc),
      allocatePageTable (earlyAlloc k ⟨[area]⟩ a) = .ok (root.addr, alloc') ∧
      alloc'.earlyLast = root.addr ∧ alloc'.earlySrc = some ⟨[area]⟩ ∧
      (∀ i, LowerHalf i → mem (root.slot i) &&& 1 = 0) ∧
      Filling k mem ⟨mem, alloc⟩ ⟨mem, alloc'⟩ root k.tablesArea [[]] := by
  have hfirst := k.tablesEnd_le.1
  have harea := k.toNat_tablesArea
  obtain ⟨root, alloc, hw, hbase, hsrc, hlast⟩ :=
    exists_root (k := k) (a := a) (show k.imageEnd + 4096 ≤ k.tablesArea.endAddr.toNat by omega)
  obtain ⟨alloc', hw', halloc⟩ := (roomier_earlyAlloc hroom a a).allocate hw
  obtain ⟨hempty, htabled⟩ := tabled_root (hzero.blank hroom) harea hbase hsrc hlast
  have hsame : SameValid mem mem := fun _ => .inl rfl
  refine ⟨root, alloc, alloc', hw', halloc.last.trans hlast, ?_, hempty,
    ⟨⟨⟨hsame, halloc⟩, .refl k mem⟩, htabled, hbase⟩⟩
  have hsrc : (earlyAlloc k ⟨[area]⟩ a).earlySrc = some ⟨[area]⟩ := rfl
  rw [allocatePageTable_single hsrc] at hw'
  split at hw'
  · obtain ⟨-, rfl⟩ := Prod.mk.inj (Except.ok.inj hw')
    exact hsrc
  · cases hw'

/-- **Below 1 GB** the kernel image is mapped. -/
theorem kernelMapsAt_low (hboot : Booted k.boot mem) (hzero : ZeroRam k area mem)
    (hroom : k.tablesEnd ≤ area.endAddr.toNat) (hlow : k.tablesEnd ≤ 2 ^ 30) :
    ∃ root s, kernelMapsAt k ⟨[area]⟩ ⟨mem, a⟩ = .ok (root, s) ∧ MapsImage k s.mem root := by
  have harea := k.toNat_tablesArea
  have hbound := k.tablesEnd_le.2
  obtain ⟨root, alloc, alloc', hw, -, -, hempty, hfill⟩ := exists_filling hzero hroom a
  have hcalls : ∀ c ∈ k.imageCalls, LowerHalf (index c.virtualAddress 39) :=
    fun c hc => KernelLayout.lowerHalf_call hc
  have hend : k.imageEnd + 4096 * k.tables.length = k.tablesEnd := by
    rw [k.length_tables, KernelLayout.tablesEnd]
  obtain ⟨s, t, hrun, hrun', hfinal⟩ := hfill.mmuMapAllAt hboot hcalls (by omega)
    (room_tables harea hfill.base) (hend.trans_le hlow)
  refine ⟨root.addr, t, ?_, mapsImage_of_hwWalk fun v hv => ?_⟩
  · rw [kernelMapsAt_eq]
    simp only [hw, Except.mapError, ok_bind, hrun']
    rfl
  · rw [← hfinal.follows.mem.hwWalk]
    exact hwWalk_of_blank hfill.tabled.inv hempty hrun hv

end Low

/-! ## The root behind the first gigabyte -/

/-- The image has no more pages than it has room for. -/
theorem KernelLayout.length_imageCalls_le (k : KernelLayout) :
    4096 * k.imageCalls.length ≤ k.imageEnd := by
  have hlength : k.imageCalls.length = k.text.pages + (k.rodata.pages + k.data.pages) := by
    simp [imageCalls, ranges, ImageRange.calls]
  have h1 := k.boot_le_text
  have h2 := k.text_le
  have h3 := k.text_le_rodata
  have h4 := k.rodata_le
  have h5 := k.rodata_le_data
  have h6 := k.data_le
  have h7 := k.data_le_end
  have h8 := k.text_aligned
  have h9 := k.rodata_aligned
  have h10 := k.data_aligned
  have h11 := k.end_aligned
  have htext : k.text.pages = (k.kernTextEnd.toNat + 4095 - k.kernTextStart.toNat) / 4096 :=
    k.text.pages_eq
  have hrodata : k.rodata.pages =
      (k.kernRodataEnd.toNat + 4095 - k.kernRodataStart.toNat) / 4096 := k.rodata.pages_eq
  have hdata : k.data.pages = (k.kernDataEnd.toNat + 4095 - k.kernDataStart.toNat) / 4096 :=
    k.data.pages_eq
  have hend : k.imageEnd = k.kernEnd.toNat - 0xFFFF000000000000 := rfl
  omega

/-- What `walk_or_create` may take for the address of a table: that of a table,
or a page descriptor, whose attributes stand in the bits above the address. -/
def NearTable (k : KernelLayout) (t : Word) : Prop :=
  t.toNat ≤ 4 * k.imageEnd + 4096 ∨ 2 ^ 53 ≤ t.toNat ∧ t.toNat < 2 ^ 56

section High

variable {k : KernelLayout} {n bound : Nat} {calls : List MapCall} {s s' : Mmu} {d p t : Word}

theorem Written.output_lt (h : Written k n calls d) (hcalls : ∀ c ∈ calls, c ∈ k.imageCalls)
    {v : Word} (haccessible : (pageTranslation v d).Accessible) :
    (pageTranslation v d).outputAddress.toNat < k.imageEnd := by
  cases h with
  | link f =>
      refine absurd ?_ haccessible
      show (f.addr ||| 3) &&& ~~~addrMask &&& AF = 0
      rw [BitVec.and_assoc, f.or_and_attr 3 (c := ~~~addrMask &&& AF) (by decide)]
      decide
  | page c hc =>
      have hframe := KernelLayout.isFrame_call (hcalls c hc)
      obtain ⟨-, hend⟩ := KernelLayout.call_bounds (hcalls c hc)
      rw [pageTranslation_leafDescriptor ⟨_, hframe.masked⟩]
      show (c.physicalAddress ||| (v &&& 0xFFF)).toNat < k.imageEnd
      rw [toNat_or_offset hframe.1]
      omega

/-- A pointer through a page descriptor is none. -/
theorem access_far {root : Word} {m : PhysMem} {write : Bool} {v : Word} {shift : Nat}
    (hlow : 2 ^ 53 ≤ t.toNat) (hhigh : t.toNat < 2 ^ 56) :
    access root m write (walk t v shift) ≠ .ok p := by
  intro h
  obtain ⟨-, -, -, -, hcanonical⟩ := access_eq_ok h
  have hslot : (slotIndex v shift * 8).toNat < 4096 := by
    have := toNat_slotIndex v shift
    bv_omega
  rw [walk] at hcanonical
  generalize slotIndex v shift * 8 = x at hslot hcanonical
  have hptr : (logicalMap (t + x)).toNat = t.toNat + x.toNat - 2 ^ 47 := by
    simp only [logicalMap, KERNEL_PHYSICAL_BASE]
    bv_omega
  have htop : (logicalMap (t + x) >>> 48).toNat = (t.toNat + x.toNat - 2 ^ 47) / 2 ^ 48 := by
    rw [BitVec.toNat_ushiftRight, hptr, Nat.shiftRight_eq_div_pow]
  rcases hcanonical with hzero | hones
  · have hzero : (logicalMap (t + x) >>> 48).toNat = 0 := congrArg BitVec.toNat hzero
    omega
  · have hones : (logicalMap (t + x) >>> 48).toNat = 0xFFFF := congrArg BitVec.toNat hones
    omega

/-- No page of the image may be executed by user code. -/
theorem KernelLayout.call_attributes {c : MapCall} (hc : c ∈ k.imageCalls) :
    leafAttributes c.flags &&& UXN = UXN ∧ (leafAttributes c.flags).toNat < 2 ^ 55 := by
  obtain ⟨r, hr, i, -, rfl⟩ := mem_imageCalls.mp hc
  show leafAttributes r.flags &&& UXN = UXN ∧ (leafAttributes r.flags).toNat < 2 ^ 55
  simp only [ranges, List.mem_cons, List.not_mem_nil, or_false] at hr
  rcases hr with rfl | rfl | rfl <;> simp only [text, rodata, data] <;> decide

/-- What a written descriptor is taken for. -/
theorem Written.nearTable (h : Written k n calls d) (hcalls : ∀ c ∈ calls, c ∈ k.imageCalls)
    (hn : n ≤ 3 * k.imageCalls.length) : NearTable k (d &&& ~~~3) := by
  have hlength := k.length_imageCalls_le
  cases h with
  | link f hlow hhigh =>
      rw [f.or_three_and_not_three]
      exact .inl (by omega)
  | page c hc =>
      have hframe := KernelLayout.isFrame_call (hcalls c hc)
      have hlimit := hframe.2
      obtain ⟨huxn, hattr⟩ := KernelLayout.call_attributes (hcalls c hc)
      have hd : leafDescriptor c.physicalAddress c.flags =
          c.physicalAddress ||| leafAttributes c.flags := by
        simp only [leafDescriptor, leafAttributes, BitVec.or_assoc]
      refine .inr ⟨?_, ?_⟩
      · have hbit : leafDescriptor c.physicalAddress c.flags &&& ~~~3 &&& UXN = UXN := by
          have hmask : (~~~3 : Word) &&& UXN = UXN := by decide
          rw [BitVec.and_assoc, hmask, hd]
          exact (Frame.or_and_attr ⟨_, hframe.masked⟩ _ (by decide)).trans huxn
        have hle : (leafDescriptor c.physicalAddress c.flags &&& ~~~3 &&& UXN).toNat ≤
            (leafDescriptor c.physicalAddress c.flags &&& ~~~3).toNat := by
          rw [BitVec.toNat_and _ UXN]
          exact Nat.and_le_left
        rw [hbit] at hle
        exact Nat.le_trans (by decide) hle
      · have hor : (leafDescriptor c.physicalAddress c.flags).toNat < 2 ^ 56 := by
          rw [hd, BitVec.toNat_or]
          exact Nat.or_lt_two_pow (by omega) (by omega)
        rw [BitVec.toNat_and]
        exact Nat.lt_of_le_of_lt Nat.and_le_left hor

/-- While every word is as `boot.S` left it or written by the calls, the logical
map ends before the root. -/
theorem Scrawled.access_lt (h : Scrawled k 0 n calls s) (hcalls : ∀ c ∈ calls, c ∈ k.imageCalls)
    (hroot : 2 ^ 30 ≤ k.imageEnd) {q : Word} (hq : q.toNat < 4 * k.imageEnd + 8192) {write : Bool}
    (hok : access k.boot.initPagetableLevel0 s.mem write (logicalMap q) = .ok p) :
    p.toNat < k.imageEnd := by
  obtain ⟨t, ht, haccessible, rfl, -⟩ := access_eq_ok hok
  obtain ⟨-, -, himage⟩ := k.le_imageEnd
  have hbooted := booted_coldRam k.boot
  have hp : q.toNat < 2 ^ 47 := by omega
  have hlevel0 := (index_logicalMap hp).1
  -- Once a written descriptor is met the walk stays among them.
  have hwritten : ∀ {j : Nat} {f : Frame} {i : Fin 512},
      index (logicalMap q) (12 + 9 * (j + 1)) = i →
      Written k n calls (s.mem (f.slot i)) →
      TeachingOs.hwWalkFrom s.mem (logicalMap q) (j + 1) f.addr = some t →
      t.outputAddress.toNat < k.imageEnd := by
    rintro j f i rfl hwritten ht
    rw [hwWalkFrom_of_three hwritten.and_three] at ht
    obtain ⟨d, hd, rfl⟩ := h.hwWalkFrom (Nat.zero_le _) hcalls j (hwritten.frame_ge hcalls) ht
    exact hd.output_lt hcalls haccessible
  rw [hwWalk, ← k.boot.level0_addr] at ht
  rcases h.words (k.boot.level0.slot (index (logicalMap q) 39)) (Nat.zero_le _) with hd₀ | hd₀
  · have hlink := hbooted.root ⟨q.toNat / 2 ^ 39, by omega⟩
    rw [hlevel0, hlink] at hd₀
    rw [hwWalkFrom_table (k := 2) (Or.inr ⟨_, by rw [hlevel0, hd₀]⟩), hlevel0, hd₀,
      childTable_table, Option.bind_some] at ht
    rcases h.words ((k.boot.physmapTable ⟨q.toNat / 2 ^ 39, by omega⟩).slot
      ⟨q.toNat / 2 ^ 30 % 512, by omega⟩) (Nat.zero_le _) with hd₁ | hd₁
    · rw [hbooted.tables.entry hp] at hd₁
      obtain ⟨t', ht', -, hout⟩ := exists_hwWalkFrom_block hp hd₁
      rw [Option.some.inj (ht.symm.trans ht'), hout]
      omega
    · exact hwritten (j := 1) (index_logicalMap hp).2 hd₁ ht
  · exact hwritten (j := 2) rfl hd₀ ht

end High

/-- A run whose root lies behind the first gigabyte: nothing gets there. -/
structure Adrift (k : KernelLayout) (n : Nat) (s : Mmu) : Prop
    extends Scrawled k 0 n k.imageCalls s where
  blank : ∀ w, k.imageEnd ≤ w.toNat → s.mem w = 0

namespace Adrift

variable {k : KernelLayout} {n : Nat} {s s' : Mmu} {table v r p : Word} {shift : Nat}

/-- A slot of such a table is reached before the root. -/
theorem access_lt (h : Adrift k n s) (hroot : 2 ^ 30 ≤ k.imageEnd) (htable : NearTable k table)
    {write : Bool}
    (hok : access k.boot.initPagetableLevel0 s.mem write (walk table v shift) = .ok p) :
    p.toNat < k.imageEnd := by
  rcases htable with hnear | ⟨hlow, hhigh⟩
  · obtain ⟨-, -, himage⟩ := k.le_imageEnd
    have hslot : (slotIndex v shift * 8).toNat < 4096 := by
      have := toNat_slotIndex v shift
      bv_omega
    have hq : (table + slotIndex v shift * 8).toNat < 4 * k.imageEnd + 8192 := by
      rw [BitVec.toNat_add]
      omega
    exact h.toScrawled.access_lt (fun _ hc => hc) hroot hq hok
  · exact absurd hok (access_far hlow hhigh)

theorem update (h : Adrift k n s) (hp : p.toNat < k.imageEnd) {d : Word}
    (hd : Written k n k.imageCalls d) :
    Adrift k n { s with mem := Function.update s.mem p d } := by
  refine ⟨h.toScrawled.update (.inr hd), fun w hw => ?_⟩
  have hne : w ≠ p := by
    rintro rfl
    omega
  simp only [Function.update_of_ne hne]
  exact h.blank w hw

theorem walkOrCreateAt (h : Adrift k n s) (hroot : 2 ^ 30 ≤ k.imageEnd)
    (hn : n < 3 * k.imageCalls.length) (htable : NearTable k table)
    (hok : TeachingOs.walkOrCreateAt k.boot.initPagetableLevel0 s table v shift = .ok (r, s')) :
    Adrift k (n + 1) s' ∧ NearTable k r := by
  have hlength := k.length_imageCalls_le
  obtain ⟨-, -, himage⟩ := k.le_imageEnd
  obtain ⟨p, hp, ⟨-, alloc, halloc, rfl⟩ | ⟨hthree, rfl, rfl⟩⟩ := walkOrCreateAt_eq_ok hok
  · obtain ⟨f, rfl, -, hlow, hhigh, -, hnext⟩ := h.toScrawled.allocate (by omega) halloc
    have hadrift : Adrift k (n + 1) { s with alloc } := ⟨hnext, h.blank⟩
    refine ⟨hadrift.update (h.access_lt hroot htable hp) (.link f hlow hhigh), .inl ?_⟩
    have hle : n + 1 ≤ 3 * k.imageCalls.length := hn
    generalize n + 1 = n' at hle hhigh
    omega
  · refine ⟨⟨h.toScrawled.mono (by omega), h.blank⟩, ?_⟩
    rcases h.words p (Nat.zero_le _) with hcold | hwritten
    · rw [hcold] at hthree
      obtain ⟨f, hf, hend⟩ := coldRam_table hthree
      have hboot := k.bootEnd_le
      rw [hcold, hf, f.or_three_and_not_three]
      exact .inl (by omega)
    · exact hwritten.nearTable (fun _ hc => hc) (by omega)

theorem mmuMapAt {c : MapCall} (h : Adrift k n s) (hroot : 2 ^ 30 ≤ k.imageEnd)
    (hc : c ∈ k.imageCalls) (hn : n + 3 ≤ 3 * k.imageCalls.length) (htable : NearTable k table)
    (hok : TeachingOs.mmuMapAt k.boot.initPagetableLevel0 s table c.virtualAddress
      c.physicalAddress c.flags = .ok s') : Adrift k (n + 3) s' := by
  obtain ⟨level1, level2, level3, s₁, s₂, s₃, p, h₁, h₂, h₃, hp, rfl⟩ := mmuMapAt_eq_ok hok
  obtain ⟨hs₁, hl₁⟩ := h.walkOrCreateAt hroot (by omega) htable h₁
  obtain ⟨hs₂, hl₂⟩ := hs₁.walkOrCreateAt hroot (by omega) hl₁ h₂
  obtain ⟨hs₃, hl₃⟩ := hs₂.walkOrCreateAt hroot (by omega) hl₂ h₃
  exact hs₃.update (hs₃.access_lt hroot hl₃ hp) (.page c hc)

theorem mmuMapAllAt {calls : List MapCall} (h : Adrift k n s) (hroot : 2 ^ 30 ≤ k.imageEnd)
    (hcalls : ∀ c ∈ calls, c ∈ k.imageCalls)
    (hn : n + 3 * calls.length ≤ 3 * k.imageCalls.length) (htable : NearTable k table)
    (hok : TeachingOs.mmuMapAllAt k.boot.initPagetableLevel0 table s calls = .ok s') :
    Adrift k (n + 3 * calls.length) s' := by
  induction calls generalizing n s with
  | nil =>
      cases hok
      exact h
  | cons c calls ih =>
      rw [List.forall_mem_cons] at hcalls
      rw [TeachingOs.mmuMapAllAt, List.foldlM_cons] at hok
      obtain ⟨s₁, h₁, hok⟩ := bind_eq_ok.mp hok
      rw [List.length_cons] at hn ⊢
      have hs' := ih (h.mmuMapAt hroot hcalls.1 (by omega) htable h₁) hcalls.2 (by omega) hok
      rwa [show n + 3 * (calls.length + 1) = n + 3 + 3 * calls.length by omega]

end Adrift

/-! ## A table at the first gigabyte -/

/-- A table in `.data.boot`, or one of the three behind the first gigabyte, for
which `logical_map` leads there too. -/
def AstrayTable (b : BootData) (f : Frame) : Prop :=
  f.addr.toNat + 4096 ≤ b.bootEnd ∨
    2 ^ 30 ≤ f.addr.toNat ∧ f.addr.toNat + 4096 ≤ 2 ^ 30 + 0x3000

/-- The map is still that of `boot.S`, and no more than `j` tables are left to
be taken. -/
structure Astray (k : KernelLayout) (n j : Nat) (calls : List MapCall) (s : Mmu) : Prop
    extends Scrawled k k.boot.bootEnd n calls s where
  booted : Booted k.boot s.mem
  tables : ∀ w, w.toNat < k.boot.bootEnd → s.mem w &&& 3 = 3 →
    ∃ f : Frame, s.mem w = f.addr ||| 3 ∧ AstrayTable k.boot f
  last : 2 ^ 30 ≤ s.alloc.earlyLast.toNat ∧ s.alloc.earlyLast.toNat / 4096 + j ≤ 2 ^ 18 + 2

/-- `boot.S` leaves valid descriptors only, so a word without one is not of its
map. -/
theorem Booted.update {b : BootData} {m : PhysMem} {p : Word} (h : Booted b m)
    (hp : m p &&& 1 = 0) (d : Word) : Booted b (Function.update m p d) := by
  refine ⟨fun i hi => ?_, fun j => ?_⟩
  · have hentry := h.tables i hi
    rw [Function.update_of_ne, hentry]
    rintro rfl
    have hone : (physmapFlags ||| (BitVec.ofNat 64 i * 0x200000)) &&& 1 = physmapFlags &&& 1 := by
      rw [BitVec.or_comm]
      exact (physmapBlock i hi).or_and_attr physmapFlags (by decide)
    rw [hentry, hone] at hp
    exact absurd hp (by decide)
  · have hlink := h.root j
    rw [Function.update_of_ne, hlink]
    rintro rfl
    rw [hlink, Frame.or_and_attr _ _ (by decide)] at hp
    exact absurd hp (by decide)

section Astray

variable {k : KernelLayout} {n j : Nat} {calls : List MapCall} {s s' : Mmu} {f : Frame}
  {v r p : Word} {shift : Nat}

/-- The slots of such a table are reached in `.data.boot`. -/
theorem AstrayTable.access_lt (h : AstrayTable k.boot f) (hend : k.boot.bootEnd ≤ 2 ^ 30)
    {m : PhysMem} (hboot : Booted k.boot m) {write : Bool}
    (hok : access k.boot.initPagetableLevel0 m write (walk f.addr v shift) = .ok p) :
    p.toNat < k.boot.bootEnd := by
  have hslot := f.toNat_slot (index v shift)
  have hi := (index v shift).isLt
  have hlow : 0x102000 ≤ k.boot.bootEnd := Nat.le_add_left _ _
  have hlt : (f.slot (index v shift)).toNat < 2 ^ 47 := by
    rcases h with h | ⟨-, h⟩ <;> omega
  rw [walk_frame, hboot.access hlt] at hok
  rw [← Except.ok.inj hok, toNat_bootAlias hlt]
  rcases h with h | ⟨h, h'⟩ <;> omega

theorem Astray.walkOrCreateAt (h : Astray k n (j + 1) calls s) (hn : n < 2 ^ 30)
    (hend : k.boot.bootEnd ≤ 2 ^ 30) (hf : AstrayTable k.boot f)
    (hok : TeachingOs.walkOrCreateAt k.boot.initPagetableLevel0 s f.addr v shift = .ok (r, s')) :
    ∃ g : Frame, r = g.addr ∧ AstrayTable k.boot g ∧ Astray k (n + 1) j calls s' := by
  obtain ⟨hlow, hhigh⟩ := h.last
  have haligned := h.aligned
  obtain ⟨p, hp, ⟨hempty, alloc, halloc, rfl⟩ | ⟨hthree, rfl, rfl⟩⟩ := walkOrCreateAt_eq_ok hok
  · have hlt := hf.access_lt hend h.booted hp
    obtain ⟨g, rfl, hg, -, -, hlast, hnext⟩ := h.toScrawled.allocate hn halloc
    have hastray : AstrayTable k.boot g := .inr ⟨by omega, by omega⟩
    refine ⟨g, rfl, hastray, hnext.update (.inl hlt), h.booted.update hempty _, ?_, ?_⟩
    · intro w hw hd
      by_cases hwp : w = p
      · subst hwp
        simp only [Function.update_self]
        exact ⟨g, rfl, hastray⟩
      · simp only [Function.update_of_ne hwp] at hd ⊢
        exact h.tables w hw hd
    · simp only [hlast]
      omega
  · obtain ⟨g, hg, hastray⟩ := h.tables p (hf.access_lt hend h.booted hp) hthree
    refine ⟨g, ?_, hastray, h.toScrawled.mono (by omega), h.booted, h.tables, hlow, by omega⟩
    rw [hg, g.or_three_and_not_three]

end Astray

section Cross

variable {k : KernelLayout} {n : Nat} {calls : List MapCall} {s t : Mmu} {root f : Frame}
  {area : MemArea} {l : List (List (Fin 512))} {q : List (Fin 512)} {v p : Word}

/-- The first table that does not fit is the page at 1 GB. -/
theorem Filling.cross (h : Filling k (coldRam k.boot) s t root area (addTable q l))
    (hS : Scrawled k k.boot.bootEnd n calls t) (hq : Starts LowerHalf q) (hlen : q.length ≤ 3)
    (hf : pageLayout.descend s.mem root q = some f) (hlow : k.imageEnd + 4096 * l.length ≤ 2 ^ 30)
    (hcross : 2 ^ 30 < k.imageEnd + 4096 * (addTable q l).length) :
    AstrayTable k.boot f ∧ Astray k n 2 calls t := by
  have hnew : q ∉ l := fun hmem => by
    rw [addTable_of_mem hmem] at hcross
    omega
  have hplace := h.tabled.place hq hlen hf
  have hlast := h.tabled.last
  obtain ⟨haligned, -, -⟩ := k.le_imageEnd
  have hbase := h.base
  have hlength : (addTable q l).length = l.length + 1 := by
    rw [addTable_of_notMem hnew, List.length_cons]
  rw [place_addTable_self hnew] at hplace
  rw [hlength, Nat.mul_succ] at hlast hcross
  have hat : f.addr.toNat = 2 ^ 30 := by omega
  refine ⟨.inr ⟨by omega, by omega⟩, hS, h.below.booted (booted_coldRam k.boot), ?_, ?_⟩
  · intro w hw hthree
    have hsame : t.mem w = coldRam k.boot w := h.below w (Nat.lt_of_lt_of_le hw k.bootEnd_le)
    rw [hsame] at hthree ⊢
    obtain ⟨g, hg, hend⟩ := coldRam_table hthree
    exact ⟨g, hg, .inl hend⟩
  · rw [h.follows.alloc.last]
    omega

/-- The call that takes the page at 1 GB stores its page descriptor in
`.data.boot`. -/
theorem Filling.cross_lt {level1 level2 level3 : Word} {t₁ t₂ t₃ : Mmu}
    (h : Filling k (coldRam k.boot) s t root area l)
    (hS : Scrawled k k.boot.bootEnd n calls t) (hn : n + 3 < 2 ^ 30)
    (hv : LowerHalf (index v 39)) (hend : area.endAddr.toNat < 2 ^ 62)
    (hroom : Room root area (createTables v l)) (hlow : k.imageEnd + 4096 * l.length ≤ 2 ^ 30)
    (hcross : 2 ^ 30 < k.imageEnd + 4096 * (createTables v l).length)
    (h₁ : walkOrCreateAt k.boot.initPagetableLevel0 t root.addr v 39 = .ok (level1, t₁))
    (h₂ : walkOrCreateAt k.boot.initPagetableLevel0 t₁ level1 v 30 = .ok (level2, t₂))
    (h₃ : walkOrCreateAt k.boot.initPagetableLevel0 t₂ level2 v 21 = .ok (level3, t₃))
    (hp : access k.boot.initPagetableLevel0 t₃.mem true (walk level3 v 12) = .ok p) :
    p.toNat < k.boot.bootEnd := by
  have hboot := booted_coldRam k.boot
  have hbase := h.base
  obtain ⟨f₁, f₂, f₃, s₁, s₂, s₃, ⟨hw₁, ht₁, hf₁⟩, ⟨hw₂, ht₂, hf₂⟩, hw₃, ht₃, hf₃⟩ :=
    h.tabled.walk hv hend hroom
  obtain ⟨haligned, -, -⟩ := k.le_imageEnd
  have hgb : k.boot.bootEnd ≤ 2 ^ 30 := k.bootEnd_le.trans (by omega)
  -- While the tables lie below 1 GB the run is the one with the identity.
  have hS₁ := hS.walkOrCreateAt (by omega) h₁
  obtain ⟨-, hb₀⟩ := h.tabled.bounds (p := []) trivial (by simp) rfl
  obtain ⟨u₁, hu₁, hs₁⟩ := h.walkOrCreateAt hboot (by omega) (by omega) hw₁
  obtain ⟨rfl, rfl⟩ := Prod.mk.inj (Except.ok.inj (hu₁.symm.trans h₁))
  by_cases hlow₁ : k.imageEnd + 4096 * (addTable [index v 39] l).length ≤ 2 ^ 30
  swap
  · obtain ⟨ha₁, hA₁⟩ := Filling.cross (q := [_]) ⟨hs₁, ht₁, hbase⟩ hS₁ hv (by simp) hf₁ hlow
      (by omega)
    obtain ⟨g₂, rfl, ha₂, hA₂⟩ := hA₁.walkOrCreateAt (by omega) hgb ha₁ h₂
    obtain ⟨g₃, rfl, ha₃, hA₃⟩ := hA₂.walkOrCreateAt (by omega) hgb ha₂ h₃
    exact ha₃.access_lt hgb hA₃.booted hp
  have hS₂ := hS₁.walkOrCreateAt (by omega) h₂
  obtain ⟨hb₁, hb₁'⟩ := ht₁.bounds (p := [_]) hv (by simp) hf₁
  obtain ⟨u₂, hu₂, hs₂⟩ := hs₁.walkOrCreateAt hboot (by omega) (by omega) hw₂
  obtain ⟨rfl, rfl⟩ := Prod.mk.inj (Except.ok.inj (hu₂.symm.trans h₂))
  by_cases hlow₂ : k.imageEnd +
      4096 * (addTable [index v 39, index v 30] (addTable [index v 39] l)).length ≤ 2 ^ 30
  swap
  · obtain ⟨ha₂, hA₂⟩ := Filling.cross (q := [_, _]) ⟨hs₂, ht₂, hbase⟩ hS₂ hv (by simp) hf₂ hlow₁
      (by omega)
    obtain ⟨g₃, rfl, ha₃, hA₃⟩ := hA₂.walkOrCreateAt (by omega) hgb ha₂ h₃
    exact ha₃.access_lt hgb hA₃.booted hp
  have hS₃ := hS₂.walkOrCreateAt (by omega) h₃
  obtain ⟨hb₂, hb₂'⟩ := ht₂.bounds (p := [_, _]) hv (by simp) hf₂
  obtain ⟨u₃, hu₃, hs₃⟩ := hs₂.walkOrCreateAt hboot (by omega) (by omega) hw₃
  obtain ⟨rfl, rfl⟩ := Prod.mk.inj (Except.ok.inj (hu₃.symm.trans h₃))
  obtain ⟨ha₃, hA₃⟩ := Filling.cross (q := tablePath v) ⟨hs₃, ht₃, hbase⟩ hS₃ hv (Nat.le_refl 3)
    hf₃ hlow₂ hcross
  exact ha₃.access_lt hgb hA₃.booted hp

end Cross

/-! ## The whole run -/

/-- The call that takes the first table that does not fit. -/
theorem exists_crossing {limit : Nat} {calls : List MapCall} {l : List (List (Fin 512))}
    (hlow : l.length ≤ limit) (hhigh : limit < (createAll calls l).length) :
    ∃ pre c post, calls = pre ++ c :: post ∧ (createAll pre l).length ≤ limit ∧
      limit < (createTables c.virtualAddress (createAll pre l)).length := by
  induction calls generalizing l with
  | nil => exact absurd hhigh (Nat.not_lt.mpr hlow)
  | cons c calls ih =>
      by_cases hfits : (createTables c.virtualAddress l).length ≤ limit
      · obtain ⟨pre, d, post, rfl, hpre, hd⟩ := ih hfits hhigh
        exact ⟨c :: pre, d, post, rfl, hpre, hd⟩
      · exact ⟨[], c, calls, rfl, hlow, Nat.lt_of_not_le hfits⟩

namespace KernelLayout

variable {k : KernelLayout}

/-- No page is mapped twice. -/
theorem nodup_imageCalls (k : KernelLayout) : k.imageCalls.Nodup := by
  have happart : ∀ r r' : ImageRange, r.endPtr.toNat ≤ r'.start.toNat →
      List.Disjoint r.calls r'.calls := by
    intro r r' hle c hc hc'
    obtain ⟨i, hi, rfl⟩ := List.mem_map.mp hc
    obtain ⟨j, hj, heq⟩ := List.mem_map.mp hc'
    obtain ⟨hva, hlt⟩ := ImageRange.toNat_call (List.mem_range.mp hi)
    obtain ⟨hva', -⟩ := ImageRange.toNat_call (List.mem_range.mp hj)
    have hsame := congrArg (fun c => c.virtualAddress.toNat) heq
    simp only [hva, hva'] at hsame
    omega
  have h3 := k.text_le_rodata
  have h4 := k.rodata_le
  have h5 := k.rodata_le_data
  refine List.nodup_flatMap.mpr ⟨fun r _ => ?_, ?_⟩
  · refine List.nodup_range.map_on fun i hi j hj heq => ?_
    obtain ⟨hva, -⟩ := ImageRange.toNat_call (List.mem_range.mp hi)
    obtain ⟨hva', -⟩ := ImageRange.toNat_call (List.mem_range.mp hj)
    have hsame := congrArg (fun c => c.virtualAddress.toNat) heq
    simp only [hva, hva'] at hsame
    omega
  · simp only [ranges, List.pairwise_cons, List.mem_cons, List.not_mem_nil, or_false,
      forall_eq_or_imp, forall_eq, IsEmpty.forall_iff, implies_true, List.Pairwise.nil, and_true]
    exact ⟨⟨happart _ _ h3, happart _ _ (by simp only [text, data]; omega)⟩, happart _ _ h5⟩

end KernelLayout

section Run

variable {k : KernelLayout} {area : MemArea} {a : PageTableAlloc} {root : Word} {s : Mmu}

theorem zeroRam_coldRam (k : KernelLayout) (area : MemArea) :
    ZeroRam k area (coldRam k.boot) :=
  fun _ hlow _ => coldRam_of_ge (k.bootEnd_le.trans hlow)

/-- Another call's descriptor or a link is none for the page. -/
theorem Written.output_ne {n : Nat} {calls : List MapCall} {d : Word} {c : MapCall}
    (h : Written k n calls d) (hcalls : ∀ c ∈ calls, c ∈ k.imageCalls) (hc : c ∈ k.imageCalls)
    (hnot : c ∉ calls) :
    (pageTranslation c.virtualAddress d).outputAddress ≠ c.physicalAddress := by
  obtain ⟨-, hend⟩ := KernelLayout.call_bounds hc
  have hframe := KernelLayout.isFrame_call hc
  intro heq
  have hnat := congrArg BitVec.toNat heq
  cases h with
  | link f hlow =>
      have hout : (pageTranslation c.virtualAddress (f.addr ||| 3)).outputAddress =
          f.addr ||| (c.virtualAddress &&& 0xFFF) := by
        rw [pageTranslation, f.or_and_addrMask (by decide)]
      rw [hout, toNat_or_offset f.toNat_mod] at hnat
      omega
  | page d hd =>
      have hframe' := KernelLayout.isFrame_call (hcalls d hd)
      rw [pageTranslation_leafDescriptor ⟨_, hframe'.masked⟩] at hnat
      simp only [toNat_or_offset hframe'.1] at hnat
      have hsame : d.physicalAddress.toNat = c.physicalAddress.toNat := by
        have h₁ := hframe.1
        have h₂ := hframe'.1
        omega
      have hdc := KernelLayout.call_unique_physical (hcalls d hd) hc (BitVec.eq_of_toNat_eq hsame)
      exact hnot (hdc ▸ hd)

/-- The page of a call is found where the image was loaded. -/
theorem MapsImage.call {m : PhysMem} (h : MapsImage k m root) {c : MapCall}
    (hc : c ∈ k.imageCalls) : ∃ t, hwWalk m root c.virtualAddress = some t ∧
      t.outputAddress = c.physicalAddress := by
  obtain ⟨r, hr, i, hi, rfl⟩ := KernelLayout.mem_imageCalls.mp hc
  obtain ⟨hva, hlt⟩ := ImageRange.toNat_call hi
  have hlow : r.start ≤ (r.call i).virtualAddress := by bv_omega
  have hhigh : (r.call i).virtualAddress < r.endPtr := by bv_omega
  have hmapped : ∃ write exec, Mapped m root r write exec := by
    simp only [KernelLayout.ranges, List.mem_cons, List.not_mem_nil, or_false] at hr
    rcases hr with rfl | rfl | rfl
    · exact ⟨_, _, h.text⟩
    · exact ⟨_, _, h.rodata⟩
    · exact ⟨_, _, h.data⟩
  obtain ⟨write, exec, hmapped⟩ := hmapped
  obtain ⟨t, ht, hout, -⟩ := hmapped _ hlow hhigh
  exact ⟨t, ht, hout⟩

/-- On cold RAM the run starts with nothing written. -/
theorem exists_scrawled (hroom : k.tablesEnd ≤ area.endAddr.toNat)
    (hrun : kernelMapsAt k ⟨[area]⟩ ⟨coldRam k.boot, a⟩ = .ok (root, s)) :
    ∃ (f : Frame) (alloc alloc' : PageTableAlloc), root = f.addr ∧ f.addr.toNat = k.imageEnd ∧
      (∀ bound calls, Scrawled k bound 0 calls ⟨coldRam k.boot, alloc'⟩) ∧
      Filling k (coldRam k.boot) ⟨coldRam k.boot, alloc⟩ ⟨coldRam k.boot, alloc'⟩ f k.tablesArea
        [[]] ∧
      mmuMapAllAt k.boot.initPagetableLevel0 f.addr ⟨coldRam k.boot, alloc'⟩ k.imageCalls =
        .ok s := by
  obtain ⟨haligned, -, -⟩ := k.le_imageEnd
  obtain ⟨f, alloc, alloc', hw, hlast, hsrc, -, hfill⟩ :=
    exists_filling (zeroRam_coldRam k area) hroom a
  have hbase := hfill.base
  rw [kernelMapsAt_eq] at hrun
  simp only [hw, Except.mapError, ok_bind] at hrun
  obtain ⟨s', hrun', hrun⟩ := bind_eq_ok.mp hrun
  cases hrun
  have hlast : alloc'.earlyLast.toNat = k.imageEnd := hlast ▸ hbase
  refine ⟨f, alloc, alloc', rfl, hbase, fun bound calls => ⟨⟨area, hsrc⟩, ?_, ?_, ?_, ?_⟩, hfill,
    hrun'⟩
  · simp only [hlast, haligned]
  · exact hlast.ge
  · exact hlast.trans_le (Nat.le_add_right _ _)
  · intro w _
    simp only [true_or]

/-- A root beyond 1 GB is blank to the hardware. -/
theorem not_mapsImage_of_root_high (hroot : 2 ^ 30 ≤ k.imageEnd) (hcalls : k.imageCalls ≠ [])
    {f : Frame} {alloc : PageTableAlloc} (hbase : f.addr.toNat = k.imageEnd)
    (hS : Scrawled k 0 0 k.imageCalls ⟨coldRam k.boot, alloc⟩)
    (hrun : mmuMapAllAt k.boot.initPagetableLevel0 f.addr ⟨coldRam k.boot, alloc⟩ k.imageCalls =
      .ok s) : ¬ MapsImage k s.mem f.addr := by
  intro hmaps
  obtain ⟨haligned, -, himage⟩ := k.le_imageEnd
  have hlength := k.length_imageCalls_le
  have hadrift : Adrift k 0 ⟨coldRam k.boot, alloc⟩ :=
    ⟨hS, fun w hw => by simp only [coldRam_of_ge (k.bootEnd_le.trans hw)]⟩
  have hs := hadrift.mmuMapAllAt hroot (fun _ hc => hc) (by omega) (.inl (by omega)) hrun
  obtain ⟨c, hc⟩ := List.exists_mem_of_ne_nil _ hcalls
  obtain ⟨t, ht, -⟩ := hmaps.call hc
  have hslot := f.toNat_slot (index c.virtualAddress 39)
  rw [hwWalk, hwWalkFrom] at ht
  simp only [f.add_slotIndex, Nat.reduceAdd, Nat.reduceMul] at ht
  rw [hs.blank _ (by omega), if_pos (by decide)] at ht
  cases ht

/-- The first call whose table does not fit below 1 GB is lost: the run writes
what it would write without it. -/
theorem Filling.scrawled_of_crossing {pre post : List MapCall} {c : MapCall} {t u : Mmu}
    {f : Frame} {mmu : Mmu} (hfill : Filling k (coldRam k.boot) mmu t f k.tablesArea [[]])
    (hS : Scrawled k k.boot.bootEnd 0 (pre ++ post) t) (hbase : f.addr.toNat = k.imageEnd)
    (hsplit : k.imageCalls = pre ++ c :: post)
    (hpre : k.imageEnd + 4096 * (createAll pre [[]]).length ≤ 2 ^ 30)
    (hcross : 2 ^ 30 < k.imageEnd +
      4096 * (createTables c.virtualAddress (createAll pre [[]])).length)
    (hrun : TeachingOs.mmuMapAllAt k.boot.initPagetableLevel0 f.addr t (pre ++ c :: post) =
      .ok u) :
    ∃ n, Scrawled k k.boot.bootEnd n (pre ++ post) u := by
  obtain ⟨haligned, -, himage⟩ := k.le_imageEnd
  have hlength := k.length_imageCalls_le
  have hmem : ∀ d ∈ pre ++ c :: post, d ∈ k.imageCalls := fun d hd => hsplit ▸ hd
  have hcount : pre.length + (post.length + 1) = k.imageCalls.length := by simp [hsplit]
  have hend := k.toNat_tablesArea
  have hbound := k.tablesEnd_le.2
  have htab : k.tables = createAll post (createTables c.virtualAddress (createAll pre [[]])) := by
    rw [KernelLayout.tables, hsplit]
    exact List.foldl_append
  have hroom₂ := (room_tables hend hbase).mono (htab ▸ sublist_createAll post _)
  have hroom₁ := hroom₂.mono (sublist_createTables c.virtualAddress _)
  -- Before that call the run is the one with the identity.
  rw [mmuMapAllAt_append] at hrun
  obtain ⟨t₀, ht₀, hrun⟩ := bind_eq_ok.mp hrun
  obtain ⟨s', t', -, ht', hfill'⟩ := hfill.mmuMapAllAt (booted_coldRam k.boot)
    (fun d hd => KernelLayout.lowerHalf_call (hmem d (List.mem_append_left _ hd))) (by omega)
    hroom₁ (by omega)
  obtain rfl := Except.ok.inj (ht'.symm.trans ht₀)
  have hS₀ := hS.mmuMapAllAt (fun d hd => List.mem_append_left _ hd) (by omega) ht₀
  rw [TeachingOs.mmuMapAllAt, List.foldlM_cons] at hrun
  obtain ⟨u₀, hu₀, hrun⟩ := bind_eq_ok.mp hrun
  obtain ⟨level1, level2, level3, u₁, u₂, u₃, p, h₁, h₂, h₃, hp, rfl⟩ := mmuMapAt_eq_ok hu₀
  have hc : c ∈ k.imageCalls := hmem c (by simp)
  have hlost := hfill'.cross_lt hS₀ (by omega) (KernelLayout.lowerHalf_call hc) (by omega) hroom₂
    (by omega) (by omega) h₁ h₂ h₃ hp
  have hS₁ := hS₀.walkOrCreateAt (by omega) h₁
  have hS₂ := hS₁.walkOrCreateAt (by omega) h₂
  have hS₃ := hS₂.walkOrCreateAt (by omega) h₃
  exact ⟨_, (hS₃.update (.inl hlost)).mmuMapAllAt (fun d hd => List.mem_append_right _ hd)
    (by omega) hrun⟩

/-- **Beyond 1 GB** a run on cold RAM does not map the image. -/
theorem not_mapsImage_of_high (hroom : k.tablesEnd ≤ area.endAddr.toNat)
    (hcalls : k.imageCalls ≠ []) (hhigh : 2 ^ 30 < k.tablesEnd)
    (hrun : kernelMapsAt k ⟨[area]⟩ ⟨coldRam k.boot, a⟩ = .ok (root, s)) :
    ¬ MapsImage k s.mem root := by
  obtain ⟨haligned, -, himage⟩ := k.le_imageEnd
  obtain ⟨f, alloc, alloc', rfl, hbase, hS, hfill, hrun⟩ := exists_scrawled hroom hrun
  by_cases hroot : 2 ^ 30 ≤ k.imageEnd
  · exact not_mapsImage_of_root_high hroot hcalls hbase (hS 0 k.imageCalls) hrun
  · -- The descriptor of one page is lost in `.data.boot`.
    intro hmaps
    have hlow : [([] : List (Fin 512))].length ≤ (2 ^ 30 - k.imageEnd) / 4096 := by
      rw [List.length_singleton]
      omega
    have htables : k.imageEnd + 4096 * (createAll k.imageCalls [[]]).length = k.tablesEnd := by
      rw [← KernelLayout.tables, k.length_tables, KernelLayout.tablesEnd]
    have hhigh : (2 ^ 30 - k.imageEnd) / 4096 < (createAll k.imageCalls [[]]).length := by omega
    obtain ⟨pre, c, post, hsplit, hpre, hcross⟩ := exists_crossing hlow hhigh
    rw [hsplit] at hrun
    obtain ⟨n, hs⟩ := hfill.scrawled_of_crossing (hS _ (pre ++ post)) hbase hsplit (by omega)
      (by omega) hrun
    -- No other word holds it, so the hardware does not find it.
    have hnodup := k.nodup_imageCalls
    rw [hsplit] at hnodup
    have hnot : c ∉ pre ++ post := (List.nodup_cons.mp (List.nodup_middle.mp hnodup)).1
    have hc : c ∈ k.imageCalls := by simp [hsplit]
    have hothers : ∀ d ∈ pre ++ post, d ∈ k.imageCalls := by
      intro d hd
      rw [List.mem_append] at hd
      rw [hsplit]
      exact List.mem_append.mpr (hd.imp_right (List.mem_cons_of_mem c))
    obtain ⟨t, ht, hout⟩ := hmaps.call hc
    obtain ⟨d, hd, rfl⟩ := hs.hwWalkFrom (Nat.le_refl _) hothers 3 (k.bootEnd_le.trans hbase.ge) ht
    exact hd.output_ne hothers hc hnot hout

/-- An empty image has nothing to map. -/
theorem kernelMapsAt_nil {mem : PhysMem} (hcalls : k.imageCalls = []) (hzero : ZeroRam k area mem)
    (hroom : k.tablesEnd ≤ area.endAddr.toNat) :
    ∃ root s, kernelMapsAt k ⟨[area]⟩ ⟨mem, a⟩ = .ok (root, s) ∧ MapsImage k s.mem root := by
  obtain ⟨f, alloc, alloc', hw, -, -, hempty, hfill⟩ := exists_filling hzero hroom a
  refine ⟨f.addr, ⟨mem, alloc'⟩, ?_, mapsImage_of_hwWalk fun v hv => ?_⟩
  · rw [kernelMapsAt_eq, hcalls]
    simp only [hw, Except.mapError, ok_bind]
    rfl
  · have hnone : mmuMapAll f.addr ⟨mem, alloc⟩ k.imageCalls = .ok ⟨mem, alloc⟩ := by
      rw [hcalls]
      rfl
    exact hwWalk_of_blank hfill.tabled.inv hempty hnone hv

end Run

/-- The calls of `mmu_init` map the image, from any memory that `boot.S` hands
over with zeros behind the image, exactly when the tables lie below 1 GB.  The
other layouts fail on RAM that is zero but for `.data.boot`. -/
theorem kernelMaps_image_iff (k : KernelLayout) (area : MemArea) (a : PageTableAlloc)
    (hroom : k.tablesEnd ≤ area.endAddr.toNat) :
    (∀ fuel m mem, 256 * 512 ≤ fuel → bootPageTables k.boot fuel m = some mem →
      ZeroRam k area mem → ∃ root s, kernelMapsAt k ⟨[area]⟩ ⟨mem, a⟩ = .ok (root, s) ∧
        MapsImage k s.mem root) ↔ k.imageCalls = [] ∨ k.tablesEnd ≤ 2 ^ 30 := by
  constructor
  · intro h
    by_contra hnot
    rw [not_or, Nat.not_le] at hnot
    obtain ⟨fuel, hfuel⟩ : ∃ fuel, 256 * 512 ≤ fuel := ⟨_, Nat.le_refl _⟩
    obtain ⟨root, s, hrun, hmaps⟩ := h fuel k.boot.image _ hfuel (bootPageTables_eq k.boot _ hfuel)
      (zeroRam_coldRam k area)
    exact not_mapsImage_of_high hroom hnot.1 hnot.2 hrun hmaps
  · intro hcond fuel m mem hfuel hboot hzero
    rw [bootPageTables_eq k.boot m hfuel] at hboot
    obtain rfl := Option.some.inj hboot
    rcases hcond with hcalls | hlow
    · exact kernelMapsAt_nil hcalls hzero hroom
    · exact kernelMapsAt_low (booted_bootedRam k.boot m) hzero hroom hlow

/-- The Raspberry Pi, with a gigabyte of RAM that is zero but for `.data.boot`. -/
theorem kernelMaps_image_iff_rpi : ∃ root s,
    kernelMapsAt rpiLayout ⟨[⟨0, 0x40000000⟩]⟩
      ⟨coldRam rpiBootData, ⟨fun _ => 0, 64, none, 0⟩⟩ = .ok (root, s) ∧
    MapsImage rpiLayout s.mem root := by
  obtain ⟨fuel, hfuel⟩ : ∃ fuel, 256 * 512 ≤ fuel := ⟨_, Nat.le_refl _⟩
  have hlow : rpiLayout.tablesEnd ≤ 2 ^ 30 := Nat.le_trans rpiLayout.tablesEnd_le_pages (by decide)
  exact (kernelMaps_image_iff rpiLayout ⟨0, 0x40000000⟩ ⟨fun _ => 0, 64, none, 0⟩ hlow).mpr
    (.inr hlow) fuel rpiBootData.image (coldRam rpiBootData) hfuel
    (bootPageTables_eq rpiBootData _ hfuel) (zeroRam_coldRam rpiLayout _)

/-! ## An image that ends before 1 GB -/

/-- An image of three pages, and one more page to 1 GB. -/
def farLayout : KernelLayout where
  boot := rpiBootData
  kernTextStart := 0xFFFF00003FFFC000
  kernTextEnd := 0xFFFF00003FFFCA40
  kernRodataStart := 0xFFFF00003FFFD000
  kernRodataEnd := 0xFFFF00003FFFDC10
  kernDataStart := 0xFFFF00003FFFE000
  kernDataEnd := 0xFFFF00003FFFE100
  kernEnd := 0xFFFF00003FFFF000
  text_aligned := by decide
  rodata_aligned := by decide
  data_aligned := by decide
  end_aligned := by decide
  boot_le_text := by decide
  text_le := by decide
  text_le_rodata := by decide
  rodata_le := by decide
  rodata_le_data := by decide
  data_le := by decide
  data_le_end := by decide
  end_lt := by decide
  bound := by decide

/-- The run returns, and the first byte of the image faults: the level-1 table at
1 GB is blank, its link was stored in the first page of the RAM. -/
theorem not_mapsImage_farLayout : ∃ root s,
    kernelMapsAt farLayout ⟨[⟨0, 0x80000000⟩]⟩
      ⟨coldRam rpiBootData, ⟨fun _ => 0, 64, none, 0⟩⟩ = .ok (root, s) ∧
    s.mem root = 0x40000003 ∧ s.mem 0 = 0x40001003 ∧ hwWalk s.mem root 0xFFFF00003FFFC000 = none ∧
    ¬ MapsImage farLayout s.mem root := by
  have hrun : (match kernelMapsAt farLayout ⟨[⟨0, 0x80000000⟩]⟩
      ⟨coldRam rpiBootData, ⟨fun _ => 0, 64, none, 0⟩⟩ with
    | .ok (root, s) => some (s.mem root, s.mem 0, hwWalk s.mem root 0xFFFF00003FFFC000)
    | .error _ => none) = some (0x40000003, 0x40001003, none) := by decide +kernel
  cases hmaps : kernelMapsAt farLayout ⟨[⟨0, 0x80000000⟩]⟩
      ⟨coldRam rpiBootData, ⟨fun _ => 0, 64, none, 0⟩⟩ with
  | error e =>
      rw [hmaps] at hrun
      cases hrun
  | ok r =>
      obtain ⟨root, s⟩ := r
      rw [hmaps] at hrun
      obtain ⟨hlink, hrun⟩ := Prod.mk.inj (Option.some.inj hrun)
      obtain ⟨hlost, hwalk⟩ := Prod.mk.inj hrun
      refine ⟨root, s, rfl, hlink, hlost, hwalk, fun himage => ?_⟩
      obtain ⟨t, ht, -⟩ := himage.text 0xFFFF00003FFFC000 (by decide) (by decide)
      rw [hwalk] at ht
      cases ht

end TeachingOs
