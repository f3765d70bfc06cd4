import TeachingOs.Mmu.FrameLists

/-!
# TeachingOs.Mmu.Areas

`allocate_page_table` over a memory map of several areas, as `mmu_init`
starts it.

The allocator remembers the last page only and tries the first area again on
every call.  While the first area lasts it hands out one page after the
other.  Behind its end it finds the first page of the next area that has
one, and finds that page again on every later call.
-/

namespace TeachingOs

/-! ## Runs of the allocator -/

/-- The allocator is deterministic. -/
theorem Hands.unique {a a' a'' : PageTableAlloc} {l l' : List Word} (h : Hands a l a')
    (h' : Hands a l' a'') (hlen : l.length = l'.length) : l = l' ∧ a' = a'' := by
  induction h generalizing l' with
  | nil =>
      obtain rfl := List.length_eq_zero_iff.mp hlen.symm
      cases h'
      exact ⟨rfl, rfl⟩
  | cons hw _ ih =>
      cases h' with
      | nil => cases hlen
      | cons hw' ht =>
          rw [hw] at hw'
          cases hw'
          obtain ⟨rfl, rfl⟩ := ih ht (Nat.succ.inj hlen)
          exact ⟨rfl, rfl⟩

/-- A run passes through a state after each of its calls. -/
theorem Hands.split {a a'' : PageTableAlloc} {l l' : List Word} (h : Hands a (l ++ l') a'') :
    ∃ a', Hands a l a' ∧ Hands a' l' a'' := by
  induction l generalizing a with
  | nil => exact ⟨a, .nil a, h⟩
  | cons w l ih =>
      cases h with
      | cons hw ht =>
          obtain ⟨a', hl, hl'⟩ := ih ht
          exact ⟨a', .cons hw hl, hl'⟩

/-! ## The loop over the areas -/

/-- The first page of the first area that has one. -/
def nextStart (areas : List MemArea) : Option Word :=
  (areas.find? fun area => area.start < area.endAddr).map MemArea.start

theorem nextStart_eq_none {areas : List MemArea} :
    nextStart areas = none ↔ ∀ c ∈ areas, c.endAddr ≤ c.start := by
  simp [nextStart]

theorem exists_of_nextStart {areas : List MemArea} {w : Word} (h : nextStart areas = some w) :
    ∃ c ∈ areas, c.start = w ∧ c.start < c.endAddr := by
  obtain ⟨c, hfind, hc⟩ := Option.map_eq_some_iff.mp h
  exact ⟨c, List.mem_of_find?_eq_some hfind, hc, by simpa using List.find?_some hfind⟩

/-- The test of the loop, in natural numbers. -/
theorem fits_iff {c e : Word} (hc : c.toNat + 4096 ≤ 2 ^ 64) :
    c + PAGE_SIZE - 1 < e ↔ c.toNat + 4096 ≤ e.toNat := by
  unfold PAGE_SIZE
  bv_omega

/-- An area with page-aligned ends has a page unless it is empty. -/
theorem fits_start_iff {area : MemArea} (hs : area.start.toNat % 4096 = 0)
    (he : area.endAddr.toNat % 4096 = 0) :
    area.start + PAGE_SIZE - 1 < area.endAddr ↔ area.start < area.endAddr := by
  have hlt := area.start.isLt
  rw [fits_iff (by omega), BitVec.lt_def]
  omega

theorem earlyCandidate_of_fits {areas : List MemArea} {area : MemArea} {c : Word}
    (hc : c + PAGE_SIZE - 1 < area.endAddr) : earlyCandidate c (area :: areas) = some c := by
  cases areas <;> exact if_pos hc

/-- Behind the first area the loop finds the first page of a later one. -/
theorem earlyCandidate_next {areas : List MemArea} {area : MemArea} {c : Word}
    (halign : ∀ b ∈ areas, b.start.toNat % 4096 = 0 ∧ b.endAddr.toNat % 4096 = 0)
    (hc : ¬ c + PAGE_SIZE - 1 < area.endAddr) :
    earlyCandidate c (area :: areas) = nextStart areas := by
  induction areas generalizing area c with
  | nil => rw [earlyCandidate, if_neg hc]; rfl
  | cons b areas ih =>
      rw [List.forall_mem_cons] at halign
      rw [earlyCandidate, if_neg hc]
      have hfits := fits_start_iff halign.1.1 halign.1.2
      by_cases hb : b.start < b.endAddr
      · rw [earlyCandidate_of_fits (hfits.mpr hb)]
        simp [nextStart, hb]
      · have hskip : nextStart (b :: areas) = nextStart areas := by simp [nextStart, hb]
        rw [hskip]
        exact ih halign.2 fun h => hb (hfits.mp h)

/-! ## Memory maps as boards have them -/

/-- A memory map whose areas are page aligned, disjoint and sorted, and whose
first area contains the end of the kernel image. -/
structure BootMap (k : KernelLayout) where
  first : MemArea
  rest : List MemArea
  aligned : ∀ b ∈ first :: rest, b.start.toNat % 4096 = 0 ∧ b.endAddr.toNat % 4096 = 0
  ordered : ∀ b ∈ first :: rest, b.start.toNat ≤ b.endAddr.toNat
  sorted : (first :: rest).Pairwise fun b c => b.endAddr.toNat ≤ c.start.toNat
  start_le : first.start.toNat ≤ k.imageEnd
  le_end : k.imageEnd ≤ first.endAddr.toNat

namespace BootMap

variable {k : KernelLayout} (b : BootMap k) (a : PageTableAlloc)

def toMap : PhysicalMemoryMap := ⟨b.first :: b.rest⟩

/-- The pages of the first area behind the image. -/
def pagesLeft : Nat := (b.first.endAddr.toNat - k.imageEnd) / 4096

/-- Page `i` behind the image. -/
def page (k : KernelLayout) (i : Nat) : Word := .ofNat 64 (k.imageEnd + 4096 * i)

/-- The allocator after the first `i` pages. -/
def after (i : Nat) : PageTableAlloc :=
  { earlyAlloc k b.toMap a with earlyLast := page k i - 4096 }

/-- The allocator after page `w`. -/
def stuck (w : Word) : PageTableAlloc := { earlyAlloc k b.toMap a with earlyLast := w }

/-- A page that the allocator may hand out. -/
def Available (w : Word) : Prop :=
  w.toNat % 4096 = 0 ∧ k.imageEnd ≤ w.toNat ∧
    ∃ area ∈ b.first :: b.rest, area.start.toNat ≤ w.toNat ∧ w.toNat + 4096 ≤ area.endAddr.toNat

/-- What `n` successive calls have to do: hand out available pages, no page
twice, and panic only when there is no page left. -/
def Sound (n : Nat) : Prop :=
  ∀ l a', Hands (earlyAlloc k b.toMap a) l a' → l.length ≤ n →
    l.Nodup ∧ (∀ w ∈ l, b.Available w) ∧
      (l.length < n → (∃ e, allocatePageTable a' = .error e) → ∀ w, b.Available w → w ∈ l)

variable {b a} {i n : Nat} {w : Word}

theorem imageEnd_mod (k : KernelLayout) : k.imageEnd % 4096 = 0 := by
  have hend := k.end_aligned
  have hle := k.le_kernEnd
  unfold KernelLayout.imageEnd
  omega

theorem toNat_page (hi : i ≤ b.pagesLeft) :
    (page k i).toNat = k.imageEnd + 4096 * i := by
  have hle := b.le_end
  have hlt := b.first.endAddr.isLt
  unfold pagesLeft at hi
  unfold page
  bv_omega

theorem page_succ_sub : page k (i + 1) - 4096 = page k i := by
  unfold page
  bv_omega

theorem after_zero : b.after a 0 = earlyAlloc k b.toMap a := by
  have hle := k.le_kernEnd
  have hlast : page k 0 - 4096 = k.kernEnd - PAGE_SIZE - KERNEL_VIRTUAL_BASE := by
    unfold page KernelLayout.imageEnd PAGE_SIZE KERNEL_VIRTUAL_BASE
    bv_omega
  rw [after, hlast]
  rfl

/-- A page that fits the first area is the next one. -/
theorem allocate_fits {c : Word} (hc : c + 4096 = w)
    (hw : w + PAGE_SIZE - 1 < b.first.endAddr) :
    allocatePageTable (b.stuck a c) = .ok (w, b.stuck a w) := by
  unfold allocatePageTable
  simp only [stuck, earlyAlloc, toMap, hc, earlyCandidate_of_fits hw]

/-- **Within the first area** the next page is handed out. -/
theorem allocate_after (hi : i < b.pagesLeft) :
    allocatePageTable (b.after a i) = .ok (page k i, b.after a (i + 1)) := by
  have hpage := b.toNat_page (Nat.le_of_lt hi)
  have hfits : page k i + PAGE_SIZE - 1 < b.first.endAddr := by
    unfold pagesLeft at hi
    rw [fits_iff (by omega), hpage]
    omega
  have hnext : page k i - 4096 + 4096 = page k i := by bv_omega
  have hstep : b.after a (i + 1) = b.stuck a (page k i) := by
    rw [after, page_succ_sub, stuck]
  rw [hstep, after, ← stuck]
  exact allocate_fits hnext hfits

/-- Behind the first area the loop goes to the next one. -/
theorem allocate_stuck {c : Word} (hc : ¬ c + 4096 + PAGE_SIZE - 1 < b.first.endAddr) :
    allocatePageTable (b.stuck a c) =
      match nextStart b.rest with
      | some w => .ok (w, b.stuck a w)
      | none => .error (.message "aarch64 mmu: could not allocate early physical frames") := by
  have halign := (List.forall_mem_cons.mp b.aligned).2
  have hcandidate := earlyCandidate_next halign hc
  unfold allocatePageTable
  cases hnext : nextStart b.rest with
  | none =>
      rw [hnext] at hcandidate
      simp only [stuck, earlyAlloc, toMap, hcandidate]
  | some w =>
      rw [hnext] at hcandidate
      simp only [stuck, earlyAlloc, toMap, hcandidate]

/-- The first area ends with its last page. -/
theorem pagesLeft_beyond :
    ¬ page k b.pagesLeft - 4096 + 4096 + PAGE_SIZE - 1 < b.first.endAddr := by
  have hpage := b.toNat_page (Nat.le_refl _)
  have halign := (b.aligned b.first List.mem_cons_self).2
  have hlt := b.first.endAddr.isLt
  have hle := b.le_end
  have hend := imageEnd_mod k
  have hnext : page k b.pagesLeft - 4096 + 4096 = page k b.pagesLeft := by bv_omega
  unfold pagesLeft at *
  rw [hnext, fits_iff (by omega), hpage]
  omega

/-- A later area lies behind the first one, and does not reach the end of the
address space. -/
theorem later_area {c : MemArea} (hc : c ∈ b.rest) :
    b.first.endAddr.toNat ≤ c.start.toNat ∧ c.endAddr.toNat + 4096 ≤ 2 ^ 64 := by
  have halign := (b.aligned c (List.mem_cons_of_mem _ hc)).2
  have hlt := c.endAddr.isLt
  exact ⟨(List.pairwise_cons.mp b.sorted).1 c hc, by omega⟩

theorem nextStart_beyond (hw : nextStart b.rest = some w) :
    ¬ w + 4096 + PAGE_SIZE - 1 < b.first.endAddr := by
  obtain ⟨c, hc, rfl, hlt⟩ := exists_of_nextStart hw
  obtain ⟨hfirst, hend⟩ := b.later_area hc
  have halign := b.aligned c (List.mem_cons_of_mem _ hc)
  have hnext : (c.start + 4096).toNat = c.start.toNat + 4096 := by bv_omega
  rw [BitVec.lt_def] at hlt
  rw [fits_iff (by omega), hnext]
  omega

/-! ## Runs from boot -/

/-- The first `i` pages. -/
def pages (k : KernelLayout) (i : Nat) : List Word := (List.range i).map (page k)

theorem hands_pages (hi : i ≤ b.pagesLeft) :
    Hands (earlyAlloc k b.toMap a) (pages k i) (b.after a i) := by
  induction i with
  | zero =>
      rw [after_zero]
      exact .nil _
  | succ i ih =>
      rw [pages, List.range_succ, List.map_append]
      exact (ih (by omega)).append (.cons (allocate_after (by omega)) (.nil _))

/-- The next page after the first area, and again. -/
theorem hands_twice (hw : nextStart b.rest = some w) :
    Hands (earlyAlloc k b.toMap a) (pages k b.pagesLeft ++ [w, w]) (b.stuck a w) := by
  have hfirst := allocate_stuck (a := a) b.pagesLeft_beyond
  have hagain := allocate_stuck (a := a) (nextStart_beyond hw)
  rw [hw] at hfirst hagain
  exact (hands_pages (Nat.le_refl _)).append (.cons hfirst (.cons hagain (.nil _)))

theorem nodup_pages (hi : i ≤ b.pagesLeft) : (pages k i).Nodup := by
  refine List.Nodup.map_on (fun x hx y hy hxy => ?_) List.nodup_range
  rw [List.mem_range] at hx hy
  have hxn := b.toNat_page (i := x) (by omega)
  have hyn := b.toNat_page (i := y) (by omega)
  rw [hxy] at hxn
  omega

theorem mem_pages (hw : w.toNat % 4096 = 0) (hle : k.imageEnd ≤ w.toNat)
    (hend : w.toNat + 4096 ≤ b.first.endAddr.toNat) : w ∈ pages k b.pagesLeft := by
  have hmod := imageEnd_mod k
  have hpos : (w.toNat - k.imageEnd) / 4096 < b.pagesLeft := by
    unfold pagesLeft
    omega
  refine List.mem_map.mpr ⟨_, List.mem_range.mpr hpos, ?_⟩
  apply BitVec.eq_of_toNat_eq
  rw [b.toNat_page (Nat.le_of_lt hpos)]
  omega

theorem available_page (hi : i < b.pagesLeft) : b.Available (page k i) := by
  have hpage := b.toNat_page (Nat.le_of_lt hi)
  have hmod := imageEnd_mod k
  have hstart := b.start_le
  unfold pagesLeft at hi
  exact ⟨by omega, by omega, b.first, List.mem_cons_self, by omega, by omega⟩

theorem available_of_mem_pages (hi : i ≤ b.pagesLeft) (hw : w ∈ pages k i) : b.Available w := by
  obtain ⟨j, hj, rfl⟩ := List.mem_map.mp hw
  exact available_page (Nat.lt_of_lt_of_le (List.mem_range.mp hj) hi)

theorem available_nextStart (hw : nextStart b.rest = some w) : b.Available w := by
  obtain ⟨c, hc, rfl, hlt⟩ := exists_of_nextStart hw
  have halign := b.aligned c (List.mem_cons_of_mem _ hc)
  have hfirst := (b.later_area hc).1
  have hle := b.le_end
  rw [BitVec.lt_def] at hlt
  exact ⟨halign.1, by omega, c, List.mem_cons_of_mem _ hc, Nat.le_refl _, by omega⟩

/-- Without a later page, an available page is one behind the image. -/
theorem mem_pages_of_available (hnone : nextStart b.rest = none) (hw : b.Available w) :
    w ∈ pages k b.pagesLeft := by
  obtain ⟨hmod, hle, c, hc, hstart, hend⟩ := hw
  rcases List.mem_cons.mp hc with rfl | hc
  · exact mem_pages hmod hle hend
  · have hempty := nextStart_eq_none.mp hnone c hc
    rw [BitVec.le_def] at hempty
    omega

@[simp] theorem length_pages (k : KernelLayout) (i : Nat) : (pages k i).length = i := by
  simp [pages]

/-- Up to the end of the first area there is one run only. -/
theorem eq_pages {l : List Word} {a' : PageTableAlloc} (h : Hands (earlyAlloc k b.toMap a) l a')
    (hlen : l.length ≤ b.pagesLeft) : l = pages k l.length ∧ a' = b.after a l.length :=
  h.unique (hands_pages hlen) (length_pages k _).symm

/-- A longer run goes on with the next area. -/
theorem exists_next {l : List Word} {a' : PageTableAlloc} (h : Hands (earlyAlloc k b.toMap a) l a')
    (hlen : b.pagesLeft < l.length) :
    ∃ w l', nextStart b.rest = some w ∧ l = pages k b.pagesLeft ++ w :: l' := by
  rw [← List.take_append_drop b.pagesLeft l] at h
  obtain ⟨a₁, hfirst, hthen⟩ := h.split
  have htake : (l.take b.pagesLeft).length = b.pagesLeft := List.length_take_of_le (by omega)
  obtain ⟨hpages, rfl⟩ := eq_pages hfirst (Nat.le_of_eq htake)
  rw [htake] at hpages hthen
  have hnext := allocate_stuck (a := a) b.pagesLeft_beyond
  cases hdrop : l.drop b.pagesLeft with
  | nil =>
      rw [List.drop_eq_nil_iff] at hdrop
      omega
  | cons w l' =>
      rw [hdrop] at hthen
      refine ⟨w, l', ?_, by rw [← hpages, ← hdrop, List.take_append_drop]⟩
      cases hthen with
      | cons hw _ =>
          rw [after, ← stuck, hnext] at hw
          cases hstart : nextStart b.rest with
          | none => rw [hstart] at hw; cases hw
          | some w' => rw [hstart] at hw; cases hw; rfl

/-- A panic after the first `i` pages means that there are no more. -/
theorem mem_pages_of_panic {e : Panic} (hi : i ≤ b.pagesLeft)
    (he : allocatePageTable (b.after a i) = .error e) (hw : b.Available w) : w ∈ pages k i := by
  rcases Nat.lt_or_eq_of_le hi with hlt | rfl
  · rw [allocate_after hlt] at he
    cases he
  · rw [after, ← stuck, allocate_stuck b.pagesLeft_beyond] at he
    cases hnext : nextStart b.rest with
    | none => exact mem_pages_of_available hnext hw
    | some w' => rw [hnext] at he; cases he

theorem nodup_pages_append (hw : nextStart b.rest = some w) :
    (pages k b.pagesLeft ++ [w]).Nodup := by
  obtain ⟨c, hc, rfl, -⟩ := exists_of_nextStart hw
  have hfirst := (b.later_area hc).1
  have hle := b.le_end
  refine List.nodup_append.mpr ⟨nodup_pages (Nat.le_refl _), List.nodup_singleton _, ?_⟩
  intro x hx y hy hxy
  rw [List.mem_singleton.mp hy] at hxy
  obtain ⟨j, hj, rfl⟩ := List.mem_map.mp hx
  rw [List.mem_range] at hj
  have hpage := b.toNat_page (Nat.le_of_lt hj)
  rw [hxy] at hpage
  unfold pagesLeft at hj
  omega

/-- Two calls behind the first area hand out one page. -/
theorem not_sound (hw : nextStart b.rest = some w) (hn : b.pagesLeft + 1 < n) :
    ¬ b.Sound a n := by
  intro h
  have hlen : (pages k b.pagesLeft ++ [w, w]).length ≤ n := by
    rw [List.length_append, length_pages]
    exact hn
  obtain ⟨hnodup, -⟩ := h _ _ (hands_twice hw) hlen
  have htwice := (List.nodup_append.mp hnodup).2.1
  simp at htwice

/-- **The allocator over several areas**: `n` calls hand out distinct pages
of the map behind the image, and panic only when there is none left, exactly
if no later area has a page or the calls end with the first page behind the
first area. -/
theorem allocatePageTable_areas_iff {k : KernelLayout} (b : BootMap k) (a : PageTableAlloc)
    (n : Nat) : b.Sound a n ↔
      (∀ c ∈ b.rest, c.endAddr ≤ c.start) ∨ n ≤ b.pagesLeft + 1 := by
  rw [← nextStart_eq_none]
  constructor
  · intro h
    by_contra hcond
    rw [not_or, Nat.not_le] at hcond
    obtain ⟨w, hw⟩ := Option.ne_none_iff_exists'.mp hcond.1
    exact not_sound hw hcond.2 h
  · intro hcond l a' hl hlen
    by_cases hle : l.length ≤ b.pagesLeft
    · obtain ⟨hpages, rfl⟩ := eq_pages hl hle
      rw [hpages, length_pages]
      refine ⟨nodup_pages hle, fun w hw => available_of_mem_pages hle hw, ?_⟩
      rintro - ⟨e, he⟩ w hw
      exact mem_pages_of_panic hle he hw
    · obtain ⟨w, l', hnext, rfl⟩ := exists_next hl (by omega)
      have hn : n ≤ b.pagesLeft + 1 := hcond.resolve_left (by rw [hnext]; exact nofun)
      have hlast : l' = [] := by
        rw [List.length_append, length_pages, List.length_cons] at hlen
        exact List.length_eq_zero_iff.mp (by omega)
      subst hlast
      refine ⟨nodup_pages_append hnext, ?_, ?_⟩
      · intro x hx
        rcases List.mem_append.mp hx with hx | hx
        · exact available_of_mem_pages (Nat.le_refl _) hx
        · rw [List.mem_singleton.mp hx]
          exact available_nextStart hnext
      · intro hlt
        rw [List.length_append, length_pages, List.length_singleton] at hlt
        omega

end BootMap

/-- A board with a second bank of memory: the first one ends two pages behind
the image. -/
def twoBanks : BootMap rpiLayout where
  first := ⟨0, 0x1A3000⟩
  rest := [⟨0x40000000, 0x80000000⟩]
  aligned := by decide
  ordered := by decide
  sorted := by decide
  start_le := by decide
  le_end := by decide

/-- The fourth table on that board is the third one. -/
theorem not_sound_twoBanks : ¬ twoBanks.Sound ⟨fun _ => 0, 0, none, 0⟩ 4 :=
  BootMap.not_sound (w := 0x40000000) (by decide) (by decide)

end TeachingOs
