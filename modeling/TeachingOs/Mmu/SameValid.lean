import TeachingOs.Mmu.Denote

/-!
# TeachingOs.Mmu.SameValid

What the page-table code can tell apart.  It looks at a descriptor beyond
bit 0 only when that bit is set, and at the end of an area only to see that
one more page fits.  So a run follows any other run that succeeds on a memory
with the same valid descriptors and on a smaller area (`Follows`), and the
hardware sees the same translations (`SameValid.hwWalk`).
-/

namespace TeachingOs

/-! ## Memories -/

/-- The same valid descriptors. -/
def SameValid (m m' : PhysMem) : Prop := ∀ w, m w = m' w ∨ m w &&& 1 = 0 ∧ m' w &&& 1 = 0

namespace SameValid

variable {m m' : PhysMem}

theorem invalid_iff (h : SameValid m m') (w : Word) : m w &&& 1 = 0 ↔ m' w &&& 1 = 0 := by
  rcases h w with heq | ⟨h0, h0'⟩
  · rw [heq]
  · exact ⟨fun _ => h0', fun _ => h0⟩

theorem eq_of_valid (h : SameValid m m') {w : Word} (hv : ¬ m w &&& 1 = 0) : m w = m' w := by
  rcases h w with heq | ⟨h0, -⟩
  · exact heq
  · exact absurd h0 hv

theorem symm (h : SameValid m m') : SameValid m' m :=
  fun w => (h w).imp Eq.symm And.symm

theorem update (h : SameValid m m') (p val : Word) :
    SameValid (Function.update m p val) (Function.update m' p val) := by
  intro w
  by_cases hw : w = p
  · subst hw
    exact Or.inl (by rw [Function.update_self, Function.update_self])
  · rw [Function.update_of_ne hw, Function.update_of_ne hw]
    exact h w

theorem store (h : SameValid m m') (ptr val : Word) :
    SameValid (store m ptr val) (store m' ptr val) := h.update _ val

/-- The hardware follows and outputs valid descriptors only. -/
theorem hwWalkFrom (h : SameValid m m') (v : Word) (k : Nat) (table : Word) :
    hwWalkFrom m v k table = hwWalkFrom m' v k table := by
  induction k generalizing table with
  | zero =>
      simp only [TeachingOs.hwWalkFrom]
      rcases h (table + slotIndex v 12 * 8) with heq | ⟨h0, h0'⟩
      · rw [heq]
      · have hne : ∀ d : Word, d &&& 1 = 0 → d &&& 3 ≠ 3 := by
          intro d hd h3
          have hone : d &&& 3 &&& 1 = d &&& 1 := by rw [BitVec.and_assoc]; rfl
          rw [h3, hd] at hone
          exact absurd hone (by decide)
        rw [if_neg (hne _ h0), if_neg (hne _ h0')]
  | succ k ih =>
      simp only [TeachingOs.hwWalkFrom]
      rcases h (table + slotIndex v (12 + 9 * (k + 1)) * 8) with heq | ⟨h0, h0'⟩
      · rw [heq]
        simp only [ih]
      · rw [if_pos h0, if_pos h0']

theorem hwWalk (h : SameValid m m') (root v : Word) : hwWalk m root v = hwWalk m' root v :=
  h.hwWalkFrom v 3 root

end SameValid

/-! ## Allocators -/

/-- Both allocate from one area, from the same page on, and the second area
ends no earlier. -/
structure Roomier (a a' : PageTableAlloc) : Prop where
  last : a'.earlyLast = a.earlyLast
  src : ∃ area area' : MemArea, a.earlySrc = some ⟨[area]⟩ ∧ a'.earlySrc = some ⟨[area']⟩ ∧
    area.endAddr ≤ area'.endAddr

theorem Roomier.allocate {a a' b : PageTableAlloc} {w : Word} (h : Roomier a a')
    (hw : allocatePageTable a = .ok (w, b)) :
    ∃ b', allocatePageTable a' = .ok (w, b') ∧ Roomier b b' := by
  obtain ⟨hlast, area, area', hsrc, hsrc', hle⟩ := h
  rw [allocatePageTable_single hsrc] at hw
  split at hw
  · next hlt =>
    obtain ⟨rfl, rfl⟩ := Prod.mk.inj (Except.ok.inj hw)
    have hlt' : a'.earlyLast + 4096 + PAGE_SIZE - 1 < area'.endAddr := by
      rw [hlast]
      bv_omega
    rw [allocatePageTable_single hsrc', if_pos hlt', hlast]
    exact ⟨_, rfl, rfl, area, area', hsrc, hsrc', hle⟩
  · cases hw

/-! ## Runs -/

/-- `t` can do what `s` does. -/
structure Follows (s t : Mmu) : Prop where
  mem : SameValid s.mem t.mem
  alloc : Roomier s.alloc t.alloc

namespace Follows

variable {s s' t : Mmu} {table addr r : Word} {shift : Nat}

theorem walkOrCreate (h : Follows s t) (hok : walkOrCreate s table addr shift = .ok (r, s')) :
    ∃ t', TeachingOs.walkOrCreate t table addr shift = .ok (r, t') ∧ Follows s' t' := by
  unfold TeachingOs.walkOrCreate at hok ⊢
  have hiff : load s.mem (walk table addr shift) &&& 1 = 0 ↔
      load t.mem (walk table addr shift) &&& 1 = 0 := h.mem.invalid_iff _
  by_cases hempty : load s.mem (walk table addr shift) &&& 1 = 0
  · rw [if_pos hempty] at hok
    rw [if_pos (hiff.mp hempty)]
    obtain ⟨⟨w, b⟩, hw, hok⟩ := bind_eq_ok.mp hok
    obtain ⟨b', hw', hb⟩ := h.alloc.allocate hw
    cases hok
    exact ⟨_, by rw [hw', ok_bind]; rfl, h.mem.store _ _, hb⟩
  · have heq : load s.mem (walk table addr shift) = load t.mem (walk table addr shift) :=
      h.mem.eq_of_valid hempty
    rw [if_neg hempty] at hok
    rw [if_neg fun ht => hempty (hiff.mpr ht), ← heq]
    obtain ⟨u, hassert, hok⟩ := bind_eq_ok.mp hok
    cases hok
    exact ⟨t, by rw [hassert]; rfl, h⟩

theorem mmuMap {va pa : Word} {flags : MapFlags} (h : Follows s t)
    (hok : mmuMap s table va pa flags = .ok s') :
    ∃ t', TeachingOs.mmuMap t table va pa flags = .ok t' ∧ Follows s' t' := by
  unfold TeachingOs.mmuMap at hok ⊢
  obtain ⟨⟨level1, s₁⟩, h1, hok⟩ := bind_eq_ok.mp hok
  obtain ⟨t₁, h1', hf1⟩ := h.walkOrCreate h1
  obtain ⟨⟨level2, s₂⟩, h2, hok⟩ := bind_eq_ok.mp hok
  obtain ⟨t₂, h2', hf2⟩ := hf1.walkOrCreate h2
  obtain ⟨⟨level3, s₃⟩, h3, hok⟩ := bind_eq_ok.mp hok
  obtain ⟨t₃, h3', hf3⟩ := hf2.walkOrCreate h3
  cases hok
  simp only [h1', h2', h3', ok_bind]
  exact ⟨_, rfl, hf3.mem.store _ _, hf3.alloc⟩

theorem mmuMapAll {calls : List MapCall} (h : Follows s t)
    (hok : mmuMapAll table s calls = .ok s') :
    ∃ t', TeachingOs.mmuMapAll table t calls = .ok t' ∧ Follows s' t' :=
  foldlM_sim (fun _ _ _ _ _ hst hstep => hst.mmuMap hstep) hok h

end Follows

end TeachingOs
