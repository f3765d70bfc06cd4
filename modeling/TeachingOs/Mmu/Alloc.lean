import Mathlib.Data.List.Nodup
import Mathlib.Tactic.Ring
import TeachingOs.Mmu.Frame
import TeachingOs.Lib.Except

/-!
# TeachingOs.Mmu.Alloc

Runs of `allocate_page_table`.  `Hands a l a'` says that from `a` the next
`l.length` calls succeed and hand out the frames `l`.  `Allocates` is the
contract style of every function that allocates: it makes a bounded number
of allocations and reaches its postcondition, or it ends with the panic of
the allocator itself.
-/

namespace TeachingOs

/-- The next calls of `allocate_page_table` hand out `l` and end in `a'`. -/
inductive Hands : PageTableAlloc → List Word → PageTableAlloc → Prop where
  | nil (a : PageTableAlloc) : Hands a [] a
  | cons {a a' a'' : PageTableAlloc} {w : Word} {l : List Word} :
      allocatePageTable a = .ok (w, a') → Hands a' l a'' → Hands a (w :: l) a''

theorem Hands.append {a a' a'' : PageTableAlloc} {l l' : List Word} (h : Hands a l a')
    (h' : Hands a' l' a'') : Hands a (l ++ l') a'' := by
  induction h with
  | nil => exact h'
  | cons hw _ ih => exact .cons hw (ih h')

/-! ## Allocating computations -/

/-- `x`, started with the allocator in state `a`, makes at most `n`
allocations and ends in a result satisfying `Q`, or it ends with a panic of
the allocator.  `g` projects the allocator out of the result. -/
def Allocates {α : Type} (n : Nat) (a : PageTableAlloc) (g : α → PageTableAlloc)
    (x : Except Panic α) (Q : α → Prop) : Prop :=
  match x with
  | .ok r => ∃ l, l.length ≤ n ∧ Hands a l (g r) ∧ Q r
  | .error e => ∃ l a', l.length < n ∧ Hands a l a' ∧ allocatePageTable a' = .error e

namespace Allocates

variable {α β : Type} {a : PageTableAlloc} {g : α → PageTableAlloc} {bl : β → PageTableAlloc}

theorem of_ok {r : α} {Q : α → Prop} (hr : g r = a) (hQ : Q r) :
    Allocates 0 a g (.ok r) Q := ⟨[], by simp, hr ▸ .nil a, hQ⟩

theorem mono {n k : Nat} {x : Except Panic α} {Q R : α → Prop} (h : Allocates n a g x Q)
    (hnk : n ≤ k) (hQR : ∀ r, Q r → R r) : Allocates k a g x R := by
  cases x with
  | ok r =>
      obtain ⟨l, hl, hh, hq⟩ := h
      exact ⟨l, by omega, hh, hQR r hq⟩
  | error e =>
      obtain ⟨l, a', hl, hh, he⟩ := h
      exact ⟨l, a', by omega, hh, he⟩

/-- Sequencing adds the numbers of allocations. -/
theorem bind {n k : Nat} {x : Except Panic α} {Q : α → Prop} {f : α → Except Panic β}
    {R : β → Prop} (hx : Allocates n a g x Q)
    (hf : ∀ r, Q r → Allocates k (g r) bl (f r) R) : Allocates (n + k) a bl (x >>= f) R := by
  cases x with
  | error e =>
      obtain ⟨l, a', hl, hh, he⟩ := hx
      exact ⟨l, a', by omega, hh, he⟩
  | ok r =>
      obtain ⟨l, hl, hh, hq⟩ := hx
      rw [ok_bind]
      have hr := hf r hq
      cases hfr : f r with
      | ok b =>
          rw [hfr] at hr
          obtain ⟨l', hl', hh', hR⟩ := hr
          exact ⟨l ++ l', by simp only [List.length_append]; omega, hh.append hh', hR⟩
      | error e =>
          rw [hfr] at hr
          obtain ⟨l', a', hl', hh', he⟩ := hr
          exact ⟨l ++ l', a', by simp only [List.length_append]; omega, hh.append hh', he⟩

/-- A loop whose rounds keep `P` and allocate at most `n` frames each. -/
theorem foldlM {n : Nat} {P : List β → α → Prop} {f : α → β → Except Panic α} {l : List β}
    (hf : ∀ pre b s, b ∈ l → P pre s → Allocates n (g s) g (f s b) (P (pre ++ [b])))
    {s : α} (hs : P [] s) : Allocates (n * l.length) (g s) g (l.foldlM f s) (P l) := by
  suffices hgen : ∀ l' pre s, (∀ b ∈ l', b ∈ l) → P pre s →
      Allocates (n * l'.length) (g s) g (l'.foldlM f s) (P (pre ++ l')) from
    hgen l [] s (fun _ h => h) hs
  intro l'
  induction l' with
  | nil => intro pre s _ hs; exact of_ok rfl (by simpa using hs)
  | cons b l' ih =>
      intro pre s hl hs
      have htail := fun s' hs' =>
        ih (pre ++ [b]) s' (fun c hc => hl c (List.mem_cons_of_mem b hc)) hs'
      rw [List.foldlM_cons]
      refine (bind (hf pre b s (hl b List.mem_cons_self) hs) htail).mono ?_ ?_
      · rw [List.length_cons, Nat.mul_succ]; omega
      · intro s' hs'; simpa using hs'

/-- One call of the allocator. -/
theorem allocate (a : PageTableAlloc) :
    Allocates 1 a (·.2) (allocatePageTable a) (allocatePageTable a = .ok ·) := by
  cases h : allocatePageTable a with
  | ok r => exact ⟨[r.1], by simp, .cons h (.nil r.2), rfl⟩
  | error e => exact ⟨[], a, by simp, .nil a, h⟩

/-- The frames taken are known to the postcondition. -/
theorem and_hands {n : Nat} {x : Except Panic α} {Q : α → Prop} (h : Allocates n a g x Q) :
    Allocates n a g x fun r => Q r ∧ ∃ l, Hands a l (g r) := by
  cases x with
  | ok r =>
      obtain ⟨l, hl, hh, hq⟩ := h
      exact ⟨l, hl, hh, hq, l, hh⟩
  | error e => exact h

/-- A result satisfies the postcondition. -/
theorem of_eq_ok {n : Nat} {x : Except Panic α} {Q : α → Prop} (h : Allocates n a g x Q) {r : α}
    (hx : x = .ok r) : Q r := by
  subst hx
  obtain ⟨-, -, -, hq⟩ := h
  exact hq

/-- When the allocator has `n` frames left there is no panic. -/
theorem exists_ok {n : Nat} {x : Except Panic α} {Q : α → Prop} (h : Allocates n a g x Q)
    (hroom : ∀ l a', l.length < n → Hands a l a' → ∃ r, allocatePageTable a' = .ok r) :
    ∃ r l, x = .ok r ∧ Q r ∧ l.length ≤ n ∧ Hands a l (g r) := by
  cases x with
  | ok r =>
      obtain ⟨l, hl, hh, hq⟩ := h
      exact ⟨r, l, rfl, hq, hl, hh⟩
  | error e =>
      obtain ⟨l, a', hl, hh, he⟩ := h
      obtain ⟨r, hr⟩ := hroom l a' hl hh
      rw [hr] at he
      cases he

end Allocates

/-! ## Frames handed out -/

/-- The frames still to be handed out are page frames, pairwise distinct,
zero-filled, and none of them is the root. -/
def FreshFrames (m : PhysMem) (a : PageTableAlloc) (root : Frame) : Prop :=
  ∀ l a', Hands a l a' → l.Nodup ∧
    ∀ w ∈ l, IsFrame w ∧ w ≠ root.addr ∧ ∀ i : Fin 512, m (w + BitVec.ofNat 64 (i * 8)) = 0

/-! ## One area -/

/-- From a single area the allocator hands out the page after the last one
as long as that page ends inside the area. -/
theorem allocatePageTable_single {a : PageTableAlloc} {area : MemArea}
    (ha : a.earlySrc = some ⟨[area]⟩) :
    allocatePageTable a =
      if a.earlyLast + 4096 + PAGE_SIZE - 1 < area.endAddr then
        .ok (a.earlyLast + 4096, { a with earlyLast := a.earlyLast + 4096 })
      else .error (.message "aarch64 mmu: could not allocate early physical frames") := by
  unfold allocatePageTable
  rw [ha]
  simp only [earlyCandidate]
  split
  · next h =>
    split at h
    · next hlt => rw [if_pos hlt, Option.some.inj h]
    · cases h
  · next h =>
    split at h
    · cases h
    · next hlt => rw [if_neg hlt]

/-- The same in natural numbers, while addresses stay below 2^63. -/
theorem allocatePageTable_single_ok {a a' : PageTableAlloc} {area : MemArea} {w : Word}
    (ha : a.earlySrc = some ⟨[area]⟩) (hend : area.endAddr.toNat < 2 ^ 62)
    (hlast : a.earlyLast.toNat < 2 ^ 62) (h : allocatePageTable a = .ok (w, a')) :
    w.toNat = a.earlyLast.toNat + 4096 ∧ w.toNat + 4096 ≤ area.endAddr.toNat ∧
      a'.earlySrc = a.earlySrc ∧ a'.earlyLast = w := by
  rw [allocatePageTable_single ha] at h
  split at h
  · next hlt =>
    simp only [Except.ok.injEq, Prod.mk.injEq] at h
    simp only [PAGE_SIZE] at hlt
    have hw : w.toNat = a.earlyLast.toNat + 4096 := by
      rw [← h.1]
      bv_omega
    have hroom : w.toNat + 4096 ≤ area.endAddr.toNat := by
      rw [hw]
      bv_omega
    exact ⟨hw, hroom, by rw [← h.2], by rw [← h.2, ← h.1]⟩
  · cases h

/-- The frames from a single area are consecutive pages inside it. -/
theorem Hands.single {a a' : PageTableAlloc} {l : List Word} {area : MemArea}
    (h : Hands a l a') (ha : a.earlySrc = some ⟨[area]⟩)
    (hend : area.endAddr.toNat < 2 ^ 62) (hlast : a.earlyLast.toNat < 2 ^ 62) :
    a'.earlySrc = a.earlySrc ∧ a'.earlyLast.toNat = a.earlyLast.toNat + 4096 * l.length ∧
      ∀ k (hk : k < l.length), l[k].toNat = a.earlyLast.toNat + 4096 * (k + 1) ∧
        l[k].toNat + 4096 ≤ area.endAddr.toNat := by
  induction h with
  | nil => simp
  | @cons a a₁ a₂ w l hw hh ih =>
      obtain ⟨hnext, hroom, hsrc, rfl⟩ := allocatePageTable_single_ok ha hend hlast hw
      obtain ⟨hsrc', hl, hks⟩ := ih (hsrc.trans ha) (by omega)
      refine ⟨hsrc'.trans hsrc, by rw [hl, hnext, List.length_cons]; omega, ?_⟩
      intro k hk
      cases k with
      | zero => exact ⟨by simpa using hnext, by simpa using hroom⟩
      | succ k =>
          rw [List.getElem_cons_succ]
          obtain ⟨hat, hin⟩ := hks k (by simpa using hk)
          exact ⟨by rw [hat, hnext]; ring, hin⟩

/-- A single area with room for `n` pages hands out `n` frames. -/
theorem Hands.single_room {a : PageTableAlloc} {area : MemArea} {n : Nat}
    (ha : a.earlySrc = some ⟨[area]⟩) (hend : area.endAddr.toNat < 2 ^ 62)
    (hroom : a.earlyLast.toNat + 4096 * (n + 1) ≤ area.endAddr.toNat) :
    ∀ l a', l.length < n → Hands a l a' → ∃ r, allocatePageTable a' = .ok r := by
  intro l a' hl hh
  obtain ⟨hsrc, hlast, -⟩ := hh.single ha hend (by omega)
  have hfits : a'.earlyLast + 4096 + PAGE_SIZE - 1 < area.endAddr := by
    simp only [PAGE_SIZE]
    bv_omega
  rw [allocatePageTable_single (hsrc.trans ha), if_pos hfits]
  exact ⟨_, rfl⟩

/-- A single area hands out distinct frames. -/
theorem Hands.single_nodup {a a' : PageTableAlloc} {l : List Word} {area : MemArea}
    (h : Hands a l a') (ha : a.earlySrc = some ⟨[area]⟩)
    (hend : area.endAddr.toNat < 2 ^ 62) (hlast : a.earlyLast.toNat < 2 ^ 62) : l.Nodup := by
  obtain ⟨-, -, hks⟩ := h.single ha hend hlast
  rw [List.nodup_iff_injective_get]
  intro i j hij
  have hi := (hks i i.isLt).1
  have hj := (hks j j.isLt).1
  simp only [List.get_eq_getElem] at hij
  rw [hij] at hi
  exact Fin.ext (by omega)

/-- A single area whose words past the last handed-out page are zero has
only fresh frames left; what lies behind the area does not matter. -/
theorem FreshFrames.of_single {m : PhysMem} {a : PageTableAlloc} {root : Frame} {area : MemArea}
    (ha : a.earlySrc = some ⟨[area]⟩) (hend : area.endAddr.toNat ≤ 2 ^ 48)
    (hlast : a.earlyLast.toNat % 4096 = 0) (hlt : a.earlyLast.toNat < 2 ^ 48)
    (hroot : root.addr.toNat ≤ a.earlyLast.toNat)
    (hzero : ∀ w : Word, a.earlyLast.toNat + 4096 ≤ w.toNat → w.toNat < area.endAddr.toNat →
      w.toNat % 8 = 0 → m w = 0) : FreshFrames m a root := by
  intro l a' h
  refine ⟨h.single_nodup ha (by omega) (by omega), fun w hw => ?_⟩
  obtain ⟨k, hk, rfl⟩ := List.mem_iff_getElem.mp hw
  obtain ⟨hat, hin⟩ := (h.single ha (by omega) (by omega)).2.2 k hk
  refine ⟨⟨by omega, by omega⟩, ?_, fun i => ?_⟩
  · intro heq
    rw [heq] at hat
    omega
  · have hi := i.isLt
    have hslot : (l[k] + BitVec.ofNat 64 (i * 8)).toNat = l[k].toNat + i * 8 := by
      rw [BitVec.toNat_add, BitVec.toNat_ofNat]
      omega
    exact hzero _ (by omega) (by omega) (by omega)

end TeachingOs
