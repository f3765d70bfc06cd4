import TeachingOs.Mmu.KernelTree

/-!
# TeachingOs.Mmu.WalkPages

What `walk_pages` does with its callback.  Each of its four loops is a
`walkTable`; on a `TreeInv` tree the address it descends to is the frame of
the table, so the callback only ever sees leaf descriptors of the tree.
-/

namespace TeachingOs

open RadixTree

variable {σ : Type} {m : PhysMem} {a : PageTableAlloc} {root t : Frame}

/-- A callback that never fails makes a loop that never fails. -/
theorem walkTable_ok {visit : σ → Word → Except Panic σ} (n : Nat) (table : Word)
    (hvisit : ∀ s p, ∃ s', visit s p = .ok s') (s : σ) :
    ∃ s', walkTable m n visit table s = .ok s' := by
  refine foldlM_ok (fun s i => ?_) (List.range n) s
  simp only
  split
  · exact hvisit s _
  · exact ⟨s, rfl⟩

/-- A callback that never fails makes a walk that never fails. -/
theorem walkPages_ok {callback : σ → Word → Except Panic σ} (table : Word)
    (hcallback : ∀ s p, ∃ s', callback s p = .ok s') (s : σ) :
    ∃ s', walkPages m table callback s = .ok s' :=
  walkTable_ok 256 table (fun s _ => walkTable_ok 512 _ (fun s _ => walkTable_ok 512 _
    (fun s _ => walkTable_ok 512 _ (fun s _ => hcallback s _) s) s) s) s

/-- A property that every visit of a valid slot keeps is kept by the loop. -/
theorem walkTable_inv {visit : σ → Word → Except Panic σ} {P : σ → Prop} {n : Nat} (hn : n ≤ 512)
    (hvisit : ∀ (i : Fin 512) s s', i.val < n → m (t.slot i) &&& 1 ≠ 0 → P s →
      visit s (m (t.slot i)) = .ok s' → P s') {s s' : σ}
    (h : walkTable m n visit t.addr s = .ok s') (hs : P s) : P s' := by
  refine foldlM_inv ?_ h hs
  intro s i s' hi hs hstep
  have hin : i < n := List.mem_range.mp hi
  have hslot : t.addr + BitVec.ofNat 64 i * 8 = t.slot ⟨i, by omega⟩ := by
    simp only [Frame.slot]
    bv_omega
  simp only [load_logicalMap, hslot] at hstep
  split at hstep
  · next hvalid => exact hvisit ⟨i, by omega⟩ s s' hin hvalid hs hstep
  · cases hstep
    exact hs

/-- Masking a valid slot above the leaves gives the table it names. -/
theorem TreeInv.child_of_valid {S : Fin 512 → Prop} (hinv : TreeInv m a root S)
    {p : List (Fin 512)} {i : Fin 512} (hS : Starts S (p ++ [i])) (hlen : p.length < 3)
    (ht : pageLayout.descend m root p = some t) (hvalid : m (t.slot i) &&& 1 ≠ 0) :
    ∃ f : Frame, m (t.slot i) &&& ~~~0xFFF = f.addr ∧
      pageLayout.descend m root (p ++ [i]) = some f := by
  obtain hinvalid | ⟨f, hf⟩ := hinv.table i hS hlen ht
  · exact absurd hinvalid hvalid
  refine ⟨f, ?_, ?_⟩
  · have hlow : (3 : Word) &&& ~~~0xFFF = 0 := by decide
    have hmask : addrMask &&& ~~~0xFFF = addrMask := by decide
    rw [hf, BitVec.and_or_distrib_right, hlow, ← f.masked, BitVec.and_assoc, hmask]
    simp
  · rw [Layout.descend_concat, ht]
    show childTable (m (t.slot i)) = some f
    rw [hf, childTable_table]

/-- A property that the callback keeps on every leaf of the lower half is
kept by `walk_pages`. -/
theorem walkPages_inv {callback : σ → Word → Except Panic σ} {P : σ → Prop}
    (hinv : TreeInv m a root LowerHalf)
    (hcallback : ∀ p i d s s', Starts LowerHalf p → p.length = 3 → pteAt m root p i = some d →
      P s → callback s (d &&& ~~~(0xFFF ||| UXN ||| PXN)) = .ok s' → P s') {s s' : σ}
    (h : walkPages m root.addr callback s = .ok s') (hs : P s) : P s' := by
  refine walkTable_inv (t := root) (by decide) ?_ h hs
  intro i s s' hi hvalid hs h
  obtain ⟨f1, hf1, h1⟩ := hinv.child_of_valid (p := []) hi (by simp) rfl hvalid
  rw [hf1] at h
  refine walkTable_inv (t := f1) (Nat.le_refl 512) ?_ h hs
  intro j s s' _ hvalid hs h
  obtain ⟨f2, hf2, h2⟩ := hinv.child_of_valid (p := [i]) hi (by simp) h1 hvalid
  rw [hf2] at h
  refine walkTable_inv (t := f2) (Nat.le_refl 512) ?_ h hs
  intro k s s' _ hvalid hs h
  obtain ⟨f3, hf3, h3⟩ := hinv.child_of_valid (p := [i, j]) hi (by simp) h2 hvalid
  rw [hf3] at h
  refine walkTable_inv (t := f3) (Nat.le_refl 512) ?_ h hs
  intro l s s' _ hvalid hs h
  refine hcallback [i, j, k] l _ s s' hi rfl ?_ hs h
  have h3' : pageLayout.descend m root [i, j, k] = some f3 := h3
  rw [pteAt, h3', Option.bind_some, if_neg hvalid]

end TeachingOs
