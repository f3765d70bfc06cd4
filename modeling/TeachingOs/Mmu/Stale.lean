import TeachingOs.Mmu.Blank
import TeachingOs.Mmu.Walked

/-!
# TeachingOs.Mmu.Stale

What the RAM behind the image held before.  `allocate_page_table` does not
clear the pages it hands out, so a word that looks like a valid descriptor
becomes one, unless `mmu_init` stores its own in that slot.
`kernelMaps_faults` says which words do harm.
-/

namespace TeachingOs

open RadixTree

/-! ## Stale words -/

namespace KernelLayout

variable (k : KernelLayout)

/-- A page of the image is mapped in slot `i` of the level-3 table at `q`. -/
def Filled (q : List (Fin 512)) (i : Fin 512) : Prop :=
  ∃ c ∈ k.imageCalls, tablePath c.virtualAddress = q ∧ index c.virtualAddress 12 = i

/-- A word that translates, or is followed, when it is left in a slot: at level 3
a page descriptor in a slot that is not filled, and elsewhere a valid descriptor,
which at level 0 and where a table is linked is a table descriptor. -/
def Stale (q : List (Fin 512)) (i : Fin 512) (d : Word) : Prop :=
  if q.length = 3 then ¬ k.Filled q i ∧ d &&& 3 = 3
  else d &&& 1 ≠ 0 ∧ (q = [] ∨ q ++ [i] ∈ k.tables → d &&& 3 = 3)

/-- No word that becomes a descriptor is stale. -/
def Unstale (mem : PhysMem) : Prop :=
  ∀ q i, k.Slot q i → ¬ k.Stale q i (mem (k.tableSlot q i))

variable {k}

theorem stale_iff_of_table {q : List (Fin 512)} {i : Fin 512} (hlen : q.length ≠ 3)
    (htable : q = [] ∨ q ++ [i] ∈ k.tables) (d : Word) : k.Stale q i d ↔ d &&& 3 = 3 := by
  rw [Stale, if_neg hlen]
  exact ⟨fun h => h.2 htable, fun h => ⟨and_one_of_and_three h, fun _ => h⟩⟩

end KernelLayout

namespace Staining

variable {k : KernelLayout} {mem : PhysMem} {area : MemArea} {areas : List MemArea} {s t : Mmu}
  {root f g : Frame} {q : List (Fin 512)} {i : Fin 512} {v : Word} {n : Nat}

/-- Its slots. -/
theorem slot (h : Staining k mem area areas s t root k.tables) (hq : q ∈ k.tables)
    (hf : pageLayout.descend s.mem root q = some f) (i : Fin 512) : f.slot i = k.tableSlot q i := by
  obtain ⟨hstarts, hlen⟩ := KernelLayout.tables_spec hq
  exact (h.tabled.slot_eq h.base (fun _ hr => ⟨hr, rfl⟩) hstarts hlen hf i).1

end Staining

/-! ## What an old word does -/

/-- The page of an address in the image is mapped by a call. -/
theorem KernelLayout.InImage.exists_call {k : KernelLayout} {v : Word} (h : k.InImage v) :
    ∃ c ∈ k.imageCalls, pageNumber c.virtualAddress = pageNumber v := by
  obtain ⟨r, hr, u, hlow, hhigh, hpage⟩ := h
  obtain ⟨i, hi, heq⟩ := ImageRange.exists_call hlow hhigh
  obtain ⟨hva, -⟩ := ImageRange.toNat_call hi
  refine ⟨r.call i, mem_imageCalls.mpr ⟨r, hr, i, hi, rfl⟩, ?_⟩
  rw [← hpage, pageNumber, pageNumber, hva, heq]
  omega

namespace Staining

variable {k : KernelLayout} {mem : PhysMem} {area : MemArea} {areas : List MemArea} {s t : Mmu}
  {root f : Frame} {q : List (Fin 512)} {i : Fin 512} {v : Word} {n : Nat}

end Staining

/-! ## Stale RAM -/

theorem KernelLayout.Unstale.links {k : KernelLayout} {mem : PhysMem} (h : k.Unstale mem) :
    LinksUnstale k mem := by
  intro q i hslot hnext hthree
  have hlen := (KernelLayout.tables_spec hnext).2
  rw [List.length_append, List.length_singleton] at hlen
  exact h q i hslot ((KernelLayout.stale_iff_of_table (by omega) (.inr hnext) _).mpr hthree)

theorem LinksClear.links {k : KernelLayout} {mem : PhysMem} (h : LinksClear k mem) :
    LinksUnstale k mem := by
  intro q i hslot hnext hthree
  exact and_one_of_and_three hthree (h q i hslot hnext)

/-- The image lies between the kernel's base and `_end`. -/
theorem KernelLayout.InImage.bounds {k : KernelLayout} {v : Word} (h : k.InImage v) :
    ∃ u : Word, 0xFFFF000000000000 ≤ u.toNat ∧ u.toNat < k.kernEnd.toNat ∧
      pageNumber u = pageNumber v := by
  obtain ⟨r, hr, u, hlow, hhigh, hpage⟩ := h
  have hbase := r.low
  have hend : r.endPtr.toNat ≤ k.kernEnd.toNat := by
    have h3 := k.text_le_rodata
    have h4 := k.rodata_le
    have h5 := k.rodata_le_data
    have h6 := k.data_le
    have h7 := k.data_le_end
    simp only [ranges, List.mem_cons, List.not_mem_nil, or_false] at hr
    rcases hr with rfl | rfl | rfl <;> simp only [text, rodata, data] <;> omega
  exact ⟨u, by bv_omega, by bv_omega, hpage⟩

end TeachingOs
