import Mathlib.Data.Finset.Card
import TeachingOs.Mmu.Denote

/-!
# TeachingOs.Mmu.Tables

Which tables a run of `mmu_map` calls takes, and where they lie.  A tree is
described by the paths of its tables in the order of their creation
(`Tabled`), and a call adds the three tables that the walk of its address goes
through, those that are new.  Each table is one page behind the one created
before it (`Tabled.place`), so a run succeeds as soon as the area holds these
pages (`Tabled.mmuMapAll`).
-/

namespace TeachingOs

open RadixTree

/-- The tables below the root that the walk of an address goes through. -/
def tablesOf (va : Word) : Finset (List (Fin 512)) :=
  {[index va 39], [index va 39, index va 30], tablePath va}

/-- The tables of a sequence of calls. -/
def callTables : List MapCall → Finset (List (Fin 512))
  | [] => ∅
  | c :: calls => tablesOf c.virtualAddress ∪ callTables calls

theorem mem_callTables {q : List (Fin 512)} {calls : List MapCall} :
    q ∈ callTables calls ↔ ∃ c ∈ calls, q ∈ tablesOf c.virtualAddress := by
  induction calls with
  | nil => simp [callTables]
  | cons c calls ih => simp [callTables, ih]

/-- A call adds at most three tables. -/
theorem card_callTables_le (calls : List MapCall) : (callTables calls).card ≤ 3 * calls.length := by
  induction calls with
  | nil => simp [callTables]
  | cons c calls ih =>
      have hunion := Finset.card_union_le (tablesOf c.virtualAddress) (callTables calls)
      have hthree : (tablesOf c.virtualAddress).card ≤ 3 := Finset.card_le_three
      rw [callTables, List.length_cons]
      omega

/-! ## The order of creation -/

/-- The tables of a tree, given by their paths, the newest first: one more,
unless it is there. -/
def addTable (q : List (Fin 512)) (l : List (List (Fin 512))) : List (List (Fin 512)) :=
  if q ∈ l then l else q :: l

/-- The tables after a call for an address. -/
def createTables (va : Word) (l : List (List (Fin 512))) : List (List (Fin 512)) :=
  addTable (tablePath va) (addTable [index va 39, index va 30] (addTable [index va 39] l))

/-- The tables after a sequence of calls. -/
def createAll (calls : List MapCall) (l : List (List (Fin 512))) : List (List (Fin 512)) :=
  calls.foldl (fun l c => createTables c.virtualAddress l) l

/-- The number of tables that are older than the one at a path. -/
def place (l : List (List (Fin 512))) (q : List (Fin 512)) : Nat := l.length - 1 - l.idxOf q

section Order

variable {l : List (List (Fin 512))} {q r : List (Fin 512)}

theorem addTable_of_mem (h : q ∈ l) : addTable q l = l := if_pos h

theorem addTable_of_notMem (h : q ∉ l) : addTable q l = q :: l := if_neg h

theorem mem_addTable : r ∈ addTable q l ↔ r = q ∨ r ∈ l := by
  by_cases hq : q ∈ l
  · rw [addTable_of_mem hq]
    exact ⟨.inr, fun h => h.elim (fun heq => heq ▸ hq) id⟩
  · rw [addTable_of_notMem hq, List.mem_cons]

theorem sublist_addTable (q : List (Fin 512)) (l : List (List (Fin 512))) :
    l.Sublist (addTable q l) := by
  by_cases hq : q ∈ l
  · rw [addTable_of_mem hq]
  · rw [addTable_of_notMem hq]
    exact List.sublist_cons_self q l

theorem nodup_addTable (h : l.Nodup) (q : List (Fin 512)) : (addTable q l).Nodup := by
  by_cases hq : q ∈ l
  · rwa [addTable_of_mem hq]
  · rw [addTable_of_notMem hq]
    exact List.nodup_cons.mpr ⟨hq, h⟩

theorem place_lt (h : q ∈ l) : place l q < l.length := by
  have hpos := List.length_pos_of_mem h
  unfold place
  omega

/-- A new table is the newest. -/
theorem place_addTable_self (h : q ∉ l) : place (addTable q l) q = l.length := by
  rw [addTable_of_notMem h, place, List.idxOf_cons_self, List.length_cons]
  omega

/-- The others keep their place. -/
theorem place_addTable (h : r ∈ l) (q : List (Fin 512)) : place (addTable q l) r = place l r := by
  by_cases hq : q ∈ l
  · rw [addTable_of_mem hq]
  · have hne : q ≠ r := fun heq => hq (heq ▸ h)
    rw [addTable_of_notMem hq, place, place, List.idxOf_cons_ne _ hne, List.length_cons]
    omega

theorem toFinset_createTables (va : Word) (l : List (List (Fin 512))) :
    (createTables va l).toFinset = tablesOf va ∪ l.toFinset := by
  ext q
  simp only [createTables, tablesOf, List.mem_toFinset, mem_addTable, Finset.mem_union,
    Finset.mem_insert, Finset.mem_singleton]
  tauto

theorem toFinset_createAll (calls : List MapCall) (l : List (List (Fin 512))) :
    (createAll calls l).toFinset = callTables calls ∪ l.toFinset := by
  induction calls generalizing l with
  | nil => simp [createAll, callTables]
  | cons c calls ih =>
      have hcons : createAll (c :: calls) l =
          createAll calls (createTables c.virtualAddress l) := rfl
      rw [hcons, ih, toFinset_createTables, callTables, Finset.union_left_comm,
        Finset.union_assoc]

theorem nodup_createTables (h : l.Nodup) (va : Word) : (createTables va l).Nodup :=
  nodup_addTable (nodup_addTable (nodup_addTable h _) _) _

theorem nodup_createAll (h : l.Nodup) (calls : List MapCall) : (createAll calls l).Nodup := by
  induction calls generalizing l with
  | nil => exact h
  | cons c calls ih => exact ih (nodup_createTables h c.virtualAddress)

theorem sublist_createTables (va : Word) (l : List (List (Fin 512))) :
    l.Sublist (createTables va l) :=
  ((sublist_addTable _ _).trans (sublist_addTable _ _)).trans (sublist_addTable _ _)

theorem sublist_createAll (calls : List MapCall) (l : List (List (Fin 512))) :
    l.Sublist (createAll calls l) := by
  induction calls generalizing l with
  | nil => exact List.Sublist.refl l
  | cons c calls ih => exact (sublist_createTables c.virtualAddress l).trans (ih _)

/-- Later calls leave the tables at their places. -/
theorem place_createTables (h : r ∈ l) (va : Word) : place (createTables va l) r = place l r := by
  have h₁ : r ∈ addTable [index va 39] l := mem_addTable.mpr (.inr h)
  have h₂ : r ∈ addTable [index va 39, index va 30] (addTable [index va 39] l) :=
    mem_addTable.mpr (.inr h₁)
  rw [createTables, place_addTable h₂, place_addTable h₁, place_addTable h]

theorem place_createAll (h : r ∈ l) (calls : List MapCall) :
    place (createAll calls l) r = place l r := by
  induction calls generalizing l with
  | nil => rfl
  | cons c calls ih =>
      have hr : r ∈ createTables c.virtualAddress l := (sublist_createTables _ l).subset h
      exact (ih hr).trans (place_createTables h _)

end Order

/-! ## Trees -/

/-- The tree has the tables `l`, and each of them took the next page of the
area, from the page of the root on. -/
structure Tabled (s : Mmu) (root : Frame) (S : Fin 512 → Prop) (area : MemArea)
    (l : List (List (Fin 512))) : Prop where
  inv : TreeInv s.mem s.alloc root S
  nodup : l.Nodup
  paths : ∀ ⦃q⦄, Starts S q → q.length ≤ 3 → ((pageLayout.descend s.mem root q).isSome ↔ q ∈ l)
  place : ∀ ⦃q f⦄, Starts S q → q.length ≤ 3 → pageLayout.descend s.mem root q = some f →
    f.addr.toNat = root.addr.toNat + 4096 * TeachingOs.place l q
  src : s.alloc.earlySrc = some ⟨[area]⟩
  last : s.alloc.earlyLast.toNat + 4096 = root.addr.toNat + 4096 * l.length

/-- The area ends behind the tables `l`. -/
def Room (root : Frame) (area : MemArea) (l : List (List (Fin 512))) : Prop :=
  root.addr.toNat + 4096 * l.length ≤ area.endAddr.toNat

theorem Room.mono {root : Frame} {area : MemArea} {l l' : List (List (Fin 512))}
    (h : Room root area l') (hsub : l.Sublist l') : Room root area l :=
  Nat.le_trans (Nat.add_le_add_left (Nat.mul_le_mul_left 4096 hsub.length_le) _) h

namespace Tabled

variable {s : Mmu} {root t : Frame} {S : Fin 512 → Prop} {area : MemArea}
  {l : List (List (Fin 512))} {p : List (Fin 512)} {v : Word} {shift : Nat}

/-- A blank root is the only table. -/
theorem of_blank {m : PhysMem} {a : PageTableAlloc} (hroot : ∀ i, S i → m (root.slot i) &&& 1 = 0)
    (hfresh : FreshFrames m a root) (hsrc : a.earlySrc = some ⟨[area]⟩)
    (hlast : a.earlyLast = root.addr) : Tabled ⟨m, a⟩ root S area [[]] := by
  have hnone : ∀ {i q}, Starts S (i :: q) → pageLayout.descend m root (i :: q) = none := by
    intro i q hq
    have hchild : pageLayout.child (m (pageLayout.slot root i)) = none :=
      childTable_of_invalid (hroot i hq)
    rw [Layout.descend, hchild]
    rfl
  refine ⟨TreeInv.of_invalid hroot hfresh, by simp, fun q hq _ => ?_, fun q f hq _ hf => ?_, hsrc,
    by simp [hlast]⟩
  · cases q with
    | nil => simp
    | cons i q => simp [hnone hq]
  · cases q with
    | nil =>
        cases hf
        rfl
    | cons i q =>
        rw [hnone hq] at hf
        cases hf

/-- Every table is one of the pages taken. -/
theorem bounds (h : Tabled s root S area l) (hp : Starts S p) (hlen : p.length ≤ 3)
    (hpt : pageLayout.descend s.mem root p = some t) : root.addr.toNat ≤ t.addr.toNat ∧
      t.addr.toNat + 4096 ≤ root.addr.toNat + 4096 * l.length := by
  have hplace := h.place hp hlen hpt
  have hlt := place_lt ((h.paths hp hlen).mp (by rw [hpt]; rfl))
  omega

/-- `walk_or_create` adds the table it ends at, if that is new. -/
theorem walkOrCreate (h : Tabled s root S area l) (hp : Starts S (p ++ [index v shift]))
    (hlen : p.length < 3) (hpt : pageLayout.descend s.mem root p = some t)
    (hend : area.endAddr.toNat < 2 ^ 62)
    (hroom : Room root area (addTable (p ++ [index v shift]) l)) :
    ∃ f s', TeachingOs.walkOrCreate s t.addr v shift = .ok (f.addr, s') ∧
      Tabled s' root S area (addTable (p ++ [index v shift]) l) ∧
      pageLayout.descend s'.mem root (p ++ [index v shift]) = some f := by
  have hconcat : pageLayout.descend s.mem root (p ++ [index v shift]) =
      childTable (s.mem (t.slot (index v shift))) := by
    rw [Layout.descend_concat, hpt]
    rfl
  have hmem := h.paths hp (by simp; omega)
  simp only [TeachingOs.walkOrCreate, walk_frame, load_logicalMap, store_logicalMap]
  rcases h.inv.table (index v shift) hp hlen hpt with hempty | ⟨f, hf⟩
  · rw [hconcat, childTable_of_invalid hempty, Option.isSome_none] at hmem
    have hnew : p ++ [index v shift] ∉ l := fun hin => absurd (hmem.mpr hin) (by decide)
    have hlast := h.last
    unfold Room at hroom
    rw [addTable_of_notMem hnew, List.length_cons] at hroom
    have hfits : s.alloc.earlyLast + 4096 + PAGE_SIZE - 1 < area.endAddr := by
      simp only [PAGE_SIZE]
      bv_omega
    have hw : allocatePageTable s.alloc = .ok (s.alloc.earlyLast + 4096,
        { s.alloc with earlyLast := s.alloc.earlyLast + 4096 }) := by
      rw [allocatePageTable_single h.src, if_pos hfits]
    have hnext : (s.alloc.earlyLast + 4096).toNat = root.addr.toNat + 4096 * l.length := by bv_omega
    obtain ⟨f, hf, hout, hzero⟩ := h.inv.next_frame hw
    have hdesc : ∀ {q}, Starts S q → q.length ≤ 3 → pageLayout.descend
        (Function.update s.mem (t.slot (index v shift)) (s.alloc.earlyLast + 4096 ||| 3)) root q =
          if q = p ++ [index v shift] then some f else pageLayout.descend s.mem root q := by
      intro q hq hqn
      rw [← hf]
      exact Layout.descend_link h.inv.owned hp hlen hpt (childTable_of_invalid hempty)
        (childTable_table f) hout (blank_of_zero hzero) hq hqn
    refine ⟨f,
      ⟨Function.update s.mem (t.slot (index v shift)) (s.alloc.earlyLast + 4096 ||| 3),
        { s.alloc with earlyLast := s.alloc.earlyLast + 4096 }⟩,
      by rw [if_pos hempty, hw, ok_bind, hf]; rfl,
      ⟨h.inv.link hp hlen hpt hempty hw, nodup_addTable h.nodup _, ?_, ?_, h.src, ?_⟩, ?_⟩
    · intro q hq hqn
      rw [hdesc hq hqn, mem_addTable]
      by_cases heq : q = p ++ [index v shift]
      · simp [heq]
      · rw [if_neg heq, h.paths hq hqn]
        simp [heq]
    · intro q g hq hqn hg
      rw [hdesc hq hqn] at hg
      by_cases heq : q = p ++ [index v shift]
      · rw [if_pos heq] at hg
        rw [heq, place_addTable_self hnew, ← hnext, ← hf, Option.some.inj hg]
      · rw [if_neg heq] at hg
        have hin : q ∈ l := (h.paths hq hqn).mp (by rw [hg]; rfl)
        rw [place_addTable hin]
        exact h.place hq hqn hg
    · rw [addTable_of_notMem hnew, List.length_cons]
      show (s.alloc.earlyLast + 4096).toNat + 4096 = _
      omega
    · rw [hdesc hp (by simp; omega), if_pos rfl]
  · have hvalid : (f.addr ||| 3) &&& 1 ≠ 0 := by
      rw [f.or_and_attr 3 (by decide)]; decide
    have htable : (f.addr ||| 3) &&& 3 = 3 := by
      rw [f.or_and_attr 3 (by decide)]; decide
    rw [hf, childTable_table] at hconcat
    have hin : p ++ [index v shift] ∈ l := hmem.mp (by rw [hconcat]; rfl)
    rw [addTable_of_mem hin, hf, if_neg hvalid, assert_of_true htable,
      f.or_three_and_not_three]
    exact ⟨f, s, rfl, h, hconcat⟩

/-- A page descriptor in a level-3 slot changes no table. -/
theorem setPage (h : Tabled s root S area l) (hp : Starts S p) (hlen : p.length = 3)
    (hpt : pageLayout.descend s.mem root p = some t) {d : Word} (hd : d &&& 3 = 3) (i : Fin 512) :
    Tabled { s with mem := Function.update s.mem (t.slot i) d } root S area l := by
  have hdesc : ∀ {q}, Starts S q → q.length ≤ 3 →
      pageLayout.descend (Function.update s.mem (t.slot i) d) root q =
        pageLayout.descend s.mem root q :=
    fun hq hqn => Layout.descend_update_leaf h.inv.owned hp hlen hpt hq hqn
  refine ⟨h.inv.setPage hp hlen hpt hd, h.nodup, fun q hq hqn => ?_, fun q f hq hqn hf => ?_,
    h.src, h.last⟩
  · rw [hdesc hq hqn]
    exact h.paths hq hqn
  · rw [hdesc hq hqn] at hf
    exact h.place hq hqn hf

/-- The tables on the way to a page, one after the other. -/
theorem walk (h : Tabled s root S area l) (hS : S (index v 39))
    (hend : area.endAddr.toNat < 2 ^ 62) (hroom : Room root area (createTables v l)) :
    ∃ f₁ f₂ f₃ s₁ s₂ s₃,
      (TeachingOs.walkOrCreate s root.addr v 39 = .ok (f₁.addr, s₁) ∧
        Tabled s₁ root S area (addTable [index v 39] l) ∧
        pageLayout.descend s₁.mem root [index v 39] = some f₁) ∧
      (TeachingOs.walkOrCreate s₁ f₁.addr v 30 = .ok (f₂.addr, s₂) ∧
        Tabled s₂ root S area (addTable [index v 39, index v 30] (addTable [index v 39] l)) ∧
        pageLayout.descend s₂.mem root [index v 39, index v 30] = some f₂) ∧
      TeachingOs.walkOrCreate s₂ f₂.addr v 21 = .ok (f₃.addr, s₃) ∧
        Tabled s₃ root S area (createTables v l) ∧
        pageLayout.descend s₃.mem root (tablePath v) = some f₃ := by
  have hroom₂ := hroom.mono (sublist_addTable (tablePath v) _)
  have hroom₁ := hroom₂.mono (sublist_addTable [index v 39, index v 30] _)
  have hroot : pageLayout.descend s.mem root [] = some root := rfl
  obtain ⟨f₁, s₁, h₁, ht₁, hf₁⟩ := h.walkOrCreate (p := []) hS (by simp) hroot hend hroom₁
  obtain ⟨f₂, s₂, h₂, ht₂, hf₂⟩ := ht₁.walkOrCreate (p := [_]) hS (by simp) hf₁ hend hroom₂
  obtain ⟨f₃, s₃, h₃, ht₃, hf₃⟩ := ht₂.walkOrCreate (p := [_, _]) hS (by simp) hf₂ hend hroom
  exact ⟨f₁, f₂, f₃, s₁, s₂, s₃, ⟨h₁, ht₁, hf₁⟩, ⟨h₂, ht₂, hf₂⟩, h₃, ht₃, hf₃⟩

/-- `mmu_map` adds the tables of its address. -/
theorem mmuMap (h : Tabled s root S area l) (hS : S (index v 39))
    (hend : area.endAddr.toNat < 2 ^ 62) (hroom : Room root area (createTables v l)) (pa : Word)
    (flags : MapFlags) : ∃ s', TeachingOs.mmuMap s root.addr v pa flags = .ok s' ∧
      Tabled s' root S area (createTables v l) := by
  obtain ⟨f₁, f₂, f₃, s₁, s₂, s₃, ⟨h₁, -, -⟩, ⟨h₂, -, -⟩, h₃, ht₃, hf₃⟩ := h.walk hS hend hroom
  unfold TeachingOs.mmuMap
  simp only [h₁, h₂, h₃, ok_bind, walk_frame, store_logicalMap]
  exact ⟨_, rfl, ht₃.setPage (p := tablePath v) hS rfl hf₃ (leafDescriptor_and_three pa flags) _⟩

/-- A run of `mmu_map` calls adds the tables of its addresses. -/
theorem mmuMapAll {calls : List MapCall} (h : Tabled s root S area l)
    (hcalls : ∀ c ∈ calls, S (index c.virtualAddress 39)) (hend : area.endAddr.toNat < 2 ^ 62)
    (hroom : Room root area (createAll calls l)) :
    ∃ s', TeachingOs.mmuMapAll root.addr s calls = .ok s' ∧
      Tabled s' root S area (createAll calls l) := by
  induction calls generalizing s l with
  | nil => exact ⟨s, rfl, h⟩
  | cons c calls ih =>
      rw [List.forall_mem_cons] at hcalls
      obtain ⟨s₁, hmap, h₁⟩ := h.mmuMap hcalls.1 hend (hroom.mono (sublist_createAll calls _))
        c.physicalAddress c.flags
      obtain ⟨s', hrun, h'⟩ := ih h₁ hcalls.2 hroom
      refine ⟨s', ?_, h'⟩
      rw [TeachingOs.mmuMapAll, List.foldlM_cons, hmap, ok_bind]
      exact hrun

end Tabled

end TeachingOs
