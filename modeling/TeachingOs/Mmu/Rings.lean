import TeachingOs.Mmu.LinkedList

/-!
# TeachingOs.Mmu.Rings

The lists that `ll_init`, `ll_insert` and `ll_unlink` build.  `ll_insert`
keeps a ring (`Ring.insert`).  `ll_unlink` does not: it clears the next
pointer of its node before it copies that pointer into the predecessor, so
the chain of next pointers ends there (`Cut`).  Nothing that the macros do
afterwards closes it again, whatever is inserted or unlinked.
-/

namespace TeachingOs.LinkedList

variable {P : Type} {null head node a b : P} {h h' : Heap P} {l : List P}

/-! ## Segments -/

/-- A segment reads the next pointers of its nodes and the prev pointers
behind its start. -/
theorem Segment.congr (hs : Segment h a l b) (hnext : ∀ x ∈ a :: l, (h' x).next = (h x).next)
    (hprev : ∀ x ∈ l ++ [b], (h' x).prev = (h x).prev) : Segment h' a l b := by
  induction l generalizing a with
  | nil => exact ⟨(hnext a (by simp)).trans hs.1, (hprev b (by simp)).trans hs.2⟩
  | cons c l ih =>
      refine ⟨(hnext a (by simp)).trans hs.1, (hprev c (by simp)).trans hs.2.1, ?_⟩
      exact ih hs.2.2 (fun x hx => hnext x (List.mem_cons_of_mem a hx))
        fun x hx => hprev x (List.mem_cons_of_mem c hx)

/-- The next pointers of a segment stay inside it up to its end, and the
prev pointers lead back. -/
theorem Segment.next_mem (hs : Segment h a l b) {x : P} (hx : x ∈ a :: l) :
    (h x).next ∈ l ++ [b] ∧ (h (h x).next).prev = x := by
  induction l generalizing a with
  | nil =>
      obtain rfl := List.mem_singleton.mp hx
      simp [hs.1, hs.2]
  | cons c l ih =>
      obtain ⟨hnext, hprev, htail⟩ := hs
      rcases List.mem_cons.mp hx with rfl | hx
      · simp [hnext, hprev]
      · obtain ⟨hmem, hback⟩ := ih htail hx
        exact ⟨List.mem_cons_of_mem c hmem, hback⟩

/-- In a ring every next pointer leads to a node of the ring and back. -/
theorem Ring.next_mem (hr : Ring null h head l) {x : P} (hx : x ∈ head :: l) :
    (h x).next ∈ head :: l ∧ (h (h x).next).prev = x := by
  obtain ⟨hmem, hback⟩ := hr.linked.next_mem hx
  exact ⟨by simpa [or_comm] using hmem, hback⟩

/-- A ring is about the links of its own nodes. -/
theorem Ring.congr (hr : Ring null h head l) (heq : ∀ x ∈ head :: l, h' x = h x) :
    Ring null h' head l := by
  refine ⟨hr.nodup, hr.nonnull, hr.linked.congr (fun x hx => by rw [heq x hx]) fun x hx => ?_⟩
  rw [heq x (by simpa [or_comm] using hx)]

section Macros

variable [DecidableEq P]

/-! ## Insertion -/

theorem Ring.init (h : Heap P) (hhead : null ≠ head) : Ring null (llInit h head) head [] := by
  refine ⟨by simp, by simpa using hhead, ?_, ?_⟩ <;> simp [llInit]

/-- The stores of `ll_insert`. -/
theorem links_llInsert {func arg : String} (hins : llInsert null func arg h head node = .ok h')
    (hne : node ≠ head) : ((h node).next = null ∧ (h node).prev = null) ∧ ∀ x,
      (h' x).next = (if x = head then node else if x = node then (h head).next else (h x).next) ∧
      (h' x).prev = if x = (h head).next then node else if x = node then head else (h x).prev := by
  simp only [llInsert, bind_eq_ok, pure_eq_ok, Except.ok.injEq] at hins
  obtain ⟨_, hnext, _, hprev, rfl⟩ := hins
  have hnextn : (h node).next = null := by
    by_contra hc
    rw [assert_of_false hc] at hnext
    cases hnext
  have hprevn : (h node).prev = null := by
    by_contra hc
    rw [assert_of_false hc] at hprev
    cases hprev
  exact ⟨⟨hnextn, hprevn⟩, fun x => by simp [hne]⟩

/-- **`ll_insert` keeps a ring** and puts its node first. -/
theorem Ring.insert {func arg : String} (hr : Ring null h head l) (hnull : null ≠ node)
    (hoff : node ∉ head :: l) (hins : llInsert null func arg h head node = .ok h') :
    Ring null h' head (node :: l) := by
  obtain ⟨hne, hl⟩ := not_or.mp (mt List.mem_cons.mpr hoff)
  obtain ⟨-, hlinks⟩ := links_llInsert hins hne
  obtain ⟨hheadl, hnodup⟩ := List.nodup_cons.mp hr.nodup
  refine ⟨?_, ?_, ?_, ?_, ?_⟩
  · simpa [hl, hnodup, hheadl] using Ne.symm hne
  · have hnonnull := hr.nonnull
    simp_all
  · simp [(hlinks head).1]
  · have hfirst : node ≠ (h head).next := fun heq =>
      hoff (heq ▸ (hr.next_mem List.mem_cons_self).1)
    simp [(hlinks node).2, hfirst]
  · cases l with
    | nil =>
        have hself : (h head).next = head := hr.linked.1
        constructor
        · simp [(hlinks node).1, hne, hself]
        · simp [(hlinks head).2, hself]
    | cons c l =>
        obtain ⟨hc, hback, htail⟩ := hr.linked
        have hnodup' := List.nodup_cons.mp hnodup
        refine ⟨by simp [(hlinks node).1, hne, hc], by simp [(hlinks c).2, hc], ?_⟩
        refine htail.congr (fun x hx => ?_) fun x hx => ?_
        · grind
        · grind

/-! ## Removal -/

theorem links_unlinkNext (null : P) (h : Heap P) (node x : P) :
    (unlinkNext null h node x).next = (if x = node then null else (h x).next) ∧
      (unlinkNext null h node x).prev =
        if x = (h node).next ∧ x ≠ null then (h node).prev else (h x).prev := by
  unfold unlinkNext
  by_cases hn : (h node).next = null
  · grind
  · simp only [ne_eq, hn, not_false_eq_true, if_true]
    grind [next_setNext, prev_setNext, next_setPrev, prev_setPrev]

theorem links_unlinkPrev (null : P) (h : Heap P) (node x : P) :
    (unlinkPrev null h node x).next =
        (if x = (h node).prev ∧ x ≠ null then (h node).next else (h x).next) ∧
      (unlinkPrev null h node x).prev = if x = node then null else (h x).prev := by
  unfold unlinkPrev
  by_cases hp : (h node).prev = null
  · grind
  · simp only [ne_eq, hp, not_false_eq_true, if_true]
    grind [next_setNext, prev_setNext, next_setPrev, prev_setPrev]

/-- The stores of `ll_unlink`: the successor gets the node's predecessor, but
the predecessor gets the next pointer that has just been cleared. -/
theorem links_llUnlink (null : P) (h : Heap P) (node x : P) :
    (llUnlink null h node x).next =
        (if x = node ∨ x = (h node).prev ∧ x ≠ null then null else (h x).next) ∧
      (llUnlink null h node x).prev =
        if x = node then null
        else if x = (h node).next ∧ x ≠ null then (h node).prev else (h x).prev := by
  have hsecond := links_unlinkPrev null (unlinkNext null h node) node x
  have hx := links_unlinkNext null h node x
  have hnode := links_unlinkNext null h node node
  unfold llUnlink
  grind

/-- Unlinking a node without links changes nothing. -/
theorem llUnlink_of_unlinked (hnext : (h node).next = null) (hprev : (h node).prev = null) :
    llUnlink null h node = h := by
  simp [llUnlink, unlinkNext, unlinkPrev, hnext, hprev]

/-! ## Broken lists -/

/-- The next pointers from `a` lead through the nodes `l`. -/
def Path (h : Heap P) : P → List P → Prop
  | _, [] => True
  | a, c :: l => (h a).next = c ∧ Path h c l

omit [DecidableEq P] in
/-- Every node of a path is the next of one. -/
theorem Path.exists_next {c : List P} (hpath : Path h a c) {x : P} (hx : x ∈ c) :
    ∃ y ∈ a :: c, (h y).next = x := by
  induction c generalizing a with
  | nil => cases hx
  | cons d c ih =>
      obtain ⟨hnext, htail⟩ := hpath
      rcases List.mem_cons.mp hx with rfl | hx
      · exact ⟨a, List.mem_cons_self, hnext⟩
      · obtain ⟨y, hy, hyx⟩ := ih htail hx
        exact ⟨y, List.mem_cons_of_mem a hy, hyx⟩

/-- The next pointers from `head` run into the null pointer inside the list,
although all of them are matched by prev pointers. -/
structure Cut (null : P) (h : Heap P) (head : P) (l : List P) : Prop where
  nodup : (head :: l).Nodup
  nonnull : null ∉ head :: l
  matched : ∀ x ∈ head :: l, (h x).next ≠ null →
    (h x).next ∈ head :: l ∧ (h (h x).next).prev = x
  ends : ∃ c, Path h head c ∧ c ⊆ l ∧ ∃ w ∈ head :: c, (h w).next = null

omit [DecidableEq P] in
/-- A list with a gap is no ring, whatever nodes it should have. -/
theorem Cut.not_ring (hc : Cut null h head l) {l' : List P} : ¬ Ring null h head l' := by
  intro hr
  obtain ⟨c, hpath, -, w, hw, hnull⟩ := hc.ends
  have hin : ∀ {a c}, Path h a c → a ∈ head :: l' → ∀ x ∈ a :: c, x ∈ head :: l' := by
    intro a c
    induction c generalizing a with
    | nil => exact fun _ ha x hx => List.mem_singleton.mp hx ▸ ha
    | cons d c ih =>
        rintro ⟨rfl, htail⟩ ha x hx
        rcases List.mem_cons.mp hx with rfl | hx
        · exact ha
        · exact ih htail (hr.next_mem ha).1 x hx
  exact hr.nonnull (hnull ▸ (hr.next_mem (hin hpath List.mem_cons_self w hw)).1)

omit [DecidableEq P] in
theorem Segment.path (hs : Segment h a l b) : Path h a l := by
  induction l generalizing a with
  | nil => trivial
  | cons c l ih => exact ⟨hs.1, ih hs.2.2⟩

omit [DecidableEq P] in
theorem Path.congr {c : List P} (hpath : Path h a c)
    (hnext : ∀ x ∈ a :: c, (h' x).next = (h x).next) : Path h' a c := by
  induction c generalizing a with
  | nil => trivial
  | cons d c ih =>
      exact ⟨(hnext a (by simp)).trans hpath.1,
        ih hpath.2 fun x hx => hnext x (List.mem_cons_of_mem a hx)⟩

omit [DecidableEq P] in
/-- Clearing next pointers shortens a path to the first cleared one. -/
theorem Path.truncate {c : List P} (hpath : Path h a c)
    (hkeep : ∀ x, (h' x).next = null ∨ (h' x).next = (h x).next)
    (hw : ∃ w ∈ a :: c, (h' w).next = null) :
    ∃ c', c' <+: c ∧ Path h' a c' ∧ ∃ w ∈ a :: c', (h' w).next = null := by
  induction c generalizing a with
  | nil => exact ⟨[], List.prefix_refl _, trivial, hw⟩
  | cons d c ih =>
      by_cases ha : (h' a).next = null
      · exact ⟨[], List.nil_prefix, trivial, a, by simp, ha⟩
      · obtain ⟨rfl, htail⟩ := hpath
        obtain ⟨w, hmem, hnull⟩ := hw
        have hmem' : w ∈ (h a).next :: c :=
          (List.mem_cons.mp hmem).resolve_left fun heq => ha (heq ▸ hnull)
        obtain ⟨c', hpre, hpath', w', hw', hnull'⟩ := ih htail ⟨w, hmem', hnull⟩
        exact ⟨_, (List.cons_prefix_cons).mpr ⟨rfl, hpre⟩, ⟨(hkeep a).resolve_left ha, hpath'⟩, w',
          List.mem_cons_of_mem a hw', hnull'⟩

/-- Unlinking a node whose next pointers are matched leaves no pointer to it,
and a gap at its predecessor. -/
theorem Cut.of_unlink {c : List P} (hnodup : (head :: l).Nodup) (hnonnull : null ∉ head :: l)
    (hmatched : ∀ x ∈ head :: l, (h x).next ≠ null →
      (h x).next ∈ head :: l ∧ (h (h x).next).prev = x)
    (hpath : Path h head c) (hsub : c ⊆ l)
    (hgap : ∃ w ∈ head :: c, (llUnlink null h node w).next = null) (hnode : node ∈ l) :
    Cut null (llUnlink null h node) head (l.erase node) := by
  obtain ⟨hheadl, hnodupl⟩ := List.nodup_cons.mp hnodup
  have hmatched' : ∀ x ∈ head :: l, (llUnlink null h node x).next ≠ null →
      (llUnlink null h node x).next ∈ head :: l.erase node ∧
        (llUnlink null h node (llUnlink null h node x).next).prev = x := by
    intro x hx hne
    have hlinks := links_llUnlink null h node
    have hxn : ¬ (x = node ∨ x = (h node).prev ∧ x ≠ null) := by grind
    rw [(hlinks x).1, if_neg hxn] at hne ⊢
    obtain ⟨hmem, hback⟩ := hmatched x hx hne
    have hnext : (h x).next ≠ node := by grind
    have hother : (h x).next ≠ (h node).next := by
      intro heq
      rw [heq] at hback hne
      exact hxn (Or.inl (hback.symm.trans (hmatched node (by simp [hnode]) hne).2))
    refine ⟨?_, ?_⟩
    · rw [List.mem_cons, hnodupl.mem_erase_iff]
      exact (List.mem_cons.mp hmem).imp id fun hm => ⟨hnext, hm⟩
    · rw [(hlinks _).2, if_neg hnext, if_neg fun hc => hother hc.1, hback]
  obtain ⟨c', hpre, hpath', hgap'⟩ := hpath.truncate
    (fun x => by rw [(links_llUnlink null h node x).1]; split <;> simp) hgap
  refine ⟨?_, fun hm => ?_, fun x hx => hmatched' x ?_, c', hpath', fun x hx => ?_, hgap'⟩
  · exact hnodup.sublist (List.erase_sublist.cons_cons head)
  · exact hnonnull ((List.erase_sublist.cons_cons head).subset hm)
  · exact (List.erase_sublist.cons_cons head).subset hx
  · -- a node on the path is the next of one, so it is not the removed node
    have hxl : x ∈ l := hsub (hpre.subset hx)
    obtain ⟨y, hy, rfl⟩ := hpath'.exists_next hx
    have hyl : y ∈ head :: l :=
      (List.mem_cons.mp hy).elim (by simp +contextual) fun hy =>
        List.mem_cons_of_mem head (hsub (hpre.subset hy))
    have hne : (llUnlink null h node y).next ≠ null := fun heq =>
      hnonnull (heq ▸ List.mem_cons_of_mem head hxl)
    exact (List.mem_cons.mp (hmatched' y hyl hne).1).resolve_left fun heq => hheadl (heq ▸ hxl)

/-- The predecessor of a node on a path loses its next pointer. -/
theorem Path.gap {c : List P} (hpath : Path h a c) (hnode : node ∈ c) (hnull : null ∉ a :: c)
    (hmatched : ∀ x ∈ a :: c, (h x).next = node → (h node).prev = x) :
    ∃ w ∈ a :: c, (llUnlink null h node w).next = null := by
  obtain ⟨y, hy, hnext⟩ := hpath.exists_next hnode
  have hne : y ≠ null := fun heq => hnull (heq ▸ hy)
  exact ⟨y, hy, by simp [(links_llUnlink null h node y).1, hmatched y hy hnext, hne]⟩

/-- **`ll_unlink` breaks every ring** it takes a node out of. -/
theorem Ring.unlink (hr : Ring null h head l) (hnode : node ∈ l) :
    Cut null (llUnlink null h node) head (l.erase node) := by
  have hpath : Path h head l := hr.linked.path
  refine Cut.of_unlink hr.nodup hr.nonnull (fun x hx _ => hr.next_mem hx) hpath
    (List.Subset.refl l) (hpath.gap hnode hr.nonnull fun x hx hnext => ?_) hnode
  rw [← hnext]
  exact (hr.next_mem hx).2

/-- Unlinking never mends a list. -/
theorem Cut.unlink (hc : Cut null h head l) (hnode : node ∈ l) :
    Cut null (llUnlink null h node) head (l.erase node) := by
  obtain ⟨c, hpath, hsub, w, hw, hnull⟩ := hc.ends
  refine Cut.of_unlink hc.nodup hc.nonnull hc.matched hpath hsub ⟨w, hw, ?_⟩ hnode
  rw [(links_llUnlink null h node w).1, hnull, ite_self]

/-- Neither does inserting. -/
theorem Cut.insert {func arg : String} (hc : Cut null h head l) (hnull : null ≠ node)
    (hoff : node ∉ head :: l) (hins : llInsert null func arg h head node = .ok h') :
    Cut null h' head (node :: l) := by
  obtain ⟨hne, hl⟩ := not_or.mp (mt List.mem_cons.mpr hoff)
  obtain ⟨-, hlinks⟩ := links_llInsert hins hne
  obtain ⟨hheadl, hnodup⟩ := List.nodup_cons.mp hc.nodup
  have hnonnull := hc.nonnull
  have hold : ∀ x ∈ l, (h' x).next = (h x).next := by
    intro x hx
    rw [(hlinks x).1, if_neg (ne_of_mem_of_not_mem hx hheadl), if_neg (ne_of_mem_of_not_mem hx hl)]
  refine ⟨?_, ?_, ?_, ?_⟩
  · simpa [hl, hnodup, hheadl] using Ne.symm hne
  · simp_all
  · intro x hx hnext
    have hhead := hc.matched head List.mem_cons_self
    rcases List.mem_cons.mp hx with rfl | hx
    · -- the head leads to the node, which is not its own successor
      have hself : (h' x).next = node := by rw [(hlinks x).1, if_pos rfl]
      have hother : node ≠ (h x).next := by grind
      rw [hself, (hlinks node).2, if_neg hother, if_pos rfl]
      exact ⟨by simp, rfl⟩
    · rcases List.mem_cons.mp hx with rfl | hx
      · have hself : (h' x).next = (h head).next := by rw [(hlinks x).1, if_neg hne, if_pos rfl]
        rw [hself] at hnext ⊢
        rw [(hlinks _).2, if_pos rfl]
        exact ⟨by grind, rfl⟩
      · rw [hold x hx] at hnext ⊢
        obtain ⟨hmem, hback⟩ := hc.matched x (List.mem_cons_of_mem head hx) hnext
        have hfirst : (h x).next ≠ (h head).next := by grind
        have hother : (h x).next ≠ node := by grind
        rw [(hlinks _).2, if_neg hfirst, if_neg hother]
        exact ⟨by grind, hback⟩
  · obtain ⟨c, hpath, hsub, w, hw, hgap⟩ := hc.ends
    have htail : Path h' node c := by
      cases c with
      | nil => trivial
      | cons d c =>
          refine ⟨by rw [(hlinks node).1, if_neg hne, if_pos rfl, hpath.1], ?_⟩
          exact hpath.2.congr fun x hx => hold x (hsub hx)
    refine ⟨node :: c, ⟨by rw [(hlinks head).1, if_pos rfl], htail⟩, ?_, ?_⟩
    · exact List.cons_subset_cons node hsub
    · rcases List.mem_cons.mp hw with rfl | hw
      · exact ⟨node, by simp, by rw [(hlinks node).1, if_neg hne, if_pos rfl, hgap]⟩
      · exact ⟨w, by simp [hw], (hold w (hsub hw)).trans hgap⟩

/-! ## Runs of the macros -/

/-- The heap and the nodes of the list at `head` after `ll_init` and some
uses of `ll_insert` and `ll_unlink`.  A node is inserted while it is not in
the list, and `ll_insert` asserts that its links are null; a node that is
unlinked is in the list or has no links. -/
inductive Built (null head : P) : Heap P → List P → Prop where
  | init (h : Heap P) (hhead : null ≠ head) : Built null head (llInit h head) []
  | insert {h h' : Heap P} {l : List P} {node : P} {func arg : String} (hb : Built null head h l)
      (hnull : null ≠ node) (hoff : node ∉ head :: l)
      (hins : llInsert null func arg h head node = .ok h') : Built null head h' (node :: l)
  | unlink {h : Heap P} {l : List P} {node : P} (hb : Built null head h l) (hnode : node ∈ l) :
      Built null head (llUnlink null h node) (l.erase node)
  | unlinked {h : Heap P} {l : List P} {node : P} (hb : Built null head h l)
      (hnext : (h node).next = null) (hprev : (h node).prev = null) :
      Built null head (llUnlink null h node) l

/-- A list is a ring until the first removal, and cut from then on. -/
theorem Built.ring_or_cut (hb : Built null head h l) : Ring null h head l ∨ Cut null h head l := by
  induction hb with
  | init h hhead => exact Or.inl (Ring.init h hhead)
  | insert _ hnull hoff hins ih =>
      exact ih.imp (fun hr => hr.insert hnull hoff hins) fun hc => hc.insert hnull hoff hins
  | unlink _ hnode ih =>
      exact Or.inr (ih.elim (fun hr => hr.unlink hnode) fun hc => hc.unlink hnode)
  | unlinked _ hnext hprev ih => rwa [llUnlink_of_unlinked hnext hprev]

theorem Built.unlink_cut (hb : Built null head h l) (hnode : node ∈ l) :
    Cut null (llUnlink null h node) head (l.erase node) :=
  hb.ring_or_cut.elim (fun hr => hr.unlink hnode) fun hc => hc.unlink hnode

/-- What `ll_unlink` has to leave behind: a ring of the other nodes, and a
node that can be inserted again. -/
structure Removed (null head node : P) (h : Heap P) (l : List P) : Prop where
  ring : Ring null h head (l.erase node)
  next : (h node).next = null
  prev : (h node).prev = null

/-- **No `ll_unlink` removes a node properly**: whatever list the macros have
built, and wherever in it the node is, what is left is no ring. -/
theorem llUnlink_not_removed (hb : Built null head h l) (hnode : node ∈ l) :
    ¬ Removed null head node (llUnlink null h node) l :=
  fun hrem => (hb.unlink_cut hnode).not_ring hrem.ring

end Macros

/-- The list with head 1 and the nodes 4, 3 and 2, in memory without links. -/
theorem built_three : ∃ h, Built 0 1 h [4, 3, 2] := by
  have hnone : Built 0 1 (llInit (fun _ => ⟨0, 0⟩) 1) [] := .init _ (by decide)
  have hone : Built 0 1 _ [2] := .insert hnone (by decide) (by decide)
    (show llInsert 0 "test" "node" _ 1 2 = .ok _ from rfl)
  have htwo : Built 0 1 _ [3, 2] := .insert hone (by decide) (by decide)
    (show llInsert 0 "test" "node" _ 1 3 = .ok _ from rfl)
  exact ⟨_, .insert htwo (by decide) (by decide)
    (show llInsert 0 "test" "node" _ 1 4 = .ok _ from rfl)⟩

/-- Removing the middle one. -/
theorem llUnlink_not_removed_middle :
    ∃ h, Built 0 1 h [4, 3, 2] ∧ ¬ Removed 0 1 3 (llUnlink 0 h 3) [4, 3, 2] := by
  obtain ⟨h, hb⟩ := built_three
  exact ⟨h, hb, llUnlink_not_removed hb (by decide)⟩

/-- Removing the middle node cuts the list. -/
theorem llUnlink_middle_broken :
    ¬ ∀ (h : Heap Nat) (l : List Nat) (node : Nat), Built 0 1 h l → node ∈ l →
      Removed 0 1 node (llUnlink 0 h node) l := by
  intro hall
  obtain ⟨h, hb⟩ := built_three
  have hmem : 3 ∈ [4, 3, 2] := by decide
  exact (hb.unlink_cut hmem).not_ring (hall h [4, 3, 2] 3 hb hmem).ring

end TeachingOs.LinkedList
