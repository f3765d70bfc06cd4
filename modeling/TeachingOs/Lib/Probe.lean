import Mathlib.Data.List.Nodup
import Mathlib.Data.Nat.ModEq

/-!
# TeachingOs.Lib.Probe

Linear probing: slots `start`, `start + 1`, … of a cycle of `n` slots are
visited in turn, at most `k` of them, until one satisfies `stop`.  A table
built with it keeps every value `Reached` from its home slot, which is what
lets a search stop early, and a search of the whole cycle only fails in a
full table.
-/

namespace TeachingOs.Probe

/-! ## The search -/

/-- The first of `k` successive slots that satisfies `stop`. -/
def probe (n : Nat) (stop : Nat → Bool) : Nat → Nat → Option Nat
  | 0, _ => none
  | k + 1, slot => if stop slot then some slot else probe n stop k ((slot + 1) % n)

/-- The slots that `probe` looks at. -/
def visited (n : Nat) (stop : Nat → Bool) : Nat → Nat → List Nat
  | 0, _ => []
  | k + 1, slot => slot :: if stop slot then [] else visited n stop k ((slot + 1) % n)

/-- The search with both: the slots that it looks at, and what it finds. -/
def search (n : Nat) (stop : Nat → Bool) : Nat → Nat → List Nat × Option Nat
  | 0, _ => ([], none)
  | k + 1, slot =>
      if stop slot then ([slot], some slot)
      else
        let (seen, found) := search n stop k ((slot + 1) % n)
        (slot :: seen, found)

variable {n k slot : Nat} {stop : Nat → Bool}

theorem search_eq : search n stop k slot = (visited n stop k slot, probe n stop k slot) := by
  induction k generalizing slot with
  | zero => rfl
  | succ k ih =>
      rw [search, visited, probe, ih]
      split <;> rfl

/-! ## Where the search goes -/

/-- A search that may stop where it starts does so. -/
theorem probe_start (hk : 0 < k) (h : stop slot = true) : probe n stop k slot = some slot := by
  obtain ⟨k, rfl⟩ := Nat.exists_eq_succ_of_ne_zero (Nat.pos_iff_ne_zero.mp hk)
  rw [probe, if_pos h]

/-- The result is a visited slot. -/
theorem mem_visited_of_probe {i : Nat} (h : probe n stop k slot = some i) :
    i ∈ visited n stop k slot := by
  induction k generalizing slot with
  | zero => cases h
  | succ k ih =>
      rw [probe] at h
      rw [visited]
      by_cases hstop : stop slot = true
      · rw [if_pos hstop] at h
        cases h
        exact List.mem_cons_self
      · rw [if_neg hstop] at h ⊢
        exact List.mem_cons_of_mem _ (ih h)

/-- A search that starts inside the cycle stays inside. -/
theorem lt_of_mem_visited {i : Nat} (hslot : slot < n) (h : i ∈ visited n stop k slot) : i < n := by
  induction k generalizing slot with
  | zero => cases h
  | succ k ih =>
      rw [visited] at h
      rcases List.mem_cons.mp h with rfl | h
      · exact hslot
      · split at h
        · cases h
        · exact ih (Nat.mod_lt _ (Nat.zero_lt_of_lt hslot)) h

/-- A search that finds a slot has one to look at. -/
theorem pos_of_probe {i : Nat} (h : probe n stop k slot = some i) : 0 < k := by
  cases k with
  | zero => cases h
  | succ k => exact Nat.succ_pos k

theorem lt_of_probe {i : Nat} (hslot : slot < n) (h : probe n stop k slot = some i) : i < n :=
  lt_of_mem_visited hslot (mem_visited_of_probe h)

/-! ## What the search finds -/

theorem add_one_mod_add (n slot d : Nat) : ((slot + 1) % n + d) % n = (slot + (d + 1)) % n := by
  rw [Nat.mod_add_mod, Nat.add_assoc, Nat.add_comm 1 d]

/-- The search ends at the first of the `k` slots that satisfies `stop`. -/
theorem probe_eq_some_iff {i : Nat} (hslot : slot < n) :
    probe n stop k slot = some i ↔
      ∃ d < k, (slot + d) % n = i ∧ stop i = true ∧ ∀ e < d, stop ((slot + e) % n) = false := by
  induction k generalizing slot with
  | zero => simp [probe]
  | succ k ih =>
      have hhere : (slot + 0) % n = slot := Nat.mod_eq_of_lt hslot
      have hnext : (slot + 1) % n < n := Nat.mod_lt _ (Nat.zero_lt_of_lt hslot)
      rw [probe]
      by_cases hstop : stop slot = true
      · rw [if_pos hstop]
        constructor
        · rintro ⟨⟩
          exact ⟨0, Nat.succ_pos k, hhere, hstop, nofun⟩
        · rintro ⟨d, -, rfl, -, hbefore⟩
          rcases Nat.eq_zero_or_pos d with rfl | hd
          · rw [hhere]
          · exact absurd (hhere.symm ▸ hstop) (Bool.eq_false_iff.mp (hbefore 0 hd))
      · rw [if_neg hstop, ih hnext]
        constructor
        · rintro ⟨d, hd, rfl, hi, hbefore⟩
          refine ⟨d + 1, Nat.succ_lt_succ hd, (add_one_mod_add n slot d).symm, hi, fun e he => ?_⟩
          cases e with
          | zero => rw [hhere]; exact Bool.eq_false_iff.mpr hstop
          | succ e => rw [← add_one_mod_add]; exact hbefore e (Nat.lt_of_succ_lt_succ he)
        · rintro ⟨d, hd, rfl, hi, hbefore⟩
          cases d with
          | zero => exact absurd (hhere ▸ hi) hstop
          | succ d =>
              refine ⟨d, Nat.lt_of_succ_lt_succ hd, add_one_mod_add n slot d, hi, fun e he => ?_⟩
              rw [add_one_mod_add]
              exact hbefore (e + 1) (Nat.succ_lt_succ he)

theorem stop_of_probe {i : Nat} (hslot : slot < n) (h : probe n stop k slot = some i) :
    stop i = true := by
  obtain ⟨-, -, -, hstop, -⟩ := (probe_eq_some_iff hslot).mp h
  exact hstop

theorem probe_eq_none_iff (hslot : slot < n) :
    probe n stop k slot = none ↔ ∀ d < k, stop ((slot + d) % n) = false := by
  constructor
  · intro h d
    -- by strong induction, so that the first slot to stop at is a result
    induction d using Nat.strong_induction_on with
    | h d ih =>
      intro hd
      by_contra hstop
      rw [Bool.not_eq_false] at hstop
      have hfound : probe n stop k slot = some ((slot + d) % n) := (probe_eq_some_iff hslot).mpr
        ⟨d, hd, rfl, hstop, fun e he => ih e he (Nat.lt_trans he hd)⟩
      cases h.symm.trans hfound
  · intro h
    rw [Option.eq_none_iff_forall_ne_some]
    intro i hi
    obtain ⟨d, hd, rfl, hstop, -⟩ := (probe_eq_some_iff hslot).mp hi
    exact absurd hstop (Bool.eq_false_iff.mp (h d hd))

/-- A search of `n` slots gets everywhere. -/
theorem exists_offset {i : Nat} (hslot : slot < n) (hi : i < n) : ∃ d < n, (slot + d) % n = i := by
  refine ⟨(i + n - slot) % n, Nat.mod_lt _ (Nat.zero_lt_of_lt hslot), ?_⟩
  rw [Nat.add_mod_mod, show slot + (i + n - slot) = i + n by omega, Nat.add_mod_right,
    Nat.mod_eq_of_lt hi]

/-- And to no slot twice. -/
theorem offset_inj {d e : Nat} (hd : d < n) (he : e < n) (h : (slot + d) % n = (slot + e) % n) :
    d = e :=
  Nat.ModEq.eq_of_lt_of_lt (Nat.ModEq.add_left_cancel' slot h) hd he

theorem offset_of_mem_visited {i : Nat} (hslot : slot < n) (h : i ∈ visited n stop k slot) :
    ∃ d < k, (slot + d) % n = i := by
  induction k generalizing slot with
  | zero => cases h
  | succ k ih =>
      rw [visited] at h
      rcases List.mem_cons.mp h with rfl | h
      · exact ⟨0, Nat.succ_pos k, Nat.mod_eq_of_lt hslot⟩
      · split at h
        · cases h
        · obtain ⟨d, hd, rfl⟩ := ih (Nat.mod_lt _ (Nat.zero_lt_of_lt hslot)) h
          exact ⟨d + 1, Nat.succ_lt_succ hd, (add_one_mod_add n slot d).symm⟩

/-- **A search looks at no slot twice**. -/
theorem nodup_visited (hslot : slot < n) (hk : k ≤ n) : (visited n stop k slot).Nodup := by
  induction k generalizing slot with
  | zero => exact List.nodup_nil
  | succ k ih =>
      have hnext : (slot + 1) % n < n := Nat.mod_lt _ (Nat.zero_lt_of_lt hslot)
      rw [visited, List.nodup_cons]
      split
      · exact ⟨List.not_mem_nil, List.nodup_nil⟩
      · refine ⟨fun hmem => ?_, ih hnext (Nat.le_of_succ_le hk)⟩
        obtain ⟨d, hd, hback⟩ := offset_of_mem_visited hnext hmem
        rw [add_one_mod_add] at hback
        have hzero : (slot + (d + 1)) % n = (slot + 0) % n := by
          rw [hback, Nat.add_zero, Nat.mod_eq_of_lt hslot]
        exact absurd (offset_inj (by omega) (by omega) hzero) (Nat.succ_ne_zero d)

/-- A search of the whole cycle fails only if it may stop nowhere. -/
theorem exists_probe {i : Nat} (hslot : slot < n) (hi : i < n) (hstop : stop i = true) :
    ∃ j, probe n stop n slot = some j := by
  rw [← Option.ne_none_iff_exists', Ne, probe_eq_none_iff hslot]
  intro h
  obtain ⟨d, hd, rfl⟩ := exists_offset hslot hi
  exact absurd hstop (Bool.eq_false_iff.mp (h d hd))

/-! ## What can be found again -/

/-- Slot `i` is `home` or lies behind it, with every slot between taken. -/
def Reached (n : Nat) (taken : Nat → Prop) (home i : Nat) : Prop :=
  ∃ d < n, (home + d) % n = i ∧ ∀ e < d, taken ((home + e) % n)

/-- Taking more slots cuts off none. -/
theorem Reached.mono {taken taken' : Nat → Prop} {home i : Nat} (h : Reached n taken home i)
    (hsub : ∀ j, taken j → taken' j) : Reached n taken' home i := by
  obtain ⟨d, hd, hi, hbetween⟩ := h
  exact ⟨d, hd, hi, fun e he => hsub _ (hbetween e he)⟩

/-- The first free slot is reached. -/
theorem reached_of_probe {i : Nat} (hslot : slot < n) (h : probe n stop n slot = some i) :
    Reached n (fun j => stop j = false) slot i := by
  obtain ⟨d, hd, hi, -, hbetween⟩ := (probe_eq_some_iff hslot).mp h
  exact ⟨d, hd, hi, hbetween⟩

/-- A search that stops at `i` and else only where nothing is finds `i`. -/
theorem Reached.probe_eq {taken : Nat → Prop} {i : Nat} (hslot : slot < n)
    (h : Reached n taken slot i) (hi : stop i = true)
    (hother : ∀ j < n, j ≠ i → taken j → stop j = false) : probe n stop n slot = some i := by
  obtain ⟨d, hd, rfl, hbetween⟩ := h
  refine (probe_eq_some_iff hslot).mpr ⟨d, hd, rfl, hi, fun e he => ?_⟩
  refine hother _ (Nat.mod_lt _ (Nat.zero_lt_of_lt hslot)) (fun heq => ?_) (hbetween e he)
  exact Nat.ne_of_lt he (offset_inj (Nat.lt_trans he hd) hd heq)

/-! ## What the slots store -/

section Stored

variable {α : Type} {p : α → Bool} {f : Nat → α} {x : α}

/-- The values with `p` in the first `n` slots. -/
def stored (p : α → Bool) (f : Nat → α) (n : Nat) : List α := ((List.range n).map f).filter p

theorem mem_stored : x ∈ stored p f n ↔ (∃ i < n, f i = x) ∧ p x = true := by
  simp [stored]

theorem stored_succ : stored p f (n + 1) = stored p f n ++ if p (f n) then [f n] else [] := by
  simp [stored, List.range_succ, List.filter_singleton]

theorem stored_congr {f' : Nat → α} (h : ∀ i < n, f i = f' i) : stored p f n = stored p f' n := by
  rw [stored, stored, List.map_congr_left fun i hi => h i (List.mem_range.mp hi)]

theorem length_stored_le : (stored p f n).length ≤ n := by
  simpa [stored] using List.length_filter_le p ((List.range n).map f)

/-- Fewer values than slots leave a slot without one. -/
theorem exists_free (h : (stored p f n).length < n) : ∃ i < n, p (f i) = false := by
  by_contra hall
  have hfull : stored p f n = (List.range n).map f := by
    refine List.filter_eq_self.mpr fun x hx => ?_
    obtain ⟨i, hi, rfl⟩ := List.mem_map.mp hx
    by_contra hp
    exact hall ⟨i, List.mem_range.mp hi, Bool.eq_false_iff.mpr hp⟩
  rw [hfull, List.length_map, List.length_range] at h
  exact Nat.lt_irrefl n h

/-- Writing to a slot without a value adds one. -/
theorem stored_update {i : Nat} (hi : i < n) (hfree : p (f i) = false) (hx : p x = true) :
    (stored p (Function.update f i x) n).Perm (x :: stored p f n) := by
  induction n with
  | zero => cases hi
  | succ n ih =>
      rw [stored_succ, stored_succ]
      rcases Nat.lt_succ_iff_lt_or_eq.mp hi with hlt | rfl
      · rw [Function.update_of_ne (Nat.ne_of_gt hlt)]
        exact (ih hlt).append_right _
      · have hrest : stored p (Function.update f i x) i = stored p f i :=
          stored_congr fun j hj => Function.update_of_ne (Nat.ne_of_lt hj) x f
        rw [hrest, Function.update_self, if_pos hx, hfree]
        simp

theorem stored_mono {n' : Nat} (hn : n' ≤ n) : (stored p f n').Sublist (stored p f n) :=
  ((List.range_sublist.mpr hn).map f).filter p

/-- Dropping values adds none. -/
theorem stored_sublist {f' : Nat → α} (h : ∀ i < n, p (f' i) = true → f' i = f i) :
    (stored p f' n).Sublist (stored p f n) := by
  induction n with
  | zero => exact List.Sublist.refl _
  | succ n ih =>
      rw [stored_succ, stored_succ]
      refine (ih fun i hi => h i (Nat.lt_succ_of_lt hi)).append ?_
      by_cases hp : p (f' n) = true
      · rw [← h n (Nat.lt_succ_self n) hp]
      · rw [if_neg hp]
        exact List.nil_sublist _

/-- Values with different keys are in different slots. -/
theorem eq_of_nodup_stored {κ : Type} {key : α → κ} {i j : Nat}
    (h : ((stored p f n).map key).Nodup) (hi : i < n) (hj : j < n) (hpi : p (f i) = true)
    (hpj : p (f j) = true) (hkey : key (f i) = key (f j)) : i = j := by
  have hmap : (stored p f n).map key = ((List.range n).filter (p ∘ f)).map (key ∘ f) := by
    rw [stored, List.filter_map, List.map_map]
  rw [hmap] at h
  refine List.inj_on_of_nodup_map h ?_ ?_ hkey
  · exact List.mem_filter.mpr ⟨List.mem_range.mpr hi, hpi⟩
  · exact List.mem_filter.mpr ⟨List.mem_range.mpr hj, hpj⟩

end Stored

end TeachingOs.Probe
