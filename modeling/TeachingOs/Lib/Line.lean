import Mathlib.Data.List.Rotate
import Mathlib.Data.Nat.Find
import TeachingOs.Lib.Fair

/-!
# TeachingOs.Lib.Line

A line that is served in turns: the head is served until its turn is over, and
then it goes to the end of the line; when it is done it leaves.

`Follows.served`: if every turn ends and the next one begins with service,
everybody in the line is served, although others may leave in between.
-/

namespace TeachingOs.Line

open Fair

/-- The head is served, its turn is over, or neither. -/
inductive Slot where
  | serve
  | turn
  | skip
deriving DecidableEq

/-- The line takes these slots. -/
structure Follows {T : Type} (line : Nat → List T) (slot : Nat → Slot) : Prop where
  serve : ∀ n, slot n = .serve → line (n + 1) = line n ∨ line (n + 1) = (line n).tail
  turn : ∀ n, slot n = .turn → line (n + 1) = (line n).rotate 1
  skip : ∀ n, slot n = .skip → line (n + 1) = line n

/-- The next slot is service, not the end of the turn. -/
def ServesNext (slot : Nat → Slot) (n : Nat) : Prop :=
  ∃ m ≥ n, slot m = .serve ∧ ∀ i, n ≤ i → i < m → slot i = .skip

variable {T : Type} {line : Nat → List T} {slot : Nat → Slot} {t : T} {n m : Nat}

/-- Served at `n` or later. -/
def Served (line : Nat → List T) (slot : Nat → Slot) (t : T) (n : Nat) : Prop :=
  ∃ m ≥ n, slot m = .serve ∧ (line m).head? = some t

theorem Served.earlier (h : Served line slot t m) (hnm : n ≤ m) : Served line slot t n := by
  obtain ⟨k, hk, hserve, hhead⟩ := h
  exact ⟨k, Nat.le_trans hnm hk, hserve, hhead⟩

/-- The end of the turn. -/
theorem next_turn (hturn : Recurs slot .turn) (n : Nat) :
    ∃ m ≥ n, slot m = .turn ∧ ∀ i, n ≤ i → i < m → slot i ≠ .turn := by
  have hex : ∃ m, n ≤ m ∧ slot m = .turn := hturn n
  obtain ⟨hle, hslot⟩ := Nat.find_spec hex
  exact ⟨Nat.find hex, hle, hslot, fun i hi him hi' => Nat.find_min hex him ⟨hi, hi'⟩⟩

namespace Follows

variable (h : Follows line slot)

include h

/-- A slot leaves the line as it was, or it is the end of a turn, or somebody
leaves. -/
theorem line_cases (n : Nat) : line (n + 1) = line n ∨
    slot n = .turn ∧ line (n + 1) = (line n).rotate 1 ∨
    slot n = .serve ∧ line (n + 1) = (line n).tail ∧ line n ≠ [] := by
  cases hslot : slot n with
  | turn => exact .inr (.inl ⟨rfl, h.turn n hslot⟩)
  | skip => exact .inl (h.skip n hslot)
  | serve =>
      by_cases hnil : line n = []
      · rcases h.serve n hslot with hline | hline
        · exact .inl hline
        · exact .inl (by rw [hline, hnil, List.tail_nil])
      · rcases h.serve n hslot with hline | hline
        · exact .inl hline
        · exact .inr (.inr ⟨rfl, hline, hnil⟩)

/-- Who leaves has been served. -/
theorem mem_or_served (ht : t ∈ line n) (hnm : n ≤ m) : t ∈ line m ∨ Served line slot t n := by
  induction m, hnm using Nat.le_induction with
  | base => exact .inl ht
  | succ m hnm ih =>
      refine ih.elim (fun hm => ?_) .inr
      rcases h.line_cases m with hline | ⟨-, hline⟩ | ⟨hserve, hline, -⟩
      · exact .inl (hline ▸ hm)
      · exact .inl (by rwa [hline, List.mem_rotate])
      · cases hl : line m with
        | nil => rw [hl] at hm; cases hm
        | cons c rest =>
            rw [hl] at hm
            rcases List.mem_cons.mp hm with rfl | hm
            · exact .inr ⟨m, hnm, hserve, by rw [hl, List.head?_cons]⟩
            · exact .inl (by rwa [hline, hl, List.tail_cons])

/-- Nobody joins. -/
theorem length_le (hnm : n ≤ m) : (line m).length ≤ (line n).length := by
  induction m, hnm using Nat.le_induction with
  | base => exact Nat.le_refl _
  | succ m _ ih =>
      refine Nat.le_trans ?_ ih
      rcases h.line_cases m with hline | ⟨-, hline⟩ | ⟨-, hline, -⟩
      · rw [hline]
      · rw [hline, List.length_rotate]
      · rw [hline, List.length_tail]
        exact Nat.sub_le ..

/-- Within a turn the line stays as it is, or it gets shorter. -/
theorem eq_or_shorter (hnm : n ≤ m) (hturn : ∀ i, n ≤ i → i < m → slot i ≠ .turn) :
    line m = line n ∨ (line m).length < (line n).length := by
  induction m, hnm using Nat.le_induction with
  | base => exact .inl rfl
  | succ m hnm ih =>
      have hlen : (line (m + 1)) = line m ∨ (line (m + 1)).length < (line m).length := by
        rcases h.line_cases m with hline | ⟨hend, -⟩ | ⟨-, hline, hnil⟩
        · exact .inl hline
        · exact absurd hend (hturn m hnm (Nat.lt_succ_self m))
        · have hpos := List.length_pos_of_ne_nil hnil
          rw [hline, List.length_tail]
          exact .inr (by omega)
      rcases ih fun i hi him => hturn i hi (Nat.lt_succ_of_lt him) with hline | hlt
      · rwa [hline] at hlen
      · rcases hlen with hline | hlt'
        · exact .inr (hline ▸ hlt)
        · exact .inr (hlt'.trans hlt)

/-- The `j + 1`st turn from here begins with the `j + 1`st in the line, unless
somebody leaves. -/
theorem front (hturn : Recurs slot .turn) {j : Nat}
    (hhead : ((line n).rotate (j + 1)).head? = some t) :
    ∃ m ≥ n, slot m = .turn ∧ (line (m + 1)).head? = some t ∨
      (line m).length < (line n).length := by
  induction j generalizing n with
  | zero =>
      obtain ⟨m, hm, hslot, hbefore⟩ := next_turn hturn n
      rcases h.eq_or_shorter hm hbefore with hline | hlt
      · exact ⟨m, hm, .inl ⟨hslot, by rw [h.turn m hslot, hline, hhead]⟩⟩
      · exact ⟨m, hm, .inr hlt⟩
  | succ j ih =>
      obtain ⟨m, hm, hslot, hbefore⟩ := next_turn hturn n
      rcases h.eq_or_shorter hm hbefore with hline | hlt
      · have hnext : line (m + 1) = (line n).rotate 1 := by rw [h.turn m hslot, hline]
        have hrotate : ((line (m + 1)).rotate (j + 1)).head? = some t := by
          rw [hnext, List.rotate_rotate, Nat.add_comm 1, hhead]
        obtain ⟨k, hk, hfront⟩ := ih hrotate
        rw [hnext, List.length_rotate] at hfront
        exact ⟨k, by omega, hfront⟩
      · exact ⟨m, hm, .inr hlt⟩

/-- At the beginning of a turn the head is served. -/
theorem served_head (hserve : ServesNext slot n) (hhead : (line n).head? = some t) :
    Served line slot t n := by
  obtain ⟨m, hm, hslot, hskip⟩ := hserve
  have hline : line m = line n := by
    clear hslot
    induction m, hm using Nat.le_induction with
    | base => rfl
    | succ m hm ih =>
        have hsame := h.skip m (hskip m hm (Nat.lt_succ_self m))
        exact hsame.trans (ih fun i hi him => hskip i hi (Nat.lt_succ_of_lt him))
  exact ⟨m, hm, hslot, by rw [hline, hhead]⟩

/-- **Fairness**: if every turn ends and the next one begins with service,
everybody in the line is served. -/
theorem served (hturn : Recurs slot .turn)
    (hserve : ∀ n, slot n = .turn → ServesNext slot (n + 1)) (ht : t ∈ line n) :
    Served line slot t n := by
  induction hlen : (line n).length using Nat.strongRecOn generalizing n with
  | ind L ih =>
      -- the turn that begins with `t`, or somebody leaves before
      obtain ⟨i, hi, hit⟩ := List.getElem_of_mem ht
      have hhead : ((line n).rotate (i + (line n).length - 1 + 1)).head? = some t := by
        have hpos : 0 < (line n).length := by omega
        rw [show i + (line n).length - 1 + 1 = (line n).length + i by omega, ← List.rotate_rotate,
          List.rotate_length, List.rotate_eq_drop_append_take (Nat.le_of_lt hi),
          List.head?_append, List.head?_drop, List.getElem?_eq_getElem hi, hit, Option.some_or]
      obtain ⟨m, hm, ⟨hslot, hfront⟩ | hlt⟩ := h.front hturn hhead
      · exact (h.served_head (hserve m hslot) hfront).earlier (by omega)
      · rcases h.mem_or_served ht hm with hmem | hserved
        · exact (ih _ (hlen ▸ hlt) hmem rfl).earlier hm
        · exact hserved

end Follows

end TeachingOs.Line
