import Mathlib.Algebra.BigOperators.Group.Finset.Basic
import Mathlib.Algebra.Order.BigOperators.Group.Finset
import Mathlib.Logic.Function.Basic
import TeachingOs.Lib.Fair

/-!
# TeachingOs.Lib.Port

A bounded FIFO port that several writers share.  A writer looks whether there
is room, and writes in a later step; a write that finds no room is lost.  The
port passes its items on, the oldest first, in steps of its own.

* `Ordered.run`: whatever the order of the steps, what passes for a writer is
  a sublist of what it wrote;
* `Lossless.run`: nothing is lost while no writer takes a step between
  another's look and its write;
* `lost_of_overlap`: with two writers a step in between is enough to lose an item;
* `eventually_idle`: under a fair schedule the writers finish, and the port
  runs empty.
-/

namespace TeachingOs.Port

variable {T α : Type}

/-- The items that wait, and those that have left, both oldest first. -/
structure Fifo (α : Type) where
  queue : List α
  line : List α

namespace Fifo

/-- Everything the port has taken. -/
def passed (p : Fifo α) : List α := p.line ++ p.queue

/-- A write; without room it is lost. -/
def write (depth : Nat) (p : Fifo α) (a : α) : Fifo α :=
  if p.queue.length < depth then { p with queue := p.queue ++ [a] } else p

/-- The oldest item leaves. -/
def drain (p : Fifo α) : Fifo α :=
  match p.queue with
  | [] => p
  | a :: queue => ⟨queue, p.line ++ [a]⟩

variable {depth : Nat} {p : Fifo α}

theorem write_of_room (h : p.queue.length < depth) (a : α) :
    p.write depth a = { p with queue := p.queue ++ [a] } := if_pos h

theorem write_of_full (h : ¬ p.queue.length < depth) (a : α) : p.write depth a = p := if_neg h

@[simp] theorem passed_drain (p : Fifo α) : p.drain.passed = p.passed := by
  obtain ⟨_ | ⟨a, queue⟩, line⟩ := p <;> simp [drain, passed]

@[simp] theorem queue_drain (p : Fifo α) : p.drain.queue = p.queue.tail := by
  obtain ⟨_ | ⟨a, queue⟩, line⟩ := p <;> rfl

theorem passed_write_of_room (h : p.queue.length < depth) (a : α) :
    (p.write depth a).passed = p.passed ++ [a] := by
  rw [write_of_room h]
  simp [passed]

end Fifo

/-- Between two items, or after a look that found room for `a`. -/
inductive Writer (α : Type) where
  | polling (rest : List α)
  | writing (a : α) (rest : List α)

/-- What a writer has not yet written. -/
def Writer.pending : Writer α → List α
  | polling rest => rest
  | writing a rest => a :: rest

/-- The port, whose items name their writer, and the writers. -/
structure System (T α : Type) where
  port : Fifo (T × α)
  writer : T → Writer α

variable [DecidableEq T]

/-- One step of the system. -/
def System.step (depth : Nat) (s : System T α) : Turn T → System T α
  | .tick => { s with port := s.port.drain }
  | .idle => s
  | .run t =>
      match s.writer t with
      | .polling [] => s
      | .polling (a :: rest) =>
          if s.port.queue.length < depth then
            { s with writer := Function.update s.writer t (.writing a rest) }
          else s
      | .writing a rest =>
          ⟨s.port.write depth (t, a), Function.update s.writer t (.polling rest)⟩

/-- A run of the system. -/
def System.run (depth : Nat) (s : System T α) (turns : List (Turn T)) : System T α :=
  turns.foldl (System.step depth) s

/-- What the port has taken from a writer. -/
def System.passedBy (s : System T α) (t : T) : List α :=
  (s.port.passed.filter (·.1 = t)).map Prod.snd

variable {depth : Nat} {s s' : System T α} {e : Turn T} {t : T} {texts : T → List α}

/-- Every writer between two items, and nothing taken yet. -/
structure Starts (texts : T → List α) (s : System T α) : Prop where
  line : s.port.line = []
  queue : s.port.queue = []
  writer : ∀ t, s.writer t = .polling (texts t)

/-! ## One step -/

/-- What a step can be. -/
theorem step_cases (depth : Nat) (s : System T α) (e : Turn T) :
    (s.step depth e = s ∧ e ≠ .tick ∧ ∀ t, e = .run t → ∃ rest, s.writer t = .polling rest ∧
      (rest = [] ∨ ¬ s.port.queue.length < depth)) ∨
    (e = .tick ∧ s.step depth e = { s with port := s.port.drain }) ∨
    (∃ t a rest, e = .run t ∧ s.writer t = .polling (a :: rest) ∧ s.port.queue.length < depth ∧
      s.step depth e = { s with writer := Function.update s.writer t (.writing a rest) }) ∨
    (∃ t a rest, e = .run t ∧ s.writer t = .writing a rest ∧
      s.step depth e =
        ⟨s.port.write depth (t, a), Function.update s.writer t (.polling rest)⟩) := by
  cases e with
  | tick => exact .inr (.inl ⟨rfl, rfl⟩)
  | idle => exact .inl ⟨rfl, nofun, nofun⟩
  | run t =>
      cases hw : s.writer t with
      | polling rest =>
          by_cases hroom : s.port.queue.length < depth
          · cases rest with
            | nil =>
                refine .inl ⟨by simp [System.step, hw], nofun, ?_⟩
                rintro _ ⟨⟩
                exact ⟨[], hw, .inl rfl⟩
            | cons a rest =>
                have hs : s.step depth (.run t) =
                    { s with writer := Function.update s.writer t (.writing a rest) } := by
                  simp [System.step, hw, hroom]
                exact .inr (.inr (.inl ⟨t, a, rest, rfl, hw, hroom, hs⟩))
          · refine .inl ⟨by cases rest <;> simp [System.step, hw, hroom], nofun, ?_⟩
            rintro _ ⟨⟩
            exact ⟨rest, hw, .inr hroom⟩
      | writing a rest => exact .inr (.inr (.inr ⟨t, a, rest, rfl, hw, by simp [System.step, hw]⟩))

/-- A write adds to what its writer has passed, or to nobody's. -/
theorem passedBy_write (s : System T α) (t : T) (a : α) (w : T → Writer α) (t' : T) :
    System.passedBy ⟨s.port.write depth (t, a), w⟩ t' =
      if s.port.queue.length < depth ∧ t = t' then s.passedBy t' ++ [a] else s.passedBy t' := by
  by_cases hroom : s.port.queue.length < depth
  · simp only [System.passedBy, Fifo.passed_write_of_room hroom, List.filter_append]
    by_cases ht : t = t' <;> simp [hroom, ht]
  · simp [System.passedBy, Fifo.write_of_full hroom, hroom]

/-- A step of others leaves a writer as it is. -/
theorem writer_step_of_ne (he : e ≠ .run t) : (s.step depth e).writer t = s.writer t := by
  rcases step_cases depth s e with ⟨hs, -, -⟩ | ⟨-, hs⟩ | ⟨t', a, rest, rfl, -, -, hs⟩ |
    ⟨t', a, rest, rfl, -, hs⟩
  · rw [hs]
  · rw [hs]
  all_goals
    have hne : t ≠ t' := by
      rintro rfl
      exact he rfl
    rw [hs]
    exact Function.update_of_ne hne ..

/-- A writer that has nothing left does nothing. -/
theorem step_run_of_pending (h : (s.writer t).pending = []) : s.step depth (.run t) = s := by
  cases hw : s.writer t with
  | polling rest =>
      rw [hw, Writer.pending] at h
      subst h
      simp [System.step, hw]
  | writing a rest =>
      rw [hw] at h
      cases h

/-! ## Order -/

/-- What a writer has got through is a sublist of what it has written. -/
def Ordered (texts : T → List α) (s : System T α) : Prop :=
  ∀ t, ∃ written, texts t = written ++ (s.writer t).pending ∧
    (s.passedBy t).Sublist written

theorem Starts.ordered (h : Starts texts s) : Ordered texts s := by
  intro t
  refine ⟨[], ?_, ?_⟩
  · rw [h.writer, List.nil_append, Writer.pending]
  · simp [System.passedBy, Fifo.passed, h.line, h.queue]

/-- **Order**, one step. -/
theorem Ordered.step (h : Ordered texts s) (e : Turn T) : Ordered texts (s.step depth e) := by
  intro t'
  obtain ⟨written, heq, hsub⟩ := h t'
  rcases step_cases depth s e with ⟨hs, -, -⟩ | ⟨-, hs⟩ | ⟨t, a, rest, -, hw, -, hs⟩ |
    ⟨t, a, rest, -, hw, hs⟩
  · exact ⟨written, by rw [hs, heq], by rwa [hs]⟩
  · exact ⟨written, by rw [hs, heq], by rwa [hs, System.passedBy, Fifo.passed_drain]⟩
  · refine ⟨written, ?_, by rwa [hs]⟩
    rw [hs, heq]
    by_cases ht : t' = t
    · subst ht
      simp [Writer.pending, hw]
    · simp [ht]
  · rw [hs, passedBy_write]
    by_cases ht : t' = t
    · -- the writer's own item moves on, into the port or into nothing
      subst ht
      refine ⟨written ++ [a], ?_, ?_⟩
      · rw [heq]
        simp [Writer.pending, hw]
      · split
        · exact hsub.append_right [a]
        · exact hsub.trans (List.sublist_append_left _ _)
    · refine ⟨written, ?_, ?_⟩
      · rw [heq]
        simp [ht]
      · rwa [if_neg fun hc => ht hc.2.symm]

/-- **Order**, a whole run: whatever the order of the steps, nothing is
invented, doubled or overtaken. -/
theorem Ordered.run (h : Ordered texts s) (depth : Nat) (turns : List (Turn T)) :
    Ordered texts (s.run depth turns) := by
  induction turns generalizing s with
  | nil => exact h
  | cons e turns ih => exact ih (h.step e)

/-! ## Loss -/

/-- When a writer writes, no other is between its look and its write. -/
def Alone (s : System T α) (e : Turn T) : Prop :=
  ∀ t a rest, e = .run t → s.writer t = .writing a rest →
    ∀ t' ≠ t, ∃ rest', s.writer t' = .polling rest'

/-- Everything written has been taken, and a writer after its look still has
the room it saw. -/
structure Lossless (depth : Nat) (texts : T → List α) (s : System T α) : Prop where
  all : ∀ t, texts t = s.passedBy t ++ (s.writer t).pending
  room : ∀ t a rest, s.writer t = .writing a rest → s.port.queue.length < depth

theorem Starts.lossless (h : Starts texts s) : Lossless depth texts s := by
  refine ⟨fun t => ?_, fun t a rest hw => ?_⟩
  · rw [h.writer]
    simp [System.passedBy, Fifo.passed, h.line, h.queue, Writer.pending]
  · rw [h.writer] at hw
    cases hw

/-- **No loss**, one step. -/
theorem Lossless.step (h : Lossless depth texts s) (halone : Alone s e) :
    Lossless depth texts (s.step depth e) := by
  rcases step_cases depth s e with ⟨hs, -, -⟩ | ⟨rfl, hs⟩ |
    ⟨t, a, rest, rfl, hw, hroom, hs⟩ | ⟨t, a, rest, rfl, hw, hs⟩
  · rwa [hs]
  · rw [hs]
    refine ⟨fun t => ?_, fun t a rest hw => ?_⟩
    · rw [h.all t, System.passedBy, System.passedBy, Fifo.passed_drain]
    · have hlt := h.room t a rest hw
      rw [Fifo.queue_drain, List.length_tail]
      omega
  · rw [hs]
    refine ⟨fun t' => ?_, fun _ _ _ _ => hroom⟩
    rw [h.all t', System.passedBy, System.passedBy]
    by_cases ht : t' = t
    · subst ht
      simp [Writer.pending, hw]
    · simp [ht]
  · rw [hs]
    have hroom := h.room t a rest hw
    refine ⟨fun t' => ?_, fun t' a' rest' hw' => ?_⟩
    · rw [h.all t', passedBy_write]
      by_cases ht : t' = t
      · subst ht
        simp [hroom, Writer.pending, hw]
      · simp [ht, Ne.symm ht]
    · -- nobody else is after its look
      by_cases ht : t' = t
      · subst ht
        simp at hw'
      · obtain ⟨rest'', hp⟩ := halone t a rest rfl hw t' ht
        simp [ht, hp] at hw'

/-- **No loss**, a whole run. -/
theorem Lossless.run (h : Lossless depth texts s) {turns : List (Turn T)}
    (halone : Fair.Along (System.step depth) Alone s turns) :
    Lossless depth texts (s.run depth turns) := by
  induction turns generalizing s with
  | nil => exact h
  | cons e turns ih => exact ih (h.step halone.1) halone.2

/-! ## A loss -/

theorem System.run_append (s : System T α) (turns turns' : List (Turn T)) :
    s.run depth (turns ++ turns') = (s.run depth turns).run depth turns' :=
  List.foldl_append ..

/-- A writer that is run alone fills the queue. -/
theorem fill {l rest : List α} (h : s.writer t = .polling (l ++ rest))
    (hroom : s.port.queue.length + l.length ≤ depth) :
    s.run depth (List.replicate (2 * l.length) (.run t)) =
      ⟨{ s.port with queue := s.port.queue ++ l.map (t, ·) },
        Function.update s.writer t (.polling rest)⟩ := by
  induction l generalizing s with
  | nil =>
      rw [List.nil_append] at h
      simp [System.run, ← h]
  | cons a l ih =>
      rw [List.length_cons] at hroom
      have hlt : s.port.queue.length < depth := by omega
      -- the look and the write
      have htwo : s.run depth [.run t, .run t] =
          ⟨{ s.port with queue := s.port.queue ++ [(t, a)] },
            Function.update s.writer t (.polling (l ++ rest))⟩ := by
        simp [System.run, System.step, h, hlt, Fifo.write_of_room]
      have hrest := ih (s := s.run depth [.run t, .run t]) (by simp [htwo])
        (by rw [htwo]; simp; omega)
      rw [List.length_cons, Nat.mul_add, Nat.add_comm, List.replicate_add, System.run_append,
        show List.replicate (2 * 1) (Turn.run t) = [.run t, .run t] from rfl, hrest, htwo]
      simp

/-- Two writers that have both seen the last place: the second one's item is
lost. -/
theorem lost_of_full {t' : T} (hne : t ≠ t') {a b : α} {rest rest' : List α}
    (hlast : s.port.queue.length + 1 = depth) (ht : s.writer t = .polling (a :: rest))
    (ht' : s.writer t' = .polling (b :: rest')) :
    (s.run depth [.run t, .run t', .run t, .run t']).writer t' = .polling rest' ∧
      (s.run depth [.run t, .run t', .run t, .run t']).port.passed = s.port.passed ++ [(t, a)] := by
  have hlt : s.port.queue.length < depth := by omega
  have hrun : s.run depth [.run t, .run t', .run t, .run t'] =
      ⟨(s.port.write depth (t, a)).write depth (t', b), Function.update (Function.update
        (Function.update (Function.update s.writer t (.writing a rest)) t' (.writing b rest'))
        t (.polling rest)) t' (.polling rest')⟩ := by
    simp [System.run, System.step, ht, ht', hlt, hne, hne.symm]
  have hfull : ¬ (s.port.write depth (t, a)).queue.length < depth := by
    rw [Fifo.write_of_room hlt]
    simp only [List.length_append, List.length_singleton]
    omega
  rw [hrun]
  refine ⟨Function.update_self .., ?_⟩
  rw [Fifo.write_of_full hfull, Fifo.passed_write_of_room hlt]

/-- The first writer fills the queue up to the last place; then both look, and
both write. -/
def overlap (depth : Nat) (t t' : T) : List (Turn T) :=
  List.replicate (2 * (depth - 1)) (.run t) ++ [.run t, .run t', .run t, .run t']

/-- **A loss**: however deep the queue is, two writers that take their looks
before their writes lose an item.  What has passed then is all from one of
them, while the other has gone on to its next item. -/
theorem lost_of_overlap (hstart : Starts texts s) (hdepth : 0 < depth) {t' : T} (hne : t ≠ t')
    (hlong : depth ≤ (texts t).length) {b : α} {rest : List α} (htext : texts t' = b :: rest) :
    (s.run depth (overlap depth t t')).writer t' = .polling rest ∧
      (s.run depth (overlap depth t t')).port.passed = ((texts t).take depth).map (t, ·) := by
  obtain ⟨a, rest', ha⟩ : ∃ a rest', (texts t).drop (depth - 1) = a :: rest' := by
    refine List.exists_cons_of_ne_nil fun hnil => ?_
    rw [List.drop_eq_nil_iff] at hnil
    omega
  have hlen : ((texts t).take (depth - 1)).length = depth - 1 := by
    rw [List.length_take]
    omega
  have htake : (texts t).take depth = (texts t).take (depth - 1) ++ [a] := by
    obtain ⟨k, rfl⟩ := Nat.exists_eq_succ_of_ne_zero hdepth.ne'
    rw [Nat.succ_sub_one] at ha ⊢
    have hget : (texts t)[k]? = some a := by rw [← List.head?_drop, ha, List.head?_cons]
    rw [List.take_add_one, hget, Option.toList_some]
  have hwriter : s.writer t = .polling ((texts t).take (depth - 1) ++ (a :: rest')) := by
    rw [hstart.writer, ← ha, List.take_append_drop]
  have hroom : s.port.queue.length + ((texts t).take (depth - 1)).length ≤ depth := by
    rw [hstart.queue, hlen, List.length_nil]
    omega
  have hfill := fill hwriter hroom
  rw [hlen] at hfill
  have hlast : (s.run depth (List.replicate (2 * (depth - 1)) (.run t))).port.queue.length + 1 =
      depth := by
    rw [hfill, hstart.queue]
    simp only [List.nil_append, List.length_map, hlen]
    omega
  have ht : (s.run depth (List.replicate (2 * (depth - 1)) (.run t))).writer t =
      .polling (a :: rest') := by simp [hfill]
  have ht' : (s.run depth (List.replicate (2 * (depth - 1)) (.run t))).writer t' =
      .polling (b :: rest) := by simp [hfill, hne.symm, hstart.writer, htext]
  obtain ⟨hpolling, hpassed⟩ := lost_of_full hne hlast ht ht'
  rw [overlap, System.run_append]
  refine ⟨hpolling, hpassed.trans ?_⟩
  rw [hfill, Fifo.passed, hstart.line, hstart.queue, htake, List.map_append]
  rfl

/-! ## Progress -/

section

variable [Fintype T]

/-- How many items are not yet written. -/
def backlog (s : System T α) : Nat := ∑ t, (s.writer t).pending.length

omit [DecidableEq T] in
theorem backlog_eq_zero_iff : backlog s = 0 ↔ ∀ t, (s.writer t).pending = [] := by
  simp [backlog]

/-- A step that does not write. -/
structure Waits (depth : Nat) (s : System T α) (e : Turn T) : Prop where
  pending : ∀ t, ((s.step depth e).writer t).pending = (s.writer t).pending
  queue : (s.step depth e).port.queue.length ≤ s.port.queue.length
  drains : e = .tick → (s.step depth e).port.queue = s.port.queue.tail
  writer : ∀ t, (s.step depth e).writer t = s.writer t ∨
    ∃ a rest, (s.step depth e).writer t = .writing a rest
  looks : ∀ t, e = .run t → s.port.queue.length < depth → (s.writer t).pending ≠ [] →
    ∃ a rest, (s.step depth e).writer t = .writing a rest
  writes : ∀ t a rest, e = .run t → s.writer t ≠ .writing a rest

/-- A step writes an item, or it waits. -/
theorem backlog_lt_or_waits (depth : Nat) (s : System T α) (e : Turn T) :
    backlog (s.step depth e) < backlog s ∨ Waits depth s e := by
  rcases step_cases depth s e with ⟨hs, htick, hstill⟩ | ⟨rfl, hs⟩ |
    ⟨t, a, rest, rfl, hw, hroom, hs⟩ | ⟨t, a, rest, rfl, hw, hs⟩
  · right
    refine ⟨fun t => by rw [hs], by rw [hs], fun ht => absurd ht htick, fun t => .inl (by rw [hs]),
      ?_, ?_⟩
    · intro t ht hroom hne
      obtain ⟨rest, hw, hnil | hfull⟩ := hstill t ht
      · rw [hw] at hne
        exact absurd hnil hne
      · exact absurd hroom hfull
    · intro t a rest ht
      obtain ⟨rest', hw, -⟩ := hstill t ht
      simp [hw]
  · right
    exact ⟨fun t' => by rw [hs], by simp [hs], by simp [hs], fun t' => .inl (by rw [hs]), by simp,
      by simp⟩
  · right
    refine ⟨fun t' => ?_, by rw [hs], by simp, fun t' => ?_, ?_, ?_⟩
    · by_cases ht : t' = t
      · subst ht
        simp [hs, hw, Writer.pending]
      · simp [hs, ht]
    · by_cases ht : t' = t
      · subst ht
        exact .inr ⟨a, rest, by simp [hs]⟩
      · exact .inl (by simp [hs, ht])
    · rintro t' ht - -
      cases ht
      exact ⟨a, rest, by simp [hs]⟩
    · rintro t' b rest' ht
      cases ht
      simp [hw]
  · left
    rw [hs]
    refine Finset.sum_lt_sum (fun t' _ => ?_) ⟨t, Finset.mem_univ t, ?_⟩
    · by_cases ht : t' = t
      · subst ht
        simp [hw, Writer.pending]
      · simp [ht]
    · simp [hw, Writer.pending]

variable {schedule : Nat → Turn T} {k : Nat}

omit [Fintype T] in
theorem Waits.queue_nil (h : Waits depth s e) (hnil : s.port.queue = []) :
    (s.step depth e).port.queue = [] := by
  have hlen := h.queue
  rwa [hnil, List.length_nil, Nat.le_zero, List.length_eq_zero_iff] at hlen

omit [Fintype T] in
theorem Waits.tick_nil_or_lt (h : Waits depth s .tick) :
    (s.step depth .tick).port.queue = [] ∨
      (s.step depth .tick).port.queue.length < s.port.queue.length := by
  rw [h.drains rfl]
  cases s.port.queue with
  | nil => exact .inl rfl
  | cons a queue => exact .inr (Nat.lt_succ_self _)

/-- Until something is written, a writer has what it had. -/
theorem lt_or_keeps (hk : backlog s = k) (ht : (s.writer t).pending ≠ []) (e : Turn T) :
    backlog (s.step depth e) < k ∨
      Waits depth s e ∧ backlog (s.step depth e) = k ∧
        ((s.step depth e).writer t).pending ≠ [] := by
  subst hk
  rcases backlog_lt_or_waits depth s e with hlt | hwaits
  · exact .inl hlt
  · refine .inr ⟨hwaits, ?_, by rwa [hwaits.pending]⟩
    simp only [backlog, hwaits.pending]

/-- A writer that has something to write gets something written, by itself or
by others. -/
theorem leadsTo_write (hdepth : 0 < depth) (htick : Fair.Recurs schedule .tick) {t : T}
    (hrun : ∀ n, ((Fair.runOf (System.step depth) schedule s n).writer t).pending ≠ [] →
      ∃ m ≥ n, schedule m = .run t) (k : Nat) :
    Fair.LeadsTo (Fair.runOf (System.step depth) schedule s)
      (fun s => backlog s = k ∧ (s.writer t).pending ≠ []) (fun s => backlog s < k) := by
  -- the queue runs empty, the writer looks, the writer writes
  have hempty : Fair.LeadsTo (Fair.runOf (System.step depth) schedule s)
      (fun s => backlog s = k ∧ (s.writer t).pending ≠ [])
      (fun s => (backlog s = k ∧ (s.writer t).pending ≠ [] ∧ s.port.queue = []) ∨
        backlog s < k) := by
    refine .of_rank (fun s => s.port.queue.length) fun j => .of_event (fun n _ => htick n) ?_ ?_
    · rintro s e ⟨⟨hk, ht⟩, hj⟩
      rcases lt_or_keeps hk ht e with hlt | ⟨hwaits, hk', ht'⟩
      · exact .inr (.inl (.inr hlt))
      · rcases (hwaits.queue.trans_eq hj).lt_or_eq with hlt | heq
        · exact .inr (.inr ⟨⟨hk', ht'⟩, hlt⟩)
        · exact .inl ⟨⟨hk', ht'⟩, heq⟩
    · rintro s ⟨⟨hk, ht⟩, hj⟩
      rcases lt_or_keeps hk ht .tick with hlt | ⟨hwaits, hk', ht'⟩
      · exact .inl (.inr hlt)
      · rcases hwaits.tick_nil_or_lt with hnil | hlt
        · exact .inl (.inl ⟨hk', ht', hnil⟩)
        · exact .inr ⟨⟨hk', ht'⟩, hlt.trans_eq hj⟩
  have hlook : Fair.LeadsTo (Fair.runOf (System.step depth) schedule s)
      (fun s => backlog s = k ∧ (s.writer t).pending ≠ [] ∧ s.port.queue = [])
      (fun s => (backlog s = k ∧ ∃ a rest, s.writer t = .writing a rest) ∨ backlog s < k) := by
    refine .of_event (fun n hP => hrun n hP.2.1) ?_ ?_
    · rintro s e ⟨hk, ht, hnil⟩
      rcases lt_or_keeps hk ht e with hlt | ⟨hwaits, hk', ht'⟩
      · exact .inr (.inr hlt)
      · exact .inl ⟨hk', ht', hwaits.queue_nil hnil⟩
    · rintro s ⟨hk, ht, hnil⟩
      rcases lt_or_keeps hk ht (.run t) with hlt | ⟨hwaits, hk', -⟩
      · exact .inr hlt
      · exact .inl ⟨hk', hwaits.looks t rfl (by rwa [hnil]) ht⟩
  have hwrite : Fair.LeadsTo (Fair.runOf (System.step depth) schedule s)
      (fun s => backlog s = k ∧ ∃ a rest, s.writer t = .writing a rest)
      (fun s => backlog s < k) := by
    refine .of_event (fun n hP => hrun n ?_) ?_ ?_
    · obtain ⟨-, a, rest, hw⟩ := hP
      simp [hw, Writer.pending]
    · rintro s e ⟨hk, a, rest, hw⟩
      have ht : (s.writer t).pending ≠ [] := by simp [hw, Writer.pending]
      rcases lt_or_keeps hk ht e with hlt | ⟨hwaits, hk', -⟩
      · exact .inr hlt
      · refine .inl ⟨hk', ?_⟩
        rcases hwaits.writer t with hsame | hwriting
        · exact ⟨a, rest, hsame.trans hw⟩
        · exact hwriting
    · rintro s ⟨hk, a, rest, hw⟩
      have ht : (s.writer t).pending ≠ [] := by simp [hw, Writer.pending]
      rcases lt_or_keeps hk ht (.run t) with hlt | ⟨hwaits, -, -⟩
      · exact hlt
      · exact absurd hw (hwaits.writes t a rest rfl)
  exact hempty.trans_or (hlook.trans_or hwrite)

/-- With nothing to write, all that can happen is that the queue drains. -/
theorem waits_of_backlog (h : backlog s = 0) (e : Turn T) :
    Waits depth s e ∧ backlog (s.step depth e) = 0 := by
  rcases backlog_lt_or_waits depth s e with hlt | hwaits
  · omega
  · refine ⟨hwaits, ?_⟩
    rw [backlog_eq_zero_iff] at h ⊢
    intro t
    rw [hwaits.pending, h]

omit [Fintype T] in
/-- A writer that is done stays so. -/
theorem pending_step (h : (s.writer t).pending = []) (e : Turn T) :
    ((s.step depth e).writer t).pending = [] := by
  rcases step_cases depth s e with ⟨hs, -, -⟩ | ⟨-, hs⟩ | ⟨t', a, rest, -, hw, -, hs⟩ |
    ⟨t', a, rest, -, hw, hs⟩
  · rwa [hs]
  · rwa [hs]
  all_goals
    have hne : t ≠ t' := by
      rintro rfl
      rw [hw] at h
      cases h
    rw [hs]
    exact (congrArg Writer.pending (Function.update_of_ne hne ..)).trans h

omit [Fintype T] in
/-- A writer that has something to write has had it from the start. -/
theorem pending_of_runOf {n : Nat}
    (h : ((Fair.runOf (System.step depth) schedule s n).writer t).pending ≠ []) :
    (s.writer t).pending ≠ [] := fun hnil =>
  h (Fair.stable (P := fun s : System T α => (s.writer t).pending = [])
    (fun _ e h => pending_step h e) (Nat.zero_le n) hnil)

/-- **Progress**: if the port gets its turn again and again, and a writer does
while it has something to write, everything is written and the queue runs
empty, for good. -/
theorem eventually_idle (hdepth : 0 < depth) (htick : Fair.Recurs schedule .tick)
    (hrun : ∀ t n, ((Fair.runOf (System.step depth) schedule s n).writer t).pending ≠ [] →
      ∃ m ≥ n, schedule m = .run t) :
    ∃ n, ∀ m ≥ n, (∀ t, ((Fair.runOf (System.step depth) schedule s m).writer t).pending = []) ∧
      (Fair.runOf (System.step depth) schedule s m).port.queue = [] := by
  have hwritten : Fair.LeadsTo (Fair.runOf (System.step depth) schedule s) (fun _ => True)
      (fun s => backlog s = 0) := by
    refine .of_rank backlog fun k n hk => ?_
    rcases Nat.eq_zero_or_pos k with rfl | hpos
    · exact ⟨n, Nat.le_refl n, .inl hk.2⟩
    · obtain ⟨t, ht⟩ : ∃ t,
          ((Fair.runOf (System.step depth) schedule s n).writer t).pending ≠ [] := by
        by_contra hall
        rw [not_exists_not, ← backlog_eq_zero_iff] at hall
        omega
      obtain ⟨m, hm, hlt⟩ := leadsTo_write hdepth htick (hrun t) k n ⟨hk.2, ht⟩
      exact ⟨m, hm, .inr ⟨trivial, hlt⟩⟩
  have hdrained : Fair.LeadsTo (Fair.runOf (System.step depth) schedule s)
      (fun s => backlog s = 0) (fun s => backlog s = 0 ∧ s.port.queue = []) := by
    refine .of_rank (fun s => s.port.queue.length) fun j => .of_event (fun n _ => htick n) ?_ ?_
    · rintro s e ⟨h, hj⟩
      obtain ⟨hwaits, h'⟩ := waits_of_backlog h e
      rcases (hwaits.queue.trans_eq hj).lt_or_eq with hlt | heq
      · exact .inr (.inr ⟨h', hlt⟩)
      · exact .inl ⟨h', heq⟩
    · rintro s ⟨h, hj⟩
      obtain ⟨hwaits, h'⟩ := waits_of_backlog h .tick
      rcases hwaits.tick_nil_or_lt with hnil | hlt
      · exact .inl ⟨h', hnil⟩
      · exact .inr ⟨h', hlt.trans_eq hj⟩
  obtain ⟨n, -, hn⟩ := hwritten.trans hdrained 0 trivial
  refine ⟨n, fun m hm => ?_⟩
  have hkeep : ∀ (s : System T α) e, (backlog s = 0 ∧ s.port.queue = []) →
      backlog (s.step depth e) = 0 ∧ (s.step depth e).port.queue = [] := by
    rintro s e ⟨h, hnil⟩
    obtain ⟨hwaits, h'⟩ := waits_of_backlog h e
    exact ⟨h', hwaits.queue_nil hnil⟩
  obtain ⟨hbacklog, hqueue⟩ :=
    Fair.stable (P := fun s : System T α => backlog s = 0 ∧ s.port.queue = []) hkeep hm hn
  exact ⟨backlog_eq_zero_iff.mp hbacklog, hqueue⟩

end

end TeachingOs.Port
