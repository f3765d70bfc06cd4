import TeachingOs.Lib.Fair

/-!
# TeachingOs.Lib.Ticker

A periodic timer and its handler, whatever the handler does.  When the timer
has expired, the CPU enters the handler; `before` steps later a step sets the
timer again, and `after` steps after that one the handler looks at the timer
once more, serves it again if it has expired, and otherwise ends.

* `turns_paced`: however steps and beats interleave, the handler does not end
  more often than once a period;
* `Fast.turn_recurs`, `Fast.work_after_turn`: on a CPU that is not too slow
  the handler ends again and again, and leaves time for work every time.
-/

namespace TeachingOs

open Fair

/-- A beat of the clock, a step of the CPU, or anything else. -/
inductive Signal where
  | beat
  | go
  | rest
deriving DecidableEq

/-- What a step of the CPU is for. -/
inductive Use where
  | work
  | handler
  | turn
deriving DecidableEq

/-- The clock, the time at which the timer expires, and the number of steps
that are left of the handler. -/
structure Ticker where
  now : Nat
  deadline : Nat
  left : Nat

namespace Ticker

/-- The length of a period, and of the handler. -/
structure Pace where
  period : Nat
  before : Nat
  after : Nat

variable (p : Pace)

/-- The timer has expired. -/
def Expired (t : Ticker) : Prop := t.deadline ≤ t.now

instance (t : Ticker) : Decidable t.Expired := inferInstanceAs (Decidable (_ ≤ _))

def step (t : Ticker) : Signal → Ticker
  | .beat => { t with now := t.now + 1 }
  | .rest => t
  | .go =>
      match t.left with
      | 0 => if t.Expired then { t with left := p.before + p.after + 2 } else t
      | 1 => { t with left := if t.Expired then p.after + 2 else 0 }
      | k + 2 =>
          if k = p.after then { t with deadline := t.now + p.period, left := k + 1 }
          else { t with left := k + 1 }

/-- What the next step of the CPU is for. -/
def use (t : Ticker) : Use :=
  match t.left with
  | 0 => if t.Expired then .handler else .work
  | 1 => if t.Expired then .handler else .turn
  | _ + 2 => .handler

/-- The signal is the last step of the handler. -/
def Turns (t : Ticker) (s : Signal) : Prop := s = .go ∧ t.use = .turn

instance (t : Ticker) (s : Signal) : Decidable (t.Turns s) := inferInstanceAs (Decidable (_ ∧ _))

/-- A run. -/
def run (t : Ticker) (signals : List Signal) : Ticker := signals.foldl (step p) t

/-- The number of times that the handler ends in a run. -/
def turns : Ticker → List Signal → Nat
  | _, [] => 0
  | t, s :: signals => (if t.Turns s then 1 else 0) + turns (t.step p s) signals

variable {p} {t : Ticker}

/-! ## What a step does -/

theorem use_eq_work_iff : t.use = .work ↔ t.left = 0 ∧ ¬ t.Expired := by
  obtain ⟨now, deadline, left⟩ := t
  match left with
  | 0 => simp [use]
  | 1 => simp [use]; split <;> simp
  | k + 2 => simp [use]

theorem use_eq_turn_iff : t.use = .turn ↔ t.left = 1 ∧ ¬ t.Expired := by
  obtain ⟨now, deadline, left⟩ := t
  match left with
  | 0 => simp [use]; split <;> simp
  | 1 => simp [use]
  | k + 2 => simp [use]

theorem go_of_left_zero (h : t.left = 0) : t.step p .go =
    if t.Expired then { t with left := p.before + p.after + 2 } else t := by
  obtain ⟨now, deadline, left⟩ := t
  cases h
  rfl

theorem go_of_left_one (h : t.left = 1) :
    t.step p .go = { t with left := if t.Expired then p.after + 2 else 0 } := by
  obtain ⟨now, deadline, left⟩ := t
  cases h
  rfl

theorem go_of_left_after (h : t.left = p.after + 2) :
    t.step p .go = { t with deadline := t.now + p.period, left := p.after + 1 } := by
  obtain ⟨now, deadline, left⟩ := t
  cases h
  exact if_pos rfl

theorem go_of_left {k : Nat} (h : t.left = k + 2) (hk : k ≠ p.after) :
    t.step p .go = { t with left := k + 1 } := by
  obtain ⟨now, deadline, left⟩ := t
  cases h
  exact if_neg hk

/-- Inside the handler every step takes it on by one. -/
theorem left_go {k : Nat} (h : t.left = k + 2) : (t.step p .go).left = k + 1 := by
  obtain ⟨now, deadline, left⟩ := t
  cases h
  simp only [step]
  split <;> rfl

/-- What a step of the CPU does: work, enter the handler, set the timer, look
at it again, end the handler, or go on in it. -/
theorem go_cases (p : Pace) (t : Ticker) :
    (t.left = 0 ∧ ¬ t.Expired ∧ t.step p .go = t) ∨
    (t.left = 0 ∧ t.Expired ∧ t.step p .go = { t with left := p.before + p.after + 2 }) ∨
    (t.left = p.after + 2 ∧
      t.step p .go = { t with deadline := t.now + p.period, left := p.after + 1 }) ∨
    (t.left = 1 ∧ t.Expired ∧ t.step p .go = { t with left := p.after + 2 }) ∨
    (t.left = 1 ∧ ¬ t.Expired ∧ t.step p .go = { t with left := 0 }) ∨
    (2 ≤ t.left ∧ t.left ≠ p.after + 2 ∧ t.step p .go = { t with left := t.left - 1 }) := by
  obtain ⟨now, deadline, left⟩ := t
  match left with
  | 0 =>
      by_cases h : Expired ⟨now, deadline, 0⟩
      · exact .inr (.inl ⟨rfl, h, by simp [step, h]⟩)
      · exact .inl ⟨rfl, h, by simp [step, h]⟩
  | 1 =>
      by_cases h : Expired ⟨now, deadline, 1⟩
      · exact .inr (.inr (.inr (.inl ⟨rfl, h, by simp [step, h]⟩)))
      · exact .inr (.inr (.inr (.inr (.inl ⟨rfl, h, by simp [step, h]⟩))))
  | k + 2 =>
      by_cases h : k = p.after
      · exact .inr (.inr (.inl ⟨by simp [h], by simp [step, h]⟩))
      · exact .inr (.inr (.inr (.inr (.inr ⟨by simp, by simpa using h, by simp [step, h]⟩))))

/-- Only steps of the CPU change the handler or the timer. -/
theorem step_of_ne_go {s : Signal} (h : s ≠ .go) :
    (t.step p s).left = t.left ∧ (t.step p s).deadline = t.deadline := by
  cases s with
  | beat => exact ⟨rfl, rfl⟩
  | rest => exact ⟨rfl, rfl⟩
  | go => exact absurd rfl h

/-! ## Not more than once a period -/

/-- The timer has been set since the handler was entered. -/
def served (p : Pace) (t : Ticker) : Nat := if 1 ≤ t.left ∧ t.left ≤ p.after + 1 then 1 else 0

/-- Since `start` the timer has been set `sets` times and the handler has
ended `count` times. -/
structure Paced (p : Pace) (start sets count : Nat) (t : Ticker) : Prop where
  now : start + p.period * sets ≤ t.now
  deadline : start + p.period * (sets + 1) ≤ t.deadline
  /-- the handler has been entered and has not set the timer yet -/
  expired : p.after + 2 ≤ t.left → t.Expired
  count : count + t.served p ≤ sets

variable {start sets count : Nat}

theorem Paced.of_step (h : Paced p start sets count t) {left n : Nat}
    (hleft : p.after + 2 ≤ left → t.Expired) (hcount : n + served p ⟨0, 0, left⟩ ≤ sets) :
    Paced p start sets n { t with left } :=
  ⟨h.now, h.deadline, hleft, hcount⟩

/-- Setting the timer puts the deadline off by a period at least. -/
theorem Paced.set (h : Paced p start sets count t) (hleft : t.left = p.after + 2) :
    Paced p start (sets + 1) count
      { t with deadline := t.now + p.period, left := p.after + 1 } := by
  have hexpired : t.deadline ≤ t.now := h.expired (by omega)
  have hnow : start + p.period * (sets + 1) ≤ t.now := Nat.le_trans h.deadline hexpired
  refine ⟨hnow, ?_, fun hle => absurd hle (by simp), ?_⟩
  · rw [Nat.mul_succ, ← Nat.add_assoc]
    exact Nat.add_le_add_right hnow _
  · have hcount := h.count
    simp only [served] at hcount ⊢
    split <;> omega

theorem Paced.step (h : Paced p start sets count t) (s : Signal) :
    ∃ sets', Paced p start sets' (count + if t.Turns s then 1 else 0) (t.step p s) := by
  have hcount := h.count
  have hquiet : t.use ≠ .turn → (count + if t.Turns .go then 1 else 0) = count := fun huse => by
    rw [if_neg fun hturns => huse hturns.2, Nat.add_zero]
  cases s with
  | beat =>
      refine ⟨sets, Nat.le_succ_of_le h.now, h.deadline,
        fun hle => Nat.le_succ_of_le (h.expired hle), ?_⟩
      rw [if_neg fun hturns => nomatch hturns.1]
      exact hcount
  | rest =>
      refine ⟨sets, ?_⟩
      rw [if_neg fun hturns => nomatch hturns.1]
      exact h
  | go =>
      rcases go_cases p t with ⟨hleft, -, hstep⟩ | ⟨hleft, hexp, hstep⟩ | ⟨hleft, hstep⟩ |
        ⟨hleft, hexp, hstep⟩ | ⟨hleft, hexp, hstep⟩ | ⟨hleft, hne, hstep⟩
      · rw [hstep, hquiet (by simp [use_eq_turn_iff, hleft])]
        exact ⟨sets, h⟩
      · rw [hstep, hquiet (by simp [use_eq_turn_iff, hleft])]
        refine ⟨sets, h.of_step (fun _ => hexp) ?_⟩
        rw [served, if_neg (by simp)]
        exact Nat.le_trans (Nat.le_add_right ..) hcount
      · rw [hstep, hquiet (by simp [use_eq_turn_iff, hleft])]
        exact ⟨sets + 1, h.set hleft⟩
      · rw [hstep, hquiet (by simp [use_eq_turn_iff, hexp])]
        refine ⟨sets, h.of_step (fun _ => hexp) ?_⟩
        rw [served, if_neg (by simp)]
        exact Nat.le_trans (Nat.le_add_right ..) hcount
      · rw [hstep, if_pos ⟨rfl, use_eq_turn_iff.mpr ⟨hleft, hexp⟩⟩]
        refine ⟨sets, h.of_step (fun hle => absurd hle (by simp)) ?_⟩
        simpa [served, hleft] using hcount
      · rw [hstep, hquiet (by rw [Ne, use_eq_turn_iff]; omega)]
        refine ⟨sets, h.of_step (fun hle => h.expired (by omega)) ?_⟩
        simp only [served] at hcount ⊢
        split at hcount <;> split <;> omega

theorem Paced.run (h : Paced p start sets count t) (signals : List Signal) :
    ∃ sets', Paced p start sets' (count + turns p t signals) (run p t signals) := by
  induction signals generalizing t sets count with
  | nil => exact ⟨sets, h⟩
  | cons s signals ih =>
      obtain ⟨sets₁, h₁⟩ := h.step s
      obtain ⟨sets', h'⟩ := ih h₁
      exact ⟨sets', by rw [turns, ← Nat.add_assoc]; exact h'⟩

/-- The clock counts beats and nothing else. -/
theorem now_step (p : Pace) (t : Ticker) (s : Signal) :
    (t.step p s).now = t.now + if s = .beat then 1 else 0 := by
  cases s with
  | beat => rfl
  | rest => rfl
  | go =>
      rcases go_cases p t with ⟨-, -, hstep⟩ | ⟨-, -, hstep⟩ | ⟨-, hstep⟩ | ⟨-, -, hstep⟩ |
        ⟨-, -, hstep⟩ | ⟨-, -, hstep⟩ <;> rw [hstep] <;> rfl

theorem now_run (p : Pace) (t : Ticker) (signals : List Signal) :
    (t.run p signals).now = t.now + signals.count .beat := by
  induction signals generalizing t with
  | nil => rfl
  | cons s signals ih =>
      rw [run, List.foldl_cons]
      refine (ih (t.step p s)).trans ?_
      rw [now_step, List.count_cons]
      by_cases hs : s = .beat
      · simp [hs]
        omega
      · simp [hs]

/-- **Not more than once a period**: a timer that has just been set lets the
handler end once for every period that has passed at most. -/
theorem turns_paced (hleft : t.left = 0) (hset : t.now + p.period ≤ t.deadline)
    (signals : List Signal) : p.period * turns p t signals ≤ signals.count .beat := by
  have hstart : Paced p t.now 0 0 t := by
    refine ⟨Nat.le_refl _, by simpa using hset, fun hle => absurd hle (by omega), ?_⟩
    rw [served, if_neg (by omega)]
  obtain ⟨sets, h⟩ := hstart.run signals
  have hnow := h.now
  rw [now_run] at hnow
  have hcount : turns p t signals ≤ sets := by
    have hle := h.count
    omega
  exact Nat.le_trans (Nat.mul_le_mul_left _ hcount) (Nat.le_of_add_le_add_left hnow)

/-! ## No period at all -/

theorem Expired.use_eq_handler (h : t.Expired) : t.use = .handler := by
  cases huse : t.use with
  | work => exact absurd h (use_eq_work_iff.mp huse).2
  | handler => rfl
  | turn => exact absurd h (use_eq_turn_iff.mp huse).2

/-- Without a period the timer has always expired. -/
theorem Expired.step (h : t.Expired) (hperiod : p.period = 0) (s : Signal) :
    (t.step p s).Expired := by
  cases s with
  | beat => exact Nat.le_succ_of_le h
  | rest => exact h
  | go =>
      rcases go_cases p t with ⟨-, -, hstep⟩ | ⟨-, -, hstep⟩ | ⟨-, hstep⟩ | ⟨-, -, hstep⟩ |
        ⟨-, -, hstep⟩ | ⟨-, -, hstep⟩
      · rw [hstep]
        exact h
      · rw [hstep]
        exact h
      · rw [hstep]
        exact Nat.le_of_eq (by rw [hperiod, Nat.add_zero])
      · rw [hstep]
        exact h
      · rw [hstep]
        exact h
      · rw [hstep]
        exact h

/-- Then the CPU never leaves the handler. -/
theorem Expired.left_step (h : t.Expired) {s : Signal} (hs : t.left ≠ 0 ∨ s = .go) :
    (t.step p s).left ≠ 0 := by
  by_cases hgo : s = .go
  · subst hgo
    rcases go_cases p t with ⟨-, hnot, -⟩ | ⟨-, -, hstep⟩ | ⟨-, hstep⟩ | ⟨-, -, hstep⟩ |
      ⟨-, hnot, -⟩ | ⟨htwo, -, hstep⟩
    · exact absurd h hnot
    · rw [hstep]
      exact Nat.succ_ne_zero _
    · rw [hstep]
      exact Nat.succ_ne_zero _
    · rw [hstep]
      exact Nat.succ_ne_zero _
    · exact absurd h hnot
    · rw [hstep]
      exact Nat.sub_ne_zero_of_lt htwo
  · rw [(step_of_ne_go hgo).1]
    exact hs.resolve_right hgo

/-! ## Once in a while -/

/-- How often a signal has been given before an instant. -/
def given (schedule : Nat → Signal) (s : Signal) (n : Nat) : Nat :=
  Nat.count (fun i => schedule i = s) n

/-- The CPU takes so many steps in a period. -/
def Often (period steps : Nat) (schedule : Nat → Signal) : Prop :=
  ∀ n m, n ≤ m → given schedule .beat n + period ≤ given schedule .beat m →
    given schedule .go n + steps ≤ given schedule .go m

/-- In a period the CPU takes the steps from setting the timer to the end of
the handler, and one more. -/
def Fast (p : Pace) (schedule : Nat → Signal) : Prop := Often p.period (p.after + 2) schedule

theorem given_succ (schedule : Nat → Signal) (s : Signal) (n : Nat) :
    given schedule s (n + 1) = given schedule s n + if schedule n = s then 1 else 0 :=
  Nat.count_succ _ n

theorem given_congr {raw schedule : Nat → Signal} {s : Signal}
    (h : ∀ n, raw n = s ↔ schedule n = s) (n : Nat) : given raw s n = given schedule s n := by
  induction n with
  | zero => rfl
  | succ n ih => rw [given_succ, given_succ, ih, if_congr (h n) rfl rfl]

/-- **Steps spent elsewhere**: a CPU that can spend up to `k` steps on something
else after each step, `left` of them now, still takes a step in `k + 1`. -/
theorem Often.thin {period steps k : Nat} {raw schedule : Nat → Signal} {left : Nat → Nat}
    (hraw : Often period ((k + 1) * steps) raw) (hbeat : ∀ n, raw n = .beat ↔ schedule n = .beat)
    (hleft : ∀ n, left n ≤ k)
    (hspend : ∀ n, (if raw n = .go then 1 else 0) + left (n + 1) ≤
      left n + (k + 1) * if schedule n = .go then 1 else 0) : Often period steps schedule := by
  intro n m hnm hperiod
  have hspent : given raw .go m + left m + (k + 1) * given schedule .go n ≤
      given raw .go n + left n + (k + 1) * given schedule .go m := by
    clear hperiod
    induction m, hnm using Nat.le_induction with
    | base => exact Nat.le_refl _
    | succ m _ ih =>
        have hstep := hspend m
        rw [given_succ, given_succ, Nat.mul_add]
        omega
  rw [← given_congr hbeat, ← given_congr hbeat] at hperiod
  have hmany := hraw n m hnm hperiod
  have hle := hleft n
  have hlt : (k + 1) * (given schedule .go n + steps) < (k + 1) * (given schedule .go m + 1) := by
    rw [Nat.mul_add, Nat.mul_succ]
    omega
  have hsucc := Nat.lt_of_mul_lt_mul_left hlt
  omega

variable {schedule : Nat → Signal} {n m : Nat}

theorem now_runOf (n : Nat) :
    (runOf (step p) schedule t n).now = t.now + given schedule .beat n := by
  induction n with
  | zero => rfl
  | succ n ih => rw [runOf_succ, now_step, ih, given_succ, Nat.add_assoc]

/-- The CPU has taken `steps` steps since the timer was set. -/
def SetAgo (p : Pace) (schedule : Nat → Signal) (t : Ticker) (steps n : Nat) : Prop :=
  ∃ i ≤ n, (runOf (step p) schedule t n).deadline =
      t.now + given schedule .beat i + p.period ∧
    given schedule .go n = given schedule .go i + steps

/-- On a fast CPU the timer does not expire so soon. -/
theorem SetAgo.not_expired {steps : Nat} (h : SetAgo p schedule t steps n)
    (hfast : Fast p schedule) (hsteps : steps ≤ p.after + 1) :
    ¬ (runOf (step p) schedule t n).Expired := by
  obtain ⟨i, hi, hdeadline, hgo⟩ := h
  intro hexp
  rw [Expired, hdeadline, now_runOf] at hexp
  have hle := hfast i n hi (by omega)
  omega

/-- A step of the CPU that leaves the deadline. -/
theorem SetAgo.succ {steps : Nat} (h : SetAgo p schedule t steps n)
    (hdeadline : (runOf (step p) schedule t (n + 1)).deadline =
      (runOf (step p) schedule t n).deadline) :
    SetAgo p schedule t (steps + if schedule n = .go then 1 else 0) (n + 1) := by
  obtain ⟨i, hi, hset, hgo⟩ := h
  exact ⟨i, Nat.le_succ_of_le hi, hdeadline.trans hset, by rw [given_succ, hgo, Nat.add_assoc]⟩

/-- From setting the timer to the end of the handler, `left` tells how long ago
that was. -/
theorem setAgo_of_left (hleft : t.left = 0) (n : Nat) :
    1 ≤ (runOf (step p) schedule t n).left → (runOf (step p) schedule t n).left ≤ p.after + 1 →
      SetAgo p schedule t (p.after + 1 - (runOf (step p) schedule t n).left) n := by
  induction n with
  | zero =>
      intro hpos
      rw [runOf_zero, hleft] at hpos
      cases hpos
  | succ n ih =>
      intro hpos hle
      by_cases hs : schedule n = .go
      · rw [runOf_succ, hs] at hpos hle
        rcases go_cases p (runOf (step p) schedule t n) with ⟨hold, -, hstep⟩ | ⟨-, -, hstep⟩ |
          ⟨-, hstep⟩ | ⟨-, -, hstep⟩ | ⟨-, -, hstep⟩ | ⟨htwo, hne, hstep⟩
        · rw [hstep, hold] at hpos
          cases hpos
        · rw [hstep] at hle
          exact absurd hle (by simp)
        · -- the timer has just been set
          refine ⟨n + 1, Nat.le_refl _, ?_, ?_⟩
          · rw [runOf_succ, hs, hstep, given_succ, hs, now_runOf]
            simp
          · rw [runOf_succ, hs, hstep]
            simp
        · rw [hstep] at hle
          exact absurd hle (by simp)
        · rw [hstep] at hpos
          cases hpos
        · rw [hstep] at hle
          have hlast : (runOf (step p) schedule t n).left - 1 ≤ p.after + 1 := hle
          have hago := (ih (by omega) (by omega)).succ (by rw [runOf_succ, hs, hstep])
          have hsteps : p.after + 1 - ((runOf (step p) schedule t n).left - 1) =
              p.after + 1 - (runOf (step p) schedule t n).left + 1 := by omega
          rw [if_pos hs] at hago
          rwa [runOf_succ, hs, hstep, hsteps]
      · obtain ⟨hleft', hdeadline⟩ := step_of_ne_go (p := p) (t := runOf (step p) schedule t n) hs
        rw [runOf_succ, hleft'] at hpos hle ⊢
        have hago := (ih hpos hle).succ hdeadline
        rwa [if_neg hs] at hago

/-- Without a step of the CPU the handler does not go on. -/
theorem left_of_quiet (hnm : n ≤ m) (hquiet : ∀ i, n ≤ i → i < m → schedule i ≠ .go) :
    (runOf (step p) schedule t m).left = (runOf (step p) schedule t n).left ∧
      ∀ steps, SetAgo p schedule t steps n → SetAgo p schedule t steps m := by
  induction m, hnm using Nat.le_induction with
  | base => exact ⟨rfl, fun _ h => h⟩
  | succ m hnm ih =>
      have hne := hquiet m hnm (Nat.lt_succ_self m)
      obtain ⟨hleft, hago⟩ := ih fun i hi him => hquiet i hi (Nat.lt_succ_of_lt him)
      obtain ⟨hleft', hdeadline⟩ := step_of_ne_go (p := p) (t := runOf (step p) schedule t m) hne
      refine ⟨hleft'.trans hleft, fun steps h => ?_⟩
      have hsucc := (hago steps h).succ hdeadline
      rwa [if_neg hne] at hsucc

/-- A fast CPU takes steps as long as the clock runs. -/
theorem Fast.go_recurs (hfast : Fast p schedule) (hbeat : Recurs schedule .beat) :
    Recurs schedule .go := by
  intro n
  have hmany : ∀ k, ∃ m ≥ n, given schedule .beat n + k ≤ given schedule .beat m := by
    intro k
    induction k with
    | zero => exact ⟨n, Nat.le_refl n, Nat.le_refl _⟩
    | succ k ih =>
        obtain ⟨m, hm, hk⟩ := ih
        obtain ⟨m', hm', hs⟩ := hbeat m
        refine ⟨m' + 1, by omega, ?_⟩
        have hmono : given schedule .beat m ≤ given schedule .beat m' := Nat.count_monotone _ hm'
        rw [given_succ, if_pos hs]
        omega
  obtain ⟨m, hm, hperiod⟩ := hmany p.period
  obtain ⟨i, hi, hs⟩ := Nat.exists_of_count_lt_count (p := fun i => schedule i = .go)
    (show given schedule .go n < given schedule .go m from
      Nat.lt_of_lt_of_le (by omega) (hfast n m hm hperiod))
  exact ⟨i, hi.1, hs⟩

/-- The end of the handler, on a fast CPU. -/
theorem setAgo_of_turn (hleft : t.left = 0) (hs : schedule n = .go)
    (hturn : (runOf (step p) schedule t n).use = .turn) :
    (runOf (step p) schedule t (n + 1)).left = 0 ∧ SetAgo p schedule t (p.after + 1) (n + 1) := by
  obtain ⟨hone, hexp⟩ := use_eq_turn_iff.mp hturn
  have hstep : (runOf (step p) schedule t n).step p .go =
      { runOf (step p) schedule t n with left := 0 } := by
    rw [go_of_left_one hone, if_neg hexp]
  have hago : SetAgo p schedule t _ n := setAgo_of_left hleft n (by omega) (by omega)
  have hnext := hago.succ (by rw [runOf_succ, hs, hstep])
  rw [if_pos hs, hone, Nat.add_sub_cancel] at hnext
  exact ⟨by rw [runOf_succ, hs, hstep], hnext⟩

/-- **Time for work**: after the handler has ended, the next step of a fast CPU
is one of work. -/
theorem Fast.work_after_turn (hfast : Fast p schedule) (hgo : Recurs schedule .go)
    (hleft : t.left = 0) (hs : schedule n = .go)
    (hturn : (runOf (step p) schedule t n).use = .turn) :
    ∃ m > n, schedule m = .go ∧ (runOf (step p) schedule t m).use = .work ∧
      ∀ i, n < i → i < m → schedule i ≠ .go := by
  obtain ⟨hzero, hago⟩ := setAgo_of_turn hleft hs hturn
  obtain ⟨m, hm, hgo', hquiet⟩ := hgo.exists_next (n + 1)
  obtain ⟨hleft', hkeep⟩ := left_of_quiet (p := p) (t := t) hm hquiet
  refine ⟨m, hm, hgo', use_eq_work_iff.mpr ⟨hleft'.trans hzero, ?_⟩, hquiet⟩
  exact (hkeep _ hago).not_expired hfast (Nat.le_refl _)

/-- In the handler, a fast CPU comes to its end. -/
theorem Fast.turn_of_left (hfast : Fast p schedule) (hgo : Recurs schedule .go)
    (hleft : t.left = 0) {k : Nat} (hk : (runOf (step p) schedule t n).left = k + 1) :
    ∃ m ≥ n, schedule m = .go ∧ (runOf (step p) schedule t m).use = .turn := by
  induction k generalizing n with
  | zero =>
      obtain ⟨m, hm, hs, hquiet⟩ := hgo.exists_next n
      obtain ⟨hleft', -⟩ := left_of_quiet (p := p) (t := t) hm hquiet
      refine ⟨m, hm, hs, use_eq_turn_iff.mpr ⟨hleft'.trans hk, ?_⟩⟩
      exact (setAgo_of_left hleft m (by omega) (by omega)).not_expired hfast (by omega)
  | succ k ih =>
      obtain ⟨m, hm, hs, hquiet⟩ := hgo.exists_next n
      obtain ⟨hleft', -⟩ := left_of_quiet (p := p) (t := t) hm hquiet
      have hnext : (runOf (step p) schedule t (m + 1)).left = k + 1 := by
        rw [runOf_succ, hs]
        exact left_go (hleft'.trans hk)
      obtain ⟨m', hm', hturn⟩ := ih hnext
      exact ⟨m', by omega, hturn⟩

/-- The handler is entered again and again. -/
theorem enters (hgo : Recurs schedule .go) (hbeat : Recurs schedule .beat) :
    LeadsTo (runOf (step p) schedule t) (fun t => t.left = 0) fun t => t.left ≠ 0 := by
  refine LeadsTo.of_rank (fun t => t.deadline - t.now) fun k => ?_
  have hgo' : ∀ t : Ticker, t.left = 0 ∧ t.deadline - t.now = k →
      (t.step p .go).left = 0 ∧ (t.step p .go).deadline - (t.step p .go).now = k ∨
        (t.step p .go).left ≠ 0 := by
    rintro t ⟨hleft, hk⟩
    rw [go_of_left_zero hleft]
    by_cases hexp : t.Expired
    · rw [if_pos hexp]
      exact .inr (Nat.succ_ne_zero _)
    · rw [if_neg hexp]
      exact .inl ⟨hleft, hk⟩
  cases k with
  | zero =>
      refine LeadsTo.of_event (e := .go) (fun n _ => hgo n) ?_ ?_
      · rintro t (_ | _ | _) ⟨hleft, hk⟩
        · exact .inl ⟨hleft, Nat.sub_eq_zero_of_le (Nat.le_succ_of_le (Nat.le_of_sub_eq_zero hk))⟩
        · exact (hgo' t ⟨hleft, hk⟩).imp_right .inl
        · exact .inl ⟨hleft, hk⟩
      · rintro t ⟨hleft, hk⟩
        have hexp : t.Expired := Nat.le_of_sub_eq_zero hk
        rw [go_of_left_zero hleft, if_pos hexp]
        exact .inl (Nat.succ_ne_zero _)
  | succ k =>
      refine LeadsTo.of_event (e := .beat) (fun n _ => hbeat n) ?_ ?_
      · rintro t (_ | _ | _) ⟨hleft, hk⟩
        · exact .inr (.inr ⟨hleft, by simp only [step]; omega⟩)
        · exact (hgo' t ⟨hleft, hk⟩).imp_right .inl
        · exact .inl ⟨hleft, hk⟩
      · rintro t ⟨hleft, hk⟩
        exact .inr ⟨hleft, by simp only [step]; omega⟩

/-- **Once in a while** the handler ends, on a fast CPU. -/
theorem Fast.turn_recurs (hfast : Fast p schedule) (hbeat : Recurs schedule .beat)
    (hleft : t.left = 0) (n : Nat) :
    ∃ m ≥ n, schedule m = .go ∧ (runOf (step p) schedule t m).use = .turn := by
  have hgo := hfast.go_recurs hbeat
  have hin : ∃ m ≥ n, (runOf (step p) schedule t m).left ≠ 0 := by
    by_cases hzero : (runOf (step p) schedule t n).left = 0
    · exact enters hgo hbeat n hzero
    · exact ⟨n, Nat.le_refl n, hzero⟩
  obtain ⟨m, hm, hne⟩ := hin
  obtain ⟨k, hk⟩ := Nat.exists_eq_succ_of_ne_zero hne
  obtain ⟨m', hm', hturn⟩ := hfast.turn_of_left hgo hleft hk
  exact ⟨m', by omega, hturn⟩

end Ticker

end TeachingOs
