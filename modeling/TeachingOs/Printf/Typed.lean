import TeachingOs.Printf.Step

/-!
# TeachingOs.Printf.Typed

Calls that C allows: the arguments are of the types that the format asks for,
and the strings hold no NUL.  Such a call runs to its end, and no NUL is
among the characters it prints.
-/

namespace TeachingOs.Printf

open Transducer

/-- The arguments have the types that the conversions of `fmt` read, inside a
format or not; more arguments may follow. -/
def WellTyped : Bool → List Char → List Arg → Bool
  | _, [], _ => true
  | false, c :: fmt, args => WellTyped (c = '%') fmt args
  | true, c :: fmt, args =>
      if isConversion c then
        match args with
        | [] => false
        | a :: args => a.accepts c && WellTyped false fmt args
      else WellTyped true fmt args

theorem wellTyped_of_not_conversion {c : Char} {fmt : List Char} {args : List Arg}
    (hc : isConversion c = false) :
    WellTyped true (c :: fmt) args = WellTyped true fmt args := by
  simp [WellTyped, hc]

/-- The runner can read the rest of the format, and none of the strings it
may meet has a NUL. -/
structure Ready (pr : PrintfRunner) (fmt : List Char) : Prop where
  typed : WellTyped pr.inFmt fmt pr.va = true
  fmt : '\x00' ∉ fmt
  va : ∀ a ∈ pr.va, a.count '\x00' = 0

variable {pr : PrintfRunner} {fmt : List Char} {c : Char}

/-- A conversion finds its argument and prints what the argument has. -/
theorem Ready.convert (h : Ready pr (c :: fmt)) (hfmt : pr.inFmt = true)
    (hc : isConversion c = true) :
    ∃ pr' out, convert pr c = some (pr', out) ∧ Ready pr' fmt ∧ '\x00' ∉ out := by
  have htyped := h.typed
  have hva := h.va
  cases hargs : pr.va with
  | nil => simp [WellTyped, hfmt, hc, hargs] at htyped
  | cons a va =>
      rw [hargs, List.forall_mem_cons] at hva
      rw [hfmt, hargs, WellTyped, if_pos hc, Bool.and_eq_true] at htyped
      obtain ⟨haccepts, hrest⟩ := htyped
      obtain ⟨pr', out, hconvert, hfmt', hva', hcount⟩ :=
        convert_count (z := '\x00') (by decide) haccepts hargs
      have hready : Ready pr' fmt := by
        refine ⟨?_, List.not_mem_of_not_mem_cons h.fmt, ?_⟩
        · rw [hfmt', hva']
          exact hrest
        · rw [hva']
          exact hva.2
      exact ⟨pr', out, hconvert, hready, List.count_eq_zero.mp (hcount.trans hva.1)⟩

theorem Ready.step (h : Ready pr (c :: fmt)) :
    ∃ pr' out, printfStep pr c = some (pr', out) ∧ Ready pr' fmt ∧ '\x00' ∉ out := by
  have htyped := h.typed
  have hnul := h.fmt
  rw [List.mem_cons, not_or] at hnul
  have hprint : '\x00' ∉ [c] := fun hc => hnul.1 (List.mem_singleton.mp hc)
  cases hfmt : pr.inFmt with
  | false =>
      rw [hfmt, WellTyped] at htyped
      by_cases hc : c = '%'
      · subst hc
        exact ⟨_, _, printfStep_percent hfmt, ⟨htyped, hnul.2, h.va⟩, List.not_mem_nil⟩
      · have hrest : WellTyped pr.inFmt fmt pr.va = true := by simpa [hfmt, hc] using htyped
        exact ⟨_, _, printfStep_literal hfmt hc, ⟨hrest, hnul.2, h.va⟩, hprint⟩
  | true =>
      by_cases hc : isConversion c = true
      · rw [printfStep_conversion hfmt hc]
        exact h.convert hfmt hc
      · have hrest : WellTyped pr.inFmt fmt pr.va = true := by
          rw [hfmt] at htyped ⊢
          rwa [wellTyped_of_not_conversion (by simpa using hc)] at htyped
        by_cases ho : isOption c = true
        · refine ⟨_, _, printfStep_option hfmt ho, ⟨?_, hnul.2, ?_⟩, List.not_mem_nil⟩
          · rw [setOption_inFmt, setOption_va]
            exact hrest
          · rw [setOption_va]
            exact h.va
        · rw [Bool.not_eq_true] at hc ho
          exact ⟨_, _, printfStep_other hfmt ho hc, ⟨hrest, hnul.2, h.va⟩, hprint⟩

/-- **A well-typed call runs to its end** and prints no NUL. -/
theorem Ready.run (h : Ready pr fmt) :
    ∃ pr' out, run printfStep fmt pr = some (pr', out) ∧ '\x00' ∉ out := by
  induction fmt generalizing pr with
  | nil => exact ⟨pr, [], rfl, List.not_mem_nil⟩
  | cons c fmt ih =>
      obtain ⟨pr₁, out₁, hstep, hready, hfree₁⟩ := h.step
      obtain ⟨pr₂, out₂, hrun, hfree₂⟩ := ih hready
      refine ⟨pr₂, out₁ ++ out₂, ?_, ?_⟩
      · rw [run_cons hstep, hrun]
        rfl
      · rw [List.mem_append, not_or]
        exact ⟨hfree₁, hfree₂⟩

end TeachingOs.Printf
