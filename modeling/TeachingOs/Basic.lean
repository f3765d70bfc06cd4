import Mathlib.Algebra.Ring.Nat

/-!
# TeachingOs.Basic

What every kernel module shares: the machine word of the AArch64 target and
the ways a call can end in `panic`.
-/

namespace TeachingOs

/-- `uint64_t`, `size_t` and `uintptr_t` of the AArch64 target. -/
abbrev Word := BitVec 64

/-- How a call ends in `panic`: with a message of its own, or through a
failed `assert`, which names the enclosing function and the condition. -/
inductive Panic where
  | message (fmt : String)
  | assertion (func condition : String)
deriving DecidableEq, Repr

/-- `assert(condition)` of `kern/lib.h`. -/
def assert (func condition : String) (p : Prop) [Decidable p] : Except Panic Unit :=
  if p then .ok () else .error (.assertion func condition)

@[simp] theorem assert_of_true {func condition : String} {p : Prop} [Decidable p] (h : p) :
    assert func condition p = .ok () := if_pos h

@[simp] theorem assert_of_false {func condition : String} {p : Prop} [Decidable p] (h : ¬ p) :
    assert func condition p = .error (.assertion func condition) := if_neg h

end TeachingOs
