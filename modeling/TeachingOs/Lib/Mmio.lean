import Mathlib.Logic.Function.Basic
import TeachingOs.Lib.Fair

/-!
# TeachingOs.Lib.Mmio

Drivers as programs of register accesses, for any type of register addresses
and values.  `Mmio.exec` runs one program on a device by itself, and
`Machine.step` lets several programs share a device that also takes steps of
its own.
-/

namespace TeachingOs

/-- A program's register accesses, in order.  `await reg ready` is the loop
that reads `reg` until the value is `ready`. -/
inductive Mmio (A V α : Type) where
  | ret (a : α)
  | read (reg : A) (k : V → Mmio A V α)
  | write (reg : A) (val : V) (k : Mmio A V α)
  | await (reg : A) (ready : V → Bool) (k : Mmio A V α)

/-- What a device does on a read, on a write, and by itself. -/
structure Bus (A V σ : Type) where
  read : A → σ → V × σ
  write : A → V → σ → σ
  tick : σ → σ

/-- Registers that hold what was written last. -/
def Bus.registers (A V : Type) [DecidableEq A] : Bus A V (A → V) where
  read reg m := (m reg, m)
  write reg val m := Function.update m reg val
  tick m := m

namespace Mmio

variable {A V σ α β T : Type}

/-- One program after another. -/
def bind : Mmio A V α → (α → Mmio A V β) → Mmio A V β
  | ret a, f => f a
  | read reg k, f => read reg fun v => (k v).bind f
  | write reg val k, f => write reg val (k.bind f)
  | await reg ready k, f => await reg ready (k.bind f)

instance : Monad (Mmio A V) where
  pure := ret
  bind := bind

@[simp] theorem pure_eq (a : α) : (pure a : Mmio A V α) = ret a := rfl

@[simp] theorem ret_bind (a : α) (f : α → Mmio A V β) : ret a >>= f = f a := rfl

@[simp] theorem read_bind (reg : A) (k : V → Mmio A V α) (f : α → Mmio A V β) :
    read reg k >>= f = read reg fun v => k v >>= f := rfl

@[simp] theorem write_bind (reg : A) (val : V) (k : Mmio A V α) (f : α → Mmio A V β) :
    write reg val k >>= f = write reg val (k >>= f) := rfl

@[simp] theorem await_bind (reg : A) (ready : V → Bool) (k : Mmio A V α) (f : α → Mmio A V β) :
    await reg ready k >>= f = await reg ready (k >>= f) := rfl

/-! ## A program by itself -/

variable {bus : Bus A V σ}

/-- The whole program; `none` where a loop would wait. -/
def exec (bus : Bus A V σ) : Mmio A V α → σ → Option (α × σ)
  | ret a, s => some (a, s)
  | read reg k, s => (k (bus.read reg s).1).exec bus (bus.read reg s).2
  | write reg val k, s => k.exec bus (bus.write reg val s)
  | await reg ready k, s =>
      if ready (bus.read reg s).1 then k.exec bus (bus.read reg s).2 else none

theorem exec_bind (x : Mmio A V α) (f : α → Mmio A V β) (s : σ) :
    (x >>= f).exec bus s = (x.exec bus s).bind fun r => (f r.1).exec bus r.2 := by
  induction x generalizing s with
  | ret a => rfl
  | read reg k ih => exact ih _ _
  | write reg val k ih => exact ih _
  | await reg ready k ih =>
      rw [await_bind, exec, exec]
      split
      · exact ih _
      · rfl

/-- The program accesses registers of `R` only. -/
def Within (R : A → Prop) : Mmio A V α → Prop
  | ret _ => True
  | read reg k => R reg ∧ ∀ v, (k v).Within R
  | write reg _ k => R reg ∧ k.Within R
  | await reg _ k => R reg ∧ k.Within R

theorem Within.bind {R : A → Prop} {x : Mmio A V α} {f : α → Mmio A V β} (hx : x.Within R)
    (hf : ∀ a, (f a).Within R) : (x >>= f).Within R := by
  induction x with
  | ret a => exact hf a
  | read reg k ih => exact ⟨hx.1, fun v => ih v (hx.2 v)⟩
  | write reg val k ih => exact ⟨hx.1, ih hx.2⟩
  | await reg ready k ih => exact ⟨hx.1, ih hx.2⟩

/-- **Plain registers**: a program that accesses only registers of a device
that hold what was written runs as on registers alone. -/
theorem exec_within [DecidableEq A] {R : A → Prop} {x : Mmio A V α} (put : (A → V) → σ)
    (hx : x.Within R) (hread : ∀ reg m, R reg → bus.read reg (put m) = (m reg, put m))
    (hwrite : ∀ reg val m, R reg → bus.write reg val (put m) = put (Function.update m reg val))
    (m : A → V) :
    x.exec bus (put m) = (x.exec (.registers A V) m).map fun r => (r.1, put r.2) := by
  induction x generalizing m with
  | ret a => rfl
  | read reg k ih =>
      rw [exec, hread reg m hx.1, ih _ (hx.2 _)]
      rfl
  | write reg val k ih =>
      rw [exec, hwrite reg val m hx.1, ih hx.2]
      rfl
  | await reg ready k ih =>
      rw [exec, exec, hread reg m hx.1, show (Bus.registers A V).read reg m = (m reg, m) from rfl]
      split
      · exact ih hx.2 m
      · rfl

/-! ## Programs that share a device -/

/-- The next access of a program. -/
def next (bus : Bus A V σ) : Mmio A V α → σ → Mmio A V α × σ
  | ret a, s => (ret a, s)
  | read reg k, s => (k (bus.read reg s).1, (bus.read reg s).2)
  | write reg val k, s => (k, bus.write reg val s)
  | await reg ready k, s =>
      (if ready (bus.read reg s).1 then k else await reg ready k, (bus.read reg s).2)

/-- The device, and what is left of every program. -/
structure Machine (T A V σ : Type) where
  prog : T → Mmio A V Unit
  dev : σ

variable [DecidableEq T]

/-- A program makes its next access, or the device takes a step. -/
def Machine.step (bus : Bus A V σ) (m : Machine T A V σ) : Turn T → Machine T A V σ
  | .run t =>
      { prog := Function.update m.prog t ((m.prog t).next bus m.dev).1
        dev := ((m.prog t).next bus m.dev).2 }
  | .tick => { m with dev := bus.tick m.dev }
  | .idle => m

/-- A run of the machine. -/
def Machine.run (bus : Bus A V σ) (m : Machine T A V σ) (turns : List (Turn T)) : Machine T A V σ :=
  turns.foldl (Machine.step bus) m

end Mmio

end TeachingOs
