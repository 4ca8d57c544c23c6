import CFunc.Lib.Byte
import Mathlib.Data.Int.Order.Basic

/-!
The part of C's meaning that several models share: 32-bit `int` addition, which
has no value when the sum does not fit, and stores into a sequence, which have
no meaning past its end. Both are partial functions, so a program that runs
into either has no result in its model.
-/

namespace CFunc

/-- The largest `int`. -/
def INT_MAX : Int := 2147483647

/-- The least `int`. -/
def INT_MIN : Int := -2147483648

/-- An `int` by its bits, for values that are compared, masked or counted up. -/
abbrev CInt := BitVec 32

/-- A plain `char` as an `int`; whether it has a sign is left to the implementation. -/
def widen (signed : Bool) (c : Byte) : CInt := if signed then c.signExtend 32 else c.setWidth 32

/-- `a + b` at type `int`; signed overflow has no value. -/
def addInt (a b : Int) : Option Int :=
  if INT_MIN ≤ a + b ∧ a + b ≤ INT_MAX then some (a + b) else none

/-- `a * b` at type `int`; signed overflow has no value. -/
def mulInt (a b : Int) : Option Int :=
  if INT_MIN ≤ a * b ∧ a * b ≤ INT_MAX then some (a * b) else none

/-- `xs[i] = x` on a vector or an array. -/
def store {α : Type} (xs : List α) (i : Nat) (x : α) : Option (List α) :=
  if i < xs.length then some (xs.set i x) else none

theorem addInt_eq_some {a b : Int} (lower : INT_MIN ≤ a + b) (upper : a + b ≤ INT_MAX) :
    addInt a b = some (a + b) := by
  simp [addInt, lower, upper]

theorem mulInt_eq_some {a b : Int} (lower : INT_MIN ≤ a * b) (upper : a * b ≤ INT_MAX) :
    mulInt a b = some (a * b) := by
  simp [mulInt, lower, upper]

theorem store_eq_some {α : Type} {xs : List α} {i : Nat} (x : α) (inside : i < xs.length) :
    store xs i x = some (xs.set i x) := by
  simp [store, inside]

end CFunc
