import Mathlib.Data.Nat.Digits.Lemmas

/-!
The digits of a number as a text shows them: at least one, and no zero in
front of others.
-/

namespace CFunc.Lib

/-- `ds` are the digits of `n` in base `b`, the least first. -/
structure Numeral (b n : Nat) (ds : List Nat) : Prop where
  nonempty : ds ≠ []
  small : ∀ d ∈ ds, d < b
  value : Nat.ofDigits b ds = n
  leading : ds.getLast? = some 0 → ds = [0]

/-- The digits that a number has. -/
def numeral (b n : Nat) : List Nat := if n = 0 then [0] else b.digits n

variable {b n n' : Nat} {ds ds' : List Nat}

theorem numeral_zero (b : Nat) : numeral b 0 = [0] := if_pos rfl

theorem numeral_of_ne_zero (b : Nat) (positive : n ≠ 0) : numeral b n = b.digits n :=
  if_neg positive

theorem numeral_spec (base : 1 < b) (n : Nat) : Numeral b n (numeral b n) := by
  by_cases zero : n = 0
  · subst zero
    rw [numeral_zero]
    constructor
    case nonempty => exact List.cons_ne_nil 0 []
    case small =>
      intro d member
      rw [List.mem_singleton.mp member]
      exact Nat.zero_lt_of_lt base
    case value => exact Nat.ofDigits_singleton
    case leading => exact fun _ => rfl
  · rw [numeral_of_ne_zero b zero]
    constructor
    case nonempty => exact Nat.digits_ne_nil_iff_ne_zero.mpr zero
    case small => exact fun d member => Nat.digits_lt_base base member
    case value => exact Nat.ofDigits_digits b n
    case leading =>
      intro last
      have some_digit : b.digits n ≠ [] := Nat.digits_ne_nil_iff_ne_zero.mpr zero
      have ends := List.getLast?_eq_some_getLast some_digit
      rw [last] at ends
      exact absurd (Option.some.inj ends).symm (Nat.getLast_digit_ne_zero b zero)

/-- A number has one numeral. -/
theorem Numeral.eq (base : 1 < b) (shown : Numeral b n ds) : ds = numeral b n := by
  by_cases last : ds.getLast? = some 0
  · obtain rfl := shown.leading last
    have zero : n = 0 := by rw [← shown.value, Nat.ofDigits_singleton]
    rw [zero, numeral_zero]
  · have distinct (some_digit : ds ≠ []) : ds.getLast some_digit ≠ 0 := by
      intro zero
      exact last (by rw [List.getLast?_eq_some_getLast some_digit, zero])
    have digits := Nat.digits_ofDigits b base ds shown.small distinct
    rw [shown.value] at digits
    have positive : n ≠ 0 := by
      rintro rfl
      rw [Nat.digits_zero] at digits
      exact shown.nonempty digits.symm
    rw [numeral_of_ne_zero b positive, digits]

theorem numeral_length_le (base : 1 < b) {k : Nat} (some_room : 0 < k) (fits : n < b ^ k) :
    (numeral b n).length ≤ k := by
  by_cases zero : n = 0
  · rw [zero, numeral_zero]
    exact some_room
  · rw [numeral_of_ne_zero b zero, Nat.digits_length_le_iff base]
    exact fits

/-- Zeros in front do not change what is read. -/
theorem Numeral.value_eq (shown : Numeral b n ds) (shown' : Numeral b n' ds') {k k' : Nat}
    (same : ds ++ List.replicate k 0 = ds' ++ List.replicate k' 0) : n = n' := by
  rw [← shown.value, ← shown'.value, ← Nat.ofDigits_append_replicate_zero (k := k) ds, same,
    Nat.ofDigits_append_replicate_zero]

end CFunc.Lib
