import CFunc.Clibs.StringCompare
import Mathlib.Tactic.Ring

/-!
The comparisons of `clibs/string.c` up to case.

Both functions find the first characters that differ up to case. `strnicmp`
takes their difference as `unsigned char`; `strncasecmp` takes that of plain
`char`, and with a bound of 0 it goes on for `2 ^ 32` characters.
-/

namespace CFunc.Clibs.Strings

open CFunc.Lib

/-! ### Characters up to case -/

/-- The character that stands for both cases. -/
def lower (c : Byte) : Byte := if 65 ≤ c ∧ c ≤ 90 then c + 32 else c

theorem tolower_setWidth : ∀ c : Byte, tolower (c.setWidth 32) = (lower c).setWidth 32 := by
  decide +kernel

theorem tolower_signExtend : ∀ c : Byte, tolower (c.signExtend 32) = (lower c).signExtend 32 := by
  decide +kernel

theorem lower_eq_zero_iff : ∀ c : Byte, lower c = 0 ↔ c = 0 := by decide +kernel

theorem lower_lt_iff : ∀ c : Byte, (lower c).toNat < 128 ↔ c.toNat < 128 := by decide +kernel

theorem tolower_widen (signed : Bool) (c : Byte) :
    tolower (widen signed c) = widen signed (lower c) := by
  cases signed with
  | true => exact tolower_signExtend c
  | false => exact tolower_setWidth c

theorem widen_zero (signed : Bool) : widen signed 0 = 0 := by cases signed <;> rfl

/-- The value of a plain `char`. -/
def charValue (signed : Bool) (c : Byte) : Int := if signed then c.toInt else c.toNat

theorem toInt_widen (signed : Bool) (c : Byte) : (widen signed c).toInt = charValue signed c := by
  have bound := c.isLt
  cases signed with
  | true => exact BitVec.toInt_signExtend_of_le (by decide)
  | false =>
      rw [widen, charValue, BitVec.toInt_eq_toNat_cond]
      simp only [Bool.false_eq_true, if_false, BitVec.toNat_setWidth]
      omega

theorem charValue_bounds (signed : Bool) (c : Byte) :
    -128 ≤ charValue signed c ∧ charValue signed c < 256 := by
  have bound := c.isLt
  rw [charValue, BitVec.toInt_eq_toNat_cond]
  split
  · split
    · omega
    · omega
  · omega

/-- No difference of two characters leaves `int`. -/
theorem toInt_widen_sub (signed : Bool) (c d : Byte) :
    (widen signed c - widen signed d).toInt = charValue signed c - charValue signed d := by
  have bounds := charValue_bounds signed c
  have bounds' := charValue_bounds signed d
  rw [BitVec.toInt_sub, toInt_widen, toInt_widen]
  exact Int.bmod_eq_of_le (by omega) (by omega)

theorem charValue_inj {signed : Bool} {c d : Byte}
    (same : charValue signed c = charValue signed d) : c = d := by
  cases signed with
  | true => exact BitVec.eq_of_toInt_eq same
  | false => exact BitVec.eq_of_toNat_eq (Int.ofNat.inj same)

theorem charValue_eq_zero_iff {c : Byte} : charValue false c = 0 ↔ c = 0 :=
  ⟨fun zero => charValue_inj (zero.trans rfl), fun zero => zero ▸ rfl⟩

theorem charValue_pos {c : Byte} (some_char : c ≠ 0) : 0 < charValue false c := by
  have value := mt charValue_eq_zero_iff.mp some_char
  have low : 0 ≤ charValue false c := Int.natCast_nonneg _
  omega

theorem widen_inj {signed : Bool} {c d : Byte} (same : widen signed c = widen signed d) :
    c = d := by
  have value := congrArg BitVec.toInt same
  rw [toInt_widen, toInt_widen] at value
  exact charValue_inj value

/-- Two characters that differ are ordered alike as `unsigned char` and as plain `char` when both
are ASCII or neither is, and always where a plain `char` has no sign. -/
theorem charValue_lt_iff (signed : Bool) {c d : Byte} (other : c ≠ d) :
    (charValue signed c < charValue signed d ↔ charValue false c < charValue false d) ↔
      (signed = true → (c.toNat < 128 ↔ d.toNat < 128)) := by
  have bound := c.isLt
  have bound' := d.isLt
  have values : c.toNat ≠ d.toNat := fun equal => other (BitVec.eq_of_toNat_eq equal)
  cases signed with
  | true =>
      simp only [charValue, BitVec.toInt_eq_toNat_cond, if_true, Bool.false_eq_true, if_false,
        true_imp_iff]
      split
      · split
        · omega
        · omega
      · split
        · omega
        · omega
  | false => simp

/-! ### What the functions find -/

/-- `v` has the sign of the difference of `x` and `y`. -/
structure Signs (v x y : Int) : Prop where
  negative : v < 0 ↔ x < y
  positive : 0 < v ↔ y < x

theorem Signs.sub (x y : Int) : Signs (x - y) x y := ⟨by omega, by omega⟩

/-- Where a string ends, the case of the other character does not matter. -/
theorem signs_of_ended {c d : Byte} (ended : c = 0 ∨ d = 0) (other : lower c ≠ lower d) :
    Signs (charValue false c - charValue false d) (charValue false (lower c))
      (charValue false (lower d)) := by
  have zero : lower 0 = 0 := (lower_eq_zero_iff 0).mpr rfl
  have value : charValue false 0 = 0 := rfl
  rcases ended with rfl | rfl
  · rw [zero] at other
    have above := charValue_pos (mt (lower_eq_zero_iff d).mpr other.symm)
    have above' := charValue_pos other.symm
    rw [zero, value]
    constructor
    case negative => omega
    case positive => omega
  · rw [zero] at other
    have above := charValue_pos (mt (lower_eq_zero_iff c).mpr other)
    have above' := charValue_pos other
    rw [zero, value]
    constructor
    case negative => omega
    case positive => omega

section Folded

variable {a b : List Byte} {i n : Nat}

theorem getD_lower (a : List Byte) (i : Nat) : (a.map lower).getD i 0 = lower (a.getD i 0) := by
  have zero : lower 0 = 0 := (lower_eq_zero_iff 0).mpr rfl
  have mapped := List.getD_map a 0 lower (n := i)
  rwa [zero] at mapped

theorem not_mem_lower (free : 0 ∉ a) : 0 ∉ a.map lower := by
  intro member
  obtain ⟨c, listed, zero⟩ := List.mem_map.mp member
  rw [lower_eq_zero_iff] at zero
  exact free (zero ▸ listed)

/-- The first `n` characters are the same up to case. -/
def SameUpToCase (n : Nat) (a b : List Byte) : Prop := (a.take n).map lower = (b.take n).map lower

theorem sameUpToCase_iff (free : 0 ∉ a) (free' : 0 ∉ b) :
    SameUpToCase n a b ↔ ∀ i < n, (a.map lower).getD i 0 = (b.map lower).getD i 0 := by
  rw [SameUpToCase, List.map_take, List.map_take,
    agree_iff_take (not_mem_lower free) (not_mem_lower free')]

theorem lower_ne (differ : Differ 0 (a.map lower) (b.map lower) i) :
    lower (a.getD i 0) ≠ lower (b.getD i 0) := by
  rw [← getD_lower, ← getD_lower]
  exact differ.ne

/-- Before the characters that differ neither string is over. -/
theorem lower_ne_zero (differ : Differ 0 (a.map lower) (b.map lower) (i + 1))
    (free : 0 ∉ a) (free' : 0 ∉ b) : lower (a.getD 0 0) ≠ 0 := by
  rw [← getD_lower]
  exact differ.ne_terminator (not_mem_lower free) (not_mem_lower free') (Nat.succ_pos i)

theorem lower_same (differ : Differ 0 (a.map lower) (b.map lower) (i + 1)) :
    lower (a.getD 0 0) = lower (b.getD 0 0) := by
  rw [← getD_lower, ← getD_lower]
  exact differ.same 0 (Nat.succ_pos i)

theorem lower_tail (differ : Differ 0 (a.map lower) (b.map lower) (i + 1)) :
    Differ 0 (a.tail.map lower) (b.tail.map lower) i := by
  rw [List.map_tail, List.map_tail]
  exact differ.tail

theorem lower_agree_tail
    (agree : ∀ i < n + 1, (a.map lower).getD i 0 = (b.map lower).getD i 0) :
    ∀ i < n, (a.tail.map lower).getD i 0 = (b.tail.map lower).getD i 0 := by
  rw [List.map_tail, List.map_tail]
  exact agree_tail agree

end Folded

section Strnicmp

variable {a b : List Byte} {i n : Nat}

theorem strnicmp_succ (n : Nat) (a b : List Byte) :
    strnicmp (n + 1) a b =
      if a.getD 0 0 = 0 ∨ b.getD 0 0 = 0 then
        widen false (a.getD 0 0) - widen false (b.getD 0 0)
      else if lower (a.getD 0 0) ≠ lower (b.getD 0 0) then
        widen false (lower (a.getD 0 0)) - widen false (lower (b.getD 0 0))
      else strnicmp n a.tail b.tail := by
  have back : ∀ c : Byte, (widen false c).setWidth 8 = c := by decide +kernel
  have folded (c : Byte) : (tolower (c.setWidth 32)).setWidth 8 = lower c := by
    rw [tolower_setWidth]
    exact back (lower c)
  rw [strnicmp, head_eq, head_eq, folded, folded]
  split
  · rfl
  · by_cases same : a.getD 0 0 = b.getD 0 0
    · rw [if_pos same, same, if_neg (not_not.mpr rfl)]
    · rw [if_neg same]
      rfl

theorem strnicmp_of_agree
    (agree : ∀ i < n, (a.map lower).getD i 0 = (b.map lower).getD i 0) : strnicmp n a b = 0 := by
  induction n generalizing a b with
  | zero => rfl
  | succ n ih =>
      have same : lower (a.getD 0 0) = lower (b.getD 0 0) := by
        rw [← getD_lower, ← getD_lower]
        exact agree 0 (Nat.succ_pos n)
      rw [strnicmp_succ, if_neg (not_not.mpr same), ih (lower_agree_tail agree)]
      split
      · next ended =>
          rw [← lower_eq_zero_iff, ← lower_eq_zero_iff (b.getD 0 0), ← same, or_self] at ended
          have ended' := ended
          rw [same, lower_eq_zero_iff] at ended'
          rw [lower_eq_zero_iff] at ended
          rw [ended, ended']
          exact BitVec.sub_self _
      · rfl

theorem strnicmp_of_differ (free : 0 ∉ a) (free' : 0 ∉ b)
    (differ : Differ 0 (a.map lower) (b.map lower) i) (lt : i < n) :
    Signs (strnicmp n a b).toInt (charValue false (lower (a.getD i 0)))
      (charValue false (lower (b.getD i 0))) := by
  induction i generalizing n a b with
  | zero =>
      obtain ⟨n, rfl⟩ := Nat.exists_eq_add_one.mpr lt
      have other := lower_ne differ
      rw [strnicmp_succ, if_pos other]
      split
      · next ended =>
          rw [toInt_widen_sub]
          exact signs_of_ended ended other
      · rw [toInt_widen_sub]
        exact Signs.sub _ _
  | succ i ih =>
      obtain ⟨n, rfl⟩ := Nat.exists_eq_add_one.mpr (Nat.zero_lt_of_lt lt)
      have some_char := lower_ne_zero differ free free'
      have same := lower_same differ
      rw [strnicmp_succ, if_neg, if_neg (not_not.mpr same), ← getD_tail a, ← getD_tail b]
      · exact ih (not_mem_tail free) (not_mem_tail free') (lower_tail differ)
          (Nat.lt_of_succ_lt_succ lt)
      · rintro (ended | ended)
        · exact some_char ((lower_eq_zero_iff _).mpr ended)
        · exact some_char (same.trans ((lower_eq_zero_iff _).mpr ended))

end Strnicmp

/-! ### The rounds of `strncasecmp` -/

/-- How many characters `strncasecmp` compares at most: a bound of 0 wraps. -/
def rounds (n : BitVec 32) : Nat := (n - 1).toNat + 1

theorem rounds_zero : rounds 0 = 2 ^ 32 := rfl

theorem rounds_eq {n : BitVec 32} (some_bound : n ≠ 0) : rounds n = n.toNat := by
  have bound := n.isLt
  have positive : n.toNat ≠ 0 := fun zero => some_bound (BitVec.eq_of_toNat_eq zero)
  have one : (1 : BitVec 32).toNat = 1 := rfl
  rw [rounds, BitVec.toNat_sub, one]
  omega

theorem rounds_pred {n : BitVec 32} (more : 0 < n - 1) : rounds n = rounds (n - 1) + 1 := by
  have other : n - 1 ≠ 0 := (BitVec.ne_of_lt more).symm
  rw [rounds_eq other, rounds]

theorem rounds_last {n : BitVec 32} (last : ¬ 0 < n - 1) : rounds n = 1 := by
  have zero : (0 : BitVec 32).toNat = 0 := rfl
  rw [BitVec.lt_def, zero] at last
  rw [rounds]
  omega

section Strncasecmp

variable {signed : Bool} {a b : List Byte} {i : Nat} {n : BitVec 32}

theorem strncasecmp_step (signed : Bool) (a b : List Byte) (n : BitVec 32) :
    strncasecmp signed a b n =
      if 0 < n - 1 ∧ lower (a.getD 0 0) = lower (b.getD 0 0) ∧ lower (a.getD 0 0) ≠ 0 then
        strncasecmp signed a.tail b.tail (n - 1)
      else widen signed (lower (a.getD 0 0)) - widen signed (lower (b.getD 0 0)) := by
  have zero : lower 0 = 0 := (lower_eq_zero_iff 0).mpr rfl
  cases a with
  | nil =>
      rw [strncasecmp, head_eq, tolower_widen, tolower_widen, List.getD_nil, if_neg]
      rintro ⟨-, -, some_char⟩
      exact some_char zero
  | cons c a =>
      have same (d : Byte) : widen signed (lower c) = widen signed (lower d) ↔ lower c = lower d :=
        ⟨widen_inj, congrArg _⟩
      have some_char : widen signed (lower c) = 0 ↔ lower c = 0 := by
        rw [← widen_zero signed]
        exact ⟨widen_inj, congrArg _⟩
      rw [strncasecmp, head_eq, tolower_widen, tolower_widen]
      simp only [same, some_char, ne_eq, List.getD_cons_zero, List.tail_cons]

/-- The loop goes on where it may and the first characters are the same. -/
theorem strncasecmp_next (more : 0 < n - 1)
    (same : lower (a.getD 0 0) = lower (b.getD 0 0)) :
    strncasecmp signed a b n = strncasecmp signed a.tail b.tail (n - 1) ∨
      lower (a.getD 0 0) = 0 ∧ strncasecmp signed a b n = 0 := by
  rw [strncasecmp_step]
  split
  · exact .inl rfl
  · next stops =>
      have ended : lower (a.getD 0 0) = 0 := by
        by_contra some_char
        exact stops ⟨more, same, some_char⟩
      refine .inr ⟨ended, ?_⟩
      rw [same]
      exact BitVec.sub_self _

theorem strncasecmp_of_agree
    (agree : ∀ i < rounds n, (a.map lower).getD i 0 = (b.map lower).getD i 0) :
    strncasecmp signed a b n = 0 := by
  induction count : (n - 1).toNat generalizing a b n with
  | zero =>
      have same : lower (a.getD 0 0) = lower (b.getD 0 0) := by
        rw [← getD_lower, ← getD_lower]
        exact agree 0 (Nat.succ_pos _)
      have last : ¬ 0 < n - 1 := by
        rw [BitVec.lt_def, count]
        exact Nat.lt_irrefl 0
      rw [strncasecmp_step, if_neg fun goes => last goes.1, same]
      exact BitVec.sub_self _
  | succ left ih =>
      have same : lower (a.getD 0 0) = lower (b.getD 0 0) := by
        rw [← getD_lower, ← getD_lower]
        exact agree 0 (Nat.succ_pos _)
      have more : 0 < n - 1 := by
        rw [BitVec.lt_def, count]
        exact Nat.succ_pos left
      rcases strncasecmp_next more same with step | ⟨-, zero⟩
      · have earlier := rounds_pred more
        rw [earlier] at agree
        rw [step]
        refine ih (lower_agree_tail agree) ?_
        rw [rounds, rounds] at earlier
        omega
      · exact zero

theorem strncasecmp_of_differ (free : 0 ∉ a) (free' : 0 ∉ b)
    (differ : Differ 0 (a.map lower) (b.map lower) i) (lt : i < rounds n) :
    (strncasecmp signed a b n).toInt =
      charValue signed (lower (a.getD i 0)) - charValue signed (lower (b.getD i 0)) := by
  induction i generalizing a b n with
  | zero =>
      have other := lower_ne differ
      rw [strncasecmp_step, if_neg fun goes => other goes.2.1]
      exact toInt_widen_sub signed _ _
  | succ i ih =>
      have some_char := lower_ne_zero differ free free'
      have same := lower_same differ
      have more : 0 < n - 1 := by
        by_contra last
        rw [rounds_last last] at lt
        omega
      rw [rounds_pred more] at lt
      rw [strncasecmp_step, if_pos ⟨more, same, some_char⟩, ← getD_tail a, ← getD_tail b]
      exact ih (not_mem_tail free) (not_mem_tail free') (lower_tail differ)
        (Nat.lt_of_succ_lt_succ lt)

end Strncasecmp

/-! ### Agreement -/

/-- The comparisons have one sign, and find nothing exactly where the strings are the same up to
case. -/
structure CaseAgree (signed : Bool) (n : BitVec 32) (a b : List Byte) : Prop where
  negative : (strnicmp n.toNat a b).toInt < 0 ↔ (strncasecmp signed a b n).toInt < 0
  positive : 0 < (strnicmp n.toNat a b).toInt ↔ 0 < (strncasecmp signed a b n).toInt
  zero : strnicmp n.toNat a b = 0 ↔ SameUpToCase n.toNat a b
  zero' : strncasecmp signed a b n = 0 ↔ SameUpToCase n.toNat a b

/-- A bound of 0 meets strings that are the same, and where a plain `char` has a sign, a character
of ASCII does not meet another one. -/
structure CaseSafe (signed : Bool) (n : BitVec 32) (a b : List Byte) : Prop where
  bound : n = 0 → SameUpToCase (2 ^ 32) a b
  ascii : signed = true → ∀ i < n.toNat, Differ 0 (a.map lower) (b.map lower) i →
    ((a.getD i 0).toNat < 128 ↔ (b.getD i 0).toNat < 128)

section Agreement

variable {signed : Bool} {n : BitVec 32} {a b : List Byte} {i : Nat}

theorem Signs.ne_zero {v : CInt} {x y : Int} (signs : Signs v.toInt x y) (other : x ≠ y) :
    v ≠ 0 := by
  intro zero
  have value : v.toInt = 0 := by
    rw [zero]
    rfl
  have negative := signs.negative
  have positive := signs.positive
  omega

/-- A comparison that has the sign of the first difference finds nothing where there is none. -/
theorem eq_zero_iff_sameUpToCase {v : CInt} {m : Nat} (free : 0 ∉ a) (free' : 0 ∉ b)
    (signs : ∀ i < m, Differ 0 (a.map lower) (b.map lower) i →
      Signs v.toInt (charValue signed (lower (a.getD i 0))) (charValue signed (lower (b.getD i 0))))
    (finds_nothing : (∀ i < m, (a.map lower).getD i 0 = (b.map lower).getD i 0) → v = 0) :
    v = 0 ↔ SameUpToCase m a b := by
  rw [sameUpToCase_iff free free']
  rcases exists_differ_or_agree 0 (a.map lower) (b.map lower) m with ⟨i, lt, differ⟩ | agree
  · refine iff_of_false ?_ fun agree => differ.ne (agree i lt)
    exact (signs i lt differ).ne_zero (mt charValue_inj (lower_ne differ))
  · exact iff_of_true (finds_nothing agree) agree

theorem strnicmp_eq_zero_iff (free : 0 ∉ a) (free' : 0 ∉ b) (n : Nat) :
    strnicmp n a b = 0 ↔ SameUpToCase n a b :=
  eq_zero_iff_sameUpToCase free free'
    (fun _ lt differ => strnicmp_of_differ free free' differ lt) strnicmp_of_agree

theorem strncasecmp_signs (free : 0 ∉ a) (free' : 0 ∉ b)
    (differ : Differ 0 (a.map lower) (b.map lower) i) (lt : i < rounds n) :
    Signs (strncasecmp signed a b n).toInt (charValue signed (lower (a.getD i 0)))
      (charValue signed (lower (b.getD i 0))) := by
  rw [strncasecmp_of_differ free free' differ lt]
  exact Signs.sub _ _

theorem strncasecmp_eq_zero_iff (free : 0 ∉ a) (free' : 0 ∉ b) :
    strncasecmp signed a b n = 0 ↔ SameUpToCase (rounds n) a b :=
  eq_zero_iff_sameUpToCase free free'
    (fun _ lt differ => strncasecmp_signs free free' differ lt) strncasecmp_of_agree

/-- What the characters have to be where the strings differ. -/
theorem negative_iff_of_differ (free : 0 ∉ a) (free' : 0 ∉ b)
    (differ : Differ 0 (a.map lower) (b.map lower) i) (lt : i < n.toNat) :
    ((strnicmp n.toNat a b).toInt < 0 ↔ (strncasecmp signed a b n).toInt < 0) ↔
      (signed = true → ((a.getD i 0).toNat < 128 ↔ (b.getD i 0).toNat < 128)) := by
  have some_bound : n ≠ 0 := by
    rintro rfl
    exact Nat.not_lt_zero i lt
  have signs := strnicmp_of_differ free free' differ lt
  have lt' : i < rounds n := by rwa [rounds_eq some_bound]
  have signs' : Signs (strncasecmp signed a b n).toInt _ _ :=
    strncasecmp_signs free free' differ lt'
  have order := charValue_lt_iff signed (lower_ne differ)
  rw [lower_lt_iff, lower_lt_iff] at order
  rw [signs.negative, signs'.negative]
  exact iff_comm.trans order

theorem CaseAgree.caseSafe (agree : CaseAgree signed n a b) (free : 0 ∉ a) (free' : 0 ∉ b) :
    CaseSafe signed n a b := by
  constructor
  case bound =>
    rintro rfl
    have zero : strncasecmp signed a b 0 = 0 := agree.zero'.mpr rfl
    rwa [strncasecmp_eq_zero_iff free free', rounds_zero] at zero
  case ascii =>
    intro has_sign i lt differ
    exact (negative_iff_of_differ free free' differ lt).mp agree.negative has_sign

/-- The other sign follows from the first one. -/
theorem caseAgree_of_negative
    (negative : (strnicmp n.toNat a b).toInt < 0 ↔ (strncasecmp signed a b n).toInt < 0)
    (zero : strnicmp n.toNat a b = 0 ↔ SameUpToCase n.toNat a b)
    (zero' : strncasecmp signed a b n = 0 ↔ SameUpToCase n.toNat a b) :
    CaseAgree signed n a b := by
  refine ⟨negative, ?_, zero, zero'⟩
  have value (v : CInt) : v = 0 ↔ v.toInt = 0 := by
    rw [← BitVec.toInt_inj]
    rfl
  have both := zero.trans zero'.symm
  rw [value, value] at both
  omega

theorem CaseSafe.caseAgree (safe : CaseSafe signed n a b) (free : 0 ∉ a) (free' : 0 ∉ b) :
    CaseAgree signed n a b := by
  have zero := strnicmp_eq_zero_iff free free' n.toNat
  by_cases no_bound : n = 0
  · subst no_bound
    have found : strncasecmp signed a b 0 = 0 :=
      (strncasecmp_eq_zero_iff free free').mpr (safe.bound rfl)
    have found' : strnicmp (0 : BitVec 32).toNat a b = 0 := rfl
    refine caseAgree_of_negative ?_ zero (iff_of_true found (zero.mp found'))
    rw [found, found']
  · have zero' : strncasecmp signed a b n = 0 ↔ _ := strncasecmp_eq_zero_iff free free'
    rw [rounds_eq no_bound] at zero'
    refine caseAgree_of_negative ?_ zero zero'
    rcases exists_differ_or_agree 0 (a.map lower) (b.map lower) n.toNat with
      ⟨i, lt, differ⟩ | agree
    · exact (negative_iff_of_differ free free' differ lt).mpr
        fun has_sign => safe.ascii has_sign i lt differ
    · have same := (sameUpToCase_iff free free').mpr agree
      rw [zero.mpr same, zero'.mpr same]

end Agreement

/-- `strnicmp` and `strncasecmp` agree exactly when the bound does not wrap on two different
strings and no sign of a plain `char` is in the way. -/
theorem caseAgree_iff (signed : Bool) (n : BitVec 32) (a b : CStr) :
    CaseAgree signed n a.chars b.chars ↔ CaseSafe signed n a.chars b.chars :=
  ⟨fun agree => agree.caseSafe a.nul_free b.nul_free,
    fun safe => safe.caseAgree a.nul_free b.nul_free⟩

/-- Without a bound only one of them compares anything. -/
theorem no_bound_compares : ¬ CaseAgree true 0 (bytes "a") (bytes "b") := by
  intro agree
  exact absurd (agree.negative.mpr (by decide)) (by decide)

end CFunc.Clibs.Strings
