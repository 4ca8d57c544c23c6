import Mathlib.Data.List.GetD
import Mathlib.Data.Nat.Basic

/-!
Where two sequences first differ.

A sequence is a list that is followed by a terminator without end, as a string
is read that stops at its `NUL`. What a comparison finds depends on the first
difference before its bound (`exists_differ_or_agree`), and two sequences
without the terminator agree as far as their lists do (`agree_iff_take`).
-/

namespace CFunc.Lib

variable {α : Type} {z : α} {a b c : List α} {i j n : Nat}

/-- The sequences differ at `i` and nowhere before. -/
structure Differ (z : α) (a b : List α) (i : Nat) : Prop where
  same : ∀ j < i, a.getD j z = b.getD j z
  ne : a.getD i z ≠ b.getD i z

theorem Differ.symm (differ : Differ z a b i) : Differ z b a i :=
  ⟨fun j lt => (differ.same j lt).symm, differ.ne.symm⟩

theorem Differ.unique (differ : Differ z a b i) (differ' : Differ z a b j) : i = j := by
  rcases Nat.lt_trichotomy i j with lt | eq | lt
  · exact absurd (differ'.same i lt) differ.ne
  · exact eq
  · exact absurd (differ.same j lt) differ'.ne

/-- The earlier of two differences is carried over. -/
theorem Differ.trans_lt (differ : Differ z a b i) (differ' : Differ z b c j) (lt : i < j) :
    Differ z a c i where
  same k below := (differ.same k below).trans (differ'.same k (Nat.lt_trans below lt))
  ne same := differ.ne (same.trans (differ'.same i lt).symm)

theorem Differ.lt_trans (differ : Differ z a b i) (differ' : Differ z b c j) (lt : j < i) :
    Differ z a c j where
  same k below := (differ.same k (Nat.lt_trans below lt)).trans (differ'.same k below)
  ne same := differ'.ne ((differ.same j lt).symm.trans same)

theorem exists_differ_or_agree [DecidableEq α] (z : α) (a b : List α) (n : Nat) :
    (∃ i < n, Differ z a b i) ∨ ∀ i < n, a.getD i z = b.getD i z := by
  induction n with
  | zero => exact .inr fun i lt => absurd lt i.not_lt_zero
  | succ n ih =>
      rcases ih with ⟨i, lt, differ⟩ | agree
      · exact .inl ⟨i, Nat.lt_succ_of_lt lt, differ⟩
      · by_cases same : a.getD n z = b.getD n z
        · refine .inr fun i lt => ?_
          rcases Nat.lt_succ_iff_lt_or_eq.mp lt with earlier | rfl
          · exact agree i earlier
          · exact same
        · exact .inl ⟨n, Nat.lt_succ_self n, agree, same⟩

theorem getD_tail (l : List α) (i : Nat) (z : α) : l.tail.getD i z = l.getD (i + 1) z := by
  cases l with
  | nil => simp
  | cons x l => simp

/-- Behind its first item the sequences differ one place earlier. -/
theorem Differ.tail (differ : Differ z a b (i + 1)) : Differ z a.tail b.tail i where
  same j lt := by
    rw [getD_tail, getD_tail]
    exact differ.same (j + 1) (Nat.succ_lt_succ lt)
  ne := by
    rw [getD_tail, getD_tail]
    exact differ.ne

theorem agree_tail (agree : ∀ i < n + 1, a.getD i z = b.getD i z) :
    ∀ i < n, a.tail.getD i z = b.tail.getD i z := by
  intro i lt
  rw [getD_tail, getD_tail]
  exact agree (i + 1) (Nat.succ_lt_succ lt)

theorem getElem?_eq_of_getD_eq (free : z ∉ a) (free' : z ∉ b)
    (same : a.getD i z = b.getD i z) : a[i]? = b[i]? := by
  rw [List.getD_eq_getElem?_getD, List.getD_eq_getElem?_getD] at same
  cases left : a[i]? with
  | none =>
      cases right : b[i]? with
      | none => rfl
      | some y =>
          rw [left, right] at same
          obtain rfl : z = y := same
          exact absurd (List.mem_of_getElem? right) free'
  | some x =>
      cases right : b[i]? with
      | none =>
          rw [left, right] at same
          obtain rfl : x = z := same
          exact absurd (List.mem_of_getElem? left) free
      | some y =>
          rw [left, right] at same
          exact congrArg some same

theorem agree_iff_take (free : z ∉ a) (free' : z ∉ b) :
    (∀ i < n, a.getD i z = b.getD i z) ↔ a.take n = b.take n := by
  constructor
  · intro agree
    refine List.ext_getElem? fun i => ?_
    rw [List.getElem?_take, List.getElem?_take]
    split
    · next lt => exact getElem?_eq_of_getD_eq free free' (agree i lt)
    · rfl
  · intro same i lt
    have item := congrArg (·[i]?) same
    simp only [List.getElem?_take, if_pos lt] at item
    rw [List.getD_eq_getElem?_getD, List.getD_eq_getElem?_getD, item]

/-- Before the first difference neither sequence is over. -/
theorem Differ.ne_terminator (differ : Differ z a b i) (free : z ∉ a) (free' : z ∉ b)
    (lt : j < i) : a.getD j z ≠ z := by
  intro ended
  have past {l : List α} (free : z ∉ l) (ended : l.getD j z = z) : l.length ≤ j := by
    by_contra inside
    rw [not_le] at inside
    rw [List.getD_eq_getElem _ _ inside] at ended
    exact free (ended ▸ List.getElem_mem inside)
  have short := past free ended
  have short' := past free' ((differ.same j lt).symm.trans ended)
  refine differ.ne ?_
  rw [List.getD_eq_default _ _ (Nat.le_trans short (Nat.le_of_lt lt)),
    List.getD_eq_default _ _ (Nat.le_trans short' (Nat.le_of_lt lt))]

end CFunc.Lib
