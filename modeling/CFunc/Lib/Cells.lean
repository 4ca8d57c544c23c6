import CFunc.Lib.Exec
import Mathlib.Data.List.Perm.Basic
import Mathlib.Logic.Equiv.Basic
import Mathlib.Tactic.Ring

/-!
An array of a program, with a record of which indices were read or written.

Access outside the array has no meaning. `Within lo hi s t` is what a program
that rearranges `lo..hi` may do: no other index is accessed, no other cell
changes, and the cells of the range keep their values up to order. It composes,
and carries a bound on all values of the range along. `Permuted N s t` says of
any set of indices that its values were rearranged, by a permutation that fixes
the others.
-/

namespace CFunc.Lib

/-- The cells, and the indices accessed so far, the latest first. -/
structure Cells (α : Type) where
  cells : List α
  touched : List Int
  deriving DecidableEq, Repr

namespace Cells

variable {α : Type}

/-- The value at an index, if it is one of the array. -/
def peek (s : Cells α) (i : Int) : Option α :=
  if 0 ≤ i then s.cells[i.toNat]? else none

/-- `arr[i]` as a value. -/
def read (i : Int) : Exec (Cells α) α := fun s =>
  match s.peek i with
  | some x => .done (x, { s with touched := i :: s.touched })
  | none => .fault

/-- `arr[i] = x`. -/
def write (i : Int) (x : α) : Exec (Cells α) Unit := fun s =>
  if 0 ≤ i ∧ i < s.cells.length then .done ((), ⟨s.cells.set i.toNat x, i :: s.touched⟩)
  else .fault

theorem peek_of_lt {s : Cells α} {i : Int} (nonneg : 0 ≤ i) (lt : i < s.cells.length) :
    ∃ x, s.peek i = some x := by
  have inside : i.toNat < s.cells.length := by omega
  exact ⟨s.cells[i.toNat], by rw [peek, if_pos nonneg, List.getElem?_eq_getElem inside]⟩

theorem bounds_of_peek {s : Cells α} {i : Int} {x : α} (at_i : s.peek i = some x) :
    0 ≤ i ∧ i < s.cells.length := by
  rw [peek] at at_i
  split at at_i
  case isTrue nonneg =>
    have inside := (List.getElem?_eq_some_iff.mp at_i).1
    omega
  case isFalse => cases at_i

theorem peek_congr {s t : Cells α} (cells : t.cells = s.cells) (i : Int) : t.peek i = s.peek i := by
  rw [peek, peek, cells]

theorem peek_ofNat (s : Cells α) (k : Nat) : s.peek k = s.cells[k]? := by
  simp [peek]

/-! ### Programs that stay in a range -/

/-- Between `s` and `t` only indices of `lo..hi` were accessed. -/
def Touches (lo hi : Int) (s t : Cells α) : Prop :=
  ∃ new, t.touched = new ++ s.touched ∧ ∀ i ∈ new, lo ≤ i ∧ i ≤ hi

/-- Between `s` and `t` the range `lo..hi` was only rearranged, and nothing else accessed. -/
structure Within (lo hi : Int) (s t : Cells α) : Prop where
  perm : t.cells.Perm s.cells
  same : ∀ i, i < lo ∨ hi < i → t.peek i = s.peek i
  source : ∀ i, lo ≤ i → i ≤ hi → ∃ j, lo ≤ j ∧ j ≤ hi ∧ t.peek i = s.peek j
  touches : Touches lo hi s t

variable {lo hi lo' hi' : Int} {s t u : Cells α}

theorem Touches.refl (lo hi : Int) (s : Cells α) : Touches lo hi s s := ⟨[], rfl, by simp⟩

theorem Touches.trans (first : Touches lo hi s t) (second : Touches lo hi t u) :
    Touches lo hi s u := by
  obtain ⟨new, touched, bounds⟩ := first
  obtain ⟨new', touched', bounds'⟩ := second
  refine ⟨new' ++ new, by rw [touched', touched, List.append_assoc], ?_⟩
  intro i mem
  cases List.mem_append.mp mem with
  | inl mem => exact bounds' i mem
  | inr mem => exact bounds i mem

theorem Touches.mono (touches : Touches lo hi s t) (lower : lo' ≤ lo) (upper : hi ≤ hi') :
    Touches lo' hi' s t := by
  obtain ⟨new, touched, bounds⟩ := touches
  refine ⟨new, touched, ?_⟩
  intro i mem
  have := bounds i mem
  omega

namespace Within

theorem length_eq (within : Within lo hi s t) : t.cells.length = s.cells.length :=
  within.perm.length_eq

/-- Reading alone. -/
theorem of_cells_eq (cells : t.cells = s.cells) (touches : Touches lo hi s t) :
    Within lo hi s t := by
  have same := peek_congr cells
  exact ⟨by rw [cells], fun i _ => same i, fun i lower upper => ⟨i, lower, upper, same i⟩, touches⟩

theorem refl (lo hi : Int) (s : Cells α) : Within lo hi s s :=
  of_cells_eq rfl (Touches.refl lo hi s)

theorem trans (first : Within lo hi s t) (second : Within lo hi t u) : Within lo hi s u where
  perm := second.perm.trans first.perm
  same i outside := (second.same i outside).trans (first.same i outside)
  source i lower upper := by
    obtain ⟨j, lower', upper', eq⟩ := second.source i lower upper
    obtain ⟨k, lower'', upper'', eq'⟩ := first.source j lower' upper'
    exact ⟨k, lower'', upper'', eq.trans eq'⟩
  touches := first.touches.trans second.touches

theorem mono (within : Within lo hi s t) (lower : lo' ≤ lo) (upper : hi ≤ hi') :
    Within lo' hi' s t where
  perm := within.perm
  same i outside := within.same i (by omega)
  source i lower' upper' := by
    by_cases inside : lo ≤ i ∧ i ≤ hi
    · obtain ⟨j, lower'', upper'', eq⟩ := within.source i inside.1 inside.2
      exact ⟨j, by omega, by omega, eq⟩
    · exact ⟨i, lower', upper', within.same i (by omega)⟩
  touches := within.touches.mono lower upper

/-- What holds of all values of the range holds of them afterwards. -/
theorem all {P : α → Prop} (within : Within lo hi s t)
    (before : ∀ i x, lo ≤ i → i ≤ hi → s.peek i = some x → P x) :
    ∀ i x, lo ≤ i → i ≤ hi → t.peek i = some x → P x := by
  intro i x lower upper at_i
  obtain ⟨j, lower', upper', eq⟩ := within.source i lower upper
  exact before j x lower' upper' (eq ▸ at_i)

/-- Rearranging the first `n` cells leaves the others, and a permutation of the first. -/
theorem take_perm {n : Nat} (within : Within 0 (n - 1) s t) :
    (t.cells.take n).Perm (s.cells.take n) ∧ t.cells.drop n = s.cells.drop n := by
  have rest : t.cells.drop n = s.cells.drop n := by
    apply List.ext_getElem?
    intro k
    have same := within.same (n + k : Nat) (by omega)
    rw [peek_ofNat, peek_ofNat] at same
    rw [List.getElem?_drop, List.getElem?_drop, same]
  have perm := within.perm
  rw [← List.take_append_drop n t.cells, ← List.take_append_drop n s.cells, rest] at perm
  exact ⟨(List.perm_append_right_iff _).mp perm, rest⟩

end Within

/-! ### Reading and exchanging -/

theorem ends_read {i : Int} {x : α} (at_i : s.peek i = some x) :
    Exec.Ends (read i) s fun y t => x = y ∧ t.cells = s.cells ∧ Touches i i s t := by
  refine ⟨x, { s with touched := i :: s.touched }, ?_, rfl, rfl, [i], rfl, by simp⟩
  rw [read, at_i]

theorem ends_write {i : Int} (nonneg : 0 ≤ i) (lt : i < s.cells.length) (x : α) :
    Exec.Ends (write i x) s fun _ t =>
      t.cells = s.cells.set i.toNat x ∧ Touches i i s t := by
  refine ⟨(), ⟨s.cells.set i.toNat x, i :: s.touched⟩, ?_, rfl, [i], rfl, by simp⟩
  rw [write, if_pos ⟨nonneg, lt⟩]

theorem faults_write {i : Int} (outside : s.cells.length ≤ i) (x : α) :
    Exec.Faults (write i x) s := by
  rw [Exec.Faults, write, if_neg (by omega)]

/-- Between `s` and `t` the cells `i` and `j` were exchanged, and no other accessed. -/
structure Exchanged (i j : Int) (s t : Cells α) : Prop where
  perm : t.cells.Perm s.cells
  left : t.peek i = s.peek j
  right : t.peek j = s.peek i
  same : ∀ k, k ≠ i → k ≠ j → t.peek k = s.peek k
  touches : ∀ {lo hi}, lo ≤ i → i ≤ hi → lo ≤ j → j ≤ hi → Touches lo hi s t

/-- The cells `i` and `j` change places: both are read before either is written. -/
def exchange (i j : Int) : Exec (Cells α) Unit := do
  let x ← read i
  write i (← read j)
  write j x

theorem exchanged_of_set {i j : Int} {x y : α} (at_i : s.peek i = some x) (at_j : s.peek j = some y)
    (cells : t.cells = (s.cells.set i.toNat y).set j.toNat x)
    (touches : ∀ {lo hi}, lo ≤ i → i ≤ hi → lo ≤ j → j ≤ hi → Touches lo hi s t) :
    Exchanged i j s t := by
  obtain ⟨nonneg, inside⟩ := bounds_of_peek at_i
  obtain ⟨nonneg', inside'⟩ := bounds_of_peek at_j
  have get_i : s.cells[i.toNat]? = some x := by rwa [peek, if_pos nonneg] at at_i
  have get_j : s.cells[j.toNat]? = some y := by rwa [peek, if_pos nonneg'] at at_j
  have eq_i := (List.getElem?_eq_some_iff.mp get_i).2
  have eq_j := (List.getElem?_eq_some_iff.mp get_j).2
  refine ⟨?perm, ?left, ?right, ?same, touches⟩
  case perm =>
    rw [cells, ← eq_i, ← eq_j]
    exact List.set_set_perm (by omega) (by omega)
  case left =>
    rw [at_j, peek, if_pos nonneg, cells, List.getElem?_set]
    by_cases same : j.toNat = i.toNat
    · rw [if_pos same, List.length_set, if_pos (by omega)]
      have : i = j := by omega
      subst this
      rw [← at_i, at_j]
    · rw [if_neg same, List.getElem?_set_self (by omega)]
  case right =>
    rw [at_i, peek, if_pos nonneg', cells,
      List.getElem?_set_self (by rw [List.length_set]; omega)]
  case same =>
    intro k ne_i ne_j
    rw [peek, peek, cells]
    by_cases nonneg'' : 0 ≤ k
    · rw [if_pos nonneg'', if_pos nonneg'', List.getElem?_set_ne (by omega),
        List.getElem?_set_ne (by omega)]
    · rw [if_neg nonneg'', if_neg nonneg'']

theorem ends_exchange {i j : Int} {x y : α} (at_i : s.peek i = some x)
    (at_j : s.peek j = some y) : Exec.Ends (exchange i j) s fun _ t => Exchanged i j s t := by
  obtain ⟨nonneg, inside⟩ := bounds_of_peek at_i
  obtain ⟨nonneg', inside'⟩ := bounds_of_peek at_j
  apply Exec.Ends.bind (ends_read at_i)
  rintro _ s₁ ⟨rfl, cells₁, touches₁⟩
  apply Exec.Ends.bind (ends_read ((peek_congr cells₁ j).trans at_j))
  rintro _ s₂ ⟨rfl, cells₂, touches₂⟩
  apply Exec.Ends.bind (ends_write nonneg (by rw [cells₂, cells₁]; exact inside) _)
  rintro _ s₃ ⟨cells₃, touches₃⟩
  apply (ends_write nonneg' (by rw [cells₃, List.length_set, cells₂, cells₁]; exact inside') _).mono
  rintro _ t ⟨cells, touches⟩
  apply exchanged_of_set at_i at_j (by rw [cells, cells₃, cells₂, cells₁])
  intro lo hi lower upper lower' upper'
  exact (((touches₁.mono lower upper).trans (touches₂.mono lower' upper')).trans
    (touches₃.mono lower upper)).trans (touches.mono lower' upper')

theorem Exchanged.within {i j : Int} (exchanged : Exchanged i j s t) (lower : lo ≤ i)
    (upper : i ≤ hi) (lower' : lo ≤ j) (upper' : j ≤ hi) : Within lo hi s t where
  perm := exchanged.perm
  same k outside := exchanged.same k (by omega) (by omega)
  source k lower'' upper'' := by
    by_cases is_i : k = i
    · exact ⟨j, lower', upper', is_i ▸ exchanged.left⟩
    · by_cases is_j : k = j
      · exact ⟨i, lower, upper, is_j ▸ exchanged.right⟩
      · exact ⟨k, lower'', upper'', exchanged.same k is_i is_j⟩
  touches := exchanged.touches lower upper lower' upper'

/-! ### Rearranging some indices -/

/-- Between `s` and `t` the cells of `N` were only rearranged among themselves. -/
structure Permuted (N : Int → Prop) (s t : Cells α) : Prop where
  length_eq : t.cells.length = s.cells.length
  moved : ∃ σ : Equiv.Perm Int, (∀ i, ¬ N i → σ i = i) ∧ ∀ i, t.peek i = s.peek (σ i)

section Permuted

variable {N : Int → Prop}

theorem Permuted.refl (N : Int → Prop) (s : Cells α) : Permuted N s s :=
  ⟨rfl, Equiv.refl Int, fun _ _ => rfl, fun _ => rfl⟩

theorem Permuted.trans (first : Permuted N s t) (second : Permuted N t u) : Permuted N s u := by
  obtain ⟨σ, fixed, eq⟩ := first.moved
  obtain ⟨τ, fixed', eq'⟩ := second.moved
  refine ⟨second.length_eq.trans first.length_eq, τ.trans σ, ?_, ?_⟩
  · intro i outside
    rw [Equiv.trans_apply, fixed' i outside, fixed i outside]
  · intro i
    rw [Equiv.trans_apply, eq', eq]

/-- Reading alone. -/
theorem Permuted.read (permuted : Permuted N s t) (cells : u.cells = t.cells) :
    Permuted N s u := by
  obtain ⟨σ, fixed, eq⟩ := permuted.moved
  exact ⟨by rw [cells, permuted.length_eq], σ, fixed, fun i => (peek_congr cells i).trans (eq i)⟩

theorem Permuted.outside (permuted : Permuted N s t) {i : Int} (outside : ¬ N i) :
    t.peek i = s.peek i := by
  obtain ⟨σ, fixed, eq⟩ := permuted.moved
  rw [eq, fixed i outside]

theorem Exchanged.permuted {i j : Int} (exchanged : Exchanged i j s t) (left : N i) (right : N j) :
    Permuted N s t := by
  refine ⟨exchanged.perm.length_eq, Equiv.swap i j, ?_, ?_⟩
  · intro k outside
    apply Equiv.swap_apply_of_ne_of_ne
    · rintro rfl
      exact outside left
    · rintro rfl
      exact outside right
  · intro k
    by_cases is_i : k = i
    · rw [is_i, Equiv.swap_apply_left, exchanged.left]
    · by_cases is_j : k = j
      · rw [is_j, Equiv.swap_apply_right, exchanged.right]
      · rw [Equiv.swap_apply_of_ne_of_ne is_i is_j, exchanged.same k is_i is_j]

end Permuted

/-! ### Order -/

/-- The values of `lo..hi` do not decrease. -/
def Sorted [LE α] (lo hi : Int) (s : Cells α) : Prop :=
  ∀ i j x y, lo ≤ i → i ≤ j → j ≤ hi → s.peek i = some x → s.peek j = some y → x ≤ y

/-- The first `n` cells as a sorted list. -/
theorem Sorted.pairwise [LE α] {n : Nat} (sorted : Sorted 0 (n - 1) s) :
    (s.cells.take n).Pairwise (· ≤ ·) := by
  rw [List.pairwise_iff_getElem]
  intro i j inside inside' lt
  rw [List.length_take] at inside inside'
  rw [List.getElem_take, List.getElem_take]
  apply sorted i j _ _ (by omega) (by omega) (by omega)
  · rw [peek_ofNat, List.getElem?_eq_getElem (by omega)]
  · rw [peek_ofNat, List.getElem?_eq_getElem (by omega)]

end Cells

end CFunc.Lib
