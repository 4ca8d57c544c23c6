import Mathlib.Data.Nat.Basic
import Mathlib.Data.List.Basic

/-!
Buffers addressed by offset.

A buffer is a function from offsets, of which a program reads and writes
slices. A buffer of equal pages is compared page by page (`agree_iff_pages`).
-/

namespace CFunc.Lib.Buffer

universe u

variable {α : Type u}

/-- The `n` values from offset `start` on. -/
def slice (buf : Nat → α) (start n : Nat) : List α :=
  (List.range n).map fun i => buf (start + i)

/-- `n` values copied to offset `start`. -/
def blit (buf : Nat → α) (start : Nat) (source : Nat → α) (n : Nat) : Nat → α := fun x =>
  if start ≤ x ∧ x < start + n then source (x - start) else buf x

@[simp] theorem length_slice (buf : Nat → α) (start n : Nat) : (slice buf start n).length = n := by
  simp [slice]

theorem getElem?_slice (buf : Nat → α) (start : Nat) {n i : Nat} (inside : i < n) :
    (slice buf start n)[i]? = some (buf (start + i)) := by
  simp [slice, inside]

theorem slice_eq_slice {buf buf' : Nat → α} {start start' n : Nat} :
    slice buf start n = slice buf' start' n ↔ ∀ i < n, buf (start + i) = buf' (start' + i) := by
  simp [slice, List.map_inj_left]

theorem blit_inside {buf source : Nat → α} {start n x : Nat} (below : start ≤ x)
    (above : x < start + n) : blit buf start source n x = source (x - start) :=
  if_pos ⟨below, above⟩

theorem blit_outside {buf source : Nat → α} {start n x : Nat}
    (outside : ¬ (start ≤ x ∧ x < start + n)) : blit buf start source n x = buf x :=
  if_neg outside

theorem slice_succ (buf : Nat → α) (start n : Nat) :
    slice buf start (n + 1) = slice buf start n ++ [buf (start + n)] := by
  simp [slice, List.range_succ]

theorem slice_add (buf : Nat → α) (start m n : Nat) :
    slice buf start (m + n) = slice buf start m ++ slice buf (start + m) n := by
  induction n with
  | zero => simp [slice]
  | succ n ih =>
      rw [← Nat.add_assoc, slice_succ, ih, slice_succ, List.append_assoc, Nat.add_assoc start]

theorem blit_zero (buf : Nat → α) (start : Nat) (source : Nat → α) :
    blit buf start source 0 = buf := by
  funext x
  exact blit_outside (by omega)

/-- Copying goes on one value at a time. -/
theorem blit_succ (buf : Nat → α) (start : Nat) (source : Nat → α) (n : Nat) :
    blit buf start source (n + 1) =
      fun x => if x = start + n then source n else blit buf start source n x := by
  funext x
  by_cases here : x = start + n
  · rw [if_pos here, blit_inside (by omega) (by omega), here, Nat.add_sub_cancel_left]
  · rw [if_neg here]
    by_cases inside : start ≤ x ∧ x < start + n
    · rw [blit_inside inside.1 (by omega), blit_inside inside.1 inside.2]
    · rw [blit_outside (by omega), blit_outside inside]

/-- Offsets of different pages differ. -/
theorem page_ne {stride p q i : Nat} (other : p ≠ q) (inside : i < stride) :
    ¬ (p * stride ≤ q * stride + i ∧ q * stride + i < p * stride + stride) := by
  rintro ⟨below, above⟩
  rcases Nat.lt_or_gt_of_ne other with less | less
  · have := Nat.mul_le_mul_right stride less
    rw [Nat.succ_mul] at this
    omega
  · have := Nat.mul_le_mul_right stride less
    rw [Nat.succ_mul] at this
    omega

/-- The pages of a buffer, as lists. -/
def pages (buf : Nat → α) (stride n : Nat) : List (List α) :=
  (List.range n).map fun p => slice buf (p * stride) stride

@[simp] theorem length_pages (buf : Nat → α) (stride n : Nat) :
    (pages buf stride n).length = n := by
  simp [pages]

theorem getElem?_pages (buf : Nat → α) (stride : Nat) {n p : Nat} (inside : p < n) :
    (pages buf stride n)[p]? = some (slice buf (p * stride) stride) := by
  simp [pages, inside]

theorem pages_succ (buf : Nat → α) (stride n : Nat) :
    pages buf stride (n + 1) = pages buf stride n ++ [slice buf (n * stride) stride] := by
  simp [pages, List.range_succ]

theorem pages_congr {buf buf' : Nat → α} {stride n : Nat}
    (same : ∀ p < n, ∀ i < stride, buf (p * stride + i) = buf' (p * stride + i)) :
    pages buf stride n = pages buf' stride n := by
  refine List.map_inj_left.mpr fun p member => ?_
  exact slice_eq_slice.mpr (same p (List.mem_range.mp member))

/-- Buffers agree up to the end of a page exactly when all columns of the pages before do. -/
theorem agree_iff_columns {buf buf' : Nat → α} {stride n : Nat} (some_column : 0 < stride) :
    (∀ x < n * stride, buf x = buf' x) ↔
      ∀ p < n, ∀ i < stride, buf (p * stride + i) = buf' (p * stride + i) := by
  constructor
  · intro agree p lt i inside
    have := Nat.mul_le_mul_right stride lt
    rw [Nat.succ_mul] at this
    exact agree _ (by omega)
  · intro columns x lt
    have page : x / stride < n := (Nat.div_lt_iff_lt_mul some_column).mpr lt
    have at_x := columns (x / stride) page (x % stride) (Nat.mod_lt x some_column)
    rwa [Nat.div_add_mod'] at at_x

theorem agree_iff_pages {buf buf' : Nat → α} {stride n : Nat} (some_column : 0 < stride) :
    (∀ x < n * stride, buf x = buf' x) ↔ pages buf stride n = pages buf' stride n := by
  rw [agree_iff_columns some_column]
  constructor
  · exact pages_congr
  · intro same p lt
    exact slice_eq_slice.mp (List.map_inj_left.mp same p (List.mem_range.mpr lt))

end CFunc.Lib.Buffer
