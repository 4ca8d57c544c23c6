import CFunc.Lib.CInt
import CFunc.Lib.Cells

/-!
`algo/qsort.c`: quick sort with two crossing scans.

The pivot is the last cell. A round of the partition may exchange two cells
without bringing the scans closer, but not twice in a row: afterwards the left
scan stands before a value below the pivot and will move. When the scans meet,
the cell they meet at can be below the pivot only next to the pivot's own cell.
-/

namespace CFunc.QuickSort

open CFunc.Lib CFunc.Lib.Cells
open CFunc.Lib.Exec (lift loop Ends ends_lift)

/-! ### The program -/

/-- `swap(&arr[x], &arr[y])`. -/
def swap (x y : Int) : Exec (Cells Int) Unit := exchange x y

/-- One test of a scan: it goes on by `d` where the value is passed and the scans are apart. -/
def scan (passes apart : Int → Bool) (d i : Int) : Exec (Cells Int) (Bool × Int) := do
  if passes (← read i) && apart i then
    return (true, ← lift (addInt i d))
  else return (false, i)

/-- `while (arr[left] < mid && left < right) left++`. -/
def scan_left (mid right : Int) : Int → Exec (Cells Int) (Bool × Int) :=
  scan (· < mid) (· < right) 1

/-- `while (arr[right] >= mid && left < right) right--`. -/
def scan_right (mid left : Int) : Int → Exec (Cells Int) (Bool × Int) :=
  scan (· ≥ mid) (left < ·) (-1)

/-- One test of the partition's outer loop, with `left` and `right`. -/
def partition_round (fuel : Nat) (mid : Int) (at_ : Int × Int) :
    Exec (Cells Int) (Bool × Int × Int) := do
  if at_.1 < at_.2 then
    let left ← loop (scan_left mid at_.2) fuel at_.1
    let right ← loop (scan_right mid left) fuel at_.2
    swap left right
    return (true, left, right)
  else return (false, at_)

/-- The pivot goes to where the scans met, or stays; the index it is at. -/
def place_pivot (left last : Int) : Exec (Cells Int) Int := do
  if (← read left) ≥ (← read last) then
    swap left last
    return left
  else lift (addInt left 1)

/-- `quick_sort_recursive`; `last` is its parameter `end`. Fuel bounds the depth of the
recursion and the rounds of each loop. -/
def quick_sort_recursive : Nat → Int → Int → Exec (Cells Int) Unit
  | 0, _, _ => fun _ => .outOfFuel
  | fuel + 1, start, last =>
      if start ≥ last then return ()
      else do
        let mid ← read last
        let right ← lift (addInt last (-1))
        let met ← loop (partition_round fuel mid) fuel (start, right)
        let left ← place_pivot met.1 last
        (if left ≠ 0 then do
          quick_sort_recursive fuel start (← lift (addInt left (-1)))
        else return ())
        quick_sort_recursive fuel (← lift (addInt left 1)) last

def quick_sort (fuel : Nat) (len : Int) : Exec (Cells Int) Unit := do
  quick_sort_recursive fuel 0 (← lift (addInt len (-1)))

/-! ### The scans -/

variable {mid left right start last : Int} {s t : Cells Int} {fuel : Nat}

/-- A scan only reads, and stops where it may not go on. -/
theorem ends_scan {passes apart : Int → Bool} {d i : Int} (lo hi : Int) (Reached : Int → Prop)
    (ahead : Int → Nat) (bounds : ∀ i, Reached i → lo ≤ i ∧ i ≤ hi)
    (step : ∀ i x, Reached i → s.peek i = some x → passes x = true → apart i = true →
      Reached (i + d) ∧ ahead (i + d) < ahead i)
    (nonneg : 0 ≤ lo) (inside : hi < s.cells.length) (fits : hi ≤ INT_MAX) (entry : Reached i)
    (enough : ahead i < fuel) :
    Ends (loop (scan passes apart d) fuel i) s fun i' t =>
      t.cells = s.cells ∧ Touches lo hi s t ∧ Reached i' ∧
        ∃ x, s.peek i' = some x ∧ (passes x && apart i') = false := by
  refine Ends.loop (fun i' t => t.cells = s.cells ∧ Touches lo hi s t ∧ Reached i')
    _ (fun i' _ => ahead i') ?round ⟨rfl, Touches.refl .., entry⟩ enough
  case round =>
    rintro i' t ⟨cells, touches, reached⟩
    obtain ⟨lower, upper⟩ := bounds i' reached
    obtain ⟨x, here⟩ := peek_of_lt (s := s) (i := i') (by omega) (by omega)
    apply Ends.bind (ends_read ((peek_congr cells i').trans here))
    rintro _ u ⟨rfl, cells', touches'⟩
    have touched := touches.trans (touches'.mono lower upper)
    apply Ends.ite
    · intro go
      obtain ⟨passed, apart⟩ := Bool.and_eq_true_iff.mp go
      obtain ⟨reached', closer⟩ := step i' _ reached here passed apart
      obtain ⟨lower', upper'⟩ := bounds _ reached'
      have no_underflow : INT_MIN ≤ i' + d := by unfold INT_MIN; omega
      apply Ends.bind (ends_lift (addInt_eq_some no_underflow (by omega)))
      rintro _ _ ⟨rfl, rfl⟩
      exact Ends.pure ⟨fun _ => ⟨⟨cells'.trans cells, touched, reached'⟩, closer⟩, nofun⟩
    · intro stop
      apply Ends.pure
      exact ⟨nofun, fun _ => ⟨cells'.trans cells, touched, reached, _, here,
        Bool.eq_false_iff.mpr stop⟩⟩

theorem ends_scan_left (nonneg : 0 ≤ left) (le : left ≤ right) (inside : right < s.cells.length)
    (fits : right ≤ INT_MAX) (enough : (right - left).toNat < fuel) :
    Ends (loop (scan_left mid right) fuel left) s fun left' t =>
      t.cells = s.cells ∧ Touches left right s t ∧ left ≤ left' ∧ left' ≤ right ∧
        (∀ k x, left ≤ k → k < left' → s.peek k = some x → x < mid) ∧
        ∃ x, s.peek left' = some x ∧ (mid ≤ x ∨ left' = right) := by
  apply (ends_scan left right
    (fun i => left ≤ i ∧ i ≤ right ∧ ∀ k x, left ≤ k → k < i → s.peek k = some x → x < mid)
    (fun i => (right - i).toNat) (fun i reached => ⟨reached.1, reached.2.1⟩)
    ?step nonneg inside fits ⟨le_refl _, le, fun k x _ _ => by omega⟩ enough).mono
  case step =>
    rintro i x ⟨lower, upper, passed⟩ here below apart
    rw [decide_eq_true_eq] at below apart
    refine ⟨⟨by omega, by omega, ?_⟩, by omega⟩
    intro k y lower' upper' at_k
    by_cases last : k = i
    · subst last
      rwa [← Option.some.inj (here.symm.trans at_k)]
    · exact passed k y lower' (by omega) at_k
  rintro left' t ⟨cells, touches, ⟨lower, upper, passed⟩, x, here, stop⟩
  refine ⟨cells, touches, lower, upper, passed, x, here, ?_⟩
  rw [Bool.and_eq_false_iff, decide_eq_false_iff_not, decide_eq_false_iff_not] at stop
  omega

theorem ends_scan_right (nonneg : 0 ≤ left) (le : left ≤ right) (inside : right < s.cells.length)
    (fits : right ≤ INT_MAX) (enough : (right - left).toNat < fuel) :
    Ends (loop (scan_right mid left) fuel right) s fun right' t =>
      t.cells = s.cells ∧ Touches left right s t ∧ left ≤ right' ∧ right' ≤ right ∧
        (∀ k x, right' < k → k ≤ right → s.peek k = some x → mid ≤ x) ∧
        ∃ x, s.peek right' = some x ∧ (x < mid ∨ left = right') := by
  apply (ends_scan left right
    (fun i => left ≤ i ∧ i ≤ right ∧ ∀ k x, i < k → k ≤ right → s.peek k = some x → mid ≤ x)
    (fun i => (i - left).toNat) (fun i reached => ⟨reached.1, reached.2.1⟩)
    ?step nonneg inside fits ⟨le, le_refl _, fun k x _ _ => by omega⟩ enough).mono
  case step =>
    rintro i x ⟨lower, upper, passed⟩ here above apart
    rw [decide_eq_true_eq] at above apart
    refine ⟨⟨by omega, by omega, ?_⟩, by omega⟩
    intro k y lower' upper' at_k
    by_cases last : k = i
    · subst last
      rwa [← Option.some.inj (here.symm.trans at_k)]
    · exact passed k y (by omega) upper' at_k
  rintro right' t ⟨cells, touches, ⟨lower, upper, passed⟩, x, here, stop⟩
  refine ⟨cells, touches, lower, upper, passed, x, here, ?_⟩
  rw [Bool.and_eq_false_iff, decide_eq_false_iff_not, decide_eq_false_iff_not] at stop
  omega

/-! ### The partition -/

/-- What the outer loop keeps, where `s` is the array it started on. -/
structure Parting (mid start last : Int) (s : Cells Int) (at_ : Int × Int) (t : Cells Int) :
    Prop where
  within : Within start (last - 1) s t
  lower : start ≤ at_.1
  le : at_.1 ≤ at_.2
  upper : at_.2 ≤ last - 1
  below : ∀ k x, start ≤ k → k < at_.1 → t.peek k = some x → x < mid
  above : ∀ k x, at_.2 < k → k ≤ last - 1 → t.peek k = some x → mid ≤ x
  /-- The right scan stands on a value it would pass, unless it has not moved. -/
  stands : at_.2 = last - 1 ∨ ∃ x, t.peek at_.2 = some x ∧ mid ≤ x

/-- The left scan stands on a value it would not pass. -/
def stuck (mid left : Int) (t : Cells Int) : Nat :=
  match t.peek left with
  | some x => if mid ≤ x then 1 else 0
  | none => 0

/-- A round brings the scans closer or removes what the left scan is stuck at. -/
def apart (mid : Int) (at_ : Int × Int) (t : Cells Int) : Nat :=
  2 * (at_.2 - at_.1).toNat + stuck mid at_.1 t

theorem stuck_le (mid left : Int) (t : Cells Int) : stuck mid left t ≤ 1 := by
  rw [stuck]
  split
  · split <;> omega
  · omega

theorem stuck_eq_one {x : Int} (here : t.peek left = some x) (above : mid ≤ x) :
    stuck mid left t = 1 := by
  simp [stuck, here, above]

theorem stuck_eq_zero {x : Int} (here : t.peek left = some x) (below : x < mid) :
    stuck mid left t = 0 := by
  simp [stuck, here, below]

/-- What a round of the outer loop does to the array: both scans stop, and their cells change
places. -/
structure Crossed (mid left right left' right' : Int) (t u : Cells Int) : Prop where
  lower : left ≤ left'
  le : left' ≤ right'
  upper : right' ≤ right
  passed_left : ∀ k x, left ≤ k → k < left' → t.peek k = some x → x < mid
  passed_right : ∀ k x, right' < k → k ≤ right → t.peek k = some x → mid ≤ x
  at_left : ∃ x, t.peek left' = some x ∧ (mid ≤ x ∨ left' = right)
  at_right : ∃ x, t.peek right' = some x ∧ (x < mid ∨ left' = right')
  within : Within left right t u
  left_eq : u.peek left' = t.peek right'
  right_eq : u.peek right' = t.peek left'
  same : ∀ k, k ≠ left' → k ≠ right' → u.peek k = t.peek k

theorem ends_partition_round (nonneg : 0 ≤ left) (lt : left < right)
    (inside : right < t.cells.length) (fits : right ≤ INT_MAX)
    (enough : (right - left).toNat < fuel) :
    Ends (partition_round fuel mid (left, right)) t fun next u =>
      next.1 = true ∧ Crossed mid left right next.2.1 next.2.2 t u := by
  rw [partition_round, if_pos lt]
  apply Ends.bind (ends_scan_left nonneg lt.le inside fits enough)
  rintro left' u₁ ⟨cells₁, touches₁, lower, upper, passed_left, x, at_left, stop_left⟩
  apply Ends.bind (ends_scan_right (by omega) upper (by rw [cells₁]; exact inside) fits (by omega))
  rintro right' u₂ ⟨cells₂, touches₂, lower', upper', passed_right, y, at_right, stop_right⟩
  have unchanged : ∀ k, u₂.peek k = t.peek k := peek_congr (cells₂.trans cells₁)
  have unchanged' : ∀ k, u₁.peek k = t.peek k := peek_congr cells₁
  rw [unchanged'] at at_right
  apply Ends.bind (ends_exchange ((unchanged _).trans at_left) ((unchanged _).trans at_right))
  rintro _ u exchanged
  apply Ends.pure
  refine ⟨rfl, lower, lower', upper', passed_left, ?_, ⟨x, at_left, stop_left⟩,
    ⟨y, at_right, stop_right⟩, ?_, ?_, ?_, ?_⟩
  · intro k z lower'' upper'' at_k
    exact passed_right k z lower'' upper'' ((unchanged' k).trans at_k)
  · exact ((Within.of_cells_eq cells₁ touches₁).trans
      ((Within.of_cells_eq cells₂ touches₂).mono lower (le_refl _))).trans
      (exchanged.within lower (by omega) (by omega) upper')
  · exact exchanged.left.trans (unchanged _)
  · exact exchanged.right.trans (unchanged _)
  · intro k ne ne'
    exact (exchanged.same k ne ne').trans (unchanged k)

/-- A round keeps what the outer loop keeps. -/
theorem Parting.round {left' right' : Int} {u : Cells Int}
    (parting : Parting mid start last s (left, right) t)
    (crossed : Crossed mid left right left' right' t u) :
    Parting mid start last s (left', right') u where
  within := parting.within.trans (crossed.within.mono parting.lower parting.upper)
  lower := parting.lower.trans crossed.lower
  le := crossed.le
  upper := crossed.upper.trans parting.upper
  below k x lower lt at_k := by
    have le := crossed.le
    simp only at lt
    rw [crossed.same k (by omega) (by omega)] at at_k
    by_cases before : k < left
    · exact parting.below k x lower before at_k
    · exact crossed.passed_left k x (by omega) lt at_k
  above k x lt upper at_k := by
    have le := crossed.le
    simp only at lt
    rw [crossed.same k (by omega) (by omega)] at at_k
    by_cases after : right < k
    · exact parting.above k x after upper at_k
    · exact crossed.passed_right k x lt (by omega) at_k
  stands := by
    obtain ⟨x, at_left, stop⟩ := crossed.at_left
    have at_right := crossed.right_eq.trans at_left
    cases stop with
    | inl above => exact .inr ⟨x, at_right, above⟩
    | inr met =>
        -- The left scan ran up to the right one, which then cannot have moved.
        have le := crossed.le
        have upper := crossed.upper
        obtain rfl : left' = right' := by omega
        rw [met] at at_left at_right ⊢
        cases parting.stands with
        | inl unmoved => exact .inl unmoved
        | inr standing =>
            obtain ⟨y, here, above⟩ := standing
            exact .inr ⟨y, at_right.trans (at_left.symm.trans here), above⟩

/-- A round brings the outer loop closer to its end. -/
theorem Crossed.apart_lt {left' right' : Int} {u : Cells Int} (lt : left < right)
    (crossed : Crossed mid left right left' right' t u) :
    apart mid (left', right') u < apart mid (left, right) t := by
  have lower := crossed.lower
  have le := crossed.le
  have upper := crossed.upper
  have stuck_new := stuck_le mid left' u
  unfold apart
  simp only
  obtain ⟨x, at_left, stop⟩ := crossed.at_left
  obtain ⟨y, at_right, stop'⟩ := crossed.at_right
  by_cases met : left' = right'
  · omega
  · have below : y < mid := by omega
    have free := stuck_eq_zero (crossed.left_eq.trans at_right) below
    by_cases moved : left < left'
    · omega
    · obtain rfl : left = left' := by omega
      have above : mid ≤ x := by omega
      have blocked := stuck_eq_one at_left above
      omega

/-- The outer loop ends where the scans meet. -/
theorem ends_partition (nonneg : 0 ≤ start) (lt : start < last) (inside : last < s.cells.length)
    (fits : last ≤ INT_MAX) (enough : 2 * (last - start) ≤ fuel) :
    Ends (loop (partition_round fuel mid) fuel (start, last - 1)) s fun met t =>
      Parting mid start last s met t ∧ met.1 = met.2 := by
  refine Ends.loop (Parting mid start last s) _ (apart mid) ?round ?entry ?enough
  case round =>
    rintro ⟨left, right⟩ t parting
    have lower := parting.lower
    have le := parting.le
    have upper := parting.upper
    have length := parting.within.length_eq
    simp only at lower le upper
    by_cases lt : left < right
    · apply (ends_partition_round (by omega) lt (by omega) (by omega) (by omega)).mono
      rintro ⟨again, left', right'⟩ u ⟨rfl, crossed⟩
      exact ⟨fun _ => ⟨parting.round crossed, crossed.apart_lt lt⟩, nofun⟩
    · rw [partition_round, if_neg lt]
      apply Ends.pure
      have met : left = right := by omega
      exact ⟨nofun, fun _ => ⟨parting, met⟩⟩
  case entry =>
    exact ⟨Within.refl .., le_refl _, by omega, le_refl _, fun k x _ _ => by omega,
      fun k x _ _ => by omega, .inl rfl⟩
  case enough =>
    have := stuck_le mid start s
    simp only [apart]
    omega

/-- The pivot is at `q`, with what is below it before and all else after. -/
structure Parted (mid start last : Int) (s : Cells Int) (q : Int) (t : Cells Int) : Prop where
  within : Within start last s t
  lower : start ≤ q
  upper : q ≤ last
  pivot : t.peek q = some mid
  below : ∀ k x, start ≤ k → k ≤ q - 1 → t.peek k = some x → x < mid
  above : ∀ k x, q + 1 ≤ k → k ≤ last → t.peek k = some x → mid ≤ x

theorem ends_place_pivot {p : Int} (parting : Parting mid start last s (p, p) t)
    (nonneg : 0 ≤ start) (inside : last < s.cells.length) (fits : last ≤ INT_MAX)
    (pivot : s.peek last = some mid) :
    Ends (place_pivot p last) t fun q u => Parted mid start last s q u := by
  have lower := parting.lower
  have upper := parting.upper
  have length := parting.within.length_eq
  simp only at lower upper
  have pivot_t := (parting.within.same last (by omega)).trans pivot
  obtain ⟨x, here⟩ := peek_of_lt (s := t) (i := p) (by omega) (by omega)
  apply Ends.bind (ends_read here)
  rintro _ u₁ ⟨rfl, cells₁, touches₁⟩
  apply Ends.bind (ends_read ((peek_congr cells₁ last).trans pivot_t))
  rintro _ u₂ ⟨rfl, cells₂, touches₂⟩
  have unchanged : ∀ k, u₂.peek k = t.peek k := peek_congr (cells₂.trans cells₁)
  have reads : Within start last s u₂ := (parting.within.mono (le_refl _) (by omega)).trans
    (Within.of_cells_eq (cells₂.trans cells₁)
      ((touches₁.mono lower (by omega)).trans (touches₂.mono (by omega) (le_refl _))))
  apply Ends.ite
  · intro above
    apply Ends.bind (ends_exchange ((unchanged _).trans here) ((unchanged _).trans pivot_t))
    rintro _ u exchanged
    apply Ends.pure
    refine ⟨reads.trans (exchanged.within lower (by omega) (by omega) (le_refl _)), lower,
      by omega, exchanged.left.trans ((unchanged _).trans pivot_t), ?_, ?_⟩
    · intro k y lower' before at_k
      rw [exchanged.same k (by omega) (by omega), unchanged] at at_k
      exact parting.below k y lower' (by simp only; omega) at_k
    · intro k y after upper' at_k
      by_cases at_last : k = last
      · subst at_last
        rw [exchanged.right, unchanged, here] at at_k
        rwa [← Option.some.inj at_k]
      · rw [exchanged.same k (by omega) at_last, unchanged] at at_k
        exact parting.above k y (by simp only; omega) (by omega) at_k
  · intro below
    -- Only next to the pivot's cell can the scans meet at a value below the pivot.
    have next : p = last - 1 := by
      cases parting.stands with
      | inl unmoved => exact unmoved
      | inr standing =>
          obtain ⟨y, here', above⟩ := standing
          have same := Option.some.inj (here.symm.trans here')
          omega
    subst next
    have no_underflow : INT_MIN ≤ last - 1 + 1 := by unfold INT_MIN; omega
    apply (ends_lift (addInt_eq_some no_underflow (by omega))).mono
    rintro _ _ ⟨rfl, rfl⟩
    rw [Int.sub_add_cancel]
    refine ⟨reads, by omega, le_refl _, (unchanged _).trans pivot_t, ?_, fun k y _ _ => by omega⟩
    intro k y lower' before at_k
    rw [unchanged] at at_k
    by_cases met : k = last - 1
    · rw [met, here] at at_k
      rw [← Option.some.inj at_k]
      omega
    · exact parting.below k y lower' (by simp only; omega) at_k

/-! ### The recursion -/

/-- Both sides sorted around the pivot. -/
theorem Parted.sorted {q : Int} {u v : Cells Int} (parted : Parted mid start last s q t)
    (first : Within start (q - 1) t u) (sorted : Sorted start (q - 1) u)
    (second : Within (q + 1) last u v) (sorted' : Sorted (q + 1) last v) :
    Sorted start last v := by
  have pivot : v.peek q = some mid := by
    rw [second.same q (by omega), first.same q (by omega), parted.pivot]
  have below : ∀ k x, start ≤ k → k ≤ q - 1 → v.peek k = some x → x < mid := by
    intro k x lower upper at_k
    rw [second.same k (by omega)] at at_k
    exact first.all parted.below k x lower upper at_k
  have above : ∀ k x, q + 1 ≤ k → k ≤ last → v.peek k = some x → mid ≤ x := by
    apply second.all (P := (mid ≤ ·))
    intro k x lower upper at_k
    rw [first.same k (by omega)] at at_k
    exact parted.above k x lower upper at_k
  intro i j x y lower le upper at_i at_j
  rcases lt_trichotomy i q with before | rfl | after
  · rcases lt_trichotomy j q with before' | rfl | after'
    · rw [second.same i (by omega)] at at_i
      rw [second.same j (by omega)] at at_j
      exact sorted i j x y lower le (by omega) at_i at_j
    · have lt := below i x lower (by omega) at_i
      have eq := Option.some.inj (pivot.symm.trans at_j)
      omega
    · have lt := below i x lower (by omega) at_i
      have ge := above j y (by omega) upper at_j
      omega
  · have eq := Option.some.inj (pivot.symm.trans at_i)
    by_cases same : i = j
    · subst same
      exact (Option.some.inj (at_i.symm.trans at_j)).le
    · have ge := above j y (by omega) upper at_j
      omega
  · exact sorted' i j x y (by omega) le upper at_i at_j

theorem ends_quick_sort_recursive (nonneg : 0 ≤ start) (inside : last < s.cells.length)
    (fits : last < INT_MAX) (enough : 2 * (last - start) < fuel) (positive : 0 < fuel) :
    Ends (quick_sort_recursive fuel start last) s fun _ t =>
      Within start last s t ∧ Sorted start last t := by
  induction fuel generalizing start last s with
  | zero => exact absurd positive (Nat.lt_irrefl 0)
  | succ fuel ih =>
      rw [quick_sort_recursive]
      apply Ends.ite
      · intro short
        apply Ends.pure
        refine ⟨Within.refl .., ?_⟩
        intro i j x y lower le upper at_i at_j
        obtain rfl : i = j := by omega
        exact (Option.some.inj (at_i.symm.trans at_j)).le
      · intro long
        obtain ⟨mid, pivot⟩ := peek_of_lt (s := s) (i := last) (by omega) inside
        apply Ends.bind (ends_read pivot)
        rintro _ s₁ ⟨rfl, cells₁, touches₁⟩
        have read : Within start last s s₁ :=
          Within.of_cells_eq cells₁ (touches₁.mono (by omega) (le_refl _))
        have no_underflow : INT_MIN ≤ last + -1 := by unfold INT_MIN; omega
        apply Ends.bind (ends_lift (addInt_eq_some no_underflow (by omega)))
        rintro _ _ ⟨rfl, rfl⟩
        apply Ends.bind (ends_partition nonneg (by omega) (by rw [cells₁]; exact inside)
          (by omega) (by omega))
        rintro ⟨p, p'⟩ s₂ ⟨parting, met⟩
        obtain rfl : p = p' := met
        apply Ends.bind (ends_place_pivot parting nonneg (by rw [cells₁]; exact inside)
          (by omega) ((peek_congr cells₁ last).trans pivot))
        rintro q s₃ parted
        have lower := parted.lower
        have upper := parted.upper
        have whole := read.trans parted.within
        have length := whole.length_eq
        have least : INT_MIN ≤ 0 := by decide
        apply Ends.bind (R := fun _ t => Within start (q - 1) s₃ t ∧ Sorted start (q - 1) t)
        · apply Ends.ite
          · intro after
            apply Ends.bind (ends_lift (addInt_eq_some (by omega) (by omega)))
            rintro _ _ ⟨rfl, rfl⟩
            exact ih nonneg (by omega) (by omega) (by omega) (by omega)
          · intro at_zero
            apply Ends.pure
            exact ⟨Within.refl .., fun i j x y _ _ _ => by omega⟩
        · rintro _ s₄ ⟨first, sorted⟩
          have length' := first.length_eq
          apply Ends.bind (ends_lift (addInt_eq_some (by omega) (by omega)))
          rintro _ _ ⟨rfl, rfl⟩
          apply (ih (by omega) (by omega) fits (by omega) (by omega)).mono
          rintro _ t ⟨second, sorted'⟩
          refine ⟨?_, parted.sorted first sorted second sorted'⟩
          exact (whole.trans (first.mono (le_refl _) (by omega))).trans
            (second.mono (by omega) (le_refl _))

/-- `quick_sort` sorts the first `len` elements and leaves the others alone, and the recursion
accesses nothing outside its range. -/
theorem quick_sort_sorts (arr : List Int) (len : Int) (nonneg : 0 ≤ len)
    (inside : len ≤ arr.length) (fits : len ≤ INT_MAX) (fuel : Nat) (enough : 2 * len < fuel) :
    Ends (quick_sort fuel len) ⟨arr, []⟩ (fun _ out =>
        (out.cells.take len.toNat).Pairwise (· ≤ ·) ∧
        (out.cells.take len.toNat).Perm (arr.take len.toNat) ∧
        out.cells.drop len.toNat = arr.drop len.toNat) ∧
      ∀ start last, 0 ≤ start → last < len →
        Ends (quick_sort_recursive fuel start last) ⟨arr, []⟩ fun _ out =>
          ∀ i ∈ out.touched, start ≤ i ∧ i ≤ last := by
  obtain ⟨n, rfl⟩ := Int.eq_ofNat_of_zero_le nonneg
  constructor
  · have least : INT_MIN ≤ (n : Int) + -1 := by unfold INT_MIN; omega
    apply Ends.bind (ends_lift (addInt_eq_some least (by omega)))
    rintro _ _ ⟨rfl, rfl⟩
    have recursion : Ends (quick_sort_recursive fuel 0 (n + -1)) ⟨arr, []⟩ _ :=
      ends_quick_sort_recursive (le_refl _) (by simp only; omega) (by omega) (by omega) (by omega)
    apply recursion.mono
    rintro _ out ⟨within, sorted⟩
    obtain ⟨perm, rest⟩ := within.take_perm
    exact ⟨sorted.pairwise, perm, rest⟩
  · intro start last start_nonneg lt
    have recursion : Ends (quick_sort_recursive fuel start last) ⟨arr, []⟩ _ :=
      ends_quick_sort_recursive start_nonneg (by simp only; omega) (by omega) (by omega) (by omega)
    apply recursion.mono
    rintro _ out ⟨within, _⟩ i mem
    obtain ⟨new, touched, bounds⟩ := within.touches
    rw [List.append_nil] at touched
    exact bounds i (touched ▸ mem)

theorem quick_sort_sorts_duplicates :
    Ends (quick_sort 32 9) ⟨[1, 3, 5, 6, 7, 8, 5, 2, 3], []⟩ (fun _ out =>
        (out.cells.take 9).Pairwise (· ≤ ·) ∧
        (out.cells.take 9).Perm [1, 3, 5, 6, 7, 8, 5, 2, 3] ∧ out.cells.drop 9 = []) ∧
      ∀ start last, 0 ≤ start → last < 9 →
        Ends (quick_sort_recursive 32 start last) ⟨[1, 3, 5, 6, 7, 8, 5, 2, 3], []⟩ fun _ out =>
          ∀ i ∈ out.touched, start ≤ i ∧ i ≤ last :=
  quick_sort_sorts [1, 3, 5, 6, 7, 8, 5, 2, 3] 9 (by decide) (by decide) (by decide) 32 (by decide)

example : (match quick_sort 32 9 ⟨[1, 3, 5, 6, 7, 8, 5, 2, 3], []⟩ with
    | .done (_, out) => out.cells
    | _ => []) = [1, 2, 3, 3, 5, 5, 6, 7, 8] := by decide +kernel

end CFunc.QuickSort
