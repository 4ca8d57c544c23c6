import Mathlib.Data.Nat.Count
import Mathlib.Order.Interval.Finset.Nat

/-!
The number of one bits of a word, and what flipping a bit does to it.

`ones` counts positions with Mathlib's `Nat.count`. `ones_flip` is the lemma
the rest of a syndrome argument needs: flipping a clear bit adds one. `loop`
is the usual shift-and-test loop; `loop_eq_ones` says it computes `ones`.
-/

namespace CFunc.Lib.Bits

variable {w : Nat}

/-- The number of one bits. -/
def ones (x : BitVec w) : Nat := Nat.count (fun i => x.getLsbD i = true) w

@[simp] theorem ones_zero : ones (0#w) = 0 := by
  simp [ones, Nat.count_eq_card_filter_range]

/-- Flipping a clear bit adds a one. -/
theorem ones_flip {x : BitVec w} {i : Nat} (lt : i < w) (clear : x.getLsbD i = false) :
    ones (x ^^^ BitVec.twoPow w i) = ones x + 1 := by
  have clear' : x[i] = false := (BitVec.getLsbD_eq_getElem lt).symm.trans clear
  have insert_eq : (Finset.range w).filter (fun j => (x ^^^ BitVec.twoPow w i).getLsbD j = true) =
      insert i ((Finset.range w).filter fun j => x.getLsbD j = true) := by
    ext j
    by_cases same : j = i
    · subst same
      simp [BitVec.getLsbD_xor, BitVec.getLsbD_twoPow, lt, clear']
    · simp [BitVec.getLsbD_xor, BitVec.getLsbD_twoPow, same, Ne.symm same]
  simp only [ones, Nat.count_eq_card_filter_range, insert_eq]
  exact Finset.card_insert_of_notMem (by simp [clear])

@[simp] theorem ones_twoPow {i : Nat} (lt : i < w) : ones (BitVec.twoPow w i) = 1 := by
  have flipped := ones_flip (x := 0#w) lt (by simp)
  simpa using flipped

theorem ones_twoPow_xor {i j : Nat} (i_lt : i < w) (j_lt : j < w) (ne : i ≠ j) :
    ones (BitVec.twoPow w i ^^^ BitVec.twoPow w j) = 2 := by
  rw [ones_flip j_lt (by simp [BitVec.getLsbD_twoPow, ne]), ones_twoPow i_lt]

/-- A word and its complement have all positions between them. -/
theorem ones_add_ones_not (x : BitVec w) : ones x + ones (~~~x) = w := by
  have complement : (Finset.range w).filter (fun j => (~~~x).getLsbD j = true) =
      (Finset.range w).filter fun j => ¬ x.getLsbD j = true := by
    ext j
    simp +contextual [BitVec.getLsbD_not]
  simp only [ones, Nat.count_eq_card_filter_range, complement]
  rw [Finset.card_filter_add_card_filter_not]
  exact Finset.card_range w

theorem ones_eq_zero_iff {x : BitVec w} : ones x = 0 ↔ x = 0#w := by
  constructor
  · intro none
    apply BitVec.eq_of_getLsbD_eq
    intro i lt
    by_contra set
    have mem : i ∈ (Finset.range w).filter fun j => x.getLsbD j = true := by
      simpa [lt] using set
    rw [ones, Nat.count_eq_card_filter_range, Finset.card_eq_zero] at none
    simp [none] at mem
  · rintro rfl
    exact ones_zero

/-- `while (x) { if (x & 1) r++; x >>= 1; }`, for at most `fuel` rounds. -/
def loop : Nat → BitVec w → Nat
  | 0, _ => 0
  | fuel + 1, x => if x = 0#w then 0 else (x &&& 1#w).toNat + loop fuel (x >>> 1)

theorem and_one_toNat {x : BitVec w} (ne : x ≠ 0#w) :
    (x &&& 1#w).toNat = if x.getLsbD 0 = true then 1 else 0 := by
  have pos : 1 % 2 ^ w = 1 := by
    rcases w with _ | w
    · exact absurd (BitVec.eq_of_getLsbD_eq (by omega)) ne
    · exact Nat.mod_eq_of_lt (Nat.one_lt_two_pow (by omega))
  rw [BitVec.toNat_and, BitVec.toNat_ofNat, pos, Nat.and_one_is_mod, BitVec.getLsbD,
    Nat.testBit_zero]
  rcases Nat.mod_two_eq_zero_or_one x.toNat with h | h <;> simp [h]

theorem loop_eq_count (fuel : Nat) (x : BitVec w) :
    loop fuel x = Nat.count (fun i => x.getLsbD i = true) fuel := by
  induction fuel generalizing x with
  | zero => simp [loop]
  | succ fuel ih =>
      by_cases zero : x = 0#w
      · subst zero
        simp [loop, Nat.count_eq_card_filter_range]
      · rw [loop, if_neg zero, ih, and_one_toNat zero, Nat.count_succ']
        simp only [BitVec.getLsbD_ushiftRight, Nat.add_comm 1]
        omega

/-- After as many rounds as the word has bits the loop has stopped, with the
number of ones. -/
theorem loop_eq_ones {fuel : Nat} (enough : w ≤ fuel) (x : BitVec w) : loop fuel x = ones x := by
  rw [loop_eq_count, ones]
  obtain ⟨more, rfl⟩ := Nat.exists_eq_add_of_le enough
  rw [Nat.count_add]
  have none : Nat.count (fun k => x.getLsbD (w + k) = true) more = 0 := by
    simp [Nat.count_eq_card_filter_range]
  omega

end CFunc.Lib.Bits
