import CFunc.Lib.Byte
import Mathlib.Tactic.Ring

/-!
A flat memory of bytes, with little-endian words of four bytes.

`zeroByte_iff` is about the usual test for a zero byte in a word: subtracting
one from every byte borrows from a byte's top bit only if a byte is zero.
`Moved` is what moving a region leaves, and `Moved.first` and `Moved.last` build
it from either end.
-/

namespace CFunc.Lib

/-- The bytes by their addresses. -/
abbrev Memory := Nat → Byte

namespace Memory

abbrev Word := BitVec 32

/-- Byte `b` of a word. -/
def byte (w : Word) (b : Nat) : Byte := w.extractLsb' (8 * b) 8

/-- `*s = c` -/
def put (m : Memory) (s : Nat) (c : Byte) : Memory := fun x => if x = s then c else m x

/-- `*(unsigned long *) s` -/
def load (m : Memory) (s : Nat) : Word := m (s + 3) ++ m (s + 2) ++ m (s + 1) ++ m s

/-- `*(unsigned long *) s = w` -/
def store (m : Memory) (s : Nat) (w : Word) : Memory := fun x =>
  if s ≤ x ∧ x < s + 4 then byte w (x - s) else m x

theorem toNat_byte (w : Word) (b : Nat) : (byte w b).toNat = w.toNat / 2 ^ (8 * b) % 256 := by
  rw [byte, BitVec.extractLsb'_toNat, Nat.shiftRight_eq_div_pow]

theorem byte_load (m : Memory) (s : Nat) {b : Nat} (lt : b < 4) :
    byte (load m s) b = m (s + b) := by
  refine BitVec.eq_of_getLsbD_eq fun i i_lt => ?_
  simp only [byte, load, BitVec.getLsbD_extractLsb', BitVec.getLsbD_append, i_lt, decide_true,
    Bool.true_and]
  match b, lt with
  | 0, _ => simp [i_lt]
  | 1, _ => simp [i_lt]
  | 2, _ =>
      have first : ¬ 16 + i < 8 := by omega
      have second : 16 + i - 8 = 8 + i := by omega
      simp [i_lt, first, second]
  | 3, _ =>
      have first : ¬ 24 + i < 8 := by omega
      have second : 24 + i - 8 = 16 + i := by omega
      have second_out : ¬ 16 + i < 8 := by omega
      have third : 16 + i - 8 = 8 + i := by omega
      simp [i_lt, first, second, second_out, third]

theorem store_inside {m : Memory} {s : Nat} {w : Word} {b : Nat} (lt : b < 4) :
    store m s w (s + b) = byte w b := by
  rw [store, if_pos (by omega), Nat.add_sub_cancel_left]

theorem store_outside {m : Memory} {s x : Nat} {w : Word} (outside : ¬ (s ≤ x ∧ x < s + 4)) :
    store m s w x = m x :=
  if_neg outside

/-- Words with the same bytes are the same. -/
theorem eq_of_bytes {w w' : Word} (same : ∀ b < 4, byte w b = byte w' b) : w = w' := by
  have value (b : Nat) (lt : b < 4) := congrArg BitVec.toNat (same b lt)
  simp only [toNat_byte] at value
  have value0 := value 0 (by decide)
  have value1 := value 1 (by decide)
  have value2 := value 2 (by decide)
  have value3 := value 3 (by decide)
  apply BitVec.eq_of_toNat_eq
  have lt := w.isLt
  have lt' := w'.isLt
  omega

/-- The top bits of the bytes. -/
theorem getLsbD_mask (i : Nat) :
    (0x80808080 : Word).getLsbD i = (i == 7 || i == 15 || i == 23 || i == 31) := by
  by_cases inside : i < 32
  · have all : ∀ i : Fin 32, (0x80808080 : Word).getLsbD i.val =
        (i.val == 7 || i.val == 15 || i.val == 23 || i.val == 31) := by decide
    exact all ⟨i, inside⟩
  · rw [BitVec.getLsbD_of_ge _ _ (Nat.le_of_not_lt inside)]
    simp
    omega

theorem getLsbD_eq_div (w : Word) (i : Nat) :
    w.getLsbD i = decide (w.toNat / 2 ^ i % 2 = 1) := by
  rw [BitVec.getLsbD, Nat.testBit_eq_decide_div_mod_eq]

theorem zeroByte_iff (w : Word) :
    ((w - 0x01010101) &&& ~~~w) &&& 0x80808080 ≠ 0 ↔ ∃ b < 4, byte w b = 0 := by
  have diff : (w - 0x01010101).toNat = (2 ^ 32 - 0x01010101 + w.toNat) % 2 ^ 32 :=
    BitVec.toNat_sub w _
  have lt := w.isLt
  have bit {i : Nat} (inside : i < 32) : ((w - 0x01010101) &&& ~~~w).getLsbD i = true ↔
      (2 ^ 32 - 0x01010101 + w.toNat) % 2 ^ 32 / 2 ^ i % 2 = 1 ∧ w.toNat / 2 ^ i % 2 ≠ 1 := by
    rw [BitVec.getLsbD_and, BitVec.getLsbD_not, getLsbD_eq_div, getLsbD_eq_div, diff]
    simp [inside]
  have zero (b : Nat) : byte w b = 0 ↔ w.toNat / 2 ^ (8 * b) % 256 = 0 := by
    rw [← toNat_byte, ← BitVec.toNat_inj]
    rfl
  constructor
  · intro flagged
    by_contra no_zero
    refine flagged (BitVec.eq_of_getLsbD_eq fun i inside => ?_)
    have some (b : Nat) (b_lt : b < 4) : w.toNat / 2 ^ (8 * b) % 256 ≠ 0 :=
      fun is_zero => no_zero ⟨b, b_lt, (zero b).mpr is_zero⟩
    have some0 := some 0 (by decide)
    have some1 := some 1 (by decide)
    have some2 := some 2 (by decide)
    have some3 := some 3 (by decide)
    have none : (0 : Word).getLsbD i = false := BitVec.getLsbD_zero
    rw [BitVec.getLsbD_and, getLsbD_mask, none, Bool.and_eq_false_iff]
    by_contra both
    obtain ⟨set, top⟩ := not_or.mp both
    rw [Bool.not_eq_false, bit inside] at set
    simp only [Bool.not_eq_false, Bool.or_eq_true, beq_iff_eq] at top
    rcases top with ((rfl | rfl) | rfl) | rfl <;> omega
  · rintro ⟨b, b_lt, is_zero⟩ clear
    have unset {i : Nat} (inside : i < 32)
        (top : (i == 7 || i == 15 || i == 23 || i == 31) = true) :
        ¬ ((2 ^ 32 - 0x01010101 + w.toNat) % 2 ^ 32 / 2 ^ i % 2 = 1 ∧ w.toNat / 2 ^ i % 2 ≠ 1) := by
      rw [← bit inside, Bool.not_eq_true]
      have none : (((w - 0x01010101) &&& ~~~w) &&& 0x80808080).getLsbD i = false := by
        rw [clear]
        exact BitVec.getLsbD_zero
      rwa [BitVec.getLsbD_and, getLsbD_mask, top, Bool.and_true] at none
    have unset7 := unset (by decide : 7 < 32) rfl
    have unset15 := unset (by decide : 15 < 32) rfl
    have unset23 := unset (by decide : 23 < 32) rfl
    have unset31 := unset (by decide : 31 < 32) rfl
    rw [zero] at is_zero
    -- the top bit of the lowest zero byte is set by the subtraction
    match b, b_lt with
    | 0, _ => omega
    | 1, _ => omega
    | 2, _ => omega
    | 3, _ => omega

/-! ### Moving a region -/

theorem put_same (m : Memory) (s : Nat) (c : Byte) : put m s c s = c := if_pos rfl

theorem put_other (m : Memory) {s x : Nat} (c : Byte) (other : x ≠ s) : put m s c x = m x :=
  if_neg other

/-- `m'` has the `n` bytes that `m` has at `src` at `dest`, and is `m` elsewhere. -/
structure Moved (m m' : Memory) (dest src n : Nat) : Prop where
  region : ∀ i < n, m' (dest + i) = m (src + i)
  outside : ∀ x, ¬ (dest ≤ x ∧ x < dest + n) → m' x = m x

theorem Moved.nothing (m : Memory) (dest src : Nat) : Moved m m dest src 0 where
  region i lt := absurd lt i.not_lt_zero
  outside _ _ := rfl

section Moved

variable {m m' : Memory} {dest src n : Nat}

/-- The first byte goes before the others, which it does not overwrite. -/
theorem Moved.first (others : Moved (put m dest (m src)) m' (dest + 1) (src + 1) n)
    (intact : ∀ i < n, src + 1 + i ≠ dest) : Moved m m' dest src (n + 1) where
  region i lt := by
    cases i with
    | zero =>
        have before : ¬ (dest + 1 ≤ dest ∧ dest < dest + 1 + n) := by omega
        rw [Nat.add_zero, Nat.add_zero, others.outside dest before, put_same]
    | succ i =>
        have lt' : i < n := Nat.lt_of_succ_lt_succ lt
        rw [Nat.add_comm i 1, ← Nat.add_assoc, ← Nat.add_assoc, others.region i lt',
          put_other _ _ (intact i lt')]
  outside x out := by
    have out' : ¬ (dest + 1 ≤ x ∧ x < dest + 1 + n) := by omega
    have other : x ≠ dest := by omega
    rw [others.outside x out', put_other _ _ other]

/-- The last byte goes before the others, which it does not overwrite. -/
theorem Moved.last (others : Moved (put m (dest + n) (m (src + n))) m' dest src n)
    (intact : ∀ i < n, src + i ≠ dest + n) : Moved m m' dest src (n + 1) where
  region i lt := by
    rcases Nat.lt_succ_iff_lt_or_eq.mp lt with earlier | rfl
    · rw [others.region i earlier, put_other _ _ (intact i earlier)]
    · have behind : ¬ (dest ≤ dest + i ∧ dest + i < dest + i) := by omega
      rw [others.outside _ behind, put_same]
  outside x out := by
    have out' : ¬ (dest ≤ x ∧ x < dest + n) := by omega
    have other : x ≠ dest + n := by omega
    rw [others.outside x out', put_other _ _ other]

end Moved

/-! ### Writing bytes -/

/-- These bytes from address `s` on. -/
def write (m : Memory) (s : Nat) (bs : List Byte) : Memory := fun x =>
  if s ≤ x ∧ x < s + bs.length then bs.getD (x - s) 0 else m x

section Write

variable {m : Memory} {s i x : Nat} {bs : List Byte}

theorem write_inside (lt : i < bs.length) : write m s bs (s + i) = bs.getD i 0 := by
  rw [write, if_pos (by omega), Nat.add_sub_cancel_left]

theorem write_outside (outside : ¬ (s ≤ x ∧ x < s + bs.length)) : write m s bs x = m x :=
  if_neg outside

end Write

/-! ### Strings -/

/-- The characters of the string at `s`, which a `NUL` follows. -/
def StringAt (m : Memory) : Nat → List Byte → Prop
  | s, [] => m s = 0
  | s, c :: text => m s = c ∧ c ≠ 0 ∧ StringAt m (s + 1) text

instance decidableStringAt (m : Memory) : (s : Nat) → (text : List Byte) →
    Decidable (StringAt m s text)
  | s, [] => inferInstanceAs (Decidable (m s = 0))
  | s, c :: text =>
      haveI := decidableStringAt m (s + 1) text
      inferInstanceAs (Decidable (m s = c ∧ c ≠ 0 ∧ StringAt m (s + 1) text))

section StringAt

variable {m m' : Memory} {s : Nat} {text later : List Byte}

/-- Only the string's own bytes and its `NUL` matter. -/
theorem StringAt.frame (at_s : StringAt m s text)
    (same : ∀ x, s ≤ x → x ≤ s + text.length → m' x = m x) : StringAt m' s text := by
  induction text generalizing s with
  | nil => exact (same s (Nat.le_refl s) (Nat.le_refl s)).trans at_s
  | cons c text ih =>
      obtain ⟨first, some_char, others⟩ := at_s
      rw [List.length_cons] at same
      refine ⟨(same s (Nat.le_refl s) (by omega)).trans first, some_char, ih others ?_⟩
      intro x low high
      exact same x (by omega) (by omega)

theorem StringAt.skip (at_s : StringAt m s (text ++ later)) :
    StringAt m (s + text.length) later := by
  induction text generalizing s with
  | nil => exact at_s
  | cons c text ih =>
      rw [List.length_cons, Nat.add_comm text.length 1, ← Nat.add_assoc]
      exact ih at_s.2.2

/-- A `NUL` cuts the string. -/
theorem StringAt.cut (at_s : StringAt m s (text ++ later)) :
    StringAt (put m (s + text.length) 0) s text := by
  induction text generalizing s with
  | nil => exact put_same m s 0
  | cons c text ih =>
      obtain ⟨first, some_char, others⟩ := at_s
      have before : s ≠ s + (c :: text).length := by
        rw [List.length_cons]
        omega
      refine ⟨(put_other m 0 before).trans first, some_char, ?_⟩
      rw [List.length_cons, Nat.add_comm text.length 1, ← Nat.add_assoc]
      exact ih others

end StringAt

end Memory

end CFunc.Lib
