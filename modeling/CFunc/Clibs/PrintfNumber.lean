import CFunc.Clibs.PrintfText
import CFunc.Lib.Numeral

/-!
`number` of `clibs/printf.c`, for every base.

`vsnprintf` passes bases 8, 10 and 16, for which `number` was translated
already (`number_ofBase`); here the base is any `int`. The text of a number is
laid out by its flags, and one text goes to every sink (`number_emits`): its
digits are those of the low word, since `do_div` drops the high one.
-/

namespace CFunc.Clibs.Printf.AnyBase

open CFunc.Lib

/-! ### The code -/

/-- The quotient and the remainder of `do_div`. -/
def do_div (n : BitVec 64) (base : CInt) : BitVec 64 × Nat :=
  let low := n.toNat % 2 ^ 32
  (BitVec.ofNat 64 (low / base.toNat), low % base.toNat)

/-- `while (num != 0) tmp[i++] = digits[do_div(num,base)];`, for as many rounds as `tmp`
has room. -/
def digitLoop (digits : List Byte) (base : CInt) : Nat → BitVec 64 → List Byte
  | 0, _ => []
  | fuel + 1, num =>
      if num = 0 then []
      else digits.getD (do_div num base).2 0 :: digitLoop digits base fuel (do_div num base).1

/-- `tmp` up to `i`. -/
def numberDigits (digits : List Byte) (base : CInt) (num : BitVec 64) : List Byte :=
  if num = 0 then [chr '0'] else digitLoop digits base 66 num

section Output

variable {σ : Type} (S : Sink Byte Ptr σ)

/-- The prefix of `SPECIAL`. -/
def putPrefix (digits : List Byte) (base type : CInt) (o : σ) : σ :=
  if type &&& SPECIAL ≠ 0 then
    if base = 8 then S.put (chr '0') o
    else if base = 16 then S.put (digits.getD 33 0) (S.put (chr '0') o)
    else o
  else o

/-- `number` from its first store on. -/
def putNumber (digits tmp : List Byte) (c sign : Byte) (base size precision type : CInt)
    (o : σ) : σ :=
  let (size, o) :=
    if type &&& (ZEROPAD + LEFT) = 0 then padAfter S (chr ' ') 0 size o else (size, o)
  let o := if sign ≠ 0 then S.put sign o else o
  let o := putPrefix S digits base type o
  let (size, o) := if type &&& LEFT = 0 then padAfter S c 0 size o else (size, o)
  let (_, o) := padAfter S (chr '0') (BitVec.ofNat 32 tmp.length) precision o
  let o := S.putAll tmp.reverse o
  let (_, o) := padAfter S (chr ' ') 0 size o
  o

/-- `number`, which gives up on a base that it has no digits for. -/
def number (num : BitVec 64) (base size precision type : CInt) (o : σ) : Option σ :=
  let digits := if type &&& LARGE ≠ 0 then large_digits else small_digits
  let type := if type &&& LEFT ≠ 0 then type &&& ~~~ZEROPAD else type
  if base.slt 2 ∨ BitVec.slt 36 base then none
  else
    let c := if type &&& ZEROPAD ≠ 0 then chr '0' else chr ' '
    let (sign, num, size) := numberSign num size type
    let size :=
      if type &&& SPECIAL ≠ 0 then
        if base = 16 then size - 2 else if base = 8 then size - 1 else size
      else size
    let tmp := numberDigits digits base num
    let i := BitVec.ofNat 32 tmp.length
    let precision := if precision.slt i then i else precision
    some (putNumber S digits tmp c sign base (size - precision) precision type o)

end Output

/-! ### The bases of `vsnprintf` -/

def ofBase (base : Base) : CInt := BitVec.ofNat 32 base.toNat

theorem do_div_ofBase (n : BitVec 64) (base : Base) :
    do_div n (ofBase base) = Printf.do_div n base := by
  cases base <;> rfl

theorem digitLoop_ofBase (digits : List Byte) (base : Base) (fuel : Nat) (num : BitVec 64) :
    digitLoop digits (ofBase base) fuel num = Printf.digitLoop digits base fuel num := by
  induction fuel generalizing num with
  | zero => rfl
  | succ fuel ih => rw [digitLoop, Printf.digitLoop, do_div_ofBase, ih]

variable {σ : Type} (S : Sink Byte Ptr σ)

theorem number_ofBase (num : BitVec 64) (base : Base) (size precision type : CInt) (o : σ) :
    number S num (ofBase base) size precision type o =
      some (Printf.number S num base size precision type o) := by
  have digits (table : List Byte) (num : BitVec 64) :
      numberDigits table (ofBase base) num = Printf.numberDigits table base num := by
    rw [numberDigits, Printf.numberDigits, digitLoop_ofBase]
  have known : ¬ ((ofBase base).slt 2 ∨ BitVec.slt 36 (ofBase base)) := by cases base <;> decide
  simp only [number, if_neg known, digits, Printf.number, Option.some.injEq]
  cases base <;> rfl

/-! ### Texts of numbers -/

def digitTable (type : CInt) : List Byte :=
  if type &&& LARGE ≠ 0 then large_digits else small_digits

/-- The number is read as signed with `SIGN`. -/
def magnitude (num : BitVec 64) (type : CInt) : Nat :=
  if type &&& SIGN ≠ 0 then num.toInt.natAbs else num.toNat

def signText (num : BitVec 64) (type : CInt) : List Byte :=
  if type &&& SIGN ≠ 0 then
    if num.toInt < 0 then [chr '-']
    else if type &&& PLUS ≠ 0 then [chr '+']
    else if type &&& SPACE ≠ 0 then [chr ' ']
    else []
  else []

def prefixText (base type : CInt) : List Byte :=
  if type &&& SPECIAL ≠ 0 then
    if base = 8 then [chr '0']
    else if base = 16 then [chr '0', if type &&& LARGE ≠ 0 then chr 'X' else chr 'x']
    else []
  else []

/-- The characters of digits. -/
def figures (type : CInt) (ds : List Nat) : List Byte :=
  ds.map fun d => (digitTable type).getD d 0

/-- Padding in three places, with the zeros of the precision and the digits, the least first. -/
def layout (lead : Nat) (sign pre : List Byte) (c : Byte) (fill zeros : Nat) (tmp : List Byte)
    (trail : Nat) : List Byte :=
  List.replicate lead (chr ' ') ++ (sign ++ (pre ++ (List.replicate fill c ++
    (List.replicate zeros (chr '0') ++ (tmp.reverse ++ List.replicate trail (chr ' '))))))

/-- The flags put the padding behind the digits, between prefix and digits or in front. -/
def arranged (type : CInt) (sign pre : List Byte) (pad zeros : Nat) (tmp : List Byte) :
    List Byte :=
  if type &&& LEFT ≠ 0 then layout 0 sign pre (chr ' ') 0 zeros tmp pad
  else if type &&& ZEROPAD ≠ 0 then layout 0 sign pre (chr '0') pad zeros tmp 0
  else layout pad sign pre (chr ' ') 0 zeros tmp 0

/-- The text shows the digits `ds` of the number and has the length asked for. -/
structure Shows (num : BitVec 64) (base size precision type : CInt) (t : List Byte)
    (ds : List Nat) (pad : Nat) : Prop where
  numeral : Numeral base.toNat (magnitude num type) ds
  text : t = arranged type (signText num type) (prefixText base type) pad
    (max precision.toInt ds.length - ds.length).toNat (figures type ds)
  length : (t.length : Int) = max size.toInt
    ((signText num type).length + (prefixText base type).length + max precision.toInt ds.length)

/-- `number` writes the text, to any sink. -/
def Emits (num : BitVec 64) (base size precision type : CInt) (t : List Byte) : Prop :=
  ∀ (σ : Type) (S : Sink Byte Ptr σ) (o : σ),
    number S num base size precision type o = some (S.putAll t o)

/-- `number` prints the number it is given. -/
def Prints (num : BitVec 64) (base size precision type : CInt) : Prop :=
  ∃ t ds pad, Emits num base size precision type t ∧
    Shows num base size precision type t ds pad

/-! ### Padding -/

section Padding

variable {σ : Type} (S : Sink Byte Ptr σ)

/-- What `while (n-- > 0)` leaves of `n`. -/
def spill (n : CInt) : CInt := if (0 : CInt).slt n then 0 - 1 else n - 1

/-- A padding loop writes as often as its counter is above its bound. -/
theorem padAfter_putAll (c : Byte) (low n : CInt) (o : σ) :
    padAfter S c low n o = (if low.slt n then low - 1 else n - 1,
      S.putAll (List.replicate (n.toInt - low.toInt).toNat c) o) := by
  generalize rounds : (n.toInt - low.toInt).toNat = k
  induction k generalizing n o with
  | zero =>
      have done : ¬ low.slt n = true := by
        rw [BitVec.slt_iff_toInt_lt]
        omega
      rw [padAfter_eq, if_neg done, if_neg done]
      rfl
  | succ k ih =>
      have more : low.slt n = true := by
        rw [BitVec.slt_iff_toInt_lt]
        omega
      have pred := toInt_pred more
      rw [padAfter_eq, if_pos more, if_pos more, ih (n - 1) (S.put c o) (by omega)]
      congr 1
      split
      · rfl
      · next last =>
          have same : n - 1 = low := by
            rw [BitVec.slt_iff_toInt_lt] at last
            exact BitVec.eq_of_toInt_eq (by omega)
          rw [same]

theorem padAfter_zero (c : Byte) (n : CInt) (o : σ) :
    padAfter S c 0 n o = (spill n, S.putAll (List.replicate n.toInt.toNat c) o) := by
  have zero : (0 : CInt).toInt = 0 := rfl
  rw [padAfter_putAll, spill, zero, Int.sub_zero]

end Padding

/-! ### The parts of a text -/

/-- `type` after the test of `LEFT`. -/
def noPad (type : CInt) : CInt := if type &&& LEFT ≠ 0 then type &&& ~~~ZEROPAD else type

theorem noPad_and {type mask : CInt} (other : ~~~ZEROPAD &&& mask = mask) :
    noPad type &&& mask = type &&& mask := by
  rw [noPad]
  split
  · rw [BitVec.and_assoc, other]
  · rfl

theorem noPad_zeropad {type : CInt} :
    noPad type &&& ZEROPAD ≠ 0 ↔ type &&& LEFT = 0 ∧ type &&& ZEROPAD ≠ 0 := by
  rw [noPad]
  split
  · next left =>
      rw [BitVec.and_assoc, show ~~~ZEROPAD &&& ZEROPAD = 0 by decide]
      exact iff_of_false (fun nonzero => nonzero BitVec.and_zero) fun both => left both.1
  · next right => simp [not_not.mp right]

theorem noPad_leading {type : CInt} :
    noPad type &&& (ZEROPAD + LEFT) = 0 ↔ type &&& LEFT = 0 ∧ type &&& ZEROPAD = 0 := by
  have both : ZEROPAD + LEFT = ZEROPAD ||| LEFT := by decide
  have left : noPad type &&& LEFT = type &&& LEFT := noPad_and (by decide)
  have pad : noPad type &&& ZEROPAD ≠ 0 ↔ type &&& LEFT = 0 ∧ type &&& ZEROPAD ≠ 0 :=
    noPad_zeropad
  have either {x y : CInt} : x ||| y = 0 ↔ x = 0 ∧ y = 0 := BitVec.or_eq_zero_iff
  rw [both, BitVec.and_or_distrib_left, either, left]
  constructor
  · rintro ⟨none_padded, right⟩
    refine ⟨right, by_contra fun zeros => ?_⟩
    exact pad.mpr ⟨right, zeros⟩ none_padded
  · rintro ⟨right, blanks⟩
    refine ⟨by_contra fun padded => ?_, right⟩
    exact (pad.mp padded).2 blanks

theorem toNat_neg {num : BitVec 64} (negative : num.toInt < 0) :
    (-num).toNat = num.toInt.natAbs := by
  have bound := num.isLt
  rw [BitVec.toInt_eq_toNat_cond] at negative ⊢
  rw [BitVec.toNat_neg]
  split at negative
  · omega
  · next high =>
      rw [if_neg high]
      omega

/-- The sign, the magnitude and what the sign takes of `size`. -/
theorem numberSign_eq (num : BitVec 64) (size type : CInt) :
    ∃ sign num', numberSign num size (noPad type) =
        (sign, num', size - BitVec.ofNat 32 (signText num type).length) ∧
      num'.toNat = magnitude num type ∧
      ∀ {σ : Type} (S : Sink Byte Ptr σ) (o : σ),
        (if sign ≠ 0 then S.put sign o else o) = S.putAll (signText num type) o := by
  have sign : noPad type &&& SIGN = type &&& SIGN := noPad_and (by decide)
  have plus : noPad type &&& PLUS = type &&& PLUS := noPad_and (by decide)
  have space : noPad type &&& SPACE = type &&& SPACE := noPad_and (by decide)
  have negative : num.slt 0 = true ↔ num.toInt < 0 := BitVec.slt_iff_toInt_lt
  rw [numberSign, sign, plus, space]
  simp only [signText, magnitude, negative]
  have positive (above : ¬ num.toInt < 0) : num.toNat = num.toInt.natAbs := by
    rw [BitVec.toInt_eq_toNat_cond] at above ⊢
    have bound := num.isLt
    split at above
    · next low => rw [if_pos low, Int.natAbs_natCast]
    · omega
  have none_taken : size - BitVec.ofNat 32 0 = size := BitVec.sub_zero size
  by_cases signed : type &&& SIGN ≠ 0
  · simp only [if_pos signed]
    by_cases below : num.toInt < 0
    · simp only [if_pos below]
      exact ⟨_, _, rfl, toNat_neg below, fun S o => if_pos (by decide)⟩
    · simp only [if_neg below]
      by_cases shown : type &&& PLUS ≠ 0
      · simp only [if_pos shown]
        exact ⟨_, _, rfl, positive below, fun S o => if_pos (by decide)⟩
      · simp only [if_neg shown]
        by_cases blank : type &&& SPACE ≠ 0
        · simp only [if_pos blank]
          exact ⟨_, _, rfl, positive below, fun S o => if_pos (by decide)⟩
        · simp only [if_neg blank, List.length_nil, none_taken]
          exact ⟨_, _, rfl, positive below, fun S o => if_neg (by decide)⟩
  · simp only [if_neg signed, List.length_nil, none_taken]
    exact ⟨_, _, rfl, rfl, fun S o => if_neg (by decide)⟩

theorem digitTable_prefix (type : CInt) :
    (digitTable type).getD 33 0 = if type &&& LARGE ≠ 0 then chr 'X' else chr 'x' := by
  rw [digitTable]
  split
  · decide
  · decide

theorem digitTable_zero (type : CInt) : (digitTable type).getD 0 0 = chr '0' := by
  rw [digitTable]
  split
  · decide
  · decide

theorem putPrefix_eq {σ : Type} (S : Sink Byte Ptr σ) (base type : CInt) (o : σ) :
    putPrefix S (digitTable type) base (noPad type) o = S.putAll (prefixText base type) o := by
  have special : noPad type &&& SPECIAL = type &&& SPECIAL := noPad_and (by decide)
  rw [putPrefix, special, digitTable_prefix, prefixText]
  split
  · split
    · rfl
    · split
      · rfl
      · rfl
  · rfl

/-- What the prefix takes of `size`. -/
theorem prefix_taken (base type size : CInt) :
    (if noPad type &&& SPECIAL ≠ 0 then
      if base = 16 then size - 2 else if base = 8 then size - 1 else size
    else size) = size - BitVec.ofNat 32 (prefixText base type).length := by
  have special : noPad type &&& SPECIAL = type &&& SPECIAL := noPad_and (by decide)
  have none_taken : size - BitVec.ofNat 32 0 = size := BitVec.sub_zero size
  rw [special, prefixText]
  split
  · by_cases oct : base = 8
    · subst oct
      rfl
    · rw [if_neg oct, if_neg oct]
      split
      · rfl
      · exact none_taken.symm
  · exact none_taken.symm

/-- The low word of what is left gives the digits that are left. -/
theorem digitLoop_eq (type : CInt) {base : CInt} (some_base : 1 < base.toNat) {k : Nat} :
    ∀ {num : BitVec 64}, num.toNat < 2 ^ k → k ≤ 32 → ∀ {fuel : Nat}, k ≤ fuel →
      digitLoop (digitTable type) base fuel num = figures type (base.toNat.digits num.toNat) := by
  have nothing : base.toNat.digits (BitVec.toNat (0 : BitVec 64)) = [] := Nat.digits_zero _
  induction k with
  | zero =>
      intro num lt _ fuel _
      have zero : num = 0 := BitVec.eq_of_toNat_eq (by simpa using lt)
      rw [zero, nothing]
      cases fuel <;> rfl
  | succ k ih =>
      intro num lt le fuel fuel_le
      obtain ⟨fuel, rfl⟩ := Nat.exists_eq_add_of_le' (Nat.le_of_add_left_le fuel_le)
      rw [digitLoop]
      by_cases zero : num = 0
      · rw [if_pos zero, zero, nothing]
        rfl
      · have positive : 0 < num.toNat := by
          refine Nat.pos_of_ne_zero fun none => zero (BitVec.eq_of_toNat_eq none)
        have fits : 2 ^ (k + 1) ≤ 2 ^ 32 := Nat.pow_le_pow_right (by decide) le
        have small : num.toNat % 2 ^ 32 = num.toNat := Nat.mod_eq_of_lt (by omega)
        have less : num.toNat / base.toNat < 2 ^ k := by
          rw [Nat.div_lt_iff_lt_mul (by omega)]
          calc num.toNat < 2 ^ k * 2 := by rwa [← Nat.pow_succ]
            _ ≤ 2 ^ k * base.toNat := Nat.mul_le_mul_left _ some_base
        have quotient : (do_div num base).1.toNat = num.toNat / base.toNat := by
          rw [do_div, small, BitVec.toNat_ofNat]
          refine Nat.mod_eq_of_lt ?_
          have bound := num.isLt
          exact lt_of_le_of_lt (Nat.div_le_self _ _) bound
        have remainder : (do_div num base).2 = num.toNat % base.toNat := by rw [do_div, small]
        rw [if_neg zero, ih (by rw [quotient]; exact less) (by omega) (by omega), quotient,
          remainder, Nat.digits_def' some_base positive]
        rfl

/-- The digits are those of the low word. -/
theorem numberDigits_eq (type : CInt) {base : CInt} (some_base : 1 < base.toNat)
    (num : BitVec 64) : numberDigits (digitTable type) base num =
      figures type (numeral base.toNat (num.toNat % 2 ^ 32)) := by
  rw [numberDigits]
  by_cases zero : num = 0
  · subst zero
    have low : BitVec.toNat (0 : BitVec 64) % 2 ^ 32 = 0 := rfl
    rw [if_pos rfl, low, numeral_zero, figures, List.map_singleton, digitTable_zero]
  · rw [if_neg zero, digitLoop, if_neg zero]
    have low_lt : num.toNat % 2 ^ 32 < 2 ^ 32 := Nat.mod_lt _ (by decide)
    have quotient : (do_div num base).1.toNat = num.toNat % 2 ^ 32 / base.toNat := by
      rw [do_div, BitVec.toNat_ofNat]
      refine Nat.mod_eq_of_lt (lt_of_le_of_lt (Nat.div_le_self _ _) (by omega))
    have bound : (do_div num base).1.toNat < 2 ^ 32 := by
      rw [quotient]
      exact lt_of_le_of_lt (Nat.div_le_self _ _) low_lt
    rw [digitLoop_eq type some_base bound le_rfl (by decide), quotient, do_div]
    by_cases none_low : num.toNat % 2 ^ 32 = 0
    · rw [none_low, numeral_zero, Nat.zero_div, Nat.zero_mod, Nat.digits_zero]
      rfl
    · rw [numeral_of_ne_zero _ none_low,
        Nat.digits_def' some_base (Nat.pos_of_ne_zero none_low)]
      rfl

/-! ### What is emitted -/

/-- The padding loops with `left` in their counter. -/
def spread (type : CInt) (sign pre : List Byte) (left : CInt) (zeros : Nat) (tmp : List Byte) :
    List Byte :=
  if type &&& LEFT ≠ 0 then layout 0 sign pre (chr ' ') 0 zeros tmp left.toInt.toNat
  else if type &&& ZEROPAD ≠ 0 then
    layout 0 sign pre (chr '0') left.toInt.toNat zeros tmp (spill left).toInt.toNat
  else
    layout left.toInt.toNat sign pre (chr ' ') (spill left).toInt.toNat zeros tmp
      (spill (spill left)).toInt.toNat

/-- What of `size` is left for padding, before it is cut to an `int`. -/
def room (num : BitVec 64) (base size precision type : CInt) (count : Nat) : Int :=
  size.toInt - (signText num type).length - (prefixText base type).length -
    max precision.toInt count

/-- The digits of the low word. -/
def lowDigits (num : BitVec 64) (base type : CInt) : List Nat :=
  numeral base.toNat (magnitude num type % 2 ^ 32)

def emitted (num : BitVec 64) (base size precision type : CInt) : List Byte :=
  let ds := lowDigits num base type
  spread type (signText num type) (prefixText base type)
    (BitVec.ofInt 32 (room num base size precision type ds.length))
    (max precision.toInt ds.length - ds.length).toNat (figures type ds)

section Emission

variable {σ : Type} (S : Sink Byte Ptr σ)

theorem putAll_layout (lead : Nat) (sign pre : List Byte) (c : Byte) (fill zeros : Nat)
    (tmp : List Byte) (trail : Nat) (o : σ) :
    S.putAll (layout lead sign pre c fill zeros tmp trail) o =
      S.putAll (List.replicate trail (chr ' ')) (S.putAll tmp.reverse
        (S.putAll (List.replicate zeros (chr '0')) (S.putAll (List.replicate fill c)
          (S.putAll pre (S.putAll sign (S.putAll (List.replicate lead (chr ' ')) o)))))) := by
  simp only [layout, Sink.putAll_append]

theorem putNumber_eq {tmp sign : List Byte} {first : Byte} {base type left precision : CInt}
    (signed : ∀ o : σ, (if first ≠ 0 then S.put first o else o) = S.putAll sign o)
    {count : Nat} (counted : (BitVec.ofNat 32 tmp.length : CInt).toInt = count) (o : σ) :
    putNumber S (digitTable type) tmp
        (if noPad type &&& ZEROPAD ≠ 0 then chr '0' else chr ' ') first base left precision
        (noPad type) o =
      S.putAll (spread type sign (prefixText base type) left (precision.toInt - count).toNat tmp)
        o := by
  have none_put (o : σ) : S.putAll [] o = o := rfl
  have left_kept : noPad type &&& LEFT = type &&& LEFT := noPad_and (by decide)
  have zeros_put (o : σ) : padAfter S (chr '0') (BitVec.ofNat 32 tmp.length) precision o =
      (if (BitVec.ofNat 32 tmp.length).slt precision then BitVec.ofNat 32 tmp.length - 1
        else precision - 1,
        S.putAll (List.replicate (precision.toInt - count).toNat (chr '0')) o) := by
    rw [padAfter_putAll, counted]
  rw [putNumber, spread, left_kept]
  by_cases behind : type &&& LEFT ≠ 0
  · have blanks : ¬ noPad type &&& (ZEROPAD + LEFT) = 0 := fun both =>
      behind (noPad_leading.mp both).1
    simp only [if_neg blanks, if_neg behind, if_pos behind, padAfter_zero, zeros_put, signed,
      putPrefix_eq, putAll_layout, List.replicate_zero, none_put]
  · have right := not_not.mp behind
    by_cases zeros : type &&& ZEROPAD ≠ 0
    · have blanks : ¬ noPad type &&& (ZEROPAD + LEFT) = 0 := fun both =>
        zeros (noPad_leading.mp both).2
      simp only [if_neg blanks, if_neg behind, if_pos right, if_pos zeros,
        if_pos (noPad_zeropad.mpr ⟨right, zeros⟩), padAfter_zero, zeros_put, signed, putPrefix_eq,
        putAll_layout, List.replicate_zero, none_put]
    · have blanks := noPad_leading.mpr ⟨right, not_not.mp zeros⟩
      have none_padded : ¬ noPad type &&& ZEROPAD ≠ 0 := fun padded =>
        zeros (noPad_zeropad.mp padded).2
      simp only [if_pos blanks, if_neg behind, if_pos right, if_neg zeros, if_neg none_padded,
        padAfter_zero, zeros_put, signed, putPrefix_eq, putAll_layout]

theorem lowDigits_length (num : BitVec 64) {base : CInt} (some_base : 1 < base.toNat)
    (type : CInt) : (lowDigits num base type).length ≤ 32 := by
  refine numeral_length_le some_base (by decide) ?_
  calc magnitude num type % 2 ^ 32 < 2 ^ 32 := Nat.mod_lt _ (by decide)
    _ ≤ base.toNat ^ 32 := Nat.pow_le_pow_left some_base 32

theorem toInt_count {n : Nat} (small : n ≤ 32) : (BitVec.ofNat 32 n : CInt).toInt = n := by
  rw [BitVec.toInt_eq_toNat_cond, BitVec.toNat_ofNat]
  omega

/-- The larger of the precision and the number of digits. -/
theorem toInt_precision (precision : CInt) {n : Nat} (small : n ≤ 32) :
    (if precision.slt (BitVec.ofNat 32 n) then (BitVec.ofNat 32 n : CInt) else precision).toInt =
      max precision.toInt n := by
  have count := toInt_count small
  split
  · next less =>
      rw [BitVec.slt_iff_toInt_lt, count] at less
      rw [count, max_eq_right (le_of_lt less)]
  · next more =>
      rw [BitVec.slt_iff_toInt_lt, count, not_lt] at more
      rw [max_eq_left more]

/-- The counter of the padding loops. -/
theorem counter_eq {size a b precision : CInt} {i j k : Int} (sign : a.toInt = i)
    (pre : b.toInt = j) (digits : precision.toInt = k) :
    size - a - b - precision = BitVec.ofInt 32 (size.toInt - i - j - k) := by
  subst sign pre digits
  refine BitVec.eq_of_toInt_eq ?_
  simp [BitVec.toInt_sub, BitVec.toInt_ofInt]

theorem signText_length (num : BitVec 64) (type : CInt) : (signText num type).length ≤ 1 := by
  rw [signText]
  split_ifs
  all_goals decide

theorem prefixText_length (base type : CInt) : (prefixText base type).length ≤ 2 := by
  rw [prefixText]
  split_ifs
  all_goals simp

theorem one_lt_base {base : CInt} (lower : 2 ≤ base.toInt) : 1 < base.toNat := by
  have bound := base.isLt
  rw [BitVec.toInt_eq_toNat_cond] at lower
  split at lower
  · omega
  · omega

/-- `number` writes one text to every sink. -/
theorem number_emits (num : BitVec 64) {base : CInt} (size precision type : CInt)
    (lower : 2 ≤ base.toInt) (upper : base.toInt ≤ 36) :
    Emits num base size precision type (emitted num base size precision type) := by
  intro σ S o
  have some_base := one_lt_base lower
  have known : ¬ (base.slt 2 = true ∨ BitVec.slt 36 base = true) := by
    have two : (2 : CInt).toInt = 2 := rfl
    have most : (36 : CInt).toInt = 36 := rfl
    rw [BitVec.slt_iff_toInt_lt, BitVec.slt_iff_toInt_lt, two, most]
    omega
  obtain ⟨first, num', signs, value, signed⟩ := numberSign_eq num size type
  have cleared : (if type &&& LEFT ≠ 0 then type &&& ~~~ZEROPAD else type) = noPad type := rfl
  have table : (if type &&& LARGE ≠ 0 then large_digits else small_digits) = digitTable type := rfl
  have digits : numberDigits (digitTable type) base num' =
      figures type (lowDigits num base type) := by
    rw [numberDigits_eq type some_base, value, lowDigits]
  have few : (figures type (lowDigits num base type)).length ≤ 32 := by
    rw [figures, List.length_map]
    exact lowDigits_length num some_base type
  have wide := toInt_precision precision few
  simp only [number, if_neg known, cleared, table, signs, prefix_taken, digits,
    Option.some.injEq]
  rw [putNumber_eq S (signed S) (toInt_count few), wide,
    counter_eq (toInt_count ((signText_length num type).trans (by decide)))
      (toInt_count ((prefixText_length base type).trans (by decide))) wide]
  simp only [figures, List.length_map]
  rfl

end Emission

end CFunc.Clibs.Printf.AnyBase
