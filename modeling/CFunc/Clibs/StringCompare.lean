import CFunc.Lib.CInt
import CFunc.Lib.CString
import CFunc.Lib.FirstDifference

/-!
The comparisons of `clibs/string.c`.

Two strings are compared up to their first difference, so each function is
described by what it makes of two different characters. `strcmp` and `strncmp`
keep a difference in a `signed char`, where half of all pairs have the wrong
sign. Whether a plain `char` is signed is left to the implementation: it is a
parameter here, and an unsigned one does not help.
-/

namespace CFunc.Clibs.Strings

open CFunc.Lib

/-! ### The code -/

/-- `*s` -/
def head (s : List Byte) : Byte := s.headD 0

/-- `__res = *cs - *ct` -/
def difference (signed : Bool) (c d : Byte) : Byte := (widen signed c - widen signed d).setWidth 8

section Code

variable (signed : Bool)

/-- At the end of `cs` the loop breaks, whatever `*ct` is. -/
def strcmp : List Byte → List Byte → CInt
  | [], ct => (difference signed 0 (head ct)).signExtend 32
  | c :: cs, ct =>
      let res := difference signed c (head ct)
      if res ≠ 0 ∨ c = 0 then res.signExtend 32 else strcmp cs ct.tail

def strncmp : Nat → List Byte → List Byte → CInt
  | 0, _, _ => 0
  | count + 1, cs, ct =>
      let res := difference signed (head cs) (head ct)
      if res ≠ 0 ∨ head cs = 0 then res.signExtend 32 else strncmp count cs.tail ct.tail

/-- The ASCII mapping on 0 to 127, and the identity elsewhere. -/
def tolower (c : CInt) : CInt := if 65 ≤ c.toInt ∧ c.toInt ≤ 90 then c + 32 else c

/-- Where `--len` comes to 0 the last two characters were the same. -/
def strnicmp : Nat → List Byte → List Byte → CInt
  | 0, _, _ => 0
  | len + 1, s1, s2 =>
      let c1 := head s1
      let c2 := head s2
      if c1 = 0 ∨ c2 = 0 then c1.setWidth 32 - c2.setWidth 32
      else if c1 = c2 then strnicmp len s1.tail s2.tail
      else
        let c1 : Byte := (tolower (c1.setWidth 32)).setWidth 8
        let c2 : Byte := (tolower (c2.setWidth 32)).setWidth 8
        if c1 ≠ c2 then c1.setWidth 32 - c2.setWidth 32 else strnicmp len s1.tail s2.tail

/-- The test of the loop comes after its body, and `--n` wraps. -/
def strncasecmp : List Byte → List Byte → BitVec 32 → CInt
  | [], s2, _ => tolower (widen signed 0) - tolower (widen signed (head s2))
  | c :: s1, s2, n =>
      let c1 := tolower (widen signed c)
      let c2 := tolower (widen signed (head s2))
      if 0 < n - 1 ∧ c1 = c2 ∧ c1 ≠ 0 then strncasecmp s1 s2.tail (n - 1) else c1 - c2

end Code

/-! ### Two characters -/

/-- How far the second character is ahead of the first, around the values of a byte. -/
def ahead (x y : Byte) : Nat := (y - x).toNat

/-- The cast to `signed char` drops what the widening adds. -/
theorem difference_eq (signed : Bool) (c d : Byte) : difference signed c d = c - d := by
  have cut (a b : CInt) : (a - b).setWidth 8 = a.setWidth 8 - b.setWidth 8 := by
    refine BitVec.eq_of_toNat_eq ?_
    rw [BitVec.toNat_setWidth, BitVec.toNat_sub, BitVec.toNat_sub, BitVec.toNat_setWidth,
      BitVec.toNat_setWidth]
    omega
  have back : ∀ c : Byte, (widen true c).setWidth 8 = c := by decide +kernel
  have back' : ∀ c : Byte, (widen false c).setWidth 8 = c := by decide +kernel
  rw [difference, cut]
  cases signed with
  | true => rw [back, back]
  | false => rw [back', back']

section Characters

variable {x y w : Byte}

theorem ahead_eq_zero_iff : ahead x y = 0 ↔ x = y := by
  have bound := x.isLt
  have bound' := y.isLt
  rw [ahead, BitVec.toNat_sub, ← BitVec.toNat_inj]
  omega

theorem ahead_lt (x y : Byte) : ahead x y < 256 := (y - x).isLt

/-- Around the other way. -/
theorem ahead_swap (other : x ≠ y) : ahead y x = 256 - ahead x y := by
  have bound := x.isLt
  have bound' := y.isLt
  have values : x.toNat ≠ y.toNat := fun equal => other (BitVec.eq_of_toNat_eq equal)
  rw [ahead, ahead, BitVec.toNat_sub, BitVec.toNat_sub]
  omega

theorem ahead_add (x y w : Byte) : ahead x w = (ahead x y + ahead y w) % 256 := by
  have bound := x.isLt
  have bound' := y.isLt
  have bound'' := w.isLt
  rw [ahead, ahead, ahead, BitVec.toNat_sub, BitVec.toNat_sub, BitVec.toNat_sub]
  omega

/-- What a `signed char` makes of the difference of two characters. -/
def gap (x y : Byte) : Int := if ahead x y ≤ 128 then -(ahead x y : Int) else 256 - ahead x y

theorem toInt_difference (other : x ≠ y) : ((x - y).signExtend 32).toInt = gap x y := by
  have bound := x.isLt
  have bound' := y.isLt
  have values : x.toNat ≠ y.toNat := fun equal => other (BitVec.eq_of_toNat_eq equal)
  rw [BitVec.toInt_signExtend_of_le (by decide), BitVec.toInt_eq_toNat_cond, gap, ahead,
    BitVec.toNat_sub, BitVec.toNat_sub]
  split
  · split
    · omega
    · omega
  · split
    · omega
    · omega

theorem sub_eq_zero_iff : x - y = 0 ↔ x = y := by
  have bound := x.isLt
  have bound' := y.isLt
  have zero : (0 : Byte).toNat = 0 := rfl
  rw [← BitVec.toNat_inj, ← BitVec.toNat_inj, BitVec.toNat_sub, zero]
  omega

theorem gap_neg_iff (other : x ≠ y) : gap x y < 0 ↔ ahead x y ≤ 128 := by
  have some_ahead := mt ahead_eq_zero_iff.mp other
  have bound := ahead_lt x y
  rw [gap]
  split
  · omega
  · omega

theorem gap_pos_iff (x y : Byte) : 0 < gap x y ↔ 128 < ahead x y := by
  have bound := ahead_lt x y
  rw [gap]
  split
  · omega
  · omega

end Characters

/-! ### `strcmp` and `strncmp` -/

theorem head_eq (s : List Byte) : head s = s.getD 0 0 := by cases s <;> rfl

section Strncmp

variable {signed : Bool} {a b c : List Byte} {i n : Nat}

theorem strncmp_succ (n : Nat) (a b : List Byte) :
    strncmp signed (n + 1) a b =
      if a.getD 0 0 - b.getD 0 0 ≠ 0 ∨ a.getD 0 0 = 0 then
        (a.getD 0 0 - b.getD 0 0).signExtend 32
      else strncmp signed n a.tail b.tail := by
  rw [strncmp, difference_eq, head_eq, head_eq]

theorem strncmp_of_agree (agree : ∀ i < n, a.getD i 0 = b.getD i 0) :
    strncmp signed n a b = 0 := by
  induction n generalizing a b with
  | zero => rfl
  | succ n ih =>
      rw [strncmp_succ, agree 0 (Nat.succ_pos n), BitVec.sub_self]
      split
      · rfl
      · exact ih (agree_tail agree)

theorem not_mem_tail {z : Byte} (free : z ∉ a) : z ∉ a.tail :=
  fun member => free (List.mem_of_mem_tail member)

theorem strncmp_of_differ (free : 0 ∉ a) (free' : 0 ∉ b) (differ : Differ 0 a b i) (lt : i < n) :
    strncmp signed n a b = (a.getD i 0 - b.getD i 0).signExtend 32 := by
  induction i generalizing n a b with
  | zero =>
      obtain ⟨n, rfl⟩ := Nat.exists_eq_add_one.mpr lt
      have some_difference : a.getD 0 0 - b.getD 0 0 ≠ 0 := mt sub_eq_zero_iff.mp differ.ne
      rw [strncmp_succ, if_pos (.inl some_difference)]
  | succ i ih =>
      obtain ⟨n, rfl⟩ := Nat.exists_eq_add_one.mpr (Nat.zero_lt_of_lt lt)
      have some_char := differ.ne_terminator free free' (Nat.succ_pos i)
      rw [strncmp_succ, if_neg, ih (not_mem_tail free) (not_mem_tail free') differ.tail
        (Nat.lt_of_succ_lt_succ lt), getD_tail, getD_tail]
      rintro (some_difference | ended)
      · exact some_difference (sub_eq_zero_iff.mpr (differ.same 0 (Nat.succ_pos i)))
      · exact some_char ended

/-- `strcmp` is bounded by the end of its first string alone. -/
theorem strcmp_eq (a b : List Byte) {n : Nat} (enough : a.length < n) :
    strcmp signed a b = strncmp signed n a b := by
  induction a generalizing b n with
  | nil =>
      obtain ⟨n, rfl⟩ := Nat.exists_eq_add_one.mpr enough
      exact (if_pos (.inr rfl)).symm
  | cons c a ih =>
      obtain ⟨n, rfl⟩ := Nat.exists_eq_add_one.mpr (Nat.zero_lt_of_lt enough)
      rw [strcmp, strncmp, ih b.tail (Nat.lt_of_succ_lt_succ enough)]
      rfl

/-- What a bounded comparison finds. -/
theorem strncmp_cases (signed : Bool) (free : 0 ∉ a) (free' : 0 ∉ b) (n : Nat) :
    (∃ i < n, Differ 0 a b i ∧
      (strncmp signed n a b).toInt = gap (a.getD i 0) (b.getD i 0)) ∨
    ((∀ i < n, a.getD i 0 = b.getD i 0) ∧ strncmp signed n a b = 0) := by
  rcases exists_differ_or_agree 0 a b n with ⟨i, lt, differ⟩ | agree
  · refine .inl ⟨i, lt, differ, ?_⟩
    rw [strncmp_of_differ free free' differ lt, toInt_difference differ.ne]
  · exact .inr ⟨agree, strncmp_of_agree agree⟩

/-- A result other than 0 comes from the first difference. -/
theorem strncmp_iff (free : 0 ∉ a) (free' : 0 ∉ b) (P : Int → Prop) (not_zero : ¬ P 0) :
    P (strncmp signed n a b).toInt ↔
      ∃ i < n, Differ 0 a b i ∧ P (gap (a.getD i 0) (b.getD i 0)) := by
  rcases strncmp_cases signed free free' n with ⟨i, lt, differ, value⟩ | ⟨agree, zero⟩
  · rw [value]
    constructor
    · exact fun holds => ⟨i, lt, differ, holds⟩
    · rintro ⟨j, -, differ', holds⟩
      rwa [differ.unique differ']
  · rw [zero]
    refine iff_of_false not_zero ?_
    rintro ⟨i, lt, differ, -⟩
    exact differ.ne (agree i lt)

theorem strncmp_neg_iff (free : 0 ∉ a) (free' : 0 ∉ b) :
    (strncmp signed n a b).toInt < 0 ↔
      ∃ i < n, Differ 0 a b i ∧ ahead (a.getD i 0) (b.getD i 0) ≤ 128 := by
  rw [strncmp_iff free free' (· < 0) (Int.lt_irrefl 0)]
  refine exists_congr fun i => and_congr_right fun _ => and_congr_right fun differ => ?_
  exact gap_neg_iff differ.ne

theorem strncmp_pos_iff (free : 0 ∉ a) (free' : 0 ∉ b) :
    0 < (strncmp signed n a b).toInt ↔
      ∃ i < n, Differ 0 a b i ∧ 128 < ahead (a.getD i 0) (b.getD i 0) := by
  rw [strncmp_iff free free' (0 < ·) (Int.lt_irrefl 0)]
  exact exists_congr fun i => and_congr_right fun _ => and_congr_right fun _ => gap_pos_iff _ _

theorem strncmp_eq_zero_iff (free : 0 ∉ a) (free' : 0 ∉ b) :
    strncmp signed n a b = 0 ↔ a.take n = b.take n := by
  rw [← agree_iff_take free free']
  rcases strncmp_cases signed free free' n with ⟨i, lt, differ, value⟩ | ⟨agree, zero⟩
  · refine iff_of_false (fun zero => ?_) fun agree => differ.ne (agree i lt)
    rw [zero] at value
    have near := gap_neg_iff differ.ne
    have far := gap_pos_iff (a.getD i 0) (b.getD i 0)
    have none_left : (0 : CInt).toInt = 0 := rfl
    omega
  · exact iff_of_true zero agree

end Strncmp

/-! ### The order laws -/

/-- The laws of an order, for three strings that are compared. -/
structure Orders (compare : List Byte → List Byte → CInt) (same : Prop) (a b c : List Byte) :
    Prop where
  zero : compare a b = 0 ↔ same
  swap : (compare a b).toInt < 0 ↔ 0 < (compare b a).toInt
  trans : (compare a b).toInt < 0 → (compare b c).toInt < 0 → (compare a c).toInt < 0

/-- The first characters that differ are not half of all values apart. -/
def NotOpposite (a b : List Byte) : Prop :=
  ∀ i, Differ 0 a b i → ahead (a.getD i 0) (b.getD i 0) ≠ 128

/-- Two steps ahead at one place do not lead more than half around. -/
def NotAround (a b c : List Byte) : Prop :=
  ∀ i, Differ 0 a b i → Differ 0 b c i → ahead (a.getD i 0) (b.getD i 0) ≤ 128 →
    ahead (b.getD i 0) (c.getD i 0) ≤ 128 →
    ahead (a.getD i 0) (b.getD i 0) + ahead (b.getD i 0) (c.getD i 0) ≤ 128

section Laws

variable {signed : Bool} {a b c : List Byte}

theorem strncmp_orders (free : 0 ∉ a) (free' : 0 ∉ b) (free'' : 0 ∉ c)
    (not_opposite : NotOpposite a b) (not_around : NotAround a b c) (count : Nat) :
    Orders (strncmp signed count) (a.take count = b.take count) a b c := by
  constructor
  case zero => exact strncmp_eq_zero_iff free free'
  case swap =>
    rw [strncmp_neg_iff free free', strncmp_pos_iff free' free]
    constructor
    · rintro ⟨i, lt, differ, near⟩
      have apart := not_opposite i differ
      refine ⟨i, lt, differ.symm, ?_⟩
      rw [ahead_swap differ.ne]
      omega
    · rintro ⟨i, lt, differ, far⟩
      have some_ahead := mt ahead_eq_zero_iff.mp differ.ne
      refine ⟨i, lt, differ.symm, ?_⟩
      rw [ahead_swap differ.ne]
      omega
  case trans =>
    rw [strncmp_neg_iff free free', strncmp_neg_iff free' free'', strncmp_neg_iff free free'']
    rintro ⟨i, lt, differ, near⟩ ⟨j, lt', differ', near'⟩
    rcases Nat.lt_trichotomy i j with before | rfl | behind
    · refine ⟨i, lt, differ.trans_lt differ' before, ?_⟩
      rwa [← differ'.same i before]
    · -- both steps are made at one place
      have together := not_around i differ differ' near near'
      have some_ahead := mt ahead_eq_zero_iff.mp differ.ne
      have sum := ahead_add (a.getD i 0) (b.getD i 0) (c.getD i 0)
      have whole : ahead (a.getD i 0) (c.getD i 0) =
          ahead (a.getD i 0) (b.getD i 0) + ahead (b.getD i 0) (c.getD i 0) := by omega
      refine ⟨i, lt, ⟨fun k below => (differ.same k below).trans (differ'.same k below), ?_⟩, ?_⟩
      · exact mt ahead_eq_zero_iff.mpr (by omega)
      · omega
    · refine ⟨j, lt', differ.lt_trans differ' behind, ?_⟩
      rwa [differ.same j behind]

theorem notOpposite_of_orders (free : 0 ∉ a) (free' : 0 ∉ b)
    (orders : ∀ count, Orders (strncmp signed count) (a.take count = b.take count) a b c) :
    NotOpposite a b := by
  intro i differ opposite
  have swap := (orders (i + 1)).swap
  rw [strncmp_neg_iff free free', strncmp_pos_iff free' free] at swap
  obtain ⟨j, -, differ', far⟩ := swap.mp ⟨i, Nat.lt_succ_self i, differ, opposite.le⟩
  obtain rfl := differ.unique differ'.symm
  rw [ahead_swap differ.ne] at far
  omega

theorem notAround_of_orders (free : 0 ∉ a) (free' : 0 ∉ b) (free'' : 0 ∉ c)
    (orders : ∀ count, Orders (strncmp signed count) (a.take count = b.take count) a b c) :
    NotAround a b c := by
  intro i differ differ' near near'
  have trans := (orders (i + 1)).trans
  rw [strncmp_neg_iff free free', strncmp_neg_iff free' free'',
    strncmp_neg_iff free free''] at trans
  obtain ⟨j, lt, differ'', near''⟩ := trans ⟨i, Nat.lt_succ_self i, differ, near⟩
    ⟨i, Nat.lt_succ_self i, differ', near'⟩
  have same : j = i := by
    by_contra other
    have below : j < i := by omega
    exact differ''.ne ((differ.same j below).trans (differ'.same j below))
  subst same
  have sum := ahead_add (a.getD j 0) (b.getD j 0) (c.getD j 0)
  have some_ahead := mt ahead_eq_zero_iff.mp differ''.ne
  omega

end Laws

/-- The strings are ordered by `strcmp`, and by `strncmp` for every count, exactly when the first
differences do not lead half around the values of a byte. -/
theorem strcmp_orders_iff (signed : Bool) (a b c : CStr) :
    (Orders (strcmp signed) (a.chars = b.chars) a.chars b.chars c.chars ∧
      ∀ count, Orders (strncmp signed count) (a.chars.take count = b.chars.take count)
        a.chars b.chars c.chars) ↔
      NotOpposite a.chars b.chars ∧ NotAround a.chars b.chars c.chars := by
  constructor
  · rintro ⟨-, orders⟩
    exact ⟨notOpposite_of_orders a.nul_free b.nul_free orders,
      notAround_of_orders a.nul_free b.nul_free c.nul_free orders⟩
  · rintro ⟨not_opposite, not_around⟩
    have orders (count : Nat) : Orders (strncmp signed count) _ a.chars b.chars c.chars :=
      strncmp_orders a.nul_free b.nul_free c.nul_free not_opposite not_around count
    refine ⟨?_, orders⟩
    have whole := orders (a.chars.length + b.chars.length + 1)
    have enough : a.chars.length < a.chars.length + b.chars.length + 1 := by omega
    have enough' : b.chars.length < a.chars.length + b.chars.length + 1 := by omega
    rw [List.take_of_length_le enough.le, List.take_of_length_le enough'.le] at whole
    constructor
    case zero =>
      rw [strcmp_eq _ _ enough]
      exact whole.zero
    case swap =>
      rw [strcmp_eq _ _ enough, strcmp_eq _ _ enough']
      exact whole.swap
    case trans =>
      rw [strcmp_eq _ b.chars enough, strcmp_eq _ _ enough', strcmp_eq _ c.chars enough]
      exact whole.trans

/-- Each of two strings comes before the other. -/
theorem strcmp_opposite :
    ¬ Orders (strcmp true) (bytes "a" = [225]) (bytes "a") [225] [225] := by
  intro orders
  exact absurd (orders.swap.mp (by decide)) (by decide)

end CFunc.Clibs.Strings
