import CFunc.Lib.Memory

/-!
`clibs/strcpy.c`: copying a string by words.

Where both pointers are equally aligned the words of the source go out whole,
until one holds a zero byte. `unsigned long` has four bytes and memory is
little-endian. A loop that runs out of fuel has no result, and neither has one
that never ends.
-/

namespace CFunc.Clibs.Strcpy

open CFunc.Lib CFunc.Lib.Memory

/-! ### The code -/

def ALIGNED (x y : Nat) : Nat := (x ^^^ y) &&& 3

def STRALIGN (x : Nat) : Nat := x &&& 3

def MKW (x : Word) : Word := x ||| x <<< 8 ||| x <<< 16 ||| x <<< 24

def GFC (x : Word) : Byte := (x &&& 0xff).setWidth 8

/-- `while(*s1++ = *s2++);` -/
def byteLoop : Nat → Memory → Nat → Nat → Option Memory
  | 0, _, _, _ => none
  | fuel + 1, m, s1, s2 =>
      if m s2 = 0 then some (put m s1 (m s2))
      else byteLoop fuel (put m s1 (m s2)) (s1 + 1) (s2 + 1)

/-- `while(tmp-- & (*s1++ = *s2++));`, with what is left of `tmp` and the pointers. -/
def headLoop : Nat → Memory → Nat → Nat → Int × Memory × Nat × Nat
  | 0, m, s1, s2 => (-1, put m s1 (m s2), s1 + 1, s2 + 1)
  | tmp + 1, m, s1, s2 =>
      if (tmp + 1) &&& (m s2).toNat = 0 then (tmp, put m s1 (m s2), s1 + 1, s2 + 1)
      else headLoop tmp (put m s1 (m s2)) (s1 + 1) (s2 + 1)

/-- `while((*s1++ = GFC(l))) INCSTR(l);`, where `INCSTR` shifts `l` and drops the result. -/
def lastLoop : Nat → Memory → Nat → Word → Option Memory
  | 0, _, _, _ => none
  | fuel + 1, m, s1, l =>
      if GFC l = 0 then some (put m s1 (GFC l)) else lastLoop fuel (put m s1 (GFC l)) (s1 + 1) l

/-- The test for a zero byte, where `-` binds tighter than `&`. -/
def hasZero (l : Word) : Bool := ((l - MKW 0x1) &&& ~~~l) &&& MKW 0x80 ≠ 0

/-- `while(1)` over the words. -/
def wordLoop : Nat → Memory → Nat → Nat → Option Memory
  | 0, _, _, _ => none
  | fuel + 1, m, s1, s2 =>
      let l := load m s2
      if hasZero l then lastLoop fuel m s1 l
      else if l &&& 0x4 ≠ 0 then
        wordLoop fuel (Memory.store (Memory.store m s1 l) (s1 + 4) l) (s1 + 4 + 4) (s2 + 4 + 4)
      else wordLoop fuel (Memory.store m s1 l) (s1 + 4) (s2 + 4)

/-- The memory that `strcpy` returns with. -/
def strcpy (fuel : Nat) (m : Memory) (s1 s2 : Nat) : Option Memory :=
  if ALIGNED s1 s2 ≠ 0 then byteLoop fuel m s1 s2
  else if STRALIGN s1 ≠ 0 then
    let (tmp, m, s1, s2) := headLoop (4 - (s1 &&& 0x3)) m s1 s2
    if tmp ≠ -1 then some m else wordLoop fuel m s1 s2
  else wordLoop fuel m s1 s2

/-! ### Strings and their words -/

/-- The `NUL` of the string at `s` stands at offset `n`. -/
structure IsString (m : Memory) (s n : Nat) : Prop where
  nul : m (s + n) = 0
  before : ∀ i < n, m (s + i) ≠ 0

/-- `n` words from address `s` on. -/
def words (m : Memory) (s : Nat) : Nat → List Word
  | 0 => []
  | n + 1 => load m s :: words m (s + 4) n

/-- One after the other, words with bit 2 clear and pairs of equal words with bit 2 set. -/
inductive Paired : List Word → Prop
  | nil : Paired []
  | single {w : Word} {rest : List Word} (clear : w &&& 0x4 = 0) (more : Paired rest) :
      Paired (w :: rest)
  | pair {w : Word} {rest : List Word} (set : w &&& 0x4 ≠ 0) (more : Paired rest) :
      Paired (w :: w :: rest)

/-- The string and its `NUL` are at `s1` of `m'` as they were at `s2` of `m`, and as the loop
over bytes leaves them. -/
def Copied (m m' : Memory) (s1 s2 n : Nat) : Prop :=
  ∃ fuel bytewise, byteLoop fuel m s1 s2 = some bytewise ∧
    ∀ i ≤ n, m' (s1 + i) = m (s2 + i) ∧ m' (s1 + i) = bytewise (s1 + i)

/-- The string and the place for its copy do not overlap. -/
def Apart (s1 s2 n : Nat) : Prop := ∀ i ≤ n, ∀ j ≤ n, s1 + i ≠ s2 + j

section Facts

variable {m m' : Memory} {s s1 s2 n : Nat} {w l : Word} {fuel : Nat}

theorem hasZero_iff : hasZero w = true ↔ ∃ b < 4, byte w b = 0 := by
  have ones : MKW 0x1 = 0x01010101 := rfl
  have tops : MKW 0x80 = 0x80808080 := rfl
  rw [hasZero, decide_eq_true_iff, ones, tops]
  exact zeroByte_iff w

theorem IsString.hasZero_iff (string : IsString m s n) : hasZero (load m s) = true ↔ n < 4 := by
  rw [Strcpy.hasZero_iff]
  constructor
  · rintro ⟨b, lt, zero⟩
    rw [byte_load m s lt] at zero
    by_contra ge
    exact string.before b (by omega) zero
  · intro lt
    exact ⟨n, lt, (byte_load m s lt).trans string.nul⟩

theorem GFC_load (m : Memory) (s : Nat) : GFC (load m s) = m s := by
  have low : GFC (load m s) = byte (load m s) 0 := by
    refine BitVec.eq_of_getLsbD_eq fun i lt => ?_
    have literal : (0xff : Word) = BitVec.ofNat 32 (2 ^ 8 - 1) := rfl
    have wide : i < 32 := by omega
    rw [GFC, literal, BitVec.getLsbD_setWidth, BitVec.getLsbD_and, BitVec.getLsbD_ofNat,
      Nat.testBit_two_pow_sub_one, byte, BitVec.getLsbD_extractLsb']
    simp [lt, wide]
  rw [low, byte_load m s (by decide), Nat.add_zero]

/-- The last word comes to an end only where its first byte is the `NUL`. -/
theorem lastLoop_eq (done : lastLoop fuel m s1 l = some m') :
    GFC l = 0 ∧ m' = put m s1 0 := by
  have zero : GFC l = 0 := by
    by_contra some_byte
    have never (fuel : Nat) : ∀ m s1, lastLoop fuel m s1 l = none := by
      induction fuel with
      | zero => exact fun _ _ => rfl
      | succ fuel ih =>
          intro m s1
          rw [lastLoop, if_neg some_byte]
          exact ih _ _
    rw [never] at done
    cases done
  cases fuel with
  | zero => cases done
  | succ fuel =>
      rw [lastLoop, if_pos zero, zero] at done
      exact ⟨zero, (Option.some.inj done).symm⟩

/-- The loop writes from `s1` on. -/
theorem wordLoop_below (done : wordLoop fuel m s1 s2 = some m') {x : Nat} (below : x < s1) :
    m' x = m x := by
  induction fuel generalizing m s1 s2 with
  | zero => cases done
  | succ fuel ih =>
      simp only [wordLoop] at done
      split at done
      · obtain ⟨-, rfl⟩ := lastLoop_eq done
        exact if_neg (by omega)
      · split at done
        · rw [ih done (by omega), store_outside (by omega), store_outside (by omega)]
        · rw [ih done (by omega), store_outside (by omega)]

theorem load_congr (same : ∀ b < 4, m (s + b) = m' (s + b)) : load m s = load m' s := by
  have zero := same 0 (by decide)
  rw [Nat.add_zero] at zero
  rw [load, load, same 3 (by decide), same 2 (by decide), same 1 (by decide), zero]

theorem words_congr {k : Nat} (same : ∀ i < 4 * k, m (s + i) = m' (s + i)) :
    words m s k = words m' s k := by
  induction k generalizing s with
  | zero => rfl
  | succ k ih =>
      rw [words, words, load_congr fun b lt => same b (by omega), ih]
      intro i lt
      rw [Nat.add_assoc]
      exact same (4 + i) (by omega)

end Facts

/-! ### What the loop over words copies -/

section Loop

variable {m m' : Memory} {s1 s2 n : Nat} {w : Word} {rest : List Word} {fuel : Nat}

theorem paired_clear (clear : w &&& 0x4 = 0) : Paired (w :: rest) ↔ Paired rest := by
  constructor
  · intro paired
    cases paired with
    | single _ more => exact more
    | pair set _ => exact absurd clear set
  · exact Paired.single clear

theorem paired_set (set : w &&& 0x4 ≠ 0) {w' : Word} :
    Paired (w :: w' :: rest) ↔ w' = w ∧ Paired rest := by
  constructor
  · intro paired
    cases paired with
    | single clear _ => exact absurd clear set
    | pair _ more => exact ⟨rfl, more⟩
  · rintro ⟨rfl, more⟩
    exact .pair set more

theorem not_paired_alone (set : w &&& 0x4 ≠ 0) : ¬ Paired [w] := by
  intro paired
  cases paired with
  | single clear _ => exact set clear

/-- A word stored at `s1` misses the string. -/
theorem Apart.store_kept (apart : Apart s1 s2 n) {k : Nat} (room : k + 3 ≤ n) {j : Nat}
    (le : j ≤ n) : Memory.store m (s1 + k) w (s2 + j) = m (s2 + j) := by
  refine store_outside ?_
  rintro ⟨first, last⟩
  exact apart (s2 + j - s1) (by omega) j le (by omega)

theorem Apart.shift (apart : Apart s1 s2 n) {k : Nat} (le : k ≤ n) :
    Apart (s1 + k) (s2 + k) (n - k) := by
  intro i i_le j j_le
  rw [Nat.add_assoc, Nat.add_assoc]
  exact apart _ (by omega) _ (by omega)

/-- What is left of a string after its first `k` bytes. -/
theorem IsString.shift (string : IsString m s2 n) {k : Nat} (le : k ≤ n)
    (kept : ∀ j, k ≤ j → j ≤ n → m' (s2 + j) = m (s2 + j)) : IsString m' (s2 + k) (n - k) where
  nul := by
    rw [Nat.add_assoc, Nat.add_sub_cancel' le, kept n le le_rfl]
    exact string.nul
  before i lt := by
    rw [Nat.add_assoc, kept _ (Nat.le_add_right k i) (by omega)]
    exact string.before _ (by omega)

/-- The words of that rest. -/
theorem words_rest {k count : Nat} (within : k + 4 * count ≤ n)
    (kept : ∀ j, k ≤ j → j ≤ n → m' (s2 + j) = m (s2 + j)) :
    words m' (s2 + k) count = words m (s2 + k) count := by
  apply words_congr
  intro i lt
  rw [Nat.add_assoc]
  exact kept _ (Nat.le_add_right k i) (by omega)

/-- A string that begins with its `NUL`. -/
theorem IsString.alone (string : IsString m s2 n) (zero : m s2 = 0) : n = 0 := by
  by_contra some_byte
  exact string.before 0 (Nat.pos_of_ne_zero some_byte) zero

/-- With its first `k` bytes copied, the rest of a string is left to compare. -/
theorem agree_shift {after : Memory} {k : Nat} (le : k ≤ n)
    (first : ∀ b < k, after (s1 + b) = m (s2 + b))
    (kept : ∀ j ≤ n, m' (s2 + j) = m (s2 + j)) :
    (∀ i ≤ n, after (s1 + i) = m (s2 + i)) ↔
      ∀ i ≤ n - k, after (s1 + k + i) = m' (s2 + k + i) := by
  constructor
  · intro all i i_le
    rw [Nat.add_assoc, Nat.add_assoc, kept _ (by omega)]
    exact all _ (by omega)
  · intro later i i_le
    by_cases lt : i < k
    · exact first i lt
    · have there := later (i - k) (by omega)
      rwa [Nat.add_assoc, Nat.add_assoc, Nat.add_sub_cancel' (Nat.le_of_not_lt lt),
        kept i i_le] at there

/-- A word with bit 2 set is stored in two places. -/
abbrev storeTwice (m : Memory) (s1 : Nat) (l : Word) : Memory :=
  Memory.store (Memory.store m s1 l) (s1 + 4) l

theorem storeTwice_first {b : Nat} (lt : b < 4) : storeTwice m s1 w (s1 + b) = byte w b := by
  rw [storeTwice, store_outside (by omega), store_inside lt]

theorem storeTwice_second {b : Nat} (lt : b < 4) : storeTwice m s1 w (s1 + 4 + b) = byte w b :=
  store_inside lt

theorem Apart.storeTwice_kept (apart : Apart s1 s2 n) (more : 8 ≤ n) {j : Nat} (le : j ≤ n) :
    storeTwice m s1 w (s2 + j) = m (s2 + j) := by
  rw [storeTwice, apart.store_kept (by omega) le]
  exact apart.store_kept (k := 0) (by omega) le

/-! One round, for each kind of word. -/

theorem wordLoop_last (string : IsString m s2 n) (ends : n < 4) :
    wordLoop (fuel + 1) m s1 s2 = lastLoop fuel m s1 (load m s2) :=
  if_pos (string.hasZero_iff.mpr ends)

theorem wordLoop_single (string : IsString m s2 n) (long : 4 ≤ n)
    (clear : load m s2 &&& 0x4 = 0) :
    wordLoop (fuel + 1) m s1 s2 = wordLoop fuel (Memory.store m s1 (load m s2)) (s1 + 4) (s2 + 4) :=
  (if_neg (mt string.hasZero_iff.mp long.not_gt)).trans (if_neg (not_not.mpr clear))

theorem wordLoop_pair (string : IsString m s2 n) (long : 4 ≤ n)
    (set : load m s2 &&& 0x4 ≠ 0) :
    wordLoop (fuel + 1) m s1 s2 = wordLoop fuel (storeTwice m s1 (load m s2)) (s1 + 8) (s2 + 8) :=
  (if_neg (mt string.hasZero_iff.mp long.not_gt)).trans (if_pos set)

/-- The loop copies a string if and only if its words before the last are paired. -/
theorem wordLoop_iff (string : IsString m s2 n) (apart : Apart s1 s2 n)
    (done : wordLoop fuel m s1 s2 = some m') :
    (∀ i ≤ n, m' (s1 + i) = m (s2 + i)) ↔ Paired (words m s2 (n / 4)) := by
  induction fuel generalizing m s1 s2 n with
  | zero => cases done
  | succ fuel ih =>
      by_cases ends : n < 4
      · -- the word with the `NUL`
        rw [wordLoop_last string ends] at done
        obtain ⟨zero, rfl⟩ := lastLoop_eq done
        rw [GFC_load] at zero
        obtain rfl := string.alone zero
        refine iff_of_true (fun i le => ?_) .nil
        obtain rfl := Nat.le_zero.mp le
        exact (if_pos rfl).trans zero.symm
      · have long := Nat.le_of_not_lt ends
        have count : n / 4 = (n - 4) / 4 + 1 := by omega
        have byte_eq (b : Nat) (lt : b < 4) : byte (load m s2) b = m (s2 + b) := byte_load m s2 lt
        by_cases clear : load m s2 &&& 0x4 = 0
        · rw [wordLoop_single string long clear] at done
          have kept (j : Nat) (le : j ≤ n) :
              Memory.store m s1 (load m s2) (s2 + j) = m (s2 + j) :=
            apart.store_kept (k := 0) (by omega) le
          have first (b : Nat) (lt : b < 4) : m' (s1 + b) = m (s2 + b) := by
            rw [wordLoop_below done (by omega), store_inside lt, byte_eq b lt]
          have rest := string.shift long fun j _ => kept j
          rw [agree_shift long first kept, ih rest (apart.shift long) done, count, words,
            paired_clear clear, words_rest (by omega) fun j _ => kept j]
        · rw [wordLoop_pair string long clear] at done
          have second (b : Nat) (lt : b < 4) : m' (s1 + 4 + b) = m (s2 + b) := by
            rw [wordLoop_below done (by omega), storeTwice_second lt, byte_eq b lt]
          by_cases more : 8 ≤ n
          · have count' : (n - 4) / 4 = (n - 8) / 4 + 1 := by omega
            rw [count, count', words, words, paired_set clear]
            by_cases same : load m (s2 + 4) = load m s2
            · have kept (j : Nat) (le : j ≤ n) :
                  storeTwice m s1 (load m s2) (s2 + j) = m (s2 + j) := apart.storeTwice_kept more le
              have first (b : Nat) (lt : b < 8) : m' (s1 + b) = m (s2 + b) := by
                by_cases low : b < 4
                · rw [wordLoop_below done (by omega), storeTwice_first low, byte_eq b low]
                · obtain ⟨c, rfl⟩ := Nat.exists_eq_add_of_le (Nat.le_of_not_lt low)
                  have c_lt : c < 4 := by omega
                  rw [← Nat.add_assoc, ← Nat.add_assoc, second c c_lt, ← byte_load m _ c_lt,
                    ← byte_load m _ c_lt, same]
              have rest := string.shift more fun j _ => kept j
              rw [agree_shift more first kept, ih rest (apart.shift more) done,
                words_rest (by omega) fun j _ => kept j, and_iff_right same]
            · refine iff_of_false (fun all => same (eq_of_bytes fun b lt => ?_))
                fun both => same both.1
              rw [byte_load m _ lt, byte_load m _ lt, ← second b lt, Nat.add_assoc, Nat.add_assoc]
              exact (all _ (by omega)).symm
          · -- the second store covers the `NUL` with a byte of the string
            refine iff_of_false (fun all => ?_) ?_
            · have covered := second (n - 4) (by omega)
              rw [Nat.add_assoc, Nat.add_sub_cancel' long, all n le_rfl, string.nul] at covered
              exact string.before (n - 4) (by omega) covered.symm
            · have last : (n - 4) / 4 = 0 := by omega
              rw [count, last]
              exact not_paired_alone clear

/-- With its words paired a string has to end with a word for the loop to end. -/
theorem wordLoop_ends_iff (string : IsString m s2 n) (apart : Apart s1 s2 n)
    (paired : Paired (words m s2 (n / 4))) :
    (∃ fuel m', wordLoop fuel m s1 s2 = some m') ↔ 4 ∣ n := by
  induction n using Nat.strong_induction_on generalizing m s1 s2 with
  | _ n ih =>
      have unroll : (∃ fuel m', wordLoop fuel m s1 s2 = some m') ↔
          ∃ fuel m', wordLoop (fuel + 1) m s1 s2 = some m' := by
        constructor
        · rintro ⟨_ | fuel, m', done⟩
          · cases done
          · exact ⟨fuel, m', done⟩
        · rintro ⟨fuel, done⟩
          exact ⟨fuel + 1, done⟩
      rw [unroll]
      by_cases ends : n < 4
      · simp only [wordLoop_last string ends]
        constructor
        · rintro ⟨fuel, m', done⟩
          obtain ⟨zero, -⟩ := lastLoop_eq done
          rw [GFC_load] at zero
          exact ⟨0, string.alone zero⟩
        · intro whole
          obtain rfl : n = 0 := Nat.eq_zero_of_dvd_of_lt whole ends
          exact ⟨1, _, if_pos ((GFC_load m s2).trans string.nul)⟩
      · have long := Nat.le_of_not_lt ends
        have count : n / 4 = (n - 4) / 4 + 1 := by omega
        rw [count, words] at paired
        by_cases clear : load m s2 &&& 0x4 = 0
        · have kept (j : Nat) (le : j ≤ n) : Memory.store m s1 (load m s2) (s2 + j) = m (s2 + j) :=
            apart.store_kept (k := 0) (by omega) le
          have rest : Paired (words (Memory.store m s1 (load m s2)) (s2 + 4) ((n - 4) / 4)) := by
            rw [paired_clear clear] at paired
            rwa [words_rest (by omega) fun j _ => kept j]
          have string_rest := string.shift long fun j _ => kept j
          simp only [wordLoop_single string long clear]
          rw [ih (n - 4) (by omega) string_rest (apart.shift long) rest]
          omega
        · have more : 8 ≤ n := by
            by_contra short
            have last : (n - 4) / 4 = 0 := by omega
            rw [last] at paired
            exact not_paired_alone clear paired
          have count' : (n - 4) / 4 = (n - 8) / 4 + 1 := by omega
          have kept (j : Nat) (le : j ≤ n) : storeTwice m s1 (load m s2) (s2 + j) = m (s2 + j) :=
            apart.storeTwice_kept more le
          have rest : Paired (words (storeTwice m s1 (load m s2)) (s2 + 8) ((n - 8) / 4)) := by
            rw [count', words, paired_set clear] at paired
            rw [words_rest (by omega) fun j _ => kept j]
            exact paired.2
          have string_rest := string.shift more fun j _ => kept j
          simp only [wordLoop_pair string long clear]
          rw [ih (n - 8) (by omega) string_rest (apart.shift more) rest]
          omega

end Loop

/-! ### The whole function -/

section Whole

variable {m m' : Memory} {s1 s2 n : Nat} {fuel : Nat}

theorem byteLoop_below (done : byteLoop fuel m s1 s2 = some m') {x : Nat} (below : x < s1) :
    m' x = m x := by
  induction fuel generalizing m s1 s2 with
  | zero => cases done
  | succ fuel ih =>
      rw [byteLoop] at done
      split at done
      · obtain rfl := Option.some.inj done
        exact if_neg below.ne
      · exact (ih done (Nat.lt_succ_of_lt below)).trans (if_neg below.ne)

/-- The loop over bytes copies every string. -/
theorem byteLoop_eq (string : IsString m s2 n) (apart : Apart s1 s2 n) :
    ∃ bytewise, byteLoop (n + 1) m s1 s2 = some bytewise ∧
      ∀ i ≤ n, bytewise (s1 + i) = m (s2 + i) := by
  induction n generalizing m s1 s2 with
  | zero =>
      refine ⟨put m s1 (m s2), if_pos string.nul, fun i le => ?_⟩
      obtain rfl := Nat.le_zero.mp le
      exact if_pos rfl
  | succ n ih =>
      have kept (j : Nat) (le : j ≤ n + 1) : put m s1 (m s2) (s2 + j) = m (s2 + j) :=
        if_neg fun same => apart 0 (Nat.zero_le _) j le same.symm
      obtain ⟨bytewise, done, rest⟩ := ih (string.shift (Nat.le_add_left 1 n) fun j _ => kept j)
        (apart.shift (Nat.le_add_left 1 n))
      refine ⟨bytewise, (if_neg (string.before 0 n.succ_pos)).trans done, ?_⟩
      refine (agree_shift (Nat.le_add_left 1 n) (fun b lt => ?_) kept).mpr rest
      obtain rfl := Nat.lt_one_iff.mp lt
      exact (byteLoop_below done s1.lt_succ_self).trans (if_pos rfl)

theorem strcpy_aligned (aligned : STRALIGN s1 = 0) (aligned' : STRALIGN s2 = 0) :
    strcpy fuel m s1 s2 = wordLoop fuel m s1 s2 := by
  have both : ALIGNED s1 s2 = 0 := by
    rw [STRALIGN] at aligned aligned'
    rw [ALIGNED, Nat.and_xor_distrib_right, aligned, aligned', Nat.xor_self]
  rw [strcpy, if_neg (not_not.mpr both), if_neg (not_not.mpr aligned)]

/-- Where `strcpy` returns, it has copied the string if and only if its words before the one
with the `NUL` are paired. -/
theorem strcpy_copies_iff (aligned : STRALIGN s1 = 0) (aligned' : STRALIGN s2 = 0)
    (string : IsString m s2 n) (apart : Apart s1 s2 n) (returns : strcpy fuel m s1 s2 = some m') :
    Copied m m' s1 s2 n ↔ Paired (words m s2 (n / 4)) := by
  rw [strcpy_aligned aligned aligned'] at returns
  rw [← wordLoop_iff string apart returns]
  constructor
  · rintro ⟨_, _, _, same⟩ i le
    exact (same i le).1
  · intro all
    obtain ⟨bytewise, done, copied⟩ := byteLoop_eq string apart
    exact ⟨n + 1, bytewise, done, fun i le => ⟨all i le, (all i le).trans (copied i le).symm⟩⟩

/-- With its words paired, a string is copied when it ends with a word, and otherwise `strcpy`
writes the first byte of the last word for ever. -/
theorem strcpy_returns_iff (aligned : STRALIGN s1 = 0) (aligned' : STRALIGN s2 = 0)
    (string : IsString m s2 n) (apart : Apart s1 s2 n) (paired : Paired (words m s2 (n / 4))) :
    (∃ fuel m', strcpy fuel m s1 s2 = some m') ↔ 4 ∣ n := by
  simp only [strcpy_aligned aligned aligned']
  exact wordLoop_ends_iff string apart paired

end Whole

/-! ### Two strings -/

/-- `"aaaa"` at address 16. -/
def singleWord : Memory := fun x => if 16 ≤ x ∧ x < 20 then 0x61 else 0

/-- `"ddddaaaa"` at address 16. -/
def twoWords : Memory := fun x =>
  if 16 ≤ x ∧ x < 20 then 0x64 else if 20 ≤ x ∧ x < 24 then 0x61 else 0

theorem singleWord_string : IsString singleWord 16 4 := ⟨rfl, by decide⟩

theorem twoWords_string : IsString twoWords 16 8 := ⟨rfl, by decide⟩

theorem apart_of_low {n : Nat} (low : n < 16) : Apart 0 16 n := by
  intro i i_le j j_le
  omega

theorem strcpy_copies_iff_sample :
    ∃ m', strcpy 3 singleWord 0 16 = some m' ∧
      (Copied singleWord m' 0 16 4 ↔ Paired (words singleWord 16 1)) := by
  have returns : strcpy 3 singleWord 0 16 =
      some (put (Memory.store singleWord 0 (load singleWord 16)) 4 0) := rfl
  exact ⟨_, returns,
    strcpy_copies_iff rfl rfl singleWord_string (apart_of_low (by decide)) returns⟩

/-- `"dddd"` is written twice, and `"aaaa"` is left out. -/
theorem twoWords_not_copied :
    ¬ ∀ (fuel : Nat) (m m' : Memory) (s1 s2 n : Nat), STRALIGN s1 = 0 → STRALIGN s2 = 0 →
      IsString m s2 n → Apart s1 s2 n → strcpy fuel m s1 s2 = some m' → Copied m m' s1 s2 n := by
  intro always
  obtain ⟨_, _, _, same⟩ := always 3 twoWords _ 0 16 8 rfl rfl twoWords_string
    (apart_of_low (by decide)) rfl
  have fifth := (same 4 (by decide)).1
  exact absurd fifth (by decide)

end CFunc.Clibs.Strcpy
