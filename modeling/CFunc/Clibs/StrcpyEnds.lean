import CFunc.Clibs.Strcpy

/-!
`clibs/strcpy.c`: where `strcpy` comes to an end.

The loop over words stops at the first word with a zero byte, and the loop over
that word stops at a first byte that is zero. Where the offsets are the same but
not zero, a prologue copies the bytes in front of the first whole word.
-/

namespace CFunc.Clibs.Strcpy

open CFunc.Lib CFunc.Lib.Memory

/-! ### The word the loop stops at -/

/-- The rounds of `wordLoop` up to a word with a zero byte: the memory and the pointers there. -/
def lastWord : Nat → Memory → Nat → Nat → Option (Memory × Nat × Nat)
  | 0, _, _, _ => none
  | fuel + 1, m, s1, s2 =>
      let l := load m s2
      if hasZero l then some (m, s1, s2)
      else if l &&& 0x4 ≠ 0 then
        lastWord fuel (Memory.store (Memory.store m s1 l) (s1 + 4) l) (s1 + 4 + 4) (s2 + 4 + 4)
      else lastWord fuel (Memory.store m s1 l) (s1 + 4) (s2 + 4)

/-- The loop comes to the word that holds the `NUL` at offset `n`, and no more than four bytes
are copied of that word. -/
def Terminates (m : Memory) (s1 s2 n : Nat) : Prop :=
  ∃ fuel m' t1, lastWord fuel m s1 s2 = some (m', t1, s2 + 4 * (n / 4)) ∧
    ∃ after, lastLoop 4 m' t1 (load m' (s2 + 4 * (n / 4))) = some after

/-- Taken one at a time, but a word with bit 2 set with the one after it, the words are used up
exactly. -/
def usedUp : Bool → List Word → Bool
  | skip, [] => !skip
  | true, _ :: rest => usedUp false rest
  | false, w :: rest => usedUp (w &&& 0x4 ≠ 0) rest

section Last

variable {m m' after : Memory} {s1 s2 n t1 t2 : Nat} {l : Word} {fuel more : Nat}

theorem usedUp_clear {w : Word} {rest : List Word} (clear : w &&& 0x4 = 0) :
    usedUp false (w :: rest) = usedUp false rest := by
  rw [usedUp, decide_eq_false (not_not.mpr clear)]

theorem usedUp_set {w w' : Word} {rest : List Word} (set : w &&& 0x4 ≠ 0) :
    usedUp false (w :: w' :: rest) = usedUp false rest := by
  rw [usedUp, decide_eq_true set, usedUp]

theorem usedUp_alone {w : Word} (set : w &&& 0x4 ≠ 0) : usedUp false [w] = false := by
  rw [usedUp, decide_eq_true set, usedUp, Bool.not_true]

theorem lastLoop_zero (zero : GFC l = 0) : lastLoop (fuel + 1) m s1 l = some (put m s1 0) := by
  rw [lastLoop, if_pos zero, zero]

/-- Whatever the word, more fuel does not change what its loop comes to. -/
theorem lastLoop_add (more : Nat) (done : lastLoop fuel m s1 l = some after) :
    lastLoop (fuel + more) m s1 l = some after := by
  obtain ⟨zero, rfl⟩ := lastLoop_eq done
  cases fuel with
  | zero => cases done
  | succ fuel =>
      rw [Nat.add_right_comm]
      exact lastLoop_zero zero

/-- The rounds up to the last word, and the loop over that word, are the loop over the words. -/
theorem wordLoop_of_lastWord (there : lastWord fuel m s1 s2 = some (m', t1, t2))
    (done : lastLoop more m' t1 (load m' t2) = some after) :
    wordLoop (fuel + more) m s1 s2 = some after := by
  induction fuel generalizing m s1 s2 with
  | zero => cases there
  | succ fuel ih =>
      rw [Nat.add_right_comm]
      simp only [lastWord] at there
      simp only [wordLoop]
      split at there
      case isTrue last =>
        cases there
        rw [if_pos last, Nat.add_comm]
        exact lastLoop_add _ done
      case isFalse whole =>
        rw [if_neg whole]
        split at there
        case isTrue set =>
          rw [if_pos set]
          exact ih there
        case isFalse clear =>
          rw [if_neg clear]
          exact ih there

theorem lastWord_of_wordLoop (done : wordLoop fuel m s1 s2 = some after) :
    ∃ m' t1 t2, lastWord fuel m s1 s2 = some (m', t1, t2) ∧
      lastLoop 1 m' t1 (load m' t2) = some after := by
  induction fuel generalizing m s1 s2 with
  | zero => cases done
  | succ fuel ih =>
      simp only [wordLoop] at done
      simp only [lastWord]
      split at done
      case isTrue last =>
        obtain ⟨zero, rfl⟩ := lastLoop_eq done
        rw [if_pos last]
        exact ⟨m, s1, s2, rfl, lastLoop_zero zero⟩
      case isFalse whole =>
        rw [if_neg whole]
        split at done
        case isTrue set =>
          rw [if_pos set]
          exact ih done
        case isFalse clear =>
          rw [if_neg clear]
          exact ih done

/-- `strcpy` returns from its last word, or not at all. -/
theorem strcpy_returns_iff_lastWord (aligned : STRALIGN s1 = 0) (aligned' : STRALIGN s2 = 0) :
    (∃ fuel after, strcpy fuel m s1 s2 = some after) ↔
      ∃ fuel m' t1 t2, lastWord fuel m s1 s2 = some (m', t1, t2) ∧
        ∃ after, lastLoop 4 m' t1 (load m' t2) = some after := by
  simp only [strcpy_aligned aligned aligned']
  constructor
  · rintro ⟨fuel, after, done⟩
    obtain ⟨m', t1, t2, there, last⟩ := lastWord_of_wordLoop done
    exact ⟨fuel, m', t1, t2, there, after, lastLoop_add 3 last⟩
  · rintro ⟨fuel, m', t1, t2, there, after, last⟩
    exact ⟨fuel + 4, after, wordLoop_of_lastWord there last⟩

/-- One round that comes to the last word: it is there, or two words or one are copied. -/
theorem lastWord_cases (there : lastWord (fuel + 1) m s1 s2 = some (m', t1, t2)) :
    (m = m' ∧ s1 = t1 ∧ s2 = t2) ∨
      lastWord fuel (storeTwice m s1 (load m s2)) (s1 + 4 + 4) (s2 + 4 + 4) = some (m', t1, t2) ∨
      lastWord fuel (Memory.store m s1 (load m s2)) (s1 + 4) (s2 + 4) = some (m', t1, t2) := by
  simp only [lastWord] at there
  split at there
  · cases there
    exact .inl ⟨rfl, rfl, rfl⟩
  · split at there
    · exact .inr (.inl there)
    · exact .inr (.inr there)

/-- The loop reads forwards. -/
theorem lastWord_past (there : lastWord fuel m s1 s2 = some (m', t1, t2)) : s2 ≤ t2 := by
  induction fuel generalizing m s1 s2 with
  | zero => cases there
  | succ fuel ih =>
      rcases lastWord_cases there with ⟨-, -, rfl⟩ | pair | single
      · exact le_rfl
      · have later := ih pair
        omega
      · have later := ih single
        omega

end Last

/-! ### Coming to the `NUL` -/

section Comes

variable {m m' after : Memory} {s1 s2 n t1 t2 : Nat} {w : Word} {fuel : Nat}

/-- The copy is written behind the reading, or past the string. -/
def Ahead (s1 s2 n : Nat) : Prop := s1 ≤ s2 ∨ s2 + n < s1

theorem Ahead.shift (ahead : Ahead s1 s2 n) {k : Nat} (le : k ≤ n) :
    Ahead (s1 + k) (s2 + k) (n - k) := by
  cases ahead with
  | inl behind => exact .inl (Nat.add_le_add_right behind k)
  | inr beyond =>
      apply Or.inr
      omega

theorem Ahead.store_kept (ahead : Ahead s1 s2 n) {j : Nat} (unread : 4 ≤ j) (le : j ≤ n) :
    Memory.store m s1 w (s2 + j) = m (s2 + j) := by
  apply store_outside
  cases ahead <;> omega

theorem Ahead.storeTwice_kept (ahead : Ahead s1 s2 n) {j : Nat} (unread : 8 ≤ j) (le : j ≤ n) :
    storeTwice m s1 w (s2 + j) = m (s2 + j) := by
  rw [storeTwice, store_outside, ahead.store_kept (by omega) le]
  cases ahead <;> omega

/-! One round, for each kind of word. -/

theorem lastWord_last (string : IsString m s2 n) (ends : n < 4) :
    lastWord (fuel + 1) m s1 s2 = some (m, s1, s2) :=
  if_pos (string.hasZero_iff.mpr ends)

theorem lastWord_single (string : IsString m s2 n) (long : 4 ≤ n)
    (clear : load m s2 &&& 0x4 = 0) :
    lastWord (fuel + 1) m s1 s2 = lastWord fuel (Memory.store m s1 (load m s2)) (s1 + 4) (s2 + 4) :=
  (if_neg (mt string.hasZero_iff.mp long.not_gt)).trans (if_neg (not_not.mpr clear))

theorem lastWord_pair (string : IsString m s2 n) (long : 4 ≤ n)
    (set : load m s2 &&& 0x4 ≠ 0) :
    lastWord (fuel + 1) m s1 s2 = lastWord fuel (storeTwice m s1 (load m s2)) (s1 + 8) (s2 + 8) :=
  (if_neg (mt string.hasZero_iff.mp long.not_gt)).trans (if_pos set)

/-- What the loop has not read it has not changed. -/
theorem lastWord_kept (ahead : Ahead s1 s2 n) (there : lastWord fuel m s1 s2 = some (m', t1, t2))
    {x : Nat} (unread : t2 ≤ x) (le : x ≤ s2 + n) : m' x = m x := by
  induction fuel generalizing m s1 s2 n with
  | zero => cases there
  | succ fuel ih =>
      rcases lastWord_cases there with ⟨rfl, -, -⟩ | pair | single
      · rfl
      · have past := lastWord_past pair
        obtain ⟨j, rfl⟩ := Nat.exists_eq_add_of_le (past.trans unread)
        rw [ih (ahead.shift (k := 8) (by omega)) pair (by omega), Nat.add_assoc, Nat.add_assoc]
        exact ahead.storeTwice_kept (by omega) (by omega)
      · have past := lastWord_past single
        obtain ⟨j, rfl⟩ := Nat.exists_eq_add_of_le (past.trans unread)
        rw [ih (ahead.shift (k := 4) (by omega)) single (by omega), Nat.add_assoc]
        exact ahead.store_kept (by omega) (by omega)

/-- A string written ahead of the reading is read to its last word if and only if the words
before it are used up exactly. -/
theorem lastWord_iff (string : IsString m s2 n) (ahead : Ahead s1 s2 n) :
    (∃ fuel m' t1, lastWord fuel m s1 s2 = some (m', t1, s2 + 4 * (n / 4))) ↔
      usedUp false (words m s2 (n / 4)) := by
  induction n using Nat.strong_induction_on generalizing m s1 s2 with
  | _ n ih =>
      have unroll : (∃ fuel m' t1, lastWord fuel m s1 s2 = some (m', t1, s2 + 4 * (n / 4))) ↔
          ∃ fuel m' t1, lastWord (fuel + 1) m s1 s2 = some (m', t1, s2 + 4 * (n / 4)) := by
        constructor
        · rintro ⟨_ | fuel, m', t1, there⟩
          · cases there
          · exact ⟨fuel, m', t1, there⟩
        · rintro ⟨fuel, there⟩
          exact ⟨fuel + 1, there⟩
      rw [unroll]
      by_cases ends : n < 4
      · have first : n / 4 = 0 := Nat.div_eq_of_lt ends
        simp only [lastWord_last string ends, first, Nat.mul_zero, Nat.add_zero]
        exact iff_of_true ⟨0, m, s1, rfl⟩ rfl
      · have long := Nat.le_of_not_lt ends
        have count : n / 4 = (n - 4) / 4 + 1 := by omega
        by_cases clear : load m s2 &&& 0x4 = 0
        · have kept (j : Nat) (unread : 4 ≤ j) (le : j ≤ n) :
              Memory.store m s1 (load m s2) (s2 + j) = m (s2 + j) := ahead.store_kept unread le
          have at_word : s2 + 4 * (n / 4) = s2 + 4 + 4 * ((n - 4) / 4) := by omega
          simp only [lastWord_single string long clear]
          rw [at_word, ih (n - 4) (by omega) (string.shift long kept) (ahead.shift long),
            count, words, usedUp_clear clear, words_rest (by omega) kept]
        · simp only [lastWord_pair string long clear]
          by_cases more : 8 ≤ n
          · have count' : (n - 4) / 4 = (n - 8) / 4 + 1 := by omega
            have kept (j : Nat) (unread : 8 ≤ j) (le : j ≤ n) :
                storeTwice m s1 (load m s2) (s2 + j) = m (s2 + j) :=
              ahead.storeTwice_kept unread le
            have at_word : s2 + 4 * (n / 4) = s2 + 8 + 4 * ((n - 8) / 4) := by omega
            rw [at_word, ih (n - 8) (by omega) (string.shift more kept) (ahead.shift more),
              count, count', words, words, usedUp_set clear, words_rest (by omega) kept]
          · -- the last word goes with the one before it
            have alone : (n - 4) / 4 = 0 := by omega
            rw [count, alone, words, words, usedUp_alone clear]
            apply iff_of_false _ Bool.false_ne_true
            rintro ⟨fuel, m', t1, there⟩
            have past := lastWord_past there
            omega

/-- A copy that starts inside the string runs into what it has written itself, which has no zero
byte. -/
theorem lastWord_never {d : Nat} (wide : 4 ≤ d) (some_bytes : ∀ i < d, m (s2 + i) ≠ 0) :
    lastWord fuel m (s2 + d) s2 = none := by
  induction fuel generalizing m s2 with
  | zero => rfl
  | succ fuel ih =>
      have own (b : Nat) (lt : b < 4) : byte (load m s2) b ≠ 0 := by
        rw [byte_load m s2 lt]
        exact some_bytes b (by omega)
      have whole : ¬ hasZero (load m s2) = true := by
        rw [hasZero_iff]
        rintro ⟨b, lt, zero⟩
        exact own b lt zero
      -- the word is stored at the end of the bytes known not to be zero
      have stored (i : Nat) (lt : i < d + 4) :
          Memory.store m (s2 + d) (load m s2) (s2 + i) ≠ 0 := by
        by_cases old : i < d
        · rw [store_outside (by omega)]
          exact some_bytes i old
        · obtain ⟨b, rfl⟩ := Nat.exists_eq_add_of_le (Nat.le_of_not_lt old)
          have b_lt : b < 4 := by omega
          rw [← Nat.add_assoc, store_inside b_lt]
          exact own b b_lt
      simp only [lastWord]
      rw [if_neg whole]
      split
      · have twice (i : Nat) (lt : i < d) :
            storeTwice m (s2 + d) (load m s2) (s2 + 4 + 4 + i) ≠ 0 := by
          by_cases old : 4 + i < d
          · rw [storeTwice, store_outside (by omega)]
            have there := stored (4 + 4 + i) (by omega)
            rwa [← Nat.add_assoc, ← Nat.add_assoc] at there
          · obtain ⟨b, rest⟩ := Nat.exists_eq_add_of_le (Nat.le_of_not_lt old)
            have b_lt : b < 4 := by omega
            have at_byte : s2 + 4 + 4 + i = s2 + d + 4 + b := by omega
            rw [at_byte, storeTwice_second b_lt]
            exact own b b_lt
        have again := ih twice
        have pointer : s2 + 4 + 4 + d = s2 + d + 4 + 4 := by omega
        rwa [pointer] at again
      · have once (i : Nat) (lt : i < d) :
            Memory.store m (s2 + d) (load m s2) (s2 + 4 + i) ≠ 0 := by
          rw [Nat.add_assoc]
          exact stored _ (by omega)
        have again := ih once
        rwa [Nat.add_right_comm] at again

theorem STRALIGN_eq_mod (x : Nat) : STRALIGN x = x % 4 :=
  Nat.and_two_pow_sub_one_eq_mod x 2

/-- A last word that does not start with the `NUL` is copied for ever. -/
theorem lastLoop_iff (string : IsString m s2 n) (short : n < 4) :
    (∃ after, lastLoop 4 m' t1 (load m s2) = some after) ↔ n = 0 := by
  constructor
  · rintro ⟨after, done⟩
    obtain ⟨zero, -⟩ := lastLoop_eq done
    rw [GFC_load] at zero
    exact string.alone zero
  · rintro rfl
    exact ⟨_, lastLoop_zero ((GFC_load m s2).trans string.nul)⟩

/-- The loop over aligned words comes to the `NUL` and ends there if and only if the string has
whole words only, these are used up exactly, and the copy does not start inside the string. -/
theorem wordLoop_terminates_iff (aligned : STRALIGN s1 = 0) (aligned' : STRALIGN s2 = 0)
    (string : IsString m s2 n) :
    Terminates m s1 s2 n ↔
      4 ∣ n ∧ usedUp false (words m s2 (n / 4)) ∧ ¬ (s2 < s1 ∧ s1 ≤ s2 + n) := by
  by_cases inside : s2 < s1 ∧ s1 ≤ s2 + n
  · -- the copy covers the `NUL` before it is read
    apply iff_of_false
    · rintro ⟨fuel, m', t1, there, -⟩
      rw [STRALIGN_eq_mod] at aligned aligned'
      obtain ⟨d, rfl⟩ := Nat.exists_eq_add_of_lt inside.1
      rw [Nat.add_assoc] at there
      rw [lastWord_never (by omega) fun i lt => string.before i (by omega)] at there
      cases there
    · rintro ⟨-, -, outside⟩
      exact outside inside
  · have ahead : Ahead s1 s2 n := by
      rw [Ahead]
      omega
    have left {fuel : Nat} {m' : Memory} {t1 : Nat}
        (there : lastWord fuel m s1 s2 = some (m', t1, s2 + 4 * (n / 4))) :
        IsString m' (s2 + 4 * (n / 4)) (n - 4 * (n / 4)) := by
      apply string.shift (Nat.mul_div_le n 4)
      intro j unread le
      exact lastWord_kept ahead there (Nat.add_le_add_left unread s2) (Nat.add_le_add_left le s2)
    have short : n - 4 * (n / 4) < 4 := by omega
    rw [and_iff_left inside, ← lastWord_iff string ahead]
    constructor
    · rintro ⟨fuel, m', t1, there, ends⟩
      have start := (lastLoop_iff (left there) short).mp ends
      exact ⟨by omega, fuel, m', t1, there⟩
    · rintro ⟨whole, fuel, m', t1, there⟩
      have start : n - 4 * (n / 4) = 0 := by omega
      exact ⟨fuel, m', t1, there, (lastLoop_iff (left there) short).mpr start⟩

/-- `"a"` at address 16. -/
def oneByte : Memory := fun x => if x = 16 then 0x61 else 0

theorem oneByte_string : IsString oneByte 16 1 := ⟨rfl, by decide⟩

theorem wordLoop_terminates_iff_sample : Terminates singleWord 0 16 4 :=
  (wordLoop_terminates_iff rfl rfl singleWord_string).mpr (by decide)

/-- The last word of `"a"` is copied for ever. -/
theorem oneByte_not_terminates :
    ¬ ∀ (m : Memory) (s1 s2 n : Nat), STRALIGN s1 = 0 → STRALIGN s2 = 0 →
      IsString m s2 n → Terminates m s1 s2 n := by
  intro always
  obtain ⟨_ | fuel, m', t1, there, after, ends⟩ := always oneByte 0 16 1 rfl rfl oneByte_string
  · cases there
  · rw [lastWord_last oneByte_string (by decide)] at there
    cases there
    have start := (lastLoop_iff oneByte_string (by decide)).mp ⟨after, ends⟩
    cases start

end Comes

/-! ### The prologue -/

section Head

variable {m m' : Memory} {s1 s2 n t : Nat} {fuel : Nat}

/-- The `k` bytes at `s2` written at `s1`, and no others. -/
def copyBytes (m : Memory) (s1 s2 k : Nat) : Memory := fun x =>
  if s1 ≤ x ∧ x < s1 + k then m (s2 + (x - s1)) else m x

/-- With the `NUL` before the next word the string is copied with its `NUL`, and `strcpy` returns;
otherwise the bytes up to that word are, and `strcpy` goes on with aligned pointers. -/
def HeadSound (m : Memory) (s1 s2 n : Nat) : Prop :=
  let room := 4 - STRALIGN s1
  let (tmp, m', t1, t2) := headLoop room m s1 s2
  if n < room then
    tmp ≠ -1 ∧ m' = copyBytes m s1 s2 (n + 1) ∧ t1 = s1 + (n + 1) ∧ t2 = s2 + (n + 1)
  else
    tmp = -1 ∧ m' = copyBytes m s1 s2 room ∧ t1 = s1 + room ∧ t2 = s2 + room ∧
      STRALIGN t1 = 0 ∧ STRALIGN t2 = 0

/-- What the prologue leaves is what `strcpy` returns with, or copies on from. -/
theorem strcpy_head (same : STRALIGN s1 = STRALIGN s2) (off : STRALIGN s1 ≠ 0) :
    strcpy fuel m s1 s2 =
      let (tmp, m', t1, t2) := headLoop (4 - STRALIGN s1) m s1 s2
      if tmp ≠ -1 then some m' else wordLoop fuel m' t1 t2 := by
  have both : ALIGNED s1 s2 = 0 := by
    rw [STRALIGN, STRALIGN] at same
    rw [ALIGNED, Nat.and_xor_distrib_right, same, Nat.xor_self]
  rw [strcpy, if_neg (not_not.mpr both), if_pos off]
  rfl

theorem copyBytes_one : copyBytes m s1 s2 1 = put m s1 (m s2) := by
  funext x
  by_cases first : x = s1
  · rw [first, copyBytes, if_pos ⟨le_rfl, s1.lt_succ_self⟩, put, if_pos rfl, Nat.sub_self,
      Nat.add_zero]
  · rw [copyBytes, if_neg (by omega), put, if_neg first]

theorem copyBytes_succ {k : Nat} (unread : ∀ j, 0 < j → j ≤ k → s1 ≠ s2 + j) :
    copyBytes (put m s1 (m s2)) (s1 + 1) (s2 + 1) k = copyBytes m s1 s2 (k + 1) := by
  funext x
  by_cases first : x = s1
  · rw [first, copyBytes, if_neg (by omega), put, if_pos rfl, copyBytes, if_pos (by omega),
      Nat.sub_self, Nat.add_zero]
  · by_cases later : s1 < x ∧ x ≤ s1 + k
    · have read := unread (1 + (x - (s1 + 1))) (by omega) (by omega)
      have offset : 1 + (x - (s1 + 1)) = x - s1 := by omega
      rw [copyBytes, if_pos (by omega), Nat.add_assoc, put, if_neg read.symm, copyBytes,
        if_pos (by omega), offset]
    · rw [copyBytes, if_neg (by omega), put, if_neg first, copyBytes, if_neg (by omega)]

/-- The prologue stops at the first byte that has no bit in common with the counter, and copies up
to it. -/
theorem headLoop_eq (apart : ∀ i j, i < j → j ≤ t → s1 + i ≠ s2 + j) :
    ∃ i ≤ t, (∀ j < i, (t - j) &&& (m (s2 + j)).toNat ≠ 0) ∧
      (t - i) &&& (m (s2 + i)).toNat = 0 ∧
      headLoop t m s1 s2 =
        ((t : Int) - i - 1, copyBytes m s1 s2 (i + 1), s1 + (i + 1), s2 + (i + 1)) := by
  induction t generalizing m s1 s2 with
  | zero =>
      refine ⟨0, le_rfl, fun j lt => absurd lt j.not_lt_zero, Nat.zero_and _, ?_⟩
      rw [copyBytes_one]
      rfl
  | succ t ih =>
      by_cases stops : (t + 1) &&& (m s2).toNat = 0
      · refine ⟨0, Nat.zero_le _, fun j lt => absurd lt j.not_lt_zero, stops, ?_⟩
        have left : ((t + 1 : Nat) : Int) - (0 : Nat) - 1 = t := by omega
        rw [headLoop, if_pos stops, copyBytes_one, left]
      · have read (j : Nat) (le : j ≤ t) : put m s1 (m s2) (s2 + 1 + j) = m (s2 + (j + 1)) := by
          rw [Nat.add_assoc, Nat.add_comm 1 j]
          exact if_neg (apart 0 (j + 1) j.succ_pos (Nat.succ_le_succ le)).symm
        have apart' (i j : Nat) (lt : i < j) (le : j ≤ t) : s1 + 1 + i ≠ s2 + 1 + j := by
          have later := apart (i + 1) (j + 1) (Nat.succ_lt_succ lt) (Nat.succ_le_succ le)
          omega
        obtain ⟨i, i_le, before, at_stop, run⟩ := ih (m := put m s1 (m s2)) apart'
        refine ⟨i + 1, Nat.succ_le_succ i_le, fun j lt => ?_, ?_, ?_⟩
        · cases j with
          | zero => exact stops
          | succ j =>
              have lt' := Nat.lt_of_succ_lt_succ lt
              rw [← read j (lt'.le.trans i_le), Nat.add_sub_add_right]
              exact before j lt'
        · rwa [← read i i_le, Nat.add_sub_add_right]
        · have left : ((t : Int) - i - 1) = ((t + 1 : Nat) : Int) - ((i + 1 : Nat) : Int) - 1 := by
            omega
          have pointer (s : Nat) : s + 1 + (i + 1) = s + (i + 1 + 1) := by omega
          rw [headLoop, if_neg stops, run, left, copyBytes_succ, pointer, pointer]
          intro j pos le
          exact apart 0 j pos (by omega)

/-- The prologue is sound if and only if the `NUL` stands before the next word and every byte
before it has a bit in common with the counter it is copied at. -/
theorem head_sound_iff (same : STRALIGN s1 = STRALIGN s2) (off : STRALIGN s1 ≠ 0)
    (string : IsString m s2 n) :
    HeadSound m s1 s2 n ↔ n < 4 - STRALIGN s1 ∧
      ∀ i < n, (4 - STRALIGN s1 - i) &&& (m (s2 + i)).toNat ≠ 0 := by
  have room : 4 - STRALIGN s1 ≤ 3 := by omega
  have apart (i j : Nat) (lt : i < j) (le : j ≤ 4 - STRALIGN s1) : s1 + i ≠ s2 + j := by
    rw [STRALIGN_eq_mod, STRALIGN_eq_mod] at same
    omega
  obtain ⟨i, i_le, before, at_stop, run⟩ := headLoop_eq (m := m) apart
  rw [HeadSound]
  simp only [run]
  generalize room_eq : 4 - STRALIGN s1 = t at *
  by_cases fits : n < t
  · rw [if_pos fits, and_iff_right fits]
    constructor
    · rintro ⟨-, -, -, at_nul⟩ j lt
      have all : i = n := by omega
      exact before j (by omega)
    · intro shared
      have all : i = n := by
        apply Nat.le_antisymm
        · by_contra past
          apply before n (Nat.lt_of_not_le past)
          rw [string.nul]
          exact Nat.and_zero _
        · by_contra early
          exact shared i (Nat.lt_of_not_le early) at_stop
      subst all
      exact ⟨by omega, rfl, rfl, rfl⟩
  · rw [if_neg fits]
    apply iff_of_false
    · rintro ⟨ends, -, pointer, -⟩
      omega
    · rintro ⟨short, -⟩
      exact fits short

/-- `"a"` at address 17. -/
def oddByte : Memory := fun x => if x = 17 then 0x61 else 0

theorem oddByte_string : IsString oddByte 17 1 := ⟨rfl, by decide⟩

theorem head_sound_iff_sample : HeadSound oddByte 1 17 1 := by
  have same : STRALIGN 1 = STRALIGN 17 := rfl
  exact (head_sound_iff same (by decide) oddByte_string).mpr (by decide)

/-- `"d"` at address 17 has no bit in common with the counter 3. -/
def evenByte : Memory := fun x => if x = 17 then 0x64 else 0

/-- `"d"` is copied without its `NUL`. -/
theorem evenByte_not_sound :
    ¬ ∀ (m : Memory) (s1 s2 n : Nat), STRALIGN s1 = STRALIGN s2 → STRALIGN s1 ≠ 0 →
      IsString m s2 n → HeadSound m s1 s2 n := by
  intro always
  obtain ⟨-, -, at_nul, -⟩ := always evenByte 1 17 1 rfl (by decide) ⟨rfl, by decide⟩
  exact absurd at_nul (by decide)

end Head

end CFunc.Clibs.Strcpy
