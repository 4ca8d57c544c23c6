import CFunc.Lib.CText
import CFunc.Lib.Cells

/-!
`clibs/argc_argv.c`: a command line taken apart into words.

The first token is copied before the loop, whether there is one or not, and the
loop writes one slot of a table of 32 for each further token.
-/

namespace CFunc.Clibs.ArgcArgv

open CFunc.Lib CFunc.Lib.Cells CFunc.Lib.CText
open CFunc.Lib.Exec (lift loop Ends Faults ends_lift faults_lift)

/-! ### The code -/

def BLANK : Byte := 0x20

/-- `strtok_r` on the string it searches: the token, if there is one, and where `saveptr` points
to after the call. -/
def strtok_r (delimiter : Byte) (s : List Byte) : Option (List Byte) × List Byte :=
  let s := s.dropWhile (· = delimiter)
  (if s = [] then none else some (s.takeWhile (· ≠ delimiter)),
    (s.dropWhile (· ≠ delimiter)).tail)

/-- A `char *`: of a copied token, or of bytes that are no address of a string. -/
inductive Pointer where
  | null
  | filled (c : Byte)
  | word (text : List Byte)
  deriving DecidableEq

/-- There is nothing that `strdup(NULL)` could copy. -/
def strdup (token : Option (List Byte)) : Exec (Cells Pointer) Pointer :=
  lift (token.map .word)

/-- One test of the loop, with `argc` and `saveptr`. -/
def word_round (at_ : Int × List Byte) : Exec (Cells Pointer) (Bool × Int × List Byte) := do
  if (strtok_r BLANK at_.2).1 = none then return (false, at_)
  else do
    write at_.1 (← strdup (strtok_r BLANK at_.2).1)
    return (true, ← lift (addInt at_.1 1), (strtok_r BLANK at_.2).2)

/-- `memcpy(argv, ptr, sizeof (char *) * n)` -/
def copy_table (argv : List Pointer) (n : Nat) : Exec (Cells Pointer) (List Pointer) := fun ptr =>
  if n ≤ ptr.cells.length ∧ n ≤ argv.length then .done (ptr.cells.take n ++ argv.drop n, ptr)
  else .fault

/-- `char *ptr[32] = { NULL, };` -/
def ptr : Cells Pointer := ⟨List.replicate 32 .null, []⟩

/-- What is returned, and `*argv`. -/
def dtu_cmds_rebuild_argc_argv (fuel : Nat) (input : List Byte) :
    Exec (Cells Pointer) (Int × List Pointer) := do
  write 0 (← strdup (strtok_r BLANK input).1)
  let at_ ← loop word_round fuel (1, (strtok_r BLANK input).2)
  let argv ← copy_table (List.replicate at_.1.toNat (.filled 0x31)) at_.1.toNat
  return (at_.1, argv)

/-! ### Words -/

/-- The maximal runs of characters that are not blank. -/
def words (input : List Byte) : List (List Byte) := tokens BLANK input

section Words

variable {s : List Byte}

theorem words_nil : words [] = [] := rfl

theorem words_blank (s : List Byte) : words (BLANK :: s) = words s :=
  tokens_append_cons BLANK [] s

theorem words_dropWhile (s : List Byte) : words (s.dropWhile (· = BLANK)) = words s := by
  induction s with
  | nil => rfl
  | cons c s ih =>
      rw [List.dropWhile_cons]
      split
      · next blank =>
          obtain rfl : c = BLANK := of_decide_eq_true blank
          rw [ih, words_blank]
      · rfl

theorem words_of_word {word : List Byte} (some_char : word ≠ []) (whole : BLANK ∉ word) :
    words word = [word] := by
  rw [words, tokens_of_not_mem whole, if_neg some_char]

theorem words_append_blank {word : List Byte} (some_char : word ≠ []) (whole : BLANK ∉ word)
    (later : List Byte) : words (word ++ BLANK :: later) = word :: words later := by
  have first := words_of_word some_char whole
  rw [words] at first
  rw [words, tokens_append_cons, first, List.singleton_append, words]

/-- From a character that is not blank on, the first word goes up to the next blank. -/
theorem words_cons {c : Byte} (char : c ≠ BLANK) (s : List Byte) :
    words (c :: s) = (c :: s).takeWhile (· ≠ BLANK) ::
      words ((c :: s).dropWhile (· ≠ BLANK)).tail := by
  have some_char : (c :: s).takeWhile (· ≠ BLANK) ≠ [] := by
    rw [List.takeWhile_cons_of_pos (by simpa using char)]
    exact List.cons_ne_nil _ _
  have whole : BLANK ∉ (c :: s).takeWhile (· ≠ BLANK) := by
    intro mem
    have kept := List.mem_takeWhile_imp mem
    exact of_decide_eq_true kept rfl
  have parts := List.takeWhile_append_dropWhile (p := (· ≠ BLANK)) (l := c :: s)
  have stop := List.head?_dropWhile_not (· ≠ BLANK) (c :: s)
  cases left : (c :: s).dropWhile (· ≠ BLANK) with
  | nil =>
      rw [left, List.append_nil] at parts
      rw [parts] at some_char whole ⊢
      rw [words_of_word some_char whole, List.tail_nil, words_nil]
  | cons blank later =>
      rw [left] at parts stop
      obtain rfl : blank = BLANK := by simpa using stop
      rw [List.tail_cons, ← words_append_blank some_char whole, parts]

/-- What one call of `strtok_r` finds: no word in the whole string, or the first one, with
the others still to come. -/
inductive Found (s : List Byte) : Option (List Byte) × List Byte → Prop where
  | none {rest : List Byte} (blanks : words s = []) : Found s (none, rest)
  | word {token rest : List Byte} (first : words s = token :: words rest)
      (shorter : rest.length < s.length) : Found s (some token, rest)

theorem found_strtok_r (s : List Byte) : Found s (strtok_r BLANK s) := by
  have same := words_dropWhile s
  have length := List.length_dropWhile_le (· = BLANK) s
  have stop := List.head?_dropWhile_not (· = BLANK) s
  rw [strtok_r]
  cases start : s.dropWhile (· = BLANK) with
  | nil =>
      rw [start] at same
      exact .none same.symm
  | cons c rest =>
      rw [start] at same length stop
      have char : c ≠ BLANK := by simpa using stop
      rw [if_neg (List.cons_ne_nil c rest)]
      refine .word (same.symm.trans (words_cons char rest)) ?_
      have shorter := List.length_dropWhile_le (· ≠ BLANK) (c :: rest)
      rw [List.length_tail]
      rw [List.length_cons] at length shorter
      omega

end Words

/-! ### The table -/

/-- The table after the words `done`. -/
def slots (done : List (List Byte)) : List Pointer :=
  done.map .word ++ List.replicate (32 - done.length) .null

/-- The loop between two tests: the words in the table and those still in the string are
`all`, and no slot outside the table was accessed. -/
def Filling (all : List (List Byte)) (at_ : Int × List Byte) (t : Cells Pointer) : Prop :=
  ∃ done, done ++ words at_.2 = all ∧ at_.1 = done.length ∧ done.length ≤ 32 ∧
    t.cells = slots done ∧ Touches 0 31 ptr t

section Table

variable {done all : List (List Byte)} {token rest : List Byte} {at_ : Int × List Byte}
  {t : Cells Pointer} {fuel : Nat}

theorem length_slots (room : done.length ≤ 32) : (slots done).length = 32 := by
  rw [slots, List.length_append, List.length_map, List.length_replicate]
  omega

theorem set_slots (room : done.length < 32) (token : List Byte) :
    (slots done).set done.length (.word token) = slots (done ++ [token]) := by
  have left : 32 - done.length = 32 - (done.length + 1) + 1 := by omega
  rw [slots, slots, List.set_append_right _ _ (by rw [List.length_map]), List.length_map,
    Nat.sub_self, left, List.replicate_succ, List.set_cons_zero, List.map_append,
    List.map_singleton, List.append_assoc, List.singleton_append, List.length_append,
    List.length_singleton]

theorem take_slots (done : List (List Byte)) :
    (slots done).take done.length = done.map .word := by
  rw [slots, List.take_left' (by rw [List.length_map])]

theorem ends_store (room : done.length < 32) (cells : t.cells = slots done)
    (touches : Touches 0 31 ptr t) (token : List Byte) :
    Ends (write done.length (.word token)) t fun _ u =>
      u.cells = slots (done ++ [token]) ∧ Touches 0 31 ptr u := by
  apply (ends_write (by omega) (by rw [cells, length_slots (by omega)]; omega) _).mono
  rintro _ u ⟨cells', touches'⟩
  refine ⟨?_, touches.trans (touches'.mono (by omega) (by omega))⟩
  rw [cells', cells, Int.toNat_natCast, set_slots room]

/-! ### The rounds -/

theorem ends_last_round (filling : Filling all at_ t) (call : strtok_r BLANK at_.2 = (none, rest))
    (blanks : words at_.2 = []) :
    Ends (word_round at_) t fun next u =>
      next.1 = false ∧ next.2.1 = all.length ∧ u.cells = slots all ∧ Touches 0 31 ptr u := by
  obtain ⟨done, split, argc, _, cells, touches⟩ := filling
  rw [blanks, List.append_nil] at split
  subst split
  rw [word_round, if_pos (by rw [call])]
  exact Ends.pure ⟨rfl, argc, cells, touches⟩

theorem ends_next_round (filling : Filling all at_ t)
    (call : strtok_r BLANK at_.2 = (some token, rest)) (first : words at_.2 = token :: words rest)
    (room : at_.1 < 32) :
    Ends (word_round at_) t fun next u =>
      next.1 = true ∧ Filling all next.2 u ∧ next.2.2 = rest := by
  obtain ⟨done, split, argc, _, cells, touches⟩ := filling
  rw [word_round, if_neg (by rw [call]; exact Option.some_ne_none token), call, argc]
  apply Ends.bind (ends_lift rfl)
  rintro _ _ ⟨rfl, rfl⟩
  apply Ends.bind (ends_store (by omega) cells touches token)
  rintro _ u ⟨cells', touches'⟩
  apply Ends.bind (ends_lift (addInt_eq_some (by unfold INT_MIN; omega) (by unfold INT_MAX; omega)))
  rintro _ _ ⟨rfl, rfl⟩
  refine Ends.pure ⟨rfl, ⟨done ++ [token], ?_, ?_, ?_, cells', touches'⟩, rfl⟩
  · rw [List.append_assoc, List.singleton_append, ← first, split]
  · rw [List.length_append, List.length_singleton, Nat.cast_add, Nat.cast_one]
  · rw [List.length_append, List.length_singleton]
    omega

theorem faults_next_round (filling : Filling all at_ t)
    (call : strtok_r BLANK at_.2 = (some token, rest)) (full : 32 ≤ at_.1) :
    Faults (word_round at_) t := by
  obtain ⟨done, _, _, room, cells, _⟩ := filling
  rw [word_round, if_neg (by rw [call]; exact Option.some_ne_none token), call]
  apply Faults.rest (ends_lift rfl)
  rintro _ _ ⟨rfl, rfl⟩
  apply Faults.first
  apply faults_write
  rw [cells, length_slots room]
  omega

/-! ### The loop -/

theorem ends_words (short : all.length ≤ 32) (filling : Filling all at_ t)
    (enough : at_.2.length < fuel) :
    Ends (loop word_round fuel at_) t fun at_ u =>
      at_.1 = all.length ∧ u.cells = slots all ∧ Touches 0 31 ptr u := by
  refine Ends.loop (Filling all) _ (fun at_ _ => at_.2.length) ?_ filling enough
  intro at_ t filling
  generalize call : strtok_r BLANK at_.2 = found
  cases call ▸ found_strtok_r at_.2 with
  | none blanks =>
      apply (ends_last_round filling call blanks).mono
      rintro ⟨_, _⟩ u ⟨rfl, argc, cells, touches⟩
      exact ⟨nofun, fun _ => ⟨argc, cells, touches⟩⟩
  | @word token rest first shorter =>
      have room : at_.1 < 32 := by
        obtain ⟨done, split, argc, _⟩ := filling
        have := congrArg List.length split
        rw [first, List.length_append, List.length_cons] at this
        omega
      apply (ends_next_round filling call first room).mono
      rintro ⟨_, _⟩ u ⟨rfl, filling', rfl⟩
      exact ⟨fun _ => ⟨filling', shorter⟩, nofun⟩

theorem faults_words (long : 32 < all.length) (filling : Filling all at_ t)
    (enough : at_.2.length < fuel) : Faults (loop word_round fuel at_) t := by
  refine Faults.loop_of_round (Filling all) (fun at_ _ => at_.2.length) ?_ filling enough
  intro at_ t filling
  generalize call : strtok_r BLANK at_.2 = found
  cases call ▸ found_strtok_r at_.2 with
  | none blanks =>
      obtain ⟨done, split, _, room, _⟩ := filling
      rw [blanks, List.append_nil] at split
      rw [split] at room
      omega
  | word first shorter =>
      by_cases room : at_.1 < 32
      · right
        apply (ends_next_round filling call first room).mono
        rintro ⟨_, _⟩ u ⟨rfl, filling', rfl⟩
        exact ⟨rfl, filling', shorter⟩
      · left
        exact faults_next_round filling call (by omega)

end Table

/-! ### The command line -/

/-- The words of the input in order, counted, and no slot outside the table accessed. -/
structure Rebuilds (input : List Byte) (out : Int × List Pointer) (t : Cells Pointer) : Prop where
  argc : out.1 = (words input).length
  argv : out.2 = (words input).map .word
  table : Touches 0 31 ptr t

section

variable {input : List Byte} {fuel : Nat}

theorem ends_copy_table {all : List (List Byte)} {t : Cells Pointer} (short : all.length ≤ 32)
    (cells : t.cells = slots all) (c : Byte) :
    Ends (copy_table (List.replicate all.length (.filled c)) all.length) t fun argv u =>
      argv = all.map .word ∧ t = u := by
  have room : all.length ≤ t.cells.length := by
    rw [cells, length_slots short]
    exact short
  refine ⟨_, t, ?_, rfl, rfl⟩
  rw [copy_table, if_pos ⟨room, by rw [List.length_replicate]⟩, cells, take_slots,
    List.drop_of_length_le (by rw [List.length_replicate]), List.append_nil]

/-- The first word is copied before the loop. -/
theorem ends_first {token rest : List Byte} (first : words input = token :: words rest) :
    Ends (write 0 (.word token)) ptr fun _ t => Filling (words input) (1, rest) t := by
  have empty : ([] : List (List Byte)).length < 32 := by decide
  apply (ends_store empty rfl (Touches.refl 0 31 ptr) token).mono
  rintro _ t ⟨cells, touches⟩
  exact ⟨[token], first.symm, rfl, by rw [List.length_singleton]; omega, cells, touches⟩

theorem ends_rebuild {token rest : List Byte} (call : strtok_r BLANK input = (some token, rest))
    (first : words input = token :: words rest) (short : (words input).length ≤ 32)
    (enough : rest.length < fuel) :
    Ends (dtu_cmds_rebuild_argc_argv fuel input) ptr fun out t => Rebuilds input out t := by
  rw [dtu_cmds_rebuild_argc_argv, call]
  apply Ends.bind (ends_lift rfl)
  rintro _ _ ⟨rfl, rfl⟩
  apply Ends.bind (ends_first first)
  intro _ t filling
  apply Ends.bind (ends_words short filling enough)
  rintro ⟨argc, _⟩ u ⟨rfl, cells, touches⟩
  rw [Int.toNat_natCast]
  apply Ends.bind (ends_copy_table short cells _)
  rintro argv _ ⟨rfl, rfl⟩
  exact Ends.pure ⟨rfl, rfl, touches⟩

/-- `strdup(NULL)` -/
theorem faults_rebuild_none {rest : List Byte} (call : strtok_r BLANK input = (none, rest)) :
    Faults (dtu_cmds_rebuild_argc_argv fuel input) ptr := by
  rw [dtu_cmds_rebuild_argc_argv, call]
  exact Faults.first (faults_lift rfl)

/-- `ptr[32]` -/
theorem faults_rebuild_long {token rest : List Byte}
    (call : strtok_r BLANK input = (some token, rest))
    (first : words input = token :: words rest) (long : 32 < (words input).length)
    (enough : rest.length < fuel) : Faults (dtu_cmds_rebuild_argc_argv fuel input) ptr := by
  rw [dtu_cmds_rebuild_argc_argv, call]
  apply Faults.rest (ends_lift rfl)
  rintro _ _ ⟨rfl, rfl⟩
  apply Faults.rest (ends_first first)
  intro _ t filling
  exact (faults_words long filling enough).first

/-- The command line is rebuilt just where it has a word and the table has a slot for each. -/
theorem dtu_cmds_rebuild_argc_argv_iff (input : CStr) {fuel : Nat}
    (enough : input.chars.length < fuel) :
    Ends (dtu_cmds_rebuild_argc_argv fuel input.chars) ptr (Rebuilds input.chars) ↔
      1 ≤ (words input.chars).length ∧ (words input.chars).length ≤ 32 := by
  generalize call : strtok_r BLANK input.chars = found
  cases call ▸ found_strtok_r input.chars with
  | none blanks =>
      constructor
      · intro ends
        exact absurd (faults_rebuild_none call) ends.not_faults
      · rintro ⟨some_word, _⟩
        rw [blanks] at some_word
        exact absurd some_word (by decide)
  | word first shorter =>
      constructor
      · intro ends
        constructor
        · rw [first, List.length_cons]
          omega
        · by_contra long
          exact ends.not_faults (faults_rebuild_long call first (by omega) (by omega))
      · rintro ⟨_, short⟩
        exact ends_rebuild call first short (by omega)

/-- Two words, with blanks around them. -/
theorem dtu_cmds_rebuild_argc_argv_two :
    Ends (dtu_cmds_rebuild_argc_argv 10 (bytes " ls  -l ")) ptr (Rebuilds (bytes " ls  -l ")) :=
  (dtu_cmds_rebuild_argc_argv_iff ⟨bytes " ls  -l ", by decide⟩ (by decide)).mpr (by decide)

/-- A string without words. -/
theorem not_rebuilds_empty : ¬ Ends (dtu_cmds_rebuild_argc_argv 1 []) ptr (Rebuilds []) := by
  intro ends
  exact ends.not_faults (faults_rebuild_none rfl)

end

end CFunc.Clibs.ArgcArgv
