import CFunc.Lib.CString
import CFunc.Lib.Memory
import CFunc.Lib.Pieces
import Mathlib.Data.List.Forall2

/-!
`strsep` of `clibs/string.c`.

A call cuts the string at its first delimiter, with a `NUL` in its place, and
leaves the cursor behind it. The calls until `NULL` return the pieces of the
string in their order, and no later call touches a piece that was returned.
-/

namespace CFunc.Clibs.Strsep

open CFunc.Lib CFunc.Lib.Memory

/-! ### The code -/

/-- `for (sc2 = ct; *sc2 != '\0'; ++sc2)` of `strpbrk`: does it return? -/
def among (c : Byte) : List Byte → Bool
  | [] => false
  | d :: ct => if c = d then true else among c ct

section Code

variable (ct : List Byte)

/-- Without a `NUL` the scan runs out of fuel. -/
def strpbrk (m : Memory) : Nat → Nat → Option (Option Nat)
  | 0, _ => none
  | fuel + 1, sc1 =>
      if m sc1 = 0 then some none
      else if among (m sc1) ct then some (some sc1)
      else strpbrk m fuel (sc1 + 1)

/-- After a call: the memory, the cursor `*s`, and the pointer that was returned. -/
structure Called where
  memory : Memory
  s : Option Nat
  token : Option Nat

def strsep (fuel : Nat) (m : Memory) : Option Nat → Option Called
  | none => some ⟨m, none, none⟩
  | some sbegin =>
      (strpbrk ct m fuel sbegin).map fun found =>
        ⟨found.elim m fun last => put m last 0, found.map (· + 1), some sbegin⟩

/-- `while ((token = strsep(&s, ct)) != NULL)`: the tokens, each with the memory after its call,
and the memory at the end. -/
def tokens (fuel : Nat) : Nat → Memory → Option Nat → Option (List (Memory × Nat) × Memory)
  | 0, _, _ => none
  | more + 1, m, s =>
      (strsep ct fuel m s).bind fun called =>
        called.token.elim (some ([], called.memory)) fun token =>
          (tokens fuel more called.memory called.s).map fun later =>
            ((called.memory, token) :: later.1, later.2)

end Code

/-! ### One call -/

theorem among_eq (c : Byte) (ct : List Byte) : among c ct = ct.contains c := by
  induction ct with
  | nil => rfl
  | cons d ct ih =>
      rw [among, List.contains_cons, ih]
      by_cases same : c = d
      · rw [if_pos same, same, beq_self_eq_true, Bool.true_or]
      · rw [if_neg same, beq_false_of_ne same, Bool.false_or]

section Call

variable {ct : List Byte} {m : Memory} {s fuel : Nat} {piece later : List Byte}

/-- The scan passes what is no delimiter. -/
theorem strpbrk_skip (whole : Whole ct.contains piece) (at_s : StringAt m s (piece ++ later)) :
    strpbrk ct m (piece.length + fuel) s = strpbrk ct m fuel (s + piece.length) := by
  induction piece generalizing s with
  | nil => rw [List.length_nil, Nat.zero_add, Nat.add_zero]
  | cons c piece ih =>
      obtain ⟨no_delimiter, whole⟩ := List.forall_mem_cons.mp whole
      obtain ⟨first, some_char, others⟩ := at_s
      have step : strpbrk ct m (piece.length + fuel + 1) s =
          strpbrk ct m (piece.length + fuel) (s + 1) := by
        rw [strpbrk, first, if_neg some_char, among_eq, no_delimiter, if_neg Bool.false_ne_true]
      rw [List.length_cons, Nat.add_right_comm, step, ih whole others, Nat.add_assoc,
        Nat.add_comm 1]

theorem strpbrk_whole (whole : Whole ct.contains piece) (at_s : StringAt m s piece)
    (enough : piece.length < fuel) : strpbrk ct m fuel s = some none := by
  obtain ⟨spare, rfl⟩ := Nat.exists_eq_add_of_lt enough
  rw [← List.append_nil piece] at at_s
  have ended : m (s + piece.length) = 0 := at_s.skip
  rw [Nat.add_assoc, strpbrk_skip whole at_s, strpbrk, if_pos ended]

theorem strpbrk_cut {d : Byte} (whole : Whole ct.contains piece) (at_d : ct.contains d = true)
    (at_s : StringAt m s (piece ++ d :: later)) (enough : piece.length < fuel) :
    strpbrk ct m fuel s = some (some (s + piece.length)) := by
  obtain ⟨spare, rfl⟩ := Nat.exists_eq_add_of_lt enough
  obtain ⟨first, some_char, -⟩ := at_s.skip
  rw [Nat.add_assoc, strpbrk_skip whole at_s, strpbrk, first, if_neg some_char, among_eq,
    if_pos at_d]

theorem strsep_whole (whole : Whole ct.contains piece) (at_s : StringAt m s piece)
    (enough : piece.length < fuel) : strsep ct fuel m (some s) = some ⟨m, none, some s⟩ := by
  rw [strsep, strpbrk_whole whole at_s enough]
  rfl

theorem strsep_cut {d : Byte} (whole : Whole ct.contains piece) (at_d : ct.contains d = true)
    (at_s : StringAt m s (piece ++ d :: later)) (enough : piece.length < fuel) :
    strsep ct fuel m (some s) =
      some ⟨put m (s + piece.length) 0, some (s + piece.length + 1), some s⟩ := by
  rw [strsep, strpbrk_cut whole at_d at_s enough]
  rfl

end Call

/-! ### All calls -/

/-- What stands at the token after its call, and still does at the end. -/
def Stays (final : Memory) (call : Memory × Nat) (piece : List Byte) : Prop :=
  StringAt call.1 call.2 piece ∧ StringAt final call.2 piece

section Calls

variable {ct text : List Byte} {pieces : List (List Byte)} {fuel more : Nat} {m : Memory}
  {s : Option Nat}

/-- A call that returns a token is the first of a run. -/
theorem tokens_succ {called : Called} {token : Nat} {run : List (Memory × Nat)} {final : Memory}
    (call : strsep ct fuel m s = some called) (returned : called.token = some token)
    (others : tokens ct fuel more called.memory called.s = some (run, final)) :
    tokens ct fuel (more + 1) m s = some ((called.memory, token) :: run, final) := by
  rw [tokens, call, Option.bind_some, returned, Option.elim_some, others]
  rfl

/-- The calls return the pieces, and write inside the string only. -/
theorem tokens_pieces (cut : Pieces ct.contains text pieces) {s : Nat} (at_s : StringAt m s text)
    (enough : text.length < fuel) (calls : pieces.length < more) :
    ∃ run final, tokens ct fuel more m (some s) = some (run, final) ∧
      List.Forall₂ (Stays final) run pieces ∧
      ∀ x, ¬ (s ≤ x ∧ x < s + text.length) → final x = m x := by
  induction cut generalizing m s more with
  | last whole =>
      obtain ⟨spare, rfl⟩ := Nat.exists_eq_add_of_lt calls
      have ended : tokens ct fuel (spare + 1) m none = some ([], m) := rfl
      have run := tokens_succ (strsep_whole whole at_s enough) rfl ended
      refine ⟨[(m, s)], m, ?_, .cons ⟨at_s, at_s⟩ .nil, fun _ _ => rfl⟩
      rw [List.length_singleton, Nat.add_assoc, Nat.add_comm 1]
      exact run
  | @cut piece later d pieces whole at_d _ ih =>
      obtain ⟨more, rfl⟩ := Nat.exists_eq_add_one.mpr (Nat.zero_lt_of_lt calls)
      rw [List.length_append, List.length_cons] at enough
      rw [List.length_append, List.length_cons]
      have call := strsep_cut whole at_d at_s (by omega : piece.length < fuel)
      have behind : StringAt (put m (s + piece.length) 0) (s + piece.length + 1) later :=
        at_s.skip.2.2.frame fun x low _ => put_other m 0 (by omega)
      obtain ⟨run, final, others, stay, outside⟩ :=
        ih behind (by omega) (Nat.lt_of_succ_lt_succ calls)
      have first : StringAt (put m (s + piece.length) 0) s piece := at_s.cut
      -- the later calls write behind the cursor
      have first_stays : StringAt final s piece :=
        first.frame fun x low high => outside x (by omega)
      refine ⟨_, final, tokens_succ call rfl others, .cons ⟨first, first_stays⟩ stay, ?_⟩
      intro x out
      have other : x ≠ s + piece.length := by omega
      rw [outside x (by omega), put_other m 0 other]

end Calls

/-- The laws of a run that leaves the memory `final`. -/
structure Lossless (ct text : List Byte) (run : List (Memory × Nat)) (final : Memory)
    (pieces : List (List Byte)) : Prop where
  tokens : List.Forall₂ (Stays final) run pieces
  count : run.length = text.countP ct.contains + 1
  no_delimiter : ∀ piece ∈ pieces, ∀ c ∈ piece, ct.contains c = false
  whole : interleave pieces (text.filter ct.contains) = text

/-- The calls until `NULL` split a string without loss. -/
theorem strsep_splits (ct : CStr) {text : List Byte} {m : Memory} {s : Nat}
    (at_s : StringAt m s text) {fuel : Nat} (enough : text.length + 1 < fuel) :
    ∃ run final pieces, tokens ct.chars fuel fuel m (some s) = some (run, final) ∧
      Lossless ct.chars text run final pieces := by
  obtain ⟨pieces, cut⟩ := exists_pieces ct.chars.contains text
  have few : pieces.length < fuel := by
    have most : text.countP ct.chars.contains ≤ text.length := List.countP_le_length
    have count := cut.length_eq
    omega
  obtain ⟨run, final, calls, stay, -⟩ := tokens_pieces cut at_s (Nat.lt_of_succ_lt enough) few
  refine ⟨run, final, pieces, calls, stay, ?_, cut.whole, cut.interleave_eq⟩
  rw [stay.length_eq, cut.length_eq]

/-- Two adjacent delimiters, and one at the end. -/
theorem strsep_sample :
    ∃ run final pieces,
      tokens (bytes ",;") 7 7 (fun x => (bytes "a,;b;").getD x 0) (some 0) = some (run, final) ∧
        Lossless (bytes ",;") (bytes "a,;b;") run final pieces :=
  strsep_splits ⟨bytes ",;", by decide⟩ (by decide) (by decide)

end CFunc.Clibs.Strsep
