import CFunc.Clibs.PrintfText

/-!
What `vsnprintf` leaves in its buffer.

`Holds` says what of a text has reached a buffer whose last address is `last`;
the output to the buffer is followed beside the output without end. The bound
is right unless the buffer is at `NULL`, where `buf - 1` is the last address of
all, or the text goes on past that address.
-/

namespace CFunc.Clibs.Printf

open CFunc.Lib

/-! ### What reaches the buffer -/

section Held

variable {buf last : Ptr} {mem : Ptr → Byte} {o : Buffer} {t : Sink.Text Byte Ptr}

/-- The address of byte `j` of the text. -/
def place (buf : Ptr) (j : Nat) : Ptr := buf + BitVec.ofNat 32 j

theorem place_succ (buf : Ptr) (j : Nat) : place buf (j + 1) = place buf j + 1 := by
  rw [place, place, BitVec.ofNat_add, BitVec.add_assoc]
  rfl

theorem toNat_place {j : Nat} (fits : buf.toNat + j < 2 ^ 32) :
    (place buf j).toNat = buf.toNat + j := by
  rw [place, BitVec.toNat_add, BitVec.toNat_ofNat, Nat.add_mod_mod, Nat.mod_eq_of_lt fits]

theorem place_ne {i j : Nat} (lt : i < j) (fits : buf.toNat + j < 2 ^ 32) :
    place buf i ≠ place buf j := by
  intro same
  have values := congrArg BitVec.toNat same
  rw [toNat_place (by omega), toNat_place fits] at values
  omega

/-- The state of the buffer at `buf` with last address `last` after the text `t`. -/
structure Holds (buf last : Ptr) (mem : Ptr → Byte) (o : Buffer) (t : Sink.Text Byte Ptr) :
    Prop where
  str : o.str = place buf t.text.length
  stores : o.stores = t.notes.map fun (ip, n) => (ip, BitVec.ofNat 32 n)
  written : ∀ a, a ∈ o.written ↔ ∃ j < t.text.length, a = place buf j ∧ a ≤ last
  frame : ∀ a, a ∉ o.written → o.mem a = mem a
  kept : buf.toNat + t.text.length ≤ 2 ^ 32 → ∀ j (lt : j < t.text.length),
    place buf j ≤ last → o.mem (place buf j) = t.text[j]

theorem Holds.start : Holds buf last mem ⟨buf, mem, [], []⟩ ⟨[], []⟩ where
  str := (BitVec.add_zero buf).symm
  stores := rfl
  written a := by simp
  frame a _ := rfl
  kept _ j lt := absurd lt (Nat.not_lt_zero j)

/-- A store within the bound. -/
theorem Holds.put_inside (holds : Holds buf last mem o t) (c : Byte) (inside : o.str ≤ last) :
    Holds buf last mem { o.write o.str c with str := o.str + 1 }
      { t with text := t.text ++ [c] } := by
  have str := holds.str
  have length : (t.text ++ [c]).length = t.text.length + 1 := List.length_append
  constructor
  case str =>
    dsimp only
    rw [length, place_succ, str]
  case stores => exact holds.stores
  case written =>
    intro a
    simp only [Buffer.write, List.mem_cons, holds.written, length]
    constructor
    · rintro (rfl | ⟨j, lt, rest⟩)
      · exact ⟨t.text.length, Nat.lt_succ_self _, str, inside⟩
      · exact ⟨j, Nat.lt_succ_of_lt lt, rest⟩
    · rintro ⟨j, lt, rfl, le⟩
      rcases Nat.lt_succ_iff_lt_or_eq.mp lt with lt | rfl
      · exact .inr ⟨j, lt, rfl, le⟩
      · exact .inl str.symm
  case frame =>
    intro a unwritten
    rw [Buffer.write, List.mem_cons, not_or] at unwritten
    obtain ⟨other, before⟩ := unwritten
    exact (if_neg other).trans (holds.frame a before)
  case kept =>
    intro fits j lt le
    dsimp only at fits lt ⊢
    rw [length] at fits lt
    simp only [Buffer.write]
    rcases Nat.lt_succ_iff_lt_or_eq.mp lt with before | rfl
    · rw [if_neg, holds.kept (by omega) j before le, List.getElem_append_left before]
      rw [str]
      exact place_ne before (by omega)
    · rw [if_pos str.symm, List.getElem_concat_length rfl]

/-- Past the bound only `str` moves on. -/
theorem Holds.put_outside (holds : Holds buf last mem o t) (c : Byte) (outside : ¬ o.str ≤ last) :
    Holds buf last mem { o with str := o.str + 1 } { t with text := t.text ++ [c] } := by
  have str := holds.str
  have length : (t.text ++ [c]).length = t.text.length + 1 := List.length_append
  constructor
  case str =>
    dsimp only
    rw [length, place_succ, str]
  case stores => exact holds.stores
  case written =>
    intro a
    simp only [holds.written, length]
    constructor
    · rintro ⟨j, lt, rest⟩
      exact ⟨j, Nat.lt_succ_of_lt lt, rest⟩
    · rintro ⟨j, lt, rfl, le⟩
      rcases Nat.lt_succ_iff_lt_or_eq.mp lt with lt | rfl
      · exact ⟨j, lt, rfl, le⟩
      · rw [str] at outside
        exact absurd le outside
  case frame => exact holds.frame
  case kept =>
    intro fits j lt le
    dsimp only at fits lt ⊢
    rw [length] at fits lt
    rcases Nat.lt_succ_iff_lt_or_eq.mp lt with before | rfl
    · rw [holds.kept (by omega) j before le, List.getElem_append_left before]
    · rw [str] at outside
      exact absurd le outside

/-- The buffer is written as the text grows. -/
theorem holds_follows (buf last : Ptr) (mem : Ptr → Byte) :
    Follows (Buffer.sink buf last) (Sink.unlimited Byte Ptr) (Holds buf last mem) where
  put {o t} holds c := by
    simp only [Buffer.sink, Sink.unlimited]
    split
    · rename_i inside
      exact holds.put_inside c inside
    · rename_i outside
      exact holds.put_outside c outside
  note {o t} holds ip := by
    constructor
    case str => exact holds.str
    case stores =>
      simp only [Buffer.sink, Sink.unlimited, List.map_append, List.map_cons, List.map_nil,
        holds.stores, holds.str, place]
      rw [BitVec.add_comm, BitVec.add_sub_cancel]
    case written => exact holds.written
    case frame => exact holds.frame
    case kept => exact holds.kept

end Held

/-! ### Truncation -/

/-- The buffer of `m` bytes at `buf` and the result, beside the output `t` without end. -/
structure Truncated (buf m : Ptr) (t : Sink.Text Byte Ptr) (o : Buffer) (ret : CInt) : Prop where
  inside : ∀ a ∈ o.written, buf.toNat ≤ a.toNat ∧ a.toNat < buf.toNat + m.toNat
  returned : ret = BitVec.ofNat 32 t.text.length
  stored : o.stores = t.notes.map fun (ip, n) => (ip, BitVec.ofNat 32 n)
  kept : 0 < m → ∃ k : Nat, (k : Int) = min ret.toInt (m.toNat - 1) ∧
    (∀ i < k, t.text[i]? = some (o.mem (place buf i))) ∧ o.mem (place buf k) = 0

/-- `vsnprintf` returns with its buffer truncated. -/
def Truncates (rd mem : Ptr → Byte) (buf m : Ptr) (fmt : List Byte) (args : List Arg)
    (t : Sink.Text Byte Ptr) : Prop :=
  ∃ o ret, vsnprintf rd mem buf m fmt args = some (o, ret) ∧ Truncated buf m t o ret

/-- An output of `n` bytes ends below the top of memory, at `NULL` within the buffer, and its
length is an `int` where something is kept of it. -/
def Clear (buf m : Ptr) (n : Nat) : Prop :=
  (if buf = 0 then n < m.toNat else buf.toNat + n < 2 ^ 32) ∧ (0 < m → (n : Int) ≤ INT_MAX)

section Truncation

variable {rd mem : Ptr → Byte} {buf m last size : Ptr} {fmt : List Byte} {args : List Arg}
  {o : Buffer} {t : Sink.Text Byte Ptr} {ret : CInt}

/-- `vsnprintf` beside the output without end. -/
theorem vsnprintf_eq (mem : Ptr → Byte) (buf m : Ptr) (matching : output rd fmt args = some t) :
    ∃ o, Holds buf (limits buf m).1 mem o t ∧ vsnprintf rd mem buf m fmt args =
      some (terminate (limits buf m).1 (limits buf m).2 o, BitVec.ofNat 32 t.text.length) := by
  rw [output] at matching
  split at matching
  · rename_i st' done
    cases matching
    obtain ⟨st, done', related⟩ := format_follows (holds_follows buf (limits buf m).1 mem) rd fmt
      args Holds.start done
    refine ⟨st.out, related.out, ?_⟩
    rw [vsnprintf]
    simp only [done', related.out.str, place]
    rw [BitVec.add_comm, BitVec.add_sub_cancel]
  · cases matching

theorem limits_zero (m : Ptr) : limits 0 m = (-1, 0) := by
  rw [limits]
  by_cases empty : m = 0
  · subst empty
    rfl
  · have clamp : (0 : Ptr) + m - 1 < 0 - 1 := by
      have positive : 0 < m.toNat := Nat.pos_of_ne_zero fun zero =>
        empty (BitVec.eq_of_toNat_eq zero)
      bv_omega
    rw [if_pos clamp]
    rfl

theorem limits_of_ne (nonzero : buf ≠ 0) (fits : buf.toNat + m.toNat < 2 ^ 32) :
    limits buf m = (buf + m - 1, m) ∧ (buf + m - 1).toNat + 1 = buf.toNat + m.toNat := by
  have positive : 0 < buf.toNat := Nat.pos_of_ne_zero fun zero =>
    nonzero (BitVec.eq_of_toNat_eq zero)
  have value : (buf + m - 1).toNat + 1 = buf.toNat + m.toNat := by bv_omega
  have kept : ¬ buf + m - 1 < buf - 1 := by bv_omega
  refine ⟨?_, value⟩
  rw [limits, if_neg kept]

theorem toInt_length {n : Nat} (fits : (n : Int) ≤ INT_MAX) :
    (BitVec.ofNat 32 n : CInt).toInt = n := by
  rw [INT_MAX] at fits
  have small : n < 2 ^ 32 := by omega
  rw [BitVec.toInt_eq_toNat_of_lt, BitVec.toNat_ofNat, Nat.mod_eq_of_lt small]
  rw [BitVec.toNat_ofNat, Nat.mod_eq_of_lt small]
  omega

/-- A length that reads as one. -/
theorem length_le {n : Nat} (fits : n < 2 ^ 32) (positive : 0 ≤ (BitVec.ofNat 32 n : CInt).toInt) :
    (n : Int) ≤ INT_MAX := by
  rw [BitVec.toInt_eq_toNat_cond, BitVec.toNat_ofNat, Nat.mod_eq_of_lt fits] at positive
  rw [INT_MAX]
  split at positive
  · omega
  · omega

/-- The `NUL` after the last byte that is kept. -/
theorem Holds.truncated (holds : Holds buf last mem o t)
    (top : buf.toNat + t.text.length < 2 ^ 32) (length : (t.text.length : Int) ≤ INT_MAX)
    (room : 0 < m)
    (bound : ∀ j < t.text.length, place buf j ≤ last → j < m.toNat)
    (below : ∀ j < min t.text.length (m.toNat - 1), place buf j ≤ last) :
    Truncated buf m t (o.write (place buf (min t.text.length (m.toNat - 1))) 0)
      (BitVec.ofNat 32 t.text.length) := by
  have positive : 0 < m.toNat := room
  constructor
  case inside =>
    intro a written
    rw [Buffer.write, List.mem_cons, holds.written] at written
    rcases written with rfl | ⟨j, lt, rfl, le⟩
    · rw [toNat_place (by omega)]
      omega
    · have inside := bound j lt le
      rw [toNat_place (by omega)]
      omega
  case returned => rfl
  case stored => exact holds.stores
  case kept =>
    intro _
    refine ⟨min t.text.length (m.toNat - 1), ?_, ?_, if_pos rfl⟩
    · rw [toInt_length length]
      omega
    · intro i lt
      have in_text : i < t.text.length := lt_of_lt_of_le lt (min_le_left _ _)
      have other : place buf i ≠ place buf (min t.text.length (m.toNat - 1)) :=
        place_ne lt (by omega)
      rw [List.getElem?_eq_getElem in_text, ← holds.kept top.le i in_text (below i lt)]
      exact congrArg some (if_neg other).symm

/-- The result reads as a length wherever something is kept. -/
theorem Truncated.length_le (truncated : Truncated buf m t o ret) (fits : t.text.length < 2 ^ 32)
    (room : 0 < m) : (t.text.length : Int) ≤ INT_MAX := by
  obtain ⟨k, k_eq, -, -⟩ := truncated.kept room
  apply Printf.length_le fits
  rw [← truncated.returned]
  have upper : (k : Int) ≤ ret.toInt := k_eq.le.trans (min_le_left _ _)
  exact (Int.natCast_nonneg k).trans upper

theorem mem_terminate {a : Ptr} (written : a ∈ o.written) :
    a ∈ (terminate last size o).written := by
  rw [terminate]
  split
  · exact List.mem_cons_of_mem _ written
  · split
    · exact List.mem_cons_of_mem _ written
    · exact written

/-- At `NULL` nothing is held back, and the output has to fit. -/
theorem Holds.truncated_null_iff (holds : Holds 0 (-1) mem o t) :
    Truncated 0 m t (terminate (-1) 0 o) (BitVec.ofNat 32 t.text.length) ↔
      Clear 0 m t.text.length := by
  have all (a : Ptr) : a ≤ -1 := by bv_omega
  have finish : terminate (-1) 0 o = o.write (place 0 t.text.length) 0 := by
    rw [terminate, if_pos (all _), holds.str]
  have value : (0 : Ptr).toNat = 0 := rfl
  have m_lt := m.isLt
  rw [finish, Clear, if_pos rfl]
  constructor
  · intro truncated
    have room : t.text.length < m.toNat := by
      by_contra full
      have reached : place 0 m.toNat ∈ (o.write (place 0 t.text.length) 0).written := by
        rw [Buffer.write, List.mem_cons, holds.written]
        rcases Nat.lt_or_eq_of_le (Nat.le_of_not_lt full) with lt | same
        · exact .inr ⟨m.toNat, lt, rfl, all _⟩
        · exact .inl (by rw [same])
      have outside := (truncated.inside _ reached).2
      rw [toNat_place (by omega)] at outside
      exact lt_irrefl _ outside
    exact ⟨room, truncated.length_le (room.trans m_lt)⟩
  · rintro ⟨room, length⟩
    have some_room : 0 < m.toNat := Nat.zero_lt_of_lt room
    have whole : min t.text.length (m.toNat - 1) = t.text.length := min_eq_left (by omega)
    have truncated := holds.truncated (m := m) (by omega) (length some_room) some_room
      (fun j lt _ => lt.trans room) fun j _ => all _
    rwa [whole] at truncated

/-- Away from `NULL` the output has to end below the top of memory. -/
theorem Holds.truncated_iff (holds : Holds buf last mem o t) (nonzero : buf ≠ 0)
    (last_eq : last.toNat + 1 = buf.toNat + m.toNat) (fits : buf.toNat + m.toNat < 2 ^ 32) :
    Truncated buf m t (terminate last m o) (BitVec.ofNat 32 t.text.length) ↔
      Clear buf m t.text.length := by
  have positive : 0 < buf.toNat := Nat.pos_of_ne_zero fun zero =>
    nonzero (BitVec.eq_of_toNat_eq zero)
  rw [Clear, if_neg nonzero]
  constructor
  · intro truncated
    have top : buf.toNat + t.text.length < 2 ^ 32 := by
      by_contra beyond
      -- the text comes to address 0
      have buf_lt := buf.isLt
      have wraps : place buf (2 ^ 32 - buf.toNat) = 0 := by
        apply BitVec.eq_of_toNat_eq
        rw [place, BitVec.toNat_add, BitVec.toNat_ofNat, Nat.add_mod_mod,
          Nat.add_sub_cancel' buf_lt.le, Nat.mod_self]
        rfl
      have low : (0 : Ptr) ≤ last := by
        rw [BitVec.le_def]
        exact Nat.zero_le _
      have reached : 0 ∈ (terminate last m o).written := by
        rcases Nat.lt_or_eq_of_le (show 2 ^ 32 - buf.toNat ≤ t.text.length by omega)
          with lt | same
        · exact mem_terminate ((holds.written 0).mpr ⟨_, lt, wraps.symm, low⟩)
        · have str : o.str = 0 := by rw [holds.str, ← same, wraps]
          rw [terminate, str, if_pos low]
          exact List.mem_cons_self
      exact absurd (truncated.inside 0 reached).1 (Nat.not_le.mpr positive)
    exact ⟨top, truncated.length_le (by omega)⟩
  · rintro ⟨top, length⟩
    have str_value : o.str.toNat = buf.toNat + t.text.length := by
      rw [holds.str, toNat_place top]
    have bound (j : Nat) (lt : j < t.text.length) (le : place buf j ≤ last) : j < m.toNat := by
      rw [BitVec.le_def, toNat_place (by omega)] at le
      omega
    by_cases empty : m.toNat = 0
    · have m_eq : m = 0 := BitVec.eq_of_toNat_eq empty
      subst m_eq
      have past : ¬ o.str ≤ last := by
        rw [BitVec.le_def]
        omega
      have finish : terminate last 0 o = o := by
        rw [terminate, if_neg past, if_neg (BitVec.lt_irrefl 0)]
      rw [finish]
      constructor
      case inside =>
        intro a written
        obtain ⟨j, lt, rfl, le⟩ := (holds.written a).mp written
        exact absurd (bound j lt le) (by omega)
      case returned => rfl
      case stored => exact holds.stores
      case kept => exact fun room => absurd room (BitVec.lt_irrefl 0)
    · have room : 0 < m.toNat := Nat.pos_of_ne_zero empty
      have finish : terminate last m o =
          o.write (place buf (min t.text.length (m.toNat - 1))) 0 := by
        rw [terminate]
        by_cases whole : t.text.length < m.toNat
        · have reached : o.str ≤ last := by
            rw [BitVec.le_def]
            omega
          rw [if_pos reached, holds.str, min_eq_left (by omega)]
        · have past : ¬ o.str ≤ last := by
            rw [BitVec.le_def]
            omega
          have last_place : last = place buf (m.toNat - 1) := by
            apply BitVec.eq_of_toNat_eq
            rw [toNat_place (by omega)]
            omega
          rw [if_neg past, if_pos (show 0 < m from room), min_eq_right (by omega), last_place]
      rw [finish]
      refine holds.truncated top (length room) room bound fun j lt => ?_
      rw [BitVec.le_def, toNat_place (by omega)]
      omega

/-- A buffer is truncated if and only if it is `Clear` of its output: away from `NULL` that is
for every size, for an output that ends below the top of memory. -/
theorem truncates_iff (matching : output rd fmt args = some t)
    (fits : buf.toNat + m.toNat < 2 ^ 32) :
    Truncates rd mem buf m fmt args t ↔ Clear buf m t.text.length := by
  obtain ⟨o, holds, run⟩ := vsnprintf_eq mem buf m matching
  have single : Truncates rd mem buf m fmt args t ↔
      Truncated buf m t (terminate (limits buf m).1 (limits buf m).2 o)
        (BitVec.ofNat 32 t.text.length) := by
    constructor
    · rintro ⟨o', ret, run', truncated⟩
      rw [run] at run'
      cases run'
      exact truncated
    · intro truncated
      exact ⟨_, _, run, truncated⟩
  rw [single]
  by_cases null : buf = 0
  · subst null
    rw [limits_zero] at holds ⊢
    exact holds.truncated_null_iff
  · obtain ⟨limits_eq, last_eq⟩ := limits_of_ne null fits
    rw [limits_eq] at holds ⊢
    exact holds.truncated_iff null last_eq fits

end Truncation

/-! ### Two calls -/

/-- `"%d"` of 42 into two bytes. -/
theorem truncates_iff_sample :
    Truncates (fun _ => 0) (fun _ => 0) 16 2 [chr '%', chr 'd'] [.int 42]
        ⟨[chr '4', chr '2'], []⟩ ↔ Clear 16 2 2 :=
  truncates_iff (by decide) (by decide)

/-- Asking at `NULL` for the length of an output writes the output from address 0 on. -/
theorem null_not_truncated :
    ¬ ∀ (rd mem : Ptr → Byte) (buf m : Ptr) (fmt : List Byte) (args : List Arg)
      (t : Sink.Text Byte Ptr), output rd fmt args = some t → buf.toNat + m.toNat < 2 ^ 32 →
      Truncates rd mem buf m fmt args t := by
  intro always
  have length : output (fun _ => 0) [chr 'a'] [] = some ⟨[chr 'a'], []⟩ := by decide
  obtain ⟨o, ret, run, truncated⟩ := always (fun _ => 0) (fun _ => 0) 0 0 [chr 'a'] []
    ⟨[chr 'a'], []⟩ length (by decide)
  cases run
  have outside := (truncated.inside 0 (by decide)).2
  exact absurd outside (by decide)

end CFunc.Clibs.Printf
