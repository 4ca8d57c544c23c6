import CFunc.Clibs.Printf

/-!
`vsnprintf` over every sink.

The loops of the model come to the ends that the loops of the source come to.
The format runs the same over every sink (`format_follows`): what it writes,
and where it stops, does not depend on what becomes of its output.
-/

namespace CFunc.Clibs.Printf

open CFunc.Lib

/-! ### The loops run to their ends -/

section Loops

variable {σ : Type} (S : Sink Byte Ptr σ)

/-- A counter above another `int` does not wrap when it is decremented. -/
theorem toInt_pred {low n : CInt} (more : low.slt n = true) : (n - 1).toInt = n.toInt - 1 := by
  have lt := BitVec.slt_iff_toInt_lt.mp more
  have lower := BitVec.le_toInt low
  have upper := BitVec.toInt_lt (x := n)
  have one : (1 : CInt).toInt = 1 := rfl
  rw [BitVec.toInt_sub, one]
  exact Int.bmod_eq_of_le (by omega) (by omega)

/-- One test of the guard of `while (low < n--)`. -/
theorem padAfter_eq (c : Byte) (low n : CInt) (o : σ) :
    padAfter S c low n o =
      if low.slt n then padAfter S c low (n - 1) (S.put c o) else (n - 1, o) := by
  by_cases more : low.slt n = true
  · have lt := BitVec.slt_iff_toInt_lt.mp more
    have next := toInt_pred more
    have rounds : (n.toInt - low.toInt).toNat = (n.toInt - 1 - low.toInt).toNat + 1 := by omega
    rw [if_pos more, padAfter, padAfter, rounds, padLoop, if_pos more, next]
  · have le : (n.toInt - low.toInt).toNat = 0 := by
      rw [BitVec.slt_iff_toInt_lt] at more
      omega
    rw [if_neg more, padAfter, le, padLoop]

/-- A number below `2 ^ k` has no more than `k` digits. -/
theorem digitLoop_fuel (digits : List Byte) (base : Base) {k : Nat} :
    ∀ {num : BitVec 64}, num.toNat < 2 ^ k → k ≤ 32 → ∀ {fuel : Nat}, k ≤ fuel →
      digitLoop digits base fuel num = digitLoop digits base k num := by
  induction k with
  | zero =>
      intro num lt _ fuel _
      have zero : num = 0 := BitVec.eq_of_toNat_eq (by simpa using lt)
      cases fuel with
      | zero => rfl
      | succ fuel => exact if_pos zero
  | succ k ih =>
      intro num lt le fuel fuel_le
      obtain ⟨fuel, rfl⟩ := Nat.exists_eq_add_of_le' (Nat.le_of_add_left_le fuel_le)
      rw [digitLoop, digitLoop]
      have base_ge : 2 ≤ base.toNat := by cases base <;> decide
      have fits : 2 ^ (k + 1) ≤ 2 ^ 32 := Nat.pow_le_pow_right (by decide) le
      have quotient : (do_div num base).1.toNat < 2 ^ k := by
        have small : num.toNat % 2 ^ 32 = num.toNat := Nat.mod_eq_of_lt (by omega)
        have less : num.toNat / base.toNat < 2 ^ k := by
          rw [Nat.div_lt_iff_lt_mul (by omega)]
          calc num.toNat < 2 ^ k * 2 := by rwa [← Nat.pow_succ]
            _ ≤ 2 ^ k * base.toNat := Nat.mul_le_mul_left _ base_ge
        rw [do_div, small, BitVec.toNat_ofNat]
        exact lt_of_le_of_lt (Nat.mod_le _ _) less
      rw [ih quotient (by omega) (by omega)]

/-- The room of `tmp` is enough. -/
theorem numberDigits_fuel (digits : List Byte) (base : Base) (num : BitVec 64) {fuel : Nat}
    (le : 66 ≤ fuel) :
    digitLoop digits base fuel num = digitLoop digits base 66 num := by
  obtain ⟨fuel, rfl⟩ := Nat.exists_eq_add_of_le' le
  have quotient : (do_div num base).1.toNat < 2 ^ 32 := by
    have low : num.toNat % 2 ^ 32 < 2 ^ 32 := Nat.mod_lt _ (by decide)
    have less := Nat.div_le_self (num.toNat % 2 ^ 32) base.toNat
    rw [do_div, BitVec.toNat_ofNat]
    exact lt_of_le_of_lt ((Nat.mod_le _ _).trans less) low
  have enough {fuel : Nat} (le : 32 ≤ fuel) := digitLoop_fuel digits base quotient le_rfl le
  have unroll (fuel : Nat) : digitLoop digits base (fuel + 1) num =
      if num = 0 then []
      else digits.getD (do_div num base).2 0 :: digitLoop digits base fuel (do_div num base).1 :=
    rfl
  have le' : 32 ≤ fuel + 65 := Nat.le_add_left_of_le (by decide)
  rw [unroll (fuel + 65), unroll 65, enough le', enough (show 32 ≤ 65 by decide)]

end Loops

/-! ### The format comes to its end -/

section Progress

variable {σ : Type} {S : Sink Byte Ptr σ} {rd : Ptr → Byte}

theorem skip_atoi_length (i : CInt) (s : List Byte) : (skip_atoi i s).2.length ≤ s.length := by
  induction s generalizing i with
  | nil => exact le_rfl
  | cons c s ih =>
      rw [skip_atoi]
      split
      · exact Nat.le_succ_of_le (ih _)
      · exact le_rfl

theorem readFlags_length (flags : CInt) (fmt : List Byte) :
    (readFlags flags fmt).2.length ≤ fmt.length := by
  induction fmt generalizing flags with
  | nil => exact le_rfl
  | cons c fmt ih =>
      rw [readFlags]
      split_ifs
      all_goals first | exact Nat.le_succ_of_le (ih _) | exact le_rfl

theorem tail_length_le (fmt : List Byte) : fmt.tail.length ≤ fmt.length := by
  rw [List.length_tail]
  exact Nat.sub_le _ _

theorem readWidth_length {flags flags' width : CInt} {fmt fmt' : List Byte}
    {args args' : List Arg} (read : readWidth flags fmt args = some (flags', width, fmt', args')) :
    fmt'.length ≤ fmt.length := by
  simp only [readWidth] at read
  split at read
  · cases read
    exact skip_atoi_length _ _
  · split at read
    · split at read
      · cases read
      · split at read
        all_goals
          cases read
          exact tail_length_le fmt
    · cases read
      exact le_rfl

theorem readPrecision_length {precision : CInt} {fmt fmt' : List Byte} {args args' : List Arg}
    (read : readPrecision fmt args = some (precision, fmt', args')) :
    fmt'.length ≤ fmt.length := by
  have shorter := tail_length_le fmt
  simp only [readPrecision] at read
  split at read
  · split at read
    · cases read
      exact (skip_atoi_length _ _).trans shorter
    · split at read
      · split at read
        · cases read
        · cases read
          exact (tail_length_le _).trans shorter
      · cases read
        exact shorter
  · cases read
    exact le_rfl

theorem readQualifier_length (fmt : List Byte) : (readQualifier fmt).2.length ≤ fmt.length := by
  rw [readQualifier]
  split_ifs
  · exact (tail_length_le _).trans (tail_length_le fmt)
  · exact tail_length_le fmt
  · exact le_rfl

theorem readDirective_length {fmt fmt' : List Byte} {args args' : List Arg} {d : Directive}
    (read : readDirective fmt args = some (d, fmt', args')) : fmt'.length ≤ fmt.length := by
  simp only [readDirective, Option.bind_eq_bind, Option.bind_eq_some_iff, Prod.exists] at read
  obtain ⟨_, _, _, _, width, _, _, _, precision, done⟩ := read
  cases done
  exact (readQualifier_length _).trans ((readPrecision_length precision).trans
    ((readWidth_length width).trans (readFlags_length 0 fmt)))

theorem convert_length {d : Directive} {fmt : List Byte} {args : List Arg} {o : σ} {st : St σ}
    (converted : convert S rd d fmt args o = some st) : st.fmt.length ≤ fmt.length := by
  have shorter := tail_length_le fmt
  have taken {α : Type} {f : α → St σ} {x : Option α} (same : ∀ v, (f v).fmt = fmt.tail)
      (mapped : x.map f = some st) : st.fmt.length ≤ fmt.length := by
    obtain ⟨v, -, rfl⟩ := Option.map_eq_some_iff.mp mapped
    rw [same]
    exact shorter
  rw [convert] at converted
  cases case : caseOf d.flags (peek fmt) with
  | char =>
      rw [case] at converted
      exact taken (fun _ => rfl) converted
  | string =>
      rw [case] at converted
      exact taken (fun _ => rfl) converted
  | pointer =>
      rw [case] at converted
      exact taken (fun _ => rfl) converted
  | count =>
      rw [case] at converted
      exact taken (fun _ => rfl) converted
  | percent =>
      rw [case] at converted
      cases converted
      exact shorter
  | integer base flags =>
      rw [case] at converted
      exact taken (fun _ => rfl) converted
  | default =>
      simp only [case] at converted
      split at converted
      · cases converted
        exact shorter
      · cases converted
        exact le_rfl

theorem peek_nonempty {fmt : List Byte} (some_byte : peek fmt ≠ 0) : 0 < fmt.length := by
  cases fmt with
  | nil => exact absurd rfl some_byte
  | cons c fmt => exact Nat.succ_pos _

/-- Each round takes something off the format. -/
theorem formatStep_length {st st' : St σ} (some_byte : peek st.fmt ≠ 0)
    (step : formatStep S rd st = some st') : st'.fmt.length < st.fmt.length := by
  have shorter : st.fmt.tail.length < st.fmt.length := by
    rw [List.length_tail]
    exact Nat.sub_lt (peek_nonempty some_byte) Nat.one_pos
  simp only [formatStep] at step
  split at step
  · cases step
    exact shorter
  · split at step
    · cases step
    · rename_i read
      exact lt_of_le_of_lt ((convert_length step).trans (readDirective_length read)) shorter

/-- The format runs to its end, or into an argument that does not match. -/
theorem format_ne_outOfFuel (fmt : List Byte) (args : List Arg) (o : σ) :
    format S rd fmt args o ≠ .outOfFuel := by
  refine Loop.run_ne_outOfFuel (fun st => st.fmt.length) ?_ le_rfl ?_
  · intro st st' go step
    exact formatStep_length (of_decide_eq_true go) step
  · intro st go
    exact peek_nonempty (of_decide_eq_true go)

end Progress

/-! ### The same over every sink -/

section Follow

variable {σ τ : Type} {S : Sink Byte Ptr σ} {T : Sink Byte Ptr τ} {R : σ → τ → Prop} {o : σ} {t : τ}

/-- States of the format that agree on all but the output. -/
structure St.Rel (R : σ → τ → Prop) (st : St σ) (st' : St τ) : Prop where
  fmt : st.fmt = st'.fmt
  args : st.args = st'.args
  out : R st.out st'.out

theorem padLoop_follows (follows : Follows S T R) (c : Byte) (low : CInt) (fuel : Nat) (n : CInt)
    (related : R o t) :
    (padLoop S c low fuel n o).1 = (padLoop T c low fuel n t).1 ∧
      R (padLoop S c low fuel n o).2 (padLoop T c low fuel n t).2 := by
  induction fuel generalizing n o t with
  | zero => exact ⟨rfl, related⟩
  | succ fuel ih =>
      rw [padLoop, padLoop]
      split
      · exact ih _ (follows.put related c)
      · exact ⟨rfl, related⟩

theorem padAfter_follows (follows : Follows S T R) (c : Byte) (low n : CInt) (related : R o t) :
    (padAfter S c low n o).1 = (padAfter T c low n t).1 ∧
      R (padAfter S c low n o).2 (padAfter T c low n t).2 :=
  padLoop_follows follows c low _ n related

theorem padBefore_follows (follows : Follows S T R) (c : Byte) (n : CInt) (related : R o t) :
    (padBefore S c n o).1 = (padBefore T c n t).1 ∧
      R (padBefore S c n o).2 (padBefore T c n t).2 := by
  obtain ⟨left, out⟩ := padAfter_follows follows c 0 (n - 1) related
  exact ⟨congrArg (· + 1) left, out⟩

/-- A loop under a condition, with what it leaves of its counter. -/
theorem ite_follows (cond : Prop) [Decidable cond] {n : CInt} {a : CInt × σ} {b : CInt × τ}
    (kept : a.1 = b.1 ∧ R a.2 b.2) (related : R o t) :
    (if cond then a else (n, o)).1 = (if cond then b else (n, t)).1 ∧
      R (if cond then a else (n, o)).2 (if cond then b else (n, t)).2 := by
  split
  · exact kept
  · exact ⟨rfl, related⟩

theorem putIf_follows (follows : Follows S T R) (cond : Prop) [Decidable cond] (c : Byte)
    (related : R o t) :
    R (if cond then S.put c o else o) (if cond then T.put c t else t) := by
  split
  · exact follows.put related c
  · exact related

theorem putPrefix_follows (follows : Follows S T R) (digits : List Byte) (base : Base)
    (type : CInt) (related : R o t) :
    R (putPrefix S digits base type o) (putPrefix T digits base type t) := by
  rw [putPrefix, putPrefix]
  split
  · cases base with
    | oct => exact follows.put related _
    | dec => exact related
    | hex => exact follows.put (follows.put related _) _
  · exact related

theorem putNumber_follows (follows : Follows S T R) (digits tmp : List Byte) (c sign : Byte)
    (base : Base) (size precision type : CInt) (related : R o t) :
    R (putNumber S digits tmp c sign base size precision type o)
      (putNumber T digits tmp c sign base size precision type t) := by
  simp only [putNumber]
  obtain ⟨left, blank⟩ := ite_follows (type &&& (ZEROPAD + LEFT) = 0) (n := size)
    (padAfter_follows follows (chr ' ') 0 size related) related
  rw [left]
  have signed := putPrefix_follows follows digits base type
    (putIf_follows follows (sign ≠ 0) sign blank)
  obtain ⟨left, filled⟩ := ite_follows (type &&& LEFT = 0)
    (padAfter_follows follows c 0 _ signed) signed
  rw [left]
  have zeros := (padAfter_follows follows (chr '0') (BitVec.ofNat 32 tmp.length) precision filled).2
  exact (padAfter_follows follows (chr ' ') 0 _ (follows.putAll tmp.reverse zeros)).2

theorem number_follows (follows : Follows S T R) (num : BitVec 64) (base : Base)
    (size precision type : CInt) (related : R o t) :
    R (number S num base size precision type o) (number T num base size precision type t) :=
  putNumber_follows follows _ _ _ _ base _ _ _ related

theorem putChar_follows (follows : Follows S T R) (d : Directive) (v : CInt) (related : R o t) :
    R (putChar S d v o) (putChar T d v t) := by
  simp only [putChar]
  obtain ⟨left, filled⟩ := ite_follows (d.flags &&& LEFT = 0) (n := d.field_width)
    (padBefore_follows follows (chr ' ') d.field_width related) related
  rw [left]
  exact (padBefore_follows follows (chr ' ') _ (follows.put filled _)).2

theorem putString_follows (follows : Follows S T R) (d : Directive) (s : Nat → Byte)
    (related : R o t) : R (putString S d s o) (putString T d s t) := by
  simp only [putString]
  generalize BitVec.ofNat 32 (strnlen s d.precision.toNat) = len
  obtain ⟨left, filled⟩ := ite_follows (d.flags &&& LEFT = 0) (n := d.field_width)
    (padAfter_follows follows (chr ' ') len d.field_width related) related
  rw [left]
  exact (padAfter_follows follows (chr ' ') len _ (follows.count s _ filled)).2

theorem putPtr_follows (follows : Follows S T R) (d : Directive) (p : Ptr) (related : R o t) :
    R (putPtr S d p o) (putPtr T d p t) := by
  rw [putPtr, putPtr]
  split
  · exact number_follows follows _ _ _ _ _ related
  · exact number_follows follows _ _ _ _ _ related

theorem convert_follows (follows : Follows S T R) (rd : Ptr → Byte) (d : Directive)
    (fmt : List Byte) (args : List Arg) (related : R o t) :
    Option.Rel (St.Rel R) (convert S rd d fmt args o) (convert T rd d fmt args t) := by
  have taken {α : Type} (x : Option (α × List Arg)) {f : α → σ} {g : α → τ}
      (out : ∀ v, R (f v) (g v)) :
      Option.Rel (St.Rel R) (x.map fun (v, args) => (⟨fmt.tail, args, f v⟩ : St σ))
        (x.map fun (v, args) => (⟨fmt.tail, args, g v⟩ : St τ)) := by
    cases x with
    | none => exact .none
    | some read => exact .some ⟨rfl, rfl, out read.1⟩
  rw [convert, convert]
  cases caseOf d.flags (peek fmt) with
  | char => exact taken _ fun v => putChar_follows follows d v related
  | string => exact taken _ fun s => putString_follows follows d (stringAt rd s) related
  | pointer => exact taken _ fun p => putPtr_follows follows d p related
  | count => exact taken _ fun ip => follows.note related ip
  | percent => exact .some ⟨rfl, rfl, follows.put related _⟩
  | integer base flags =>
      exact taken _ fun num => number_follows follows num base _ _ flags related
  | default =>
      dsimp only
      split
      · exact .some ⟨rfl, rfl, follows.put (follows.put related _) _⟩
      · exact .some ⟨rfl, rfl, follows.put related _⟩

theorem formatStep_follows (follows : Follows S T R) (rd : Ptr → Byte) {st : St σ} {st' : St τ}
    (related : St.Rel R st st') :
    Option.Rel (St.Rel R) (formatStep S rd st) (formatStep T rd st') := by
  rw [formatStep, formatStep, related.fmt, related.args]
  split
  · exact .some ⟨rfl, rfl, follows.put related.out _⟩
  · cases readDirective st'.fmt.tail st'.args with
    | none => exact .none
    | some read => exact convert_follows follows rd read.1 _ _ related.out

/-- A format that has an output has it over every sink. -/
theorem format_follows (follows : Follows S T R) (rd : Ptr → Byte) (fmt : List Byte)
    (args : List Arg) {st' : St τ} (related : R o t)
    (done : format T rd fmt args t = .done st') :
    ∃ st, format S rd fmt args o = .done st ∧ St.Rel R st st' := by
  refine Loop.run_rel (fun related => ?_) (formatStep_follows follows rd) ⟨rfl, rfl, related⟩ done
  rw [related.fmt]

end Follow

end CFunc.Clibs.Printf
