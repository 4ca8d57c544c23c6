import CFunc.Clibs.PrintfText

/-!
The scan of `vsnprintf` over its format, by positions.

`fmt` is a position in the format here, every read of `*fmt` is checked, and
the loops over the format count their rounds. The scan goes to the places that
the list of bytes in `format` is cut at, so it comes to the end of the format
and reads nothing behind the `NUL` there.
-/

namespace CFunc.Clibs.Printf

open CFunc.Lib

/-- What may go wrong in a scan. -/
inductive Fault where
  /-- a read behind the `NUL` -/
  | overread
  /-- more rounds than a loop was given -/
  | endless
  /-- an argument that does not match -/
  | argument
  deriving DecidableEq

/-! ### The code -/

/-- An argument that was fetched. -/
def required {α : Type} (arg : Option α) : Except Fault α := arg.elim (.error .argument) .ok

section Scan

variable (fmt : List Byte)

/-- `*fmt`, whose last byte is the `NUL`. -/
def byteAt (pos : Nat) : Except Fault Byte :=
  if pos ≤ fmt.length then .ok (fmt.getD pos 0) else .error .overread

def skip_atoiAt : Nat → CInt → Nat → Except Fault (CInt × Nat)
  | 0, _, _ => .error .endless
  | fuel + 1, i, pos => do
      let c ← byteAt fmt pos
      if isdigit c then skip_atoiAt fuel (i * 10 + c.setWidth 32 - 48) (pos + 1)
      else return (i, pos)

/-- From the label `repeat`, after its `++fmt`. -/
def readFlagsAt : Nat → CInt → Nat → Except Fault (CInt × Nat)
  | 0, _, _ => .error .endless
  | fuel + 1, flags, pos => do
      let c ← byteAt fmt pos
      if c = chr '-' then readFlagsAt fuel (flags ||| LEFT) (pos + 1)
      else if c = chr '+' then readFlagsAt fuel (flags ||| PLUS) (pos + 1)
      else if c = chr ' ' then readFlagsAt fuel (flags ||| SPACE) (pos + 1)
      else if c = chr '#' then readFlagsAt fuel (flags ||| SPECIAL) (pos + 1)
      else if c = chr '0' then readFlagsAt fuel (flags ||| ZEROPAD) (pos + 1)
      else return (flags, pos)

def readWidthAt (fuel : Nat) (flags : CInt) (pos : Nat) (args : List Arg) :
    Except Fault (CInt × CInt × Nat × List Arg) := do
  let c ← byteAt fmt pos
  if isdigit c then
    let (field_width, pos) ← skip_atoiAt fmt fuel 0 pos
    return (flags, field_width, pos, args)
  else if c = chr '*' then
    let (field_width, args) ← required (vaInt args)
    if field_width.slt 0 then return (flags ||| LEFT, -field_width, pos + 1, args)
    else return (flags, field_width, pos + 1, args)
  else return (flags, -1, pos, args)

def readPrecisionAt (fuel : Nat) (pos : Nat) (args : List Arg) :
    Except Fault (CInt × Nat × List Arg) := do
  let c ← byteAt fmt pos
  if c = chr '.' then
    let c ← byteAt fmt (pos + 1)
    if isdigit c then
      let (precision, pos) ← skip_atoiAt fmt fuel 0 (pos + 1)
      return (clampPrecision precision, pos, args)
    else if c = chr '*' then
      let (precision, args) ← required (vaInt args)
      return (clampPrecision precision, pos + 2, args)
    else return (clampPrecision (-1), pos + 1, args)
  else return (-1, pos, args)

def readQualifierAt (pos : Nat) : Except Fault (Option Byte × Nat) := do
  let c ← byteAt fmt pos
  if c = chr 'h' ∨ c = chr 'l' ∨ c = chr 'L' ∨ c = chr 'Z' then
    if c = chr 'l' then
      let next ← byteAt fmt (pos + 1)
      if next = chr 'l' then return (some (chr 'L'), pos + 2)
      else return (some c, pos + 1)
    else return (some c, pos + 1)
  else return (none, pos)

/-- After the `%`, up to the conversion's letter. -/
def readDirectiveAt (fuel : Nat) (pos : Nat) (args : List Arg) :
    Except Fault (Directive × Nat × List Arg) := do
  let (flags, pos) ← readFlagsAt fmt fuel 0 pos
  let (flags, field_width, pos, args) ← readWidthAt fmt fuel flags pos args
  let (precision, pos, args) ← readPrecisionAt fmt fuel pos args
  let (qualifier, pos) ← readQualifierAt fmt pos
  return (⟨flags, field_width, precision, qualifier⟩, pos, args)

/-- Where the scan stands. -/
structure ScanSt (σ : Type) where
  pos : Nat
  args : List Arg
  out : σ

variable {σ : Type} (S : Sink Byte Ptr σ) (rd : Ptr → Byte)

/-- The `switch` over the conversion's letter and the `++fmt` of the loop. -/
def convertAt (d : Directive) (pos : Nat) (args : List Arg) (o : σ) :
    Except Fault (ScanSt σ) := do
  let c ← byteAt fmt pos
  match caseOf d.flags c with
  | .char => do
      let (v, args) ← required (vaInt args)
      return ⟨pos + 1, args, putChar S d v o⟩
  | .string => do
      let (s, args) ← required (vaPtr args)
      return ⟨pos + 1, args, putString S d (stringAt rd s) o⟩
  | .pointer => do
      let (p, args) ← required (vaPtr args)
      return ⟨pos + 1, args, putPtr S d p o⟩
  | .count => do
      let (ip, args) ← required (vaPtr args)
      return ⟨pos + 1, args, S.note ip o⟩
  | .percent => return ⟨pos + 1, args, S.put (chr '%') o⟩
  | .integer base flags => do
      let (num, args) ← required (integerArg d.qualifier flags args)
      return ⟨pos + 1, args, number S num base d.field_width d.precision flags o⟩
  | .default =>
      if c ≠ 0 then return ⟨pos + 1, args, S.put c (S.put (chr '%') o)⟩
      -- `--fmt`, and the `++fmt` of the loop
      else return ⟨pos - 1 + 1, args, S.put (chr '%') o⟩

/-- One round of the loop, at a byte `c`. -/
def scanStep (c : Byte) (st : ScanSt σ) : Except Fault (ScanSt σ) :=
  if c ≠ chr '%' then return ⟨st.pos + 1, st.args, S.put c st.out⟩
  else do
    let (d, pos, args) ← readDirectiveAt fmt (fmt.length + 1) (st.pos + 1) st.args
    convertAt fmt S rd d pos args st.out

/-- `for (; *fmt ; ++fmt)` -/
def scan : Nat → ScanSt σ → Except Fault (ScanSt σ)
  | 0, _ => .error .endless
  | fuel + 1, st => do
      let c ← byteAt fmt st.pos
      if c = 0 then return st
      else
        let st ← scanStep fmt S rd c st
        scan fuel st

end Scan

/-! ### The places that the list is cut at -/

/-- Where both go on, or the argument that both find missing. -/
inductive Agrees {α β : Type} (R : α → β → Prop) : Option α → Except Fault β → Prop where
  | value {a : α} {b : β} (related : R a b) : Agrees R (some a) (.ok b)
  | argument : Agrees R none (.error .argument)

theorem Agrees.bind {α β γ δ : Type} {R : α → β → Prop} {R' : γ → δ → Prop} {x : Option α}
    {y : Except Fault β} {f : α → Option γ} {g : β → Except Fault δ} (agrees : Agrees R x y)
    (next : ∀ {a b}, R a b → Agrees R' (f a) (g b)) : Agrees R' (x >>= f) (y >>= g) := by
  cases agrees with
  | value related => exact next related
  | argument => exact .argument

theorem Agrees.mono {α β : Type} {R R' : α → β → Prop} {x : Option α} {y : Except Fault β}
    (agrees : Agrees R x y) (weaker : ∀ {a b}, R a b → R' a b) : Agrees R' x y := by
  cases agrees with
  | value related => exact .value (weaker related)
  | argument => exact .argument

theorem ok_bind {α β : Type} (a : α) (f : α → Except Fault β) : (Except.ok a >>= f) = f a := rfl

/-- The rest of the format is what stands from a position on, which is `low` or behind it. -/
structure At (fmt : List Byte) (low : Nat) (rest : List Byte) (pos : Nat) : Prop where
  rest : rest = fmt.drop pos
  inside : pos ≤ fmt.length
  later : low ≤ pos

section Positions

variable {fmt rest : List Byte} {low pos : Nat}

theorem At.byteAt (at_pos : At fmt low rest pos) : Printf.byteAt fmt pos = .ok (peek rest) := by
  rw [Printf.byteAt, if_pos at_pos.inside, at_pos.rest, peek, List.headD_eq_head?_getD,
    List.head?_drop, List.getD_eq_getElem?_getD]

/-- Behind a byte that is not the `NUL` there is one more. -/
theorem At.next (at_pos : At fmt low rest pos) (some_byte : peek rest ≠ 0) :
    At fmt low rest.tail (pos + 1) where
  rest := by rw [at_pos.rest, List.tail_drop]
  inside := by
    have nonempty := peek_nonempty some_byte
    rw [at_pos.rest, List.length_drop] at nonempty
    omega
  later := Nat.le_succ_of_le at_pos.later

theorem At.of_later {low' : Nat} (at_pos : At fmt low rest pos) (le : low' ≤ low) :
    At fmt low' rest pos :=
  ⟨at_pos.rest, at_pos.inside, le.trans at_pos.later⟩

theorem peek_ne_zero_of_isdigit {c : Byte} (digit : isdigit c = true) : c ≠ 0 := by
  rintro rfl
  exact absurd digit (by decide)

theorem skip_atoiAt_eq {fuel : Nat} (at_pos : At fmt low rest pos) (enough : rest.length < fuel)
    (i : CInt) : ∃ pos', skip_atoiAt fmt fuel i pos = .ok ((skip_atoi i rest).1, pos') ∧
      At fmt low (skip_atoi i rest).2 pos' := by
  induction fuel generalizing i pos rest with
  | zero => exact absurd enough (Nat.not_lt_zero _)
  | succ fuel ih =>
      rw [skip_atoiAt, at_pos.byteAt]
      cases rest with
      | nil => exact ⟨pos, rfl, at_pos⟩
      | cons c s =>
          rw [skip_atoi]
          by_cases digit : isdigit c = true
          · rw [if_pos digit]
            have next : At fmt low s (pos + 1) := at_pos.next (peek_ne_zero_of_isdigit digit)
            obtain ⟨pos', run, at_pos'⟩ := ih next (Nat.lt_of_succ_lt_succ enough) _
            refine ⟨pos', ?_, at_pos'⟩
            rw [← run]
            exact if_pos digit
          · rw [if_neg digit]
            exact ⟨pos, if_neg digit, at_pos⟩

theorem readFlagsAt_eq {fuel : Nat} (at_pos : At fmt low rest pos) (enough : rest.length < fuel)
    (flags : CInt) : ∃ pos', readFlagsAt fmt fuel flags pos = .ok ((readFlags flags rest).1, pos') ∧
      At fmt low (readFlags flags rest).2 pos' := by
  induction fuel generalizing flags pos rest with
  | zero => exact absurd enough (Nat.not_lt_zero _)
  | succ fuel ih =>
      rw [readFlagsAt, at_pos.byteAt]
      cases rest with
      | nil => exact ⟨pos, rfl, at_pos⟩
      | cons c s =>
          have further (flags : CInt) (some_byte : c ≠ 0) :
              ∃ pos', readFlagsAt fmt fuel flags (pos + 1) = .ok ((readFlags flags s).1, pos') ∧
                At fmt low (readFlags flags s).2 pos' :=
            ih (at_pos.next some_byte) (Nat.lt_of_succ_lt_succ enough) flags
          have same : peek (c :: s) = c := rfl
          rw [ok_bind, same, readFlags]
          split_ifs
          case neg => exact ⟨pos, rfl, at_pos⟩
          all_goals
            subst c
            exact further _ (by decide)

theorem At.length_lt {fuel : Nat} (at_pos : At fmt low rest pos) (enough : fmt.length < fuel) :
    rest.length < fuel := by
  rw [at_pos.rest, List.length_drop]
  exact lt_of_le_of_lt (Nat.sub_le _ _) enough

/-! ### The parts of a conversion specification -/

variable {fuel : Nat} (flags : CInt) (args : List Arg)

theorem readWidthAt_agrees (at_pos : At fmt low rest pos) (enough : fmt.length < fuel) :
    Agrees (fun a b => ∃ flags width rest pos args,
        a = (flags, width, rest, args) ∧ b = (flags, width, pos, args) ∧ At fmt low rest pos)
      (readWidth flags rest args) (readWidthAt fmt fuel flags pos args) := by
  rw [readWidth, readWidthAt, at_pos.byteAt, ok_bind]
  by_cases digit : isdigit (peek rest) = true
  · rw [if_pos digit, if_pos digit]
    obtain ⟨pos', run, at_pos'⟩ := skip_atoiAt_eq at_pos (at_pos.length_lt enough) 0
    rw [run]
    exact .value ⟨_, _, _, _, _, rfl, rfl, at_pos'⟩
  · rw [if_neg digit, if_neg digit]
    by_cases star : peek rest = chr '*'
    · rw [if_pos star, if_pos star]
      have next := at_pos.next (star ▸ by decide)
      cases vaInt args with
      | none => exact .argument
      | some arg =>
          obtain ⟨width, args⟩ := arg
          rw [required, Option.elim_some, ok_bind]
          dsimp only
          split
          · exact .value ⟨_, _, _, _, _, rfl, rfl, next⟩
          · exact .value ⟨_, _, _, _, _, rfl, rfl, next⟩
    · rw [if_neg star, if_neg star]
      exact .value ⟨_, _, _, _, _, rfl, rfl, at_pos⟩

theorem readPrecisionAt_agrees (at_pos : At fmt low rest pos) (enough : fmt.length < fuel) :
    Agrees (fun a b => ∃ precision rest pos args,
        a = (precision, rest, args) ∧ b = (precision, pos, args) ∧ At fmt low rest pos)
      (readPrecision rest args) (readPrecisionAt fmt fuel pos args) := by
  rw [readPrecision, readPrecisionAt, at_pos.byteAt, ok_bind]
  by_cases dot : peek rest = chr '.'
  · have next := at_pos.next (dot ▸ by decide)
    rw [if_pos dot, if_pos dot, next.byteAt, ok_bind]
    by_cases digit : isdigit (peek rest.tail) = true
    · rw [if_pos digit, if_pos digit]
      obtain ⟨pos', run, at_pos'⟩ := skip_atoiAt_eq next (next.length_lt enough) 0
      rw [run]
      exact .value ⟨_, _, _, _, rfl, rfl, at_pos'⟩
    · rw [if_neg digit, if_neg digit]
      by_cases star : peek rest.tail = chr '*'
      · rw [if_pos star, if_pos star]
        have after := next.next (star ▸ by decide)
        cases vaInt args with
        | none => exact .argument
        | some arg => exact .value ⟨_, _, _, _, rfl, rfl, after⟩
      · rw [if_neg star, if_neg star]
        exact .value ⟨_, _, _, _, rfl, rfl, next⟩
  · rw [if_neg dot, if_neg dot]
    exact .value ⟨_, _, _, _, rfl, rfl, at_pos⟩

theorem readQualifierAt_eq (at_pos : At fmt low rest pos) :
    ∃ pos', readQualifierAt fmt pos = .ok ((readQualifier rest).1, pos') ∧
      At fmt low (readQualifier rest).2 pos' := by
  rw [readQualifier, readQualifierAt, at_pos.byteAt, ok_bind]
  by_cases letter : peek rest = chr 'h' ∨ peek rest = chr 'l' ∨ peek rest = chr 'L' ∨
      peek rest = chr 'Z'
  · have some_byte : peek rest ≠ 0 := by
      intro zero
      rw [zero] at letter
      exact absurd letter (by decide)
    have next := at_pos.next some_byte
    rw [if_pos letter, if_pos letter]
    by_cases long : peek rest = chr 'l'
    · rw [if_pos long, next.byteAt, ok_bind]
      by_cases longer : peek rest.tail = chr 'l'
      · rw [if_pos longer, if_pos ⟨long, longer⟩]
        exact ⟨_, rfl, next.next (longer ▸ by decide)⟩
      · rw [if_neg longer, if_neg fun both => longer both.2]
        exact ⟨_, rfl, next⟩
    · rw [if_neg long, if_neg fun both => long both.1]
      exact ⟨_, rfl, next⟩
  · rw [if_neg letter, if_neg letter]
    exact ⟨_, rfl, at_pos⟩

theorem readDirectiveAt_agrees (at_pos : At fmt low rest pos) (enough : fmt.length < fuel) :
    Agrees (fun a b => ∃ d rest pos args,
        a = (d, rest, args) ∧ b = (d, pos, args) ∧ At fmt low rest pos)
      (readDirective rest args) (readDirectiveAt fmt fuel pos args) := by
  obtain ⟨pos', run, at_pos'⟩ := readFlagsAt_eq at_pos (at_pos.length_lt enough) 0
  rw [readDirective, readDirectiveAt, run, ok_bind]
  refine (readWidthAt_agrees _ args at_pos' enough).bind ?_
  rintro _ _ ⟨flags, width, rest, pos, args, rfl, rfl, at_pos⟩
  refine (readPrecisionAt_agrees args at_pos enough).bind ?_
  rintro _ _ ⟨precision, rest, pos, args, rfl, rfl, at_pos⟩
  obtain ⟨pos', run, at_pos'⟩ := readQualifierAt_eq at_pos
  dsimp only
  rw [run]
  exact .value ⟨_, _, _, _, rfl, rfl, at_pos'⟩

end Positions

/-! ### The whole scan -/

section Run

variable {σ : Type} (S : Sink Byte Ptr σ) (rd : Ptr → Byte) {fmt rest : List Byte} {low pos : Nat}

/-- The states of the two loops. -/
structure Stands (fmt : List Byte) (low : Nat) (st : St σ) (st' : ScanSt σ) : Prop where
  fmt : At fmt low st.fmt st'.pos
  args : st.args = st'.args
  out : st.out = st'.out

theorem convertAt_agrees (d : Directive) (args : List Arg) (o : σ) (at_pos : At fmt low rest pos)
    (positive : 0 < low) : Agrees (Stands fmt low) (convert S rd d rest args o)
      (convertAt fmt S rd d pos args o) := by
  rw [convert, convertAt, at_pos.byteAt, ok_bind]
  have taken {α : Type} (x : Option (α × List Arg)) (f : α → σ) (some_byte : peek rest ≠ 0) :
      Agrees (Stands fmt low) (x.map fun read => (⟨rest.tail, read.2, f read.1⟩ : St σ))
        (required x >>= fun read => return (⟨pos + 1, read.2, f read.1⟩ : ScanSt σ)) := by
    cases x with
    | none => exact .argument
    | some read => exact .value ⟨at_pos.next some_byte, rfl, rfl⟩
  have letter {c : Conversion} (case : caseOf d.flags (peek rest) = c) (other : c ≠ .default) :
      peek rest ≠ 0 := by
    intro zero
    rw [zero] at case
    exact other (case.symm.trans rfl)
  cases case : caseOf d.flags (peek rest) with
  | char => exact taken (vaInt args) (fun v => putChar S d v o) (letter case (by simp))
  | string =>
      exact taken (vaPtr args) (fun s => putString S d (stringAt rd s) o) (letter case (by simp))
  | pointer => exact taken (vaPtr args) (fun p => putPtr S d p o) (letter case (by simp))
  | count => exact taken (vaPtr args) (fun ip => S.note ip o) (letter case (by simp))
  | percent => exact .value ⟨at_pos.next (letter case (by simp)), rfl, rfl⟩
  | integer base flags =>
      exact taken (integerArg d.qualifier flags args)
        (fun num => number S num base d.field_width d.precision flags o) (letter case (by simp))
  | default =>
      dsimp only
      split
      · next some_byte => exact .value ⟨at_pos.next some_byte, rfl, rfl⟩
      · have back : pos - 1 + 1 = pos := Nat.sub_add_cancel (positive.trans_le at_pos.later)
        rw [back]
        exact .value ⟨at_pos, rfl, rfl⟩

theorem Stands.of_later {low' : Nat} {st : St σ} {st' : ScanSt σ} (stands : Stands fmt low st st')
    (le : low' ≤ low) : Stands fmt low' st st' :=
  ⟨stands.fmt.of_later le, stands.args, stands.out⟩

/-- How the loop over the list and the scan end. -/
inductive Ends (fmt : List Byte) : Loop.Result (St σ) → Except Fault (ScanSt σ) → Prop where
  | done {st : St σ} {st' : ScanSt σ} (stands : Stands fmt 0 st st') : Ends fmt (.done st) (.ok st')
  | argument : Ends fmt .fault (.error .argument)

/-- A conversion, after its `%`. -/
theorem conversion_agrees (args : List Arg) (o : σ) (at_pos : At fmt 1 rest pos) :
    Agrees (Stands fmt 0)
      (readDirective rest args >>= fun (d, rest, args) => convert S rd d rest args o)
      (readDirectiveAt fmt (fmt.length + 1) pos args >>= fun (d, pos, args) =>
        convertAt fmt S rd d pos args o) := by
  refine (readDirectiveAt_agrees args at_pos (Nat.lt_succ_self _)).bind ?_
  rintro _ _ ⟨d, rest, pos, args, rfl, rfl, at_pos⟩
  exact (convertAt_agrees S rd d args o at_pos Nat.one_pos).mono fun stands =>
    stands.of_later (Nat.zero_le 1)

/-- One round of both loops. -/
theorem scanStep_agrees {st : St σ} {st' : ScanSt σ} (stands : Stands fmt 0 st st')
    (some_byte : peek st.fmt ≠ 0) :
    Agrees (Stands fmt 0) (formatStep S rd st) (scanStep fmt S rd (peek st.fmt) st') := by
  have next := stands.fmt.next some_byte
  have at_pos : At fmt 1 st.fmt.tail (st'.pos + 1) :=
    ⟨next.rest, next.inside, Nat.le_add_left 1 _⟩
  rw [formatStep, scanStep]
  by_cases plain : peek st.fmt ≠ chr '%'
  · rw [if_pos plain, if_pos plain]
    exact .value ⟨next, stands.args, congrArg (S.put _) stands.out⟩
  · rw [if_neg plain, if_neg plain, ← stands.args, ← stands.out]
    have agrees := conversion_agrees S rd st.args st.out at_pos
    cases read : readDirective st.fmt.tail st.args with
    | none =>
        rw [read] at agrees
        exact agrees
    | some directive =>
        rw [read] at agrees
        exact agrees

/-- The guard of the loop over the list. -/
abbrev someByte (st : St σ) : Bool := peek st.fmt ≠ 0

/-- At the `NUL` both loops are over. -/
theorem scan_over {n fuel : Nat} {st : St σ} {st' : ScanSt σ} (stands : Stands fmt 0 st st')
    (ended : peek st.fmt = 0) :
    Ends fmt (Loop.run someByte (formatStep S rd) n st)
      (scan fmt S rd (fuel + 1) st') := by
  have stop : Loop.run someByte (formatStep S rd) n st = .done st :=
    Loop.run_of_guard_false (show someByte st = false from decide_eq_false (not_not.mpr ended)) n
  rw [scan, stands.fmt.byteAt, ok_bind, if_pos ended, stop]
  exact .done stands

/-- The scan does what the loop over the list does. -/
theorem scan_ends {n : Nat} : ∀ {fuel : Nat} {st : St σ} {st' : ScanSt σ}, Stands fmt 0 st st' →
    st.fmt.length ≤ n → n ≤ fuel →
    Ends fmt (Loop.run someByte (formatStep S rd) n st)
      (scan fmt S rd (fuel + 1) st') := by
  induction n with
  | zero =>
      intro fuel st st' stands short _
      have ended : peek st.fmt = 0 := by
        rw [List.eq_nil_of_length_eq_zero (Nat.le_zero.mp short)]
        rfl
      exact scan_over S rd stands ended
  | succ n ih =>
      intro fuel st st' stands short enough
      by_cases ended : peek st.fmt = 0
      · exact scan_over S rd stands ended
      · obtain ⟨fuel, rfl⟩ := Nat.exists_eq_add_of_le' (Nat.le_of_add_left_le enough)
        have go : someByte st = true := decide_eq_true ended
        have agrees := scanStep_agrees S rd stands ended
        rw [scan, stands.fmt.byteAt, ok_bind, if_neg ended]
        generalize scanStep fmt S rd (peek st.fmt) st' = y at agrees ⊢
        cases step : formatStep S rd st with
        | none =>
            rw [step] at agrees
            cases agrees
            rw [Loop.run, if_pos go, step]
            exact .argument
        | some st₁ =>
            rw [step] at agrees
            cases agrees with
            | value stands' =>
                have shorter := formatStep_length ended step
                rw [Loop.run_succ_of_step go step]
                exact ih stands' (by omega) (by omega)

/-- The scan of a format ends, with as many rounds as the format has bytes, and one more for the
`NUL`; it ends where `format` does, or at an argument that does not match, and never behind
the `NUL`. -/
theorem scan_inside (S : Sink Byte Ptr σ) (rd : Ptr → Byte) (fmt : List Byte) (args : List Arg)
    (o : σ) (more : Nat) :
    Ends fmt (format S rd fmt args o) (scan fmt S rd (fmt.length + more + 1) ⟨0, args, o⟩) ∧
      scan fmt S rd (fmt.length + more + 1) ⟨0, args, o⟩ ≠ .error .overread ∧
      scan fmt S rd (fmt.length + more + 1) ⟨0, args, o⟩ ≠ .error .endless := by
  have stands : Stands fmt 0 ⟨fmt, args, o⟩ ⟨0, args, o⟩ :=
    ⟨⟨rfl, Nat.zero_le _, le_rfl⟩, rfl, rfl⟩
  have ends : Ends fmt (format S rd fmt args o)
      (scan fmt S rd (fmt.length + more + 1) ⟨0, args, o⟩) :=
    scan_ends S rd stands le_rfl (Nat.le_add_right fmt.length more)
  refine ⟨ends, ?_⟩
  generalize format S rd fmt args o = run at ends
  generalize scan fmt S rd (fmt.length + more + 1) ⟨0, args, o⟩ = result at ends ⊢
  cases ends with
  | done stands => exact ⟨by simp, by simp⟩
  | argument => exact ⟨by simp, by simp⟩

end Run

end CFunc.Clibs.Printf
