import CFunc.TimeInterface.NetTimer

/-!
The servers that `NetTimerSync` tries.

A configuration has lines that end in a newline, and after them a last one that
may be empty. The commands that run are compared with those its lines ask for,
up to the first that exits with 0.
-/

namespace CFunc.TimeInterface

/-! ### Configurations -/

/-- A line without its newline. -/
structure PlainLine (line : List Byte) : Prop where
  nul_free : 0 ∉ line
  one_line : 0xa ∉ line
  short : line.length ≤ 1022
  short_host : asks line = true → (host line).length ≤ 500

/-- The text of a file with these lines. -/
def joined (lines : List (List Byte)) (last : List Byte) : List Byte :=
  lines.flatMap (fun line => line ++ [0xa]) ++ last

structure Conf where
  lines : List (List Byte)
  last : List Byte
  plain : ∀ line ∈ lines, PlainLine line
  plain_last : PlainLine last

def Conf.text (conf : Conf) : List Byte := joined conf.lines conf.last

/-- The hosts of the lines that have the form, in their order. -/
def hosts (lines : List (List Byte)) (last : List Byte) : List (List Byte) :=
  (lines ++ [last]).filterMap hostOf

/-- Every text has such lines. -/
theorem exists_joined (text : List Byte) :
    ∃ lines last, (∀ line ∈ last :: lines, 0xa ∉ line) ∧ joined lines last = text := by
  induction text with
  | nil => exact ⟨[], [], List.forall_mem_singleton.mpr List.not_mem_nil, rfl⟩
  | cons c text ih =>
      obtain ⟨lines, last, one_line, rfl⟩ := ih
      obtain ⟨last_one, lines_one⟩ := List.forall_mem_cons.mp one_line
      by_cases newline : c = 0xa
      · subst newline
        exact ⟨[] :: lines, last, List.forall_mem_cons.mpr
          ⟨last_one, List.forall_mem_cons.mpr ⟨List.not_mem_nil, lines_one⟩⟩, rfl⟩
      · have longer {line : List Byte} (one : 0xa ∉ line) : 0xa ∉ c :: line :=
          List.not_mem_cons_of_ne_of_not_mem (Ne.symm newline) one
        cases lines with
        | nil => exact ⟨[], c :: last, List.forall_mem_singleton.mpr (longer last_one), rfl⟩
        | cons line lines =>
            obtain ⟨one, others⟩ := List.forall_mem_cons.mp lines_one
            exact ⟨(c :: line) :: lines, last, List.forall_mem_cons.mpr
              ⟨last_one, List.forall_mem_cons.mpr ⟨longer one, others⟩⟩, rfl⟩

/-! ### What is to be tried -/

section Tried

variable (codes : Nat → CInt)

/-- Up to and with the first that exits with 0; `k` commands ran before. -/
def tried : Nat → List (List Byte) → List (List Byte)
  | _, [] => []
  | k, host :: hosts => host :: if codes k = 0 then [] else tried (k + 1) hosts

theorem mem_of_mem_tried {h : List Byte} {k : Nat} {hosts : List (List Byte)}
    (listed : h ∈ tried codes k hosts) : h ∈ hosts := by
  induction hosts generalizing k with
  | nil => exact listed
  | cons host hosts ih =>
      rw [tried] at listed
      rcases List.mem_cons.mp listed with rfl | listed
      · exact List.mem_cons_self
      · split at listed
        · exact absurd listed List.not_mem_nil
        · exact List.mem_cons_of_mem _ (ih listed)

/-- The commands are those of the hosts, no pointer leaves its string or buffer, and 0 is
returned when a command exited with 0. -/
structure Tries (hosts : List (List Byte)) (outcome : Outcome) : Prop where
  commands : outcome.commands = (tried codes 0 hosts).map ntpdate
  ret : outcome.ret = 0 ↔ ∃ i < outcome.commands.length, codes i = 0

/-- Each line that asks for a server, before one is found, lets its host be copied. -/
def Readable (signed : Bool) (last : List Byte) : Nat → List (List Byte) → Prop
  | _, [] => asks last = true → HostSafe signed last []
  | k, line :: lines =>
      if asks line = true then
        HostSafe signed line [0xa] ∧ (codes k ≠ 0 → Readable signed last (k + 1) lines)
      else Readable signed last k lines

end Tried

/-! ### Rounds -/

theorem readLine_line {line : List Byte} (one_line : 0xa ∉ line) {room : Nat}
    (short : line.length < room) (rest : List Byte) :
    readLine room (line ++ 0xa :: rest) = (line ++ [0xa], rest) := by
  induction line generalizing room with
  | nil =>
      obtain ⟨room, rfl⟩ := Nat.exists_eq_add_one.mpr short
      rfl
  | cons c line ih =>
      obtain ⟨room, rfl⟩ := Nat.exists_eq_add_one.mpr (Nat.zero_lt_of_lt short)
      obtain ⟨other, one_line⟩ := not_or.mp (mt List.mem_cons.mpr one_line)
      rw [List.cons_append, readLine, if_neg (Ne.symm other),
        ih one_line (Nat.lt_of_succ_lt_succ short)]
      rfl

theorem readLine_last {line : List Byte} (one_line : 0xa ∉ line) {room : Nat}
    (short : line.length ≤ room) : readLine room line = (line, []) := by
  induction line generalizing room with
  | nil => cases room <;> rfl
  | cons c line ih =>
      obtain ⟨room, rfl⟩ := Nat.exists_eq_add_one.mpr (Nat.zero_lt_of_lt short)
      obtain ⟨other, one_line⟩ := not_or.mp (mt List.mem_cons.mpr one_line)
      rw [readLine, if_neg (Ne.symm other), ih one_line (Nat.le_of_succ_le_succ short)]

/-- The result is one without overrun, after these commands. -/
def Ran (commands : List (List Byte)) (result : Option (Except Overrun Outcome)) : Prop :=
  ∃ ret, result = some (.ok ⟨commands, ret⟩)

section Round

variable {signed : Bool} {codes : Nat → CInt} {k : Nat}
  {next : Nat → Option (Except Overrun Outcome)} {line t : List Byte} {later : List (List Byte)}

theorem not_ran_error {overrun : Overrun} {commands : List (List Byte)} :
    ¬ Ran commands (round codes k next (.error overrun)) := by
  rintro ⟨ret, equal⟩
  cases Option.some.inj equal

/-- The command of a round is the first that ran. -/
theorem ran_round_iff {urlbuf : List Byte} {commands : List (List Byte)} :
    Ran commands (round codes k next (.ok (some urlbuf))) ↔
      ∃ others, commands = urlbuf :: others ∧
        if codes k = 0 then others = [] else Ran others (next (k + 1)) := by
  rw [round]
  split
  · constructor
    · rintro ⟨ret, equal⟩
      obtain ⟨rfl, rfl⟩ := Outcome.mk.inj (Except.ok.inj (Option.some.inj equal))
      exact ⟨[], rfl, rfl⟩
    · rintro ⟨others, rfl, rfl⟩
      exact ⟨0, rfl⟩
  · constructor
    · rintro ⟨ret, equal⟩
      obtain ⟨result, run, mapped⟩ := Option.map_eq_some_iff.mp equal
      cases result with
      | error overrun => cases mapped
      | ok outcome =>
          obtain ⟨rfl, rfl⟩ := Outcome.mk.inj (Except.ok.inj mapped)
          exact ⟨outcome.commands, rfl, outcome.ret, run⟩
    · rintro ⟨others, rfl, ret, run⟩
      exact ⟨ret, Option.map_eq_some_iff.mpr ⟨_, run, rfl⟩⟩

theorem ret_of_round {urlbuf : List Byte} {outcome : Outcome}
    (later : ∀ {k : Nat} {outcome : Outcome}, next k = some (.ok outcome) →
      (outcome.ret = 0 ↔ ∃ i < outcome.commands.length, codes (k + i) = 0))
    (run : round codes k next (.ok (some urlbuf)) = some (.ok outcome)) :
    outcome.ret = 0 ↔ ∃ i < outcome.commands.length, codes (k + i) = 0 := by
  rw [round] at run
  split at run
  · next found =>
      obtain rfl := Except.ok.inj (Option.some.inj run)
      exact iff_of_true rfl ⟨0, Nat.one_pos, found⟩
  · next not_found =>
      obtain ⟨result, ran, mapped⟩ := Option.map_eq_some_iff.mp run
      cases result with
      | error overrun => cases mapped
      | ok rest =>
          obtain rfl := Except.ok.inj mapped
          rw [later ran]
          constructor
          · rintro ⟨i, lt, found⟩
            rw [Nat.add_assoc, Nat.add_comm 1] at found
            exact ⟨i + 1, Nat.succ_lt_succ lt, found⟩
          · rintro ⟨i, lt, found⟩
            cases i with
            | zero => exact absurd found not_found
            | succ i =>
                rw [Nat.add_comm i, ← Nat.add_assoc] at found
                exact ⟨i, Nat.lt_of_succ_lt_succ lt, found⟩

theorem hostOf_of_not_asks (other : asks line = false) : hostOf line = none := by
  rw [hostOf, other]
  exact if_neg fun asking => Bool.false_ne_true asking.1

theorem ne_nil_of_mem_hosts {lines : List (List Byte)} {h : List Byte}
    (listed : h ∈ lines.filterMap hostOf) : h ≠ [] := by
  obtain ⟨line, -, found⟩ := List.mem_filterMap.mp listed
  rw [hostOf] at found
  split at found
  · next form =>
      obtain rfl := Option.some.inj found
      exact form.2
  · cases found

theorem ntpdate_inj {h h' : List Byte} (same : ntpdate h = ntpdate h') : h = h' :=
  List.append_cancel_left same

/-- A line that asks for a server: the round goes on as it should where the host is copied
whole, and with a wrong command or an overrun elsewhere. -/
theorem ran_asks_iff (plain : PlainLine line) (ending : Ending t) (asking : asks line = true) :
    Ran ((tried codes k ((line :: later).filterMap hostOf)).map ntpdate)
        (round codes k next (command signed (line ++ t))) ↔
      HostSafe signed line t ∧ (codes k ≠ 0 →
        Ran ((tried codes (k + 1) (later.filterMap hostOf)).map ntpdate) (next (k + 1))) := by
  have short : (host line).length < TARGET_URL_LEN - 8 :=
    Nat.lt_of_le_of_lt (plain.short_host asking) (by decide)
  by_cases safe : HostSafe signed line t
  · have form : hostOf line = some (host line) := if_pos ⟨asking, safe.some_host⟩
    rw [command_of_safe ending plain.nul_free plain.one_line short asking safe, ran_round_iff,
      List.filterMap_cons_some form, tried, List.map_cons, and_iff_right safe]
    by_cases found : codes k = 0
    · rw [if_pos found]
      refine iff_of_true ⟨[], rfl, ?_⟩ fun other => absurd found other
      rw [if_pos found]
    · rw [if_neg found]
      constructor
      · rintro ⟨others, equal, ran⟩ -
        obtain ⟨-, rfl⟩ := List.cons.inj equal
        rwa [if_neg found] at ran
      · intro ran
        refine ⟨_, rfl, ?_⟩
        rw [if_neg found]
        exact ran found
  · refine iff_of_false ?_ fun both => safe both.1
    rcases command_of_unsafe ending plain.nul_free plain.one_line short asking safe with
      ⟨overrun, leaves⟩ | ⟨found, runs, wrong⟩
    · rw [leaves]
      exact not_ran_error
    · rw [runs, ran_round_iff]
      rintro ⟨others, equal, -⟩
      have first : ntpdate found ∈
          (tried codes k ((line :: later).filterMap hostOf)).map ntpdate := by
        rw [equal]
        exact List.mem_cons_self
      rcases wrong with rfl | ⟨some_host, other⟩
      · -- no host is empty
        obtain ⟨h, listed, same⟩ := List.mem_map.mp first
        exact ne_nil_of_mem_hosts (mem_of_mem_tried codes listed) (ntpdate_inj same)
      · have form : hostOf line = some (host line) := if_pos ⟨asking, some_host⟩
        rw [List.filterMap_cons_some form, tried, List.map_cons] at equal
        exact other (ntpdate_inj (List.cons.inj equal).1).symm

theorem ran_not_asks_iff (ending : Ending t) (other : asks line = false) :
    Ran ((tried codes k ((line :: later).filterMap hostOf)).map ntpdate)
        (round codes k next (command signed (line ++ t))) ↔
      Ran ((tried codes k (later.filterMap hostOf)).map ntpdate) (next k) := by
  rw [command_of_not_asks ending other, List.filterMap_cons_none (hostOf_of_not_asks other)]
  rfl

end Round

/-! ### Runs -/

section Runs

variable {signed : Bool} {codes : Nat → CInt} {lines : List (List Byte)} {last : List Byte}

theorem syncLoop_succ {stream sbuf rest : List Byte} (some_left : stream ≠ [])
    (read : readLine (LINE_BUF_LEN - 1) stream = (sbuf, rest)) (fuel k : Nat) :
    syncLoop signed codes (fuel + 1) stream k =
      round codes k (syncLoop signed codes fuel rest) (command signed sbuf) := by
  rw [syncLoop, if_neg some_left, read]

/-- At the end of the file nothing more is tried. -/
theorem ran_end {fuel : Nat} (enough : 0 < fuel) (k : Nat) :
    Ran [] (syncLoop signed codes fuel [] k) := by
  obtain ⟨fuel, rfl⟩ := Nat.exists_eq_add_one.mpr enough
  exact ⟨-1, rfl⟩

theorem ran_last_iff (plain_last : PlainLine last) {fuel : Nat} (enough : 1 < fuel) (k : Nat) :
    Ran ((tried codes k (hosts [] last)).map ntpdate) (syncLoop signed codes fuel last k) ↔
      Readable codes signed last k [] := by
  obtain ⟨fuel, rfl⟩ := Nat.exists_eq_add_one.mpr (Nat.zero_lt_of_lt enough)
  have more : 0 < fuel := Nat.lt_of_succ_lt_succ enough
  by_cases empty : last = []
  · subst empty
    refine iff_of_true ⟨-1, rfl⟩ fun asking => ?_
    exact absurd asking (by decide)
  · have short : last.length ≤ LINE_BUF_LEN - 1 := Nat.le_trans plain_last.short (by decide)
    have read := readLine_last plain_last.one_line short
    have whole : command signed last = command signed (last ++ []) := by rw [List.append_nil]
    rw [syncLoop_succ empty read, hosts, List.nil_append, Readable, whole]
    cases asking : asks last with
    | true =>
        rw [ran_asks_iff plain_last (.inr rfl) asking]
        constructor
        · exact fun both _ => both.1
        · exact fun safe => ⟨safe rfl, fun _ => ran_end more (k + 1)⟩
    | false =>
        rw [ran_not_asks_iff (.inr rfl) asking]
        exact iff_of_true (ran_end more k) fun asking => absurd asking Bool.false_ne_true

theorem ran_iff (plain : ∀ line ∈ lines, PlainLine line) (plain_last : PlainLine last) {fuel : Nat}
    (enough : lines.length + 1 < fuel) (k : Nat) :
    Ran ((tried codes k (hosts lines last)).map ntpdate)
        (syncLoop signed codes fuel (joined lines last) k) ↔
      Readable codes signed last k lines := by
  induction lines generalizing fuel k with
  | nil => exact ran_last_iff plain_last enough k
  | cons line lines ih =>
      obtain ⟨plain_line, plain⟩ := List.forall_mem_cons.mp plain
      obtain ⟨fuel, rfl⟩ := Nat.exists_eq_add_one.mpr (Nat.zero_lt_of_lt enough)
      rw [List.length_cons] at enough
      have text : joined (line :: lines) last = line ++ 0xa :: joined lines last := by
        rw [joined, joined, List.flatMap_cons, List.append_assoc, List.append_assoc]
        rfl
      have some_left : line ++ 0xa :: joined lines last ≠ [] :=
        List.append_ne_nil_of_right_ne_nil _ (List.cons_ne_nil _ _)
      have short : line.length < LINE_BUF_LEN - 1 :=
        Nat.lt_of_le_of_lt plain_line.short (by decide)
      have read := readLine_line plain_line.one_line short (joined lines last)
      have later (k : Nat) := ih plain (Nat.lt_of_succ_lt_succ enough) k
      rw [text, syncLoop_succ some_left read, hosts, List.cons_append, Readable]
      split
      · next asking =>
          rw [ran_asks_iff plain_line (.inl rfl) asking, ← hosts, later]
      · next other =>
          rw [Bool.not_eq_true] at other
          rw [ran_not_asks_iff (.inl rfl) other, ← hosts, later]

/-- What is returned says whether a command exited with 0. -/
theorem ret_of_syncLoop {fuel k : Nat} {stream : List Byte} {outcome : Outcome}
    (run : syncLoop signed codes fuel stream k = some (.ok outcome)) :
    outcome.ret = 0 ↔ ∃ i < outcome.commands.length, codes (k + i) = 0 := by
  induction fuel generalizing stream k outcome with
  | zero => cases run
  | succ fuel ih =>
      rw [syncLoop] at run
      split at run
      · obtain rfl := Except.ok.inj (Option.some.inj run)
        refine iff_of_false (by decide) ?_
        rintro ⟨i, lt, -⟩
        exact Nat.not_lt_zero i lt
      · cases asked : command signed (readLine (LINE_BUF_LEN - 1) stream).1 with
        | error overrun =>
            rw [asked] at run
            cases Option.some.inj run
        | ok urlbuf =>
            rw [asked] at run
            cases urlbuf with
            | none => exact ih run
            | some urlbuf => exact ret_of_round ih run

end Runs

/-- A machine that has the file and room for both buffers. -/
def Conf.machine (conf : Conf) (codes : Nat → CInt) : Machine :=
  ⟨some conf.text, true, true, codes⟩

/-- `NetTimerSync` tries the configured servers in their order exactly when each line that asks
for one, up to the first command that exits with 0, lets its host be copied. -/
theorem netTimerSync_tries_iff (signed : Bool) (conf : Conf) (codes : Nat → CInt) {fuel : Nat}
    (enough : conf.lines.length + 1 < fuel) :
    (∃ outcome, NetTimerSync signed fuel (conf.machine codes) = some (.ok outcome) ∧
        Tries codes (hosts conf.lines conf.last) outcome) ↔
      Readable codes signed conf.last 0 conf.lines := by
  rw [← ran_iff conf.plain conf.plain_last enough]
  constructor
  · rintro ⟨outcome, run, tries⟩
    refine ⟨outcome.ret, ?_⟩
    rw [← tries.commands]
    exact run
  · rintro ⟨ret, run⟩
    refine ⟨_, run, rfl, ?_⟩
    have returned := ret_of_syncLoop run
    simpa only [Nat.zero_add] using returned

/-- A command that fails, and then one that does not. -/
def failing_first (n : Nat) : CInt := if n = 0 then 1 else 0

/-- A tab before the first host and a comment behind it, a blank line, and a second host. -/
def two_servers : List (List Byte) := [bytes "server\ta #", [], bytes "server b"]

theorem netTimerSync_tries_sample :
    (∃ outcome, NetTimerSync true 5
          ⟨some (joined two_servers []), true, true, failing_first⟩ = some (.ok outcome) ∧
        Tries failing_first (hosts two_servers []) outcome) ↔
      Readable failing_first true [] 0 two_servers := by
  have plain : ∀ line ∈ two_servers, PlainLine line := by
    intro line member
    rcases List.mem_cons.mp member with rfl | later
    · exact ⟨by decide, by decide, by decide, by decide⟩
    · rcases List.mem_cons.mp later with rfl | last
      · exact ⟨by decide, by decide, by decide, by decide⟩
      · obtain rfl := List.mem_singleton.mp last
        exact ⟨by decide, by decide, by decide, by decide⟩
  have plain_last : PlainLine [] := ⟨by decide, by decide, by decide, by decide⟩
  exact netTimerSync_tries_iff true ⟨two_servers, [], plain, plain_last⟩ _ (Nat.lt_succ_self 4)

/-- Without its newline the last line is read on behind its end. -/
theorem last_line_overruns :
    ¬ ∃ outcome, NetTimerSync true 2
          ⟨some (joined [] (bytes "server a")), true, true, fun _ => 0⟩ = some (.ok outcome) ∧
        Tries (fun _ => 0) (hosts [] (bytes "server a")) outcome := by
  rintro ⟨outcome, run, -⟩
  have overrun : NetTimerSync true 2
      ⟨some (joined [] (bytes "server a")), true, true, fun _ => 0⟩ = some (.error .read) := by
    decide
  rw [overrun] at run
  cases Option.some.inj run

end CFunc.TimeInterface
