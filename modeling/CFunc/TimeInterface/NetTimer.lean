import CFunc.Lib.CInt
import CFunc.Lib.CText
import CFunc.Lib.Folds

/-!
`NetTimerSync` of `Time_interface/timetest.c`.

The configuration is read line by line, and each line that asks for a server
runs one command, until one exits with 0. The host is copied up to a blank, a
tab or a newline; a `NUL` does not stop the copy, and where a plain `char` has a
sign, the byte that equals `EOF` does.
-/

namespace CFunc.TimeInterface

open CFunc.Lib.Folds

/-! ### The code -/

def LINE_BUF_LEN : Nat := 1024

def TARGET_URL_LEN : Nat := 512

def EOF : CInt := -1

/-- What `fgets` puts into a buffer with this room, and what is left. -/
def readLine : Nat → List Byte → List Byte × List Byte
  | 0, stream => ([], stream)
  | _ + 1, [] => ([], [])
  | room + 1, c :: stream =>
      if c = 0xa then ([c], stream) else (c :: (readLine room stream).1, (readLine room stream).2)

/-- How a pointer leaves its string or buffer. -/
inductive Overrun where
  /-- a read behind the `NUL` of the line -/
  | read
  /-- a write behind the end of `urlbuf` -/
  | write
  deriving DecidableEq

/-- `while(*tbuf == ' ' || *tbuf == 0x9)` -/
def skipBlanks : List Byte → Except Overrun (List Byte)
  | [] => .error .read
  | c :: tbuf => if c = 0x20 ∨ c = 0x9 then skipBlanks tbuf else .ok (c :: tbuf)

section Code

variable (signed : Bool)

/-- The characters that end the copy. -/
def stops (c : Byte) : Bool := c = 0x20 ∨ widen signed c = EOF ∨ c = 0x9 ∨ c = 0xa

/-- `*dbuf++ = *tbuf++`, and the `NUL` behind it. -/
def copyHost : Nat → List Byte → Except Overrun (List Byte)
  | _, [] => .error .read
  | 0, _ :: _ => .error .write
  | room + 1, c :: tbuf =>
      if stops signed c then .ok [] else (copyHost room tbuf).map fun host => c :: host

/-- The command a line runs, if any. -/
def command (sbuf : List Byte) : Except Overrun (Option (List Byte)) :=
  if ¬ (bytes "server").isPrefixOf sbuf then .ok none
  else if sbuf.getD 6 0 = 0x9 ∨ sbuf.getD 6 0 = 0x20 then
    (skipBlanks (sbuf.drop 6 ++ [0])).bind fun tbuf =>
      (copyHost signed (TARGET_URL_LEN - 8) tbuf).map fun host =>
        some ((bytes "ntpdate " ++ host).takeWhile (· ≠ 0))
  else .ok none

/-- The commands that ran, in their order, and what was returned. -/
structure Outcome where
  commands : List (List Byte)
  ret : CInt
  deriving DecidableEq

/-- A round with the command of its line: `codes k` is what the next command exits with. -/
def round (codes : Nat → CInt) (k : Nat) (next : Nat → Option (Except Overrun Outcome)) :
    Except Overrun (Option (List Byte)) → Option (Except Overrun Outcome)
  | .error overrun => some (.error overrun)
  | .ok none => next k
  | .ok (some urlbuf) =>
      if codes k = 0 then some (.ok ⟨[urlbuf], 0⟩)
      else (next (k + 1)).map fun result =>
        result.map fun outcome => { outcome with commands := urlbuf :: outcome.commands }

/-- `while((sbuf = fgets(sbuf, LINE_BUF_LEN, streamfd)) != NULL)` -/
def syncLoop (codes : Nat → CInt) : Nat → List Byte → Nat → Option (Except Overrun Outcome)
  | 0, _, _ => none
  | fuel + 1, stream, k =>
      if stream = [] then some (.ok ⟨[], -1⟩)
      else
        round codes k (syncLoop codes fuel (readLine (LINE_BUF_LEN - 1) stream).2)
          (command signed (readLine (LINE_BUF_LEN - 1) stream).1)

/-- What the function finds: the file `/etc/ntp.conf`, whether `malloc` has room, and the exit
codes of the commands. -/
structure Machine where
  ntp_conf : Option (List Byte)
  line_buffer : Bool
  target_buffer : Bool
  codes : Nat → CInt

def NetTimerSync (fuel : Nat) (machine : Machine) : Option (Except Overrun Outcome) :=
  machine.ntp_conf.elim (some (.ok ⟨[], -1⟩)) fun streamfd =>
    if machine.line_buffer && machine.target_buffer then
      syncLoop signed machine.codes fuel streamfd 0
    else some (.ok ⟨[], -1⟩)

end Code

/-! ### Lines that ask for a server -/

def blank (c : Byte) : Bool := c = 0x20 ∨ c = 0x9

/-- The line begins with `server` and a blank or a tab. -/
def asks (line : List Byte) : Bool :=
  (bytes "server").isPrefixOf line && (line.drop 6).head?.any blank

/-- What follows the blanks, up to the next one. -/
def host (line : List Byte) : List Byte :=
  ((line.drop 6).dropWhile blank).takeWhile fun c => !blank c

/-- What follows the host. -/
def behind (line : List Byte) : List Byte :=
  ((line.drop 6).dropWhile blank).dropWhile fun c => !blank c

def ntpdate (host : List Byte) : List Byte := bytes "ntpdate " ++ host

/-- The host of a line, if the line has the form. -/
def hostOf (line : List Byte) : Option (List Byte) :=
  if asks line ∧ host line ≠ [] then some (host line) else none

/-- What ends a line: a newline, or the end of the file. -/
def Ending (t : List Byte) : Prop := t = [0xa] ∨ t = []

section Line

variable {signed : Bool} {line t xs found : List Byte} {room : Nat}

theorem blank_iff {c : Byte} : blank c = true ↔ c = 0x20 ∨ c = 0x9 := decide_eq_true_iff

theorem server_prefix_iff (ending : Ending t) :
    bytes "server" <+: line ++ t ↔ bytes "server" <+: line := by
  rcases ending with rfl | rfl
  · rw [List.prefix_concat_iff]
    refine or_iff_right ?_
    intro equal
    have last := congrArg List.getLast? equal
    rw [List.getLast?_concat] at last
    exact absurd last (by decide)
  · rw [List.append_nil]

theorem skipBlanks_eq (ending : Ending t) (xs : List Byte) :
    skipBlanks (xs ++ t ++ [0]) = .ok (xs.dropWhile blank ++ t ++ [0]) := by
  induction xs with
  | nil =>
      rcases ending with rfl | rfl
      · rfl
      · rfl
  | cons c xs ih =>
      rw [List.cons_append, List.cons_append, skipBlanks, List.dropWhile_cons]
      by_cases is_blank : c = 0x20 ∨ c = 0x9
      · rw [if_pos is_blank, if_pos (blank_iff.mpr is_blank), ih]
      · rw [if_neg is_blank, if_neg (mt blank_iff.mp is_blank)]
        rfl

theorem drop_server (more : List Byte) : (bytes "server" ++ more).drop 6 = more := rfl

theorem asks_server (more : List Byte) :
    asks (bytes "server" ++ more) = more.head?.any blank := by
  have server : (bytes "server").isPrefixOf (bytes "server" ++ more) = true :=
    List.isPrefixOf_iff_prefix.mpr (List.prefix_append _ more)
  rw [asks, server, Bool.true_and, drop_server]

/-- `*(sbuf+6)` is a blank where the line asks for a server. -/
theorem blank_server_iff (ending : Ending t) (more : List Byte) :
    ((bytes "server" ++ more ++ t).getD 6 0 = 0x9 ∨
        (bytes "server" ++ more ++ t).getD 6 0 = 0x20) ↔
      asks (bytes "server" ++ more) = true := by
  have seventh : (bytes "server" ++ more ++ t).getD 6 0 = (more ++ t).getD 0 0 := by
    rw [List.append_assoc]
    rfl
  rw [asks_server, seventh]
  cases more with
  | nil =>
      rcases ending with rfl | rfl
      · decide
      · decide
  | cons c more =>
      rw [List.head?_cons, Option.any_some, blank_iff]
      exact or_comm

theorem asks_prefix (asking : asks line = true) : bytes "server" <+: line := by
  rw [asks, Bool.and_eq_true] at asking
  exact List.isPrefixOf_iff_prefix.mp asking.1

theorem command_of_not_asks (ending : Ending t) (other : asks line = false) :
    command signed (line ++ t) = .ok none := by
  rw [command]
  split
  · rfl
  · next server =>
      rw [not_not, List.isPrefixOf_iff_prefix, server_prefix_iff ending] at server
      obtain ⟨more, rfl⟩ := server
      rw [if_neg]
      rw [blank_server_iff ending, other]
      exact Bool.false_ne_true

theorem command_of_asks (ending : Ending t) (asking : asks line = true) :
    command signed (line ++ t) =
      (copyHost signed (TARGET_URL_LEN - 8) ((line.drop 6).dropWhile blank ++ t ++ [0])).map
        fun host => some ((ntpdate host).takeWhile (· ≠ 0)) := by
  have server := asks_prefix asking
  have server' := (server_prefix_iff ending).mpr server
  obtain ⟨more, rfl⟩ := server
  rw [command, List.isPrefixOf_iff_prefix.mpr server', if_neg (not_not.mpr rfl),
    if_pos ((blank_server_iff ending more).mpr asking), List.append_assoc (bytes "server"),
    drop_server, skipBlanks_eq ending]
  rfl

/-! ### The copy -/

/-- `found` is what stands before the first character that stops. -/
def CutAt (stop : Byte → Bool) (xs found : List Byte) : Prop :=
  ∃ c later, xs = found ++ c :: later ∧ stop c = true ∧ ∀ d ∈ found, stop d = false

theorem not_cutAt_nil (stop : Byte → Bool) (found : List Byte) : ¬ CutAt stop [] found := by
  rintro ⟨c, later, equal, -⟩
  exact List.append_ne_nil_of_right_ne_nil _ (List.cons_ne_nil _ _) equal.symm

theorem cutAt_cons_of_stop {stop : Byte → Bool} {c : Byte} (at_stop : stop c = true)
    (xs : List Byte) : CutAt stop (c :: xs) found ↔ found = [] := by
  constructor
  · rintro ⟨d, later, equal, -, goes_on⟩
    cases found with
    | nil => rfl
    | cons e found =>
        obtain ⟨rfl, -⟩ := List.cons.inj equal
        exact absurd at_stop (Bool.eq_false_iff.mp (goes_on c List.mem_cons_self))
  · rintro rfl
    exact ⟨c, xs, rfl, at_stop, fun d listed => absurd listed List.not_mem_nil⟩

theorem cutAt_cons {stop : Byte → Bool} {c : Byte} (goes_on : stop c = false) (xs : List Byte) :
    CutAt stop (c :: xs) found ↔ ∃ rest, found = c :: rest ∧ CutAt stop xs rest := by
  constructor
  · rintro ⟨d, later, equal, at_stop, others⟩
    cases found with
    | nil =>
        obtain ⟨rfl, -⟩ := List.cons.inj equal
        exact absurd at_stop (Bool.eq_false_iff.mp goes_on)
    | cons e found =>
        obtain ⟨rfl, rfl⟩ := List.cons.inj equal
        exact ⟨found, rfl, d, later, rfl, at_stop, (List.forall_mem_cons.mp others).2⟩
  · rintro ⟨rest, rfl, d, later, rfl, at_stop, others⟩
    exact ⟨d, later, rfl, at_stop, List.forall_mem_cons.mpr ⟨goes_on, others⟩⟩

/-- The copy ends at the first character that stops it, where there is room for the `NUL`. -/
theorem copyHost_eq_ok_iff :
    copyHost signed room xs = .ok found ↔ CutAt (stops signed) xs found ∧ found.length < room := by
  induction room generalizing xs found with
  | zero =>
      refine iff_of_false ?_ fun both => Nat.not_lt_zero _ both.2
      intro copied
      cases xs with
      | nil => cases copied
      | cons c xs => cases copied
  | succ room ih =>
      cases xs with
      | nil =>
          refine iff_of_false ?_ fun both => not_cutAt_nil _ _ both.1
          intro copied
          cases copied
      | cons c xs =>
          rw [copyHost]
          split
          · next at_stop =>
              rw [cutAt_cons_of_stop at_stop, Except.ok.injEq, eq_comm]
              exact (and_iff_left_of_imp fun empty => empty ▸ Nat.succ_pos room).symm
          · next goes_on =>
              rw [cutAt_cons (Bool.eq_false_iff.mpr goes_on), map_eq_ok_iff]
              constructor
              · rintro ⟨rest, copied, rfl⟩
                obtain ⟨cut, lt⟩ := ih.mp copied
                exact ⟨⟨rest, rfl, cut⟩, Nat.succ_lt_succ lt⟩
              · rintro ⟨⟨rest, rfl, cut⟩, lt⟩
                exact ⟨rest, ih.mpr ⟨cut, Nat.lt_of_succ_lt_succ lt⟩, rfl⟩

/-- No `NUL` is copied without an overrun. -/
theorem nul_free_of_copyHost (free : 0 ∉ xs)
    (copied : copyHost signed room (xs ++ [0]) = .ok found) : 0 ∉ found := by
  obtain ⟨⟨c, later, equal, -⟩, -⟩ := copyHost_eq_ok_iff.mp copied
  have cut := congrArg List.dropLast equal
  rw [List.dropLast_concat, List.dropLast_append_of_ne_nil (List.cons_ne_nil c later)] at cut
  intro member
  rw [cut] at free
  exact free (List.mem_append_left _ member)

theorem stops_eq : ∀ (signed : Bool) (c : Byte),
    stops signed c = (blank c || c == 0xa || (signed && c == 0xff)) := by
  decide +kernel

/-! ### One line -/

theorem host_append_behind (line : List Byte) :
    (line.drop 6).dropWhile blank = host line ++ behind line :=
  List.takeWhile_append_dropWhile.symm

theorem mem_of_mem_behind {c : Byte} (listed : c ∈ host line ++ behind line) : c ∈ line := by
  rw [← host_append_behind] at listed
  exact List.mem_of_mem_drop ((List.dropWhile_sublist blank).subset listed)

theorem mem_of_mem_host {c : Byte} (listed : c ∈ host line) : c ∈ line :=
  mem_of_mem_behind (List.mem_append_left _ listed)

theorem not_blank_of_mem_host {c : Byte} (listed : c ∈ host line) : blank c = false := by
  have goes_on := List.mem_takeWhile_imp listed
  rwa [Bool.not_eq_true'] at goes_on

theorem behind_blank {c : Byte} {later : List Byte} (equal : behind line = c :: later) :
    blank c = true := by
  have stopped := List.head?_dropWhile_not (fun c => !blank c) ((line.drop 6).dropWhile blank)
  rw [← behind, equal, List.head?_cons] at stopped
  have no_stop : (!blank c) = false := stopped
  rwa [Bool.not_eq_false'] at no_stop

/-- Where there is no host, nothing stands behind it. -/
theorem behind_of_no_host (no_host : host line = []) : behind line = [] := by
  cases equal : behind line with
  | nil => rfl
  | cons c later =>
      have stopped := List.head?_dropWhile_not blank (line.drop 6)
      rw [host_append_behind, no_host, List.nil_append, equal, List.head?_cons] at stopped
      exact absurd (behind_blank equal) (Bool.eq_false_iff.mp stopped)

/-- The host is copied whole. -/
structure HostSafe (signed : Bool) (line t : List Byte) : Prop where
  some_host : host line ≠ []
  no_eof : signed = true → 0xff ∉ host line
  followed : behind line ++ t ≠ []

theorem copyHost_host_iff (ending : Ending t) (one_line : 0xa ∉ line)
    (short : (host line).length < room) (some_host : host line ≠ []) :
    copyHost signed room (host line ++ behind line ++ t ++ [0]) = .ok (host line) ↔
      HostSafe signed line t := by
  rw [copyHost_eq_ok_iff]
  constructor
  · rintro ⟨⟨c, later, equal, at_stop, others⟩, -⟩
    rw [List.append_assoc, List.append_assoc, List.append_cancel_left_eq] at equal
    refine ⟨some_host, ?_, ?_⟩
    · rintro rfl listed
      have goes_on := others _ listed
      exact absurd goes_on (by decide)
    · intro nothing
      rw [← List.append_assoc, nothing] at equal
      obtain ⟨rfl, -⟩ := List.cons.inj equal
      rw [stops_eq] at at_stop
      cases signed with
      | true => exact absurd at_stop (by decide)
      | false => exact absurd at_stop (by decide)
  · intro safe
    have others : ∀ d ∈ host line, stops signed d = false := by
      intro d listed
      rw [stops_eq, not_blank_of_mem_host listed, Bool.false_or, Bool.or_eq_false_iff,
        beq_eq_false_iff_ne, Bool.and_eq_false_iff, beq_eq_false_iff_ne]
      constructor
      · rintro rfl
        exact one_line (mem_of_mem_host listed)
      · cases signed with
        | true =>
            refine .inr ?_
            rintro rfl
            exact safe.no_eof rfl listed
        | false => exact .inl rfl
    refine ⟨?_, short⟩
    rw [List.append_assoc, List.append_assoc]
    cases equal : behind line with
    | nil =>
        rcases ending with rfl | rfl
        · exact ⟨0xa, [0], rfl, by rw [stops_eq]; rfl, others⟩
        · have followed := safe.followed
          rw [equal] at followed
          exact absurd rfl followed
    | cons c later =>
        refine ⟨c, later ++ (t ++ [0]), rfl, ?_, others⟩
        rw [stops_eq, behind_blank equal, Bool.true_or, Bool.true_or]

theorem command_eq (ending : Ending t) (asking : asks line = true) :
    command signed (line ++ t) =
      (copyHost signed (TARGET_URL_LEN - 8) (host line ++ behind line ++ t ++ [0])).map
        fun host => some ((ntpdate host).takeWhile (· ≠ 0)) := by
  rw [command_of_asks ending asking, host_append_behind]

/-- Only a `NUL` that the line has itself could cut a command. -/
theorem ntpdate_takeWhile (free : 0 ∉ found) :
    (ntpdate found).takeWhile (· ≠ 0) = ntpdate found := by
  rw [List.takeWhile_eq_self_iff]
  intro c listed
  rw [decide_eq_true_iff]
  rintro rfl
  rcases List.mem_append.mp listed with in_name | in_host
  · exact absurd in_name (by decide)
  · exact free in_host

/-- A line that asks runs a command, or the copy leaves it. -/
theorem command_found (signed : Bool) (ending : Ending t) (nul_free : 0 ∉ line)
    (asking : asks line = true) :
    (∃ overrun, command signed (line ++ t) = .error overrun) ∨
      ∃ found, command signed (line ++ t) = .ok (some (ntpdate found)) ∧
        copyHost signed (TARGET_URL_LEN - 8) (host line ++ behind line ++ t ++ [0]) =
          .ok found := by
  rw [command_eq ending asking]
  cases copied : copyHost signed (TARGET_URL_LEN - 8) (host line ++ behind line ++ t ++ [0]) with
  | error overrun => exact .inl ⟨overrun, rfl⟩
  | ok found =>
      refine .inr ⟨found, ?_, rfl⟩
      have free : 0 ∉ host line ++ behind line ++ t := by
        intro member
        rcases List.mem_append.mp member with in_line | in_ending
        · exact nul_free (mem_of_mem_behind in_line)
        · rcases ending with rfl | rfl
          · exact absurd in_ending (by decide)
          · exact absurd in_ending List.not_mem_nil
      have cut := ntpdate_takeWhile (nul_free_of_copyHost free copied)
      exact congrArg (fun urlbuf => Except.ok (some urlbuf)) cut

theorem copyHost_no_host (ending : Ending t) (no_host : host line = [])
    (copied : copyHost signed room (host line ++ behind line ++ t ++ [0]) = .ok found) :
    found = [] := by
  obtain ⟨⟨c, later, equal, at_stop, others⟩, -⟩ := copyHost_eq_ok_iff.mp copied
  rw [no_host, behind_of_no_host no_host] at equal
  cases found with
  | nil => rfl
  | cons d found =>
      have goes_on := others d List.mem_cons_self
      rcases ending with rfl | rfl
      · obtain ⟨rfl, -⟩ := List.cons.inj equal
        rw [stops_eq] at goes_on
        cases signed with
        | true => exact absurd goes_on (by decide)
        | false => exact absurd goes_on (by decide)
      · have short := congrArg List.length equal
        simp at short

theorem command_of_safe (ending : Ending t) (nul_free : 0 ∉ line) (one_line : 0xa ∉ line)
    (short : (host line).length < TARGET_URL_LEN - 8) (asking : asks line = true)
    (safe : HostSafe signed line t) :
    command signed (line ++ t) = .ok (some (ntpdate (host line))) := by
  have whole := (copyHost_host_iff ending one_line short safe.some_host).mpr safe
  have free : 0 ∉ host line := fun member => nul_free (mem_of_mem_host member)
  have cut := ntpdate_takeWhile free
  rw [command_eq ending asking, whole]
  exact congrArg (fun urlbuf => Except.ok (some urlbuf)) cut

/-- Otherwise the copy overruns, or it gives another host. -/
theorem command_of_unsafe (ending : Ending t) (nul_free : 0 ∉ line) (one_line : 0xa ∉ line)
    (short : (host line).length < TARGET_URL_LEN - 8) (asking : asks line = true)
    (not_safe : ¬ HostSafe signed line t) :
    (∃ overrun, command signed (line ++ t) = .error overrun) ∨
      ∃ found, command signed (line ++ t) = .ok (some (ntpdate found)) ∧
        (found = [] ∨ host line ≠ [] ∧ found ≠ host line) := by
  rcases command_found signed ending nul_free asking with overrun | ⟨found, runs, copied⟩
  · exact .inl overrun
  · refine .inr ⟨found, runs, ?_⟩
    by_cases some_host : host line = []
    · exact .inl (copyHost_no_host ending some_host copied)
    · refine .inr ⟨some_host, ?_⟩
      rintro rfl
      exact not_safe ((copyHost_host_iff ending one_line short some_host).mp copied)

end Line

end CFunc.TimeInterface
