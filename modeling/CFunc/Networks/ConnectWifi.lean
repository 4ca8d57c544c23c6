import CFunc.Lib.CText
import CFunc.Lib.Exec
import CFunc.Networks.Daemon

/-!
`ConnectWifi` of `networks/daemon.c`.

The function is a run of shell commands, and their exit codes decide which of its cases it leaves
and which it falls through. Commands are put together in buffers of 60 bytes.
-/

namespace CFunc.Networks

open CFunc.Lib

/-- A C string without its `NUL`. -/
abbrev Text := List Byte

/-- A program that issues commands. A write past a buffer, or a read through `NULL`, has no
meaning. -/
abbrev Shell := Exec (List Text)

namespace ConnectWifi

/-! ### The code -/

def SUCCESS : CInt := 0

def FAIL : CInt := -1

/-- The `n`-th command of a run exits with `codes n`. -/
def system (codes : Nat → CInt) (command : Text) : Shell CInt := fun issued =>
  .done (codes issued.length, issued ++ [command])

/-- `strncat` on a buffer of 60 bytes. -/
def strncat (buffer source : Text) (n : Nat) : Option Text :=
  let joined := buffer ++ source.take n
  if joined.length < 60 then some joined else none

def essid : Text := bytes "iwconfig eth1 essid "

def key : Text := bytes "iwconfig eth1 key "

def key_off : Text := bytes "iwconfig eth1 key off"

def key_on : Text := bytes "iwconfig eth1 key on"

def udhcpc : Text := bytes "udhcpc -i eth1 -n"

def CloseWifi (codes : Nat → CInt) : Shell Unit := do
  let _ ← system codes (bytes "killall udhcpc")
  let _ ← system codes (bytes "iwpriv eth1 deauth")

/-- The end of cases 1 to 4: without a result the case falls through. -/
def associate (codes : Nat → CInt) (cmd_id : Text) (next : Shell (Option CInt)) :
    Shell (Option CInt) := do
  let ret ← system codes cmd_id
  if ret ≠ 0 then return some FAIL
  else
    let ret ← system codes udhcpc
    if ret = 0 then return some SUCCESS
    else next

/-- `case 2`, `case 3` and `case 4`, each with its number in brackets. -/
def case_key (codes : Nat → CInt) (cmd_id cmd_password number : Text)
    (next : Shell (Option CInt)) : Shell (Option CInt) := do
  CloseWifi codes
  let cmd_every_password ← Exec.lift (strncat cmd_password (bytes " " ++ number) 6)
  let _ ← system codes cmd_every_password
  let _ ← system codes (key ++ number)
  let _ ← system codes key_on
  associate codes cmd_id next

def case_2 (codes : Nat → CInt) (cmd_id cmd_password : Text) (next : Shell (Option CInt)) :=
  case_key codes cmd_id cmd_password (bytes "[2]") next

def case_3 (codes : Nat → CInt) (cmd_id cmd_password : Text) (next : Shell (Option CInt)) :=
  case_key codes cmd_id cmd_password (bytes "[3]") next

def case_4 (codes : Nat → CInt) (cmd_id cmd_password : Text) (next : Shell (Option CInt)) :=
  case_key codes cmd_id cmd_password (bytes "[4]") next

/-- `case 1` appends to what is in the buffers already, and the cases after it follow on it. -/
def case_1 (codes : Nat → CInt) (cmd_id cmd_password pSSID pPassword : Text) :
    Shell (Option CInt) := do
  CloseWifi codes
  let cmd_id ← Exec.lift (strncat cmd_id pSSID 30)
  let cmd_password ← Exec.lift (strncat cmd_password pPassword 30)
  let _ ← system codes cmd_password
  let _ ← system codes key_on
  associate codes cmd_id
    (case_2 codes cmd_id cmd_password
      (case_3 codes cmd_id cmd_password
        (case_4 codes cmd_id cmd_password (return none))))

/-- `case 0`, which falls through where the open network does not associate. -/
def case_0 (codes : Nat → CInt) (cmd_id cmd_password pSSID pPassword : Text) :
    Shell (Option CInt) := do
  CloseWifi codes
  let _ ← system codes key_off
  let cmd_id ← Exec.lift (strncat cmd_id pSSID 30)
  let ret ← system codes cmd_id
  if ret = 0 then
    let ret ← system codes udhcpc
    if ret = 0 then return some SUCCESS
    else return some FAIL
  else case_1 codes cmd_id cmd_password pSSID pPassword

end ConnectWifi

open ConnectWifi

/-- Without a result the function falls off its end, and returns no value. `pPassword` may be
`NULL`. -/
def ConnectWifi (codes : Nat → CInt) (pSSID : Text) (pPassword : Option Text) :
    Shell (Option CInt) :=
  match pPassword with
  | none => Exec.lift none
  | some pPassword =>
      if pPassword = [] then case_0 codes essid key pSSID pPassword
      else case_1 codes essid key pSSID pPassword

namespace ConnectWifi

/-! ### What the cases come to -/

section Runs

variable {codes : Nat → CInt} {cmd_id cmd_password pSSID pPassword number : Text}
  {next : Shell (Option CInt)} {issued : List Text}

/-- A command runs, and the program goes on with its exit code. -/
theorem system_bind {β : Type} (command : Text) (rest : CInt → Shell β) :
    (system codes command >>= rest) issued =
      rest (codes issued.length) (issued ++ [command]) := rfl

theorem associate_eq (codes : Nat → CInt) (cmd_id : Text) (next : Shell (Option CInt))
    (issued : List Text) : associate codes cmd_id next issued =
    if codes issued.length ≠ 0 then .done (some FAIL, issued ++ [cmd_id])
    else if codes (issued.length + 1) = 0 then
      .done (some SUCCESS, issued ++ [cmd_id] ++ [udhcpc])
    else next (issued ++ [cmd_id] ++ [udhcpc]) := by
  rw [associate, system_bind]
  by_cases fails : codes issued.length ≠ 0
  · rw [if_pos fails, if_pos fails]
    rfl
  · rw [if_neg fails, if_neg fails, system_bind, List.length_append, List.length_singleton]
    by_cases leased : codes (issued.length + 1) = 0
    · rw [if_pos leased, if_pos leased]
      rfl
    · rw [if_neg leased, if_neg leased]

/-- The commands of `CloseWifi`. -/
def closing : List Text := [bytes "killall udhcpc", bytes "iwpriv eth1 deauth"]

/-- What `case_key` issues before it associates. -/
def keying (cmd_every_password number : Text) : List Text :=
  closing ++ [cmd_every_password, key ++ number, key_on]

/-- What `case_1` issues before it associates. -/
def opening (cmd_password : Text) : List Text := closing ++ [cmd_password, key_on]

theorem case_key_eq {every : Text}
    (fits : strncat cmd_password (bytes " " ++ number) 6 = some every) :
    case_key codes cmd_id cmd_password number next issued =
      associate codes cmd_id next (issued ++ keying every number) := by
  calc case_key codes cmd_id cmd_password number next issued
      = associate codes cmd_id next (issued ++ [bytes "killall udhcpc"] ++
          [bytes "iwpriv eth1 deauth"] ++ [every] ++ [key ++ number] ++ [key_on]) := by
        rw [case_key, fits]
        rfl
    _ = associate codes cmd_id next (issued ++ keying every number) := by
        simp [keying, closing]

/-- What follows on the first attempt. -/
def later (codes : Nat → CInt) (cmd_id cmd_password : Text) : Shell (Option CInt) :=
  case_2 codes cmd_id cmd_password
    (case_3 codes cmd_id cmd_password
      (case_4 codes cmd_id cmd_password (return none)))

theorem case_1_eq {id password : Text} (id_fits : strncat cmd_id pSSID 30 = some id)
    (password_fits : strncat cmd_password pPassword 30 = some password) :
    case_1 codes cmd_id cmd_password pSSID pPassword issued =
      associate codes id (later codes id password) (issued ++ opening password) := by
  calc case_1 codes cmd_id cmd_password pSSID pPassword issued
      = associate codes id (later codes id password) (issued ++ [bytes "killall udhcpc"] ++
          [bytes "iwpriv eth1 deauth"] ++ [password] ++ [key_on]) := by
        rw [case_1, id_fits, password_fits]
        rfl
    _ = associate codes id (later codes id password) (issued ++ opening password) := by
        simp [opening, closing]

theorem case_1_fault (long : strncat cmd_id pSSID 30 = none) :
    case_1 codes cmd_id cmd_password pSSID pPassword issued = .fault := by
  rw [case_1, long]
  rfl

theorem case_0_eq {id : Text} (id_fits : strncat cmd_id pSSID 30 = some id) :
    case_0 codes cmd_id cmd_password pSSID pPassword [] =
      if codes 3 = 0 then
        .done (some (if codes 4 = 0 then SUCCESS else FAIL), closing ++ [key_off, id, udhcpc])
      else case_1 codes id cmd_password pSSID pPassword (closing ++ [key_off, id]) := by
  calc case_0 codes cmd_id cmd_password pSSID pPassword []
      = (if codes 3 = 0 then do
          let ret ← system codes udhcpc
          if ret = 0 then return some SUCCESS else return some FAIL
        else case_1 codes id cmd_password pSSID pPassword) (closing ++ [key_off, id]) := by
        rw [case_0, id_fits]
        rfl
    _ = _ := by
        by_cases associated : codes 3 = 0
        · rw [if_pos associated, if_pos associated, system_bind]
          by_cases leased : codes 4 = 0
          · rw [if_pos leased]
            exact congrFun (if_pos leased) _
          · rw [if_neg leased]
            exact congrFun (if_neg leased) _
        · rw [if_neg associated, if_neg associated]

/-! ### The buffers -/

theorem strncat_eq_some {buffer source : Text} {n : Nat}
    (fits : (buffer ++ source.take n).length < 60) :
    strncat buffer source n = some (buffer ++ source.take n) :=
  if_pos fits

theorem strncat_eq_none {buffer source : Text} {n : Nat}
    (long : ¬ (buffer ++ source.take n).length < 60) : strncat buffer source n = none :=
  if_neg long

theorem length_essid : essid.length = 20 := by decide

theorem length_key : key.length = 18 := by decide

/-- One name, or one password, fits. -/
theorem id_fits (pSSID : Text) : strncat essid pSSID 30 = some (essid ++ pSSID.take 30) := by
  apply strncat_eq_some
  rw [List.length_append, length_essid, List.length_take]
  omega

theorem password_fits (pPassword : Text) :
    strncat key pPassword 30 = some (key ++ pPassword.take 30) := by
  apply strncat_eq_some
  rw [List.length_append, length_key, List.length_take]
  omega

/-- With its number the command still fits. -/
theorem every_fits (pPassword : Text) {number : Text} (three : number.length = 3) :
    strncat (key ++ pPassword.take 30) (bytes " " ++ number) 6 =
      some (key ++ pPassword.take 30 ++ (bytes " " ++ number)) := by
  have whole : (bytes " " ++ number).take 6 = bytes " " ++ number := by
    apply List.take_of_length_le
    rw [List.length_append, three]
    decide
  rw [strncat_eq_some, whole]
  rw [whole, List.length_append, List.length_append, List.length_append, length_key, three,
    List.length_take]
  have blank : (bytes " ").length = 1 := by decide
  omega

end Runs

/-! ### The network that is asked for -/

/-- The run stays inside its buffers, every `essid` command names the first 30 bytes of `pSSID`,
and without a password the only key command is `key off`. -/
def Asked (pSSID pPassword : Text) (run : Loop.Result (Option CInt × List Text)) : Prop :=
  ∃ ret issued, run = .done (ret, issued) ∧
    (∀ c ∈ issued, bytes "iwconfig eth1 essid" <+: c → c = essid ++ pSSID.take 30) ∧
    (pPassword = [] → ∀ c ∈ issued, bytes "iwconfig eth1 key" <+: c → c = key_off)

section Names

variable {codes : Nat → CInt} {cmd_id cmd_password pSSID pPassword number : Text}
  {next : Shell (Option CInt)} {issued issued' : List Text} {ret : Option CInt} {c : Text}

/-- An `essid` command names the network. -/
def Names (pSSID c : Text) : Prop :=
  bytes "iwconfig eth1 essid" <+: c → c = essid ++ pSSID.take 30

/-- Every command issued so far does. -/
abbrev AllName (pSSID : Text) (_ : Option CInt) (issued : List Text) : Prop :=
  ∀ c ∈ issued, Names pSSID c

theorem names_key (rest : Text) : Names pSSID (key ++ rest) := by
  intro named
  have first : bytes "iwconfig eth1 e" <+: key ++ rest := List.IsPrefix.trans (by decide) named
  have short := List.prefix_of_prefix_length_le first (List.prefix_append key rest) (by decide)
  exact absurd short (by decide)

theorem names_closing : ∀ c ∈ closing, Names pSSID c := by
  intro c member
  rcases List.mem_pair.mp member with rfl | rfl
  · exact fun named => absurd named (by decide)
  · exact fun named => absurd named (by decide)

theorem names_key_on : Names pSSID key_on := fun named => absurd named (by decide)

theorem names_key_off : Names pSSID key_off := fun named => absurd named (by decide)

theorem names_udhcpc : Names pSSID udhcpc := fun named => absurd named (by decide)

theorem names_append {more : List Text} (all : ∀ c ∈ issued, Names pSSID c)
    (all' : ∀ c ∈ more, Names pSSID c) : ∀ c ∈ issued ++ more, Names pSSID c := by
  intro c member
  rcases List.mem_append.mp member with old | new
  · exact all c old
  · exact all' c new

theorem associate_names (codes : Nat → CInt) (all : ∀ c ∈ issued, Names pSSID c)
    (rest : ∀ issued, (∀ c ∈ issued, Names pSSID c) → Exec.Ends next issued (AllName pSSID)) :
    Exec.Ends (associate codes (essid ++ pSSID.take 30) next) issued (AllName pSSID) := by
  have associated : ∀ c ∈ issued ++ [essid ++ pSSID.take 30], Names pSSID c :=
    names_append all fun c member _ => List.mem_singleton.mp member
  have leased : ∀ c ∈ issued ++ [essid ++ pSSID.take 30] ++ [udhcpc], Names pSSID c :=
    names_append associated fun c member => List.mem_singleton.mp member ▸ names_udhcpc
  have equation := associate_eq codes (essid ++ pSSID.take 30) next issued
  split at equation
  · exact ⟨_, _, equation, associated⟩
  · split at equation
    · exact ⟨_, _, equation, leased⟩
    · obtain ⟨ret, issued', run, only⟩ := rest _ leased
      exact ⟨ret, issued', equation.trans run, only⟩

theorem case_key_names (three : number.length = 3) (all : ∀ c ∈ issued, Names pSSID c)
    (rest : ∀ issued, (∀ c ∈ issued, Names pSSID c) → Exec.Ends next issued (AllName pSSID)) :
    Exec.Ends (case_key codes (essid ++ pSSID.take 30) (key ++ pPassword.take 30) number next)
      issued (AllName pSSID) := by
  have keyed : ∀ c ∈ keying (key ++ pPassword.take 30 ++ (bytes " " ++ number)) number,
      Names pSSID c := by
    apply names_append names_closing
    intro c member
    simp only [List.mem_cons, List.not_mem_nil, or_false] at member
    rcases member with rfl | rfl | rfl
    · rw [List.append_assoc]
      exact names_key _
    · exact names_key _
    · exact names_key_on
  obtain ⟨ret, issued', run, only⟩ := associate_names codes (names_append all keyed) rest
  exact ⟨ret, issued', (case_key_eq (every_fits pPassword three)).trans run, only⟩

theorem case_1_names (codes : Nat → CInt) (pPassword : Text)
    (all : ∀ c ∈ issued, Names pSSID c) :
    Exec.Ends (case_1 codes essid key pSSID pPassword) issued (AllName pSSID) := by
  have opened : ∀ c ∈ opening (key ++ pPassword.take 30), Names pSSID c := by
    apply names_append names_closing
    intro c member
    rcases List.mem_pair.mp member with rfl | rfl
    · exact names_key _
    · exact names_key_on
  have rest (issued : List Text) (all : ∀ c ∈ issued, Names pSSID c) :
      Exec.Ends (later codes (essid ++ pSSID.take 30) (key ++ pPassword.take 30)) issued
        (AllName pSSID) :=
    case_key_names (by decide) all fun issued all =>
      case_key_names (by decide) all fun issued all =>
        case_key_names (by decide) all fun issued all => ⟨none, issued, rfl, all⟩
  obtain ⟨ret, issued', run, only⟩ := associate_names codes (names_append all opened) rest
  exact ⟨ret, issued', (case_1_eq (id_fits pSSID) (password_fits pPassword)).trans run, only⟩

/-- What `next` ends with has the command if what it starts with has. -/
def Keeps (c : Text) (next : Shell (Option CInt)) : Prop :=
  ∀ issued ret issued', c ∈ issued → next issued = .done (ret, issued') → c ∈ issued'

theorem associate_keeps (rest : Keeps c next) : Keeps c (associate codes cmd_id next) := by
  intro issued ret issued' member run
  rw [associate_eq] at run
  split at run
  · cases run
    exact List.mem_append_left _ member
  · split at run
    · cases run
      exact List.mem_append_left _ (List.mem_append_left _ member)
    · exact rest _ _ _ (List.mem_append_left _ (List.mem_append_left _ member)) run

theorem case_key_keeps (rest : Keeps c next) :
    Keeps c (case_key codes cmd_id cmd_password number next) := by
  intro issued ret issued' member run
  cases fits : strncat cmd_password (bytes " " ++ number) 6 with
  | none =>
      rw [case_key, fits] at run
      cases run
  | some every =>
      rw [case_key_eq fits] at run
      exact associate_keeps rest _ _ _ (List.mem_append_left _ member) run

/-- `case 1` turns the key on. -/
theorem case_1_key_on
    (run : case_1 codes cmd_id cmd_password pSSID pPassword issued = .done (ret, issued')) :
    key_on ∈ issued' := by
  have kept : Keeps key_on (later codes (cmd_id ++ pSSID.take 30)
      (cmd_password ++ pPassword.take 30)) :=
    case_key_keeps (case_key_keeps (case_key_keeps fun _ _ _ member run => by
      cases run
      exact member))
  by_cases id_fits : (cmd_id ++ pSSID.take 30).length < 60
  · by_cases password_fits : (cmd_password ++ pPassword.take 30).length < 60
    · rw [case_1_eq (strncat_eq_some id_fits) (strncat_eq_some password_fits)] at run
      exact associate_keeps kept _ _ _ (List.mem_append_right _ (by simp [opening])) run
    · rw [case_1, strncat_eq_some id_fits, strncat_eq_none password_fits] at run
      cases run
  · rw [case_1_fault (strncat_eq_none id_fits)] at run
    cases run

/-- An open network is asked for with `key off` alone. -/
theorem open_keys : ∀ c ∈ closing ++ [key_off, essid ++ pSSID.take 30, udhcpc],
    bytes "iwconfig eth1 key" <+: c → c = key_off := by
  intro c member named
  simp only [closing, List.mem_append, List.mem_cons, List.not_mem_nil, or_false] at member
  rcases member with (rfl | rfl) | rfl | rfl | rfl
  · exact absurd named (by decide)
  · exact absurd named (by decide)
  · rfl
  · have short := List.prefix_of_prefix_length_le named (List.prefix_append essid _) (by decide)
    exact absurd short (by decide)
  · exact absurd named (by decide)

/-- Only the requested network is asked for, unless an open network does not associate. -/
theorem ConnectWifi_asked_iff (codes : Nat → CInt) (pSSID pPassword : Text) :
    Asked pSSID pPassword (ConnectWifi codes pSSID (some pPassword) []) ↔
      ¬ (pPassword = [] ∧ codes 3 ≠ 0) := by
  rw [ConnectWifi]
  by_cases is_open : pPassword = []
  · rw [if_pos is_open, case_0_eq (id_fits pSSID)]
    by_cases associated : codes 3 = 0
    · rw [if_pos associated]
      apply iff_of_true _ fun failed => failed.2 associated
      refine ⟨_, _, rfl, names_append names_closing fun c member => ?_, fun _ => open_keys⟩
      simp only [List.mem_cons, List.not_mem_nil, or_false] at member
      rcases member with rfl | rfl | rfl
      · exact names_key_off
      · exact fun _ => rfl
      · exact names_udhcpc
    · rw [if_neg associated]
      apply iff_of_false _ (not_not.mpr ⟨is_open, associated⟩)
      rintro ⟨ret, issued, run, -, keys⟩
      have turned_off := keys is_open key_on (case_1_key_on run) (by decide)
      exact absurd turned_off (by decide)
  · rw [if_neg is_open]
    apply iff_of_true _ fun failed => is_open failed.1
    have none_yet : ∀ c ∈ [], Names pSSID c := fun c member => absurd member List.not_mem_nil
    obtain ⟨ret, issued, run, all⟩ := case_1_names codes pPassword none_yet
    exact ⟨ret, issued, run, all, fun empty => absurd empty is_open⟩

/-- An open network `"a"` that does not associate. -/
theorem key_on_without_password :
    ¬ ∀ (codes : Nat → CInt) (pSSID pPassword : Text),
      Asked pSSID pPassword (ConnectWifi codes pSSID (some pPassword) []) := by
  intro always
  obtain ⟨ret, issued, run, -, keys⟩ := always (fun n => if n = 3 then 1 else 0) (bytes "a") []
  have failed : ConnectWifi (fun n => if n = 3 then 1 else 0) (bytes "a") (some []) [] =
      case_1 (fun n => if n = 3 then 1 else 0) (essid ++ (bytes "a").take 30) key (bytes "a") []
        (closing ++ [key_off, essid ++ (bytes "a").take 30]) := by
    rw [ConnectWifi, if_pos rfl, case_0_eq (id_fits _), if_neg (by decide)]
  rw [failed] at run
  exact absurd (keys rfl key_on (case_1_key_on run) (by decide)) (by decide)

end Names

/-! ### What is reported -/

/-- The exit code of the last DHCP attempt, if one was made. -/
def lastDhcp (codes : Nat → CInt) (issued : List Text) : Option CInt :=
  ((issued.zipIdx.filter fun c => c.1 = udhcpc).getLast?).map fun c => codes c.2

/-- The run returns a value, `SUCCESS` if the last DHCP attempt succeeded and `FAIL` otherwise, and
the daemon records a lease if and only if it did. -/
def Reports (codes : Nat → CInt) (pSSID : Text) (pPassword : Option Text)
    (run : Loop.Result (Option CInt × List Text)) : Prop :=
  ∃ ret issued, run = .done (some ret, issued) ∧
    ret = (if lastDhcp codes issued = some 0 then SUCCESS else FAIL) ∧
    ∀ gNetInfo, (connected (.ConnectWifi pSSID pPassword) ret gNetInfo).iDhcp_Wireless = 1 ↔
      lastDhcp codes issued = some 0

/-- The association that is command `n` succeeds, and the DHCP attempt after it fails. -/
def Unleased (codes : Nat → CInt) (n : Nat) : Prop := codes n = 0 ∧ codes (n + 1) ≠ 0

instance (codes : Nat → CInt) (n : Nat) : Decidable (Unleased codes n) :=
  inferInstanceAs (Decidable (codes n = 0 ∧ codes (n + 1) ≠ 0))

/-- This happens in all four attempts with the key, the first command of which is `base`. -/
def AllUnleased (codes : Nat → CInt) (base : Nat) : Prop :=
  ∀ k < 4, Unleased codes (base + 4 + 7 * k)

instance (codes : Nat → CInt) (base : Nat) : Decidable (AllUnleased codes base) :=
  inferInstanceAs (Decidable (∀ k < 4, Unleased codes (base + 4 + 7 * k)))

section Reported

variable {codes : Nat → CInt} {cmd_id pSSID pPassword number : Text} {pPassword' : Option Text}
  {next : Shell (Option CInt)} {issued more : List Text} {c : Text}

theorem lastDhcp_append (others : udhcpc ∉ more) :
    lastDhcp codes (issued ++ more) = lastDhcp codes issued := by
  have none_more : (more.zipIdx issued.length).filter (fun c => c.1 = udhcpc) = [] := by
    apply List.filter_eq_nil_iff.mpr
    intro c member
    rw [decide_eq_true_iff]
    intro same
    exact others (same ▸ List.fst_mem_of_mem_zipIdx member)
  rw [lastDhcp, lastDhcp, List.zipIdx_append, List.filter_append, Nat.zero_add, none_more,
    List.append_nil]

theorem lastDhcp_udhcpc : lastDhcp codes (issued ++ [udhcpc]) = some (codes issued.length) := by
  rw [lastDhcp, List.zipIdx_append, List.filter_append, List.zipIdx_singleton,
    List.filter_cons_of_pos (by simp), List.filter_nil, List.getLast?_concat, Nat.zero_add]
  rfl

theorem reports_done {ret : CInt}
    (right : ret = if lastDhcp codes issued = some 0 then SUCCESS else FAIL) :
    Reports codes pSSID pPassword' (.done (some ret, issued)) := by
  refine ⟨ret, issued, rfl, right, fun gNetInfo => ?_⟩
  by_cases leased : lastDhcp codes issued = some 0
  · rw [if_pos leased] at right
    subst right
    exact iff_of_true rfl leased
  · rw [if_neg leased] at right
    subst right
    exact iff_of_false (show (0 : CInt) ≠ 1 by decide) leased

/-- An attempt reports what happened, or leaves it to the next one. -/
theorem associate_reports (so_far : lastDhcp codes issued ≠ some 0) (named : udhcpc ≠ cmd_id) :
    Reports codes pSSID pPassword' (associate codes cmd_id next issued) ↔
      (Unleased codes issued.length →
        Reports codes pSSID pPassword' (next (issued ++ [cmd_id] ++ [udhcpc]))) := by
  have associated : lastDhcp codes (issued ++ [cmd_id]) = lastDhcp codes issued :=
    lastDhcp_append fun member => named (List.mem_singleton.mp member)
  have tried : lastDhcp codes (issued ++ [cmd_id] ++ [udhcpc]) =
      some (codes (issued.length + 1)) := by
    rw [lastDhcp_udhcpc, List.length_append, List.length_singleton]
  rw [associate_eq]
  by_cases fails : codes issued.length ≠ 0
  · rw [if_pos fails]
    apply iff_of_true _ fun both => absurd both.1 fails
    exact reports_done (if_neg (associated ▸ so_far)).symm
  · rw [if_neg fails]
    by_cases leased : codes (issued.length + 1) = 0
    · rw [if_pos leased]
      apply iff_of_true _ fun both => absurd leased both.2
      exact reports_done (if_pos (tried.trans (congrArg some leased))).symm
    · rw [if_neg leased]
      exact ⟨fun reports _ => reports, fun reports => reports ⟨not_not.mp fails, leased⟩⟩

/-- No command that starts with `iwconfig` is a DHCP attempt. -/
theorem udhcpc_ne_append {start : Text} (iwconfig : bytes "iwconfig" <+: start) (rest : Text) :
    udhcpc ≠ start ++ rest := by
  intro same
  have first : bytes "u" <+: udhcpc := by decide
  have inside : bytes "iwconfig" <+: udhcpc := same ▸ iwconfig.trans (List.prefix_append _ _)
  exact absurd (List.prefix_of_prefix_length_le first inside (by decide)) (by decide)

theorem udhcpc_not_mem_closing : udhcpc ∉ closing := by decide

theorem udhcpc_not_mem_opening (password : Text) : udhcpc ∉ opening (key ++ password) := by
  intro member
  rcases List.mem_append.mp member with first | rest
  · exact udhcpc_not_mem_closing first
  · rcases List.mem_pair.mp rest with same | same
    · exact udhcpc_ne_append (by decide) _ same
    · exact absurd same (by decide)

theorem udhcpc_not_mem_keying (password number : Text) :
    udhcpc ∉ keying (key ++ password) number := by
  intro member
  rcases List.mem_append.mp member with first | rest
  · exact udhcpc_not_mem_closing first
  · simp only [List.mem_cons, List.not_mem_nil, or_false] at rest
    rcases rest with same | same | same
    · exact udhcpc_ne_append (by decide) _ same
    · exact udhcpc_ne_append (by decide) _ same
    · exact absurd same (by decide)

/-- An attempt from a state in which no DHCP attempt succeeded last, where the next one reports
exactly if `p`. -/
theorem attempt_reports {p : Prop} {start : Text} (iwconfig : bytes "iwconfig" <+: start)
    (rest : Text) (so_far : lastDhcp codes issued ≠ some 0)
    (later : ∀ issued', issued'.length = issued.length + 2 → lastDhcp codes issued' ≠ some 0 →
      (Reports codes pSSID pPassword' (next issued') ↔ p)) :
    Reports codes pSSID pPassword' (associate codes (start ++ rest) next issued) ↔
      (Unleased codes issued.length → p) := by
  rw [associate_reports so_far (udhcpc_ne_append iwconfig rest)]
  apply imp_congr_right
  rintro ⟨-, unleased⟩
  apply later
  · rw [List.length_append, List.length_append]
    rfl
  · rw [lastDhcp_udhcpc, List.length_append, List.length_singleton]
    exact fun same => unleased (Option.some.inj same)

theorem case_key_reports {p : Prop} {base : Nat} (three : number.length = 3) (id : Text)
    (length : issued.length = base) (so_far : lastDhcp codes issued ≠ some 0)
    (later : ∀ issued', issued'.length = base + 7 → lastDhcp codes issued' ≠ some 0 →
      (Reports codes pSSID pPassword' (next issued') ↔ p)) :
    Reports codes pSSID pPassword'
        (case_key codes (essid ++ id) (key ++ pPassword.take 30) number next issued) ↔
      (Unleased codes (base + 5) → p) := by
  subst length
  have others := udhcpc_not_mem_keying (pPassword.take 30 ++ (bytes " " ++ number)) number
  rw [case_key_eq (every_fits pPassword three), List.append_assoc,
    attempt_reports (p := p) (by decide) id]
  · rw [List.length_append]
    rfl
  · rwa [lastDhcp_append others]
  · intro issued' length_eq unleased
    apply later issued' _ unleased
    rw [length_eq, List.length_append]
    rfl

/-- The attempts with the key report what happened unless all of them fail in DHCP. -/
theorem case_1_reports {cmd_id id : Text} (fits : strncat cmd_id pSSID 30 = some (essid ++ id))
    (so_far : lastDhcp codes issued ≠ some 0) :
    Reports codes pSSID pPassword' (case_1 codes cmd_id key pSSID pPassword issued) ↔
      ¬ AllUnleased codes issued.length := by
  have off_end (issued' : List Text) :
      Reports codes pSSID pPassword' ((return none : Shell (Option CInt)) issued') ↔ False := by
    apply iff_false_intro
    rintro ⟨ret, _, run, -⟩
    cases run
  have opened : lastDhcp codes (issued ++ opening (key ++ pPassword.take 30)) ≠ some 0 := by
    rwa [lastDhcp_append (udhcpc_not_mem_opening _)]
  have length_opened : (issued ++ opening (key ++ pPassword.take 30)).length =
      issued.length + 4 := by
    rw [List.length_append]
    rfl
  have iwconfig : bytes "iwconfig" <+: essid := by decide
  have two : (bytes "[2]").length = 3 := by decide
  have three : (bytes "[3]").length = 3 := by decide
  have four : (bytes "[4]").length = 3 := by decide
  rw [case_1_eq fits (password_fits pPassword)]
  apply (attempt_reports iwconfig id opened fun _ length₂ unleased₂ =>
    case_key_reports two id length₂ unleased₂ fun _ length₃ unleased₃ =>
      case_key_reports three id length₃ unleased₃ fun _ length₄ unleased₄ =>
        case_key_reports four id length₄ unleased₄ fun issued₅ _ _ => off_end issued₅).trans
  rw [length_opened]
  constructor
  · intro all_four unleased
    exact all_four (unleased 0 (by decide)) (unleased 1 (by decide)) (unleased 2 (by decide))
      (unleased 3 (by decide))
  · intro some_leased first second third fourth
    apply some_leased
    intro k lt
    match k, lt with
    | 0, _ => exact first
    | 1, _ => exact second
    | 2, _ => exact third
    | 3, _ => exact fourth

theorem lastDhcp_nil : lastDhcp codes [] = none := rfl

theorem none_tried : lastDhcp codes [] ≠ some 0 := nofun

/-- Before its first DHCP attempt an open network has none. -/
theorem lastDhcp_open (id : Text) :
    lastDhcp codes (closing ++ [key_off, essid ++ id]) = none := by
  rw [← lastDhcp_nil, ← List.nil_append (closing ++ _), lastDhcp_append]
  intro member
  rcases List.mem_append.mp member with first | rest
  · exact udhcpc_not_mem_closing first
  · rcases List.mem_pair.mp rest with same | same
    · exact absurd same (by decide)
    · exact udhcpc_ne_append (by decide) _ same

/-- The name of an open network goes into its buffer a second time before the key is tried. -/
theorem twice_reports :
    Reports codes pSSID pPassword' (case_1 codes (essid ++ pSSID.take 30) key pSSID pPassword
        (closing ++ [key_off, essid ++ pSSID.take 30])) ↔
      (pSSID.take 30).length ≤ 19 ∧ ¬ AllUnleased codes 4 := by
  have length_twice : (essid ++ pSSID.take 30 ++ pSSID.take 30).length =
      20 + (pSSID.take 30).length + (pSSID.take 30).length := by
    rw [List.length_append, List.length_append, length_essid]
  by_cases fits : (essid ++ pSSID.take 30 ++ pSSID.take 30).length < 60
  · have twice := strncat_eq_some fits
    rw [List.append_assoc] at twice
    rw [case_1_reports twice (by rw [lastDhcp_open]; exact nofun), and_iff_right (by omega)]
    rfl
  · rw [case_1_fault (strncat_eq_none fits)]
    apply iff_of_false
    · rintro ⟨ret, issued, run, -⟩
      cases run
    · rintro ⟨short, -⟩
      omega

/-- `ConnectWifi` reports what happened if and only if it has a password string, the name of an
open network that does not associate fits twice, and not every attempt fails in DHCP. -/
theorem ConnectWifi_reports_iff (codes : Nat → CInt) (pSSID : Text) (pPassword : Option Text) :
    Reports codes pSSID pPassword (ConnectWifi codes pSSID pPassword []) ↔
      ∃ password, pPassword = some password ∧
        (password = [] → codes 3 ≠ 0 → (pSSID.take 30).length ≤ 19 ∧ ¬ AllUnleased codes 4) ∧
        (password ≠ [] → ¬ AllUnleased codes 0) := by
  cases pPassword with
  | none =>
      apply iff_of_false
      · rintro ⟨ret, issued, run, -⟩
        cases run
      · rintro ⟨password, missing, -⟩
        cases missing
  | some password =>
      have only {p : Text → Prop} : (∃ password', some password = some password' ∧ p password') ↔
          p password := by
        constructor
        · rintro ⟨password', same, holds⟩
          obtain rfl := Option.some.inj same
          exact holds
        · exact fun holds => ⟨password, rfl, holds⟩
      rw [only, ConnectWifi]
      by_cases is_open : password = []
      · rw [if_pos is_open, case_0_eq (id_fits pSSID), and_iff_left (absurd is_open),
          forall_prop_of_true is_open]
        by_cases associated : codes 3 = 0
        · rw [if_pos associated]
          apply iff_of_true _ fun failed => absurd associated failed
          apply reports_done
          have tried : lastDhcp codes (closing ++ [key_off, essid ++ pSSID.take 30] ++ [udhcpc]) =
              some (codes 4) := lastDhcp_udhcpc
          have listed : closing ++ [key_off, essid ++ pSSID.take 30, udhcpc] =
              closing ++ [key_off, essid ++ pSSID.take 30] ++ [udhcpc] := rfl
          rw [listed, tried]
          simp only [Option.some.injEq]
        · rw [if_neg associated, forall_prop_of_true associated]
          exact twice_reports
      · rw [if_neg is_open, and_iff_right fun empty => absurd empty is_open,
          forall_prop_of_true is_open]
        exact case_1_reports (id_fits pSSID) none_tried

/-- A network with a key that associates and gives no lease. -/
theorem unleased_not_reported :
    ¬ ∀ (codes : Nat → CInt) (pSSID : Text) (pPassword : Option Text),
      Reports codes pSSID pPassword (ConnectWifi codes pSSID pPassword []) := by
  intro always
  have reports := always (fun n => if n % 7 = 5 then 1 else 0) (bytes "a") (some (bytes "b"))
  rw [ConnectWifi, if_neg (by decide), case_1_reports (id_fits _) none_tried] at reports
  exact reports (by decide)

end Reported

end ConnectWifi

end CFunc.Networks
