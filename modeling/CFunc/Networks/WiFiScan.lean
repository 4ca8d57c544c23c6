import CFunc.Lib.CText
import CFunc.Lib.Folds
import CFunc.Networks.NetInfo

/-!
Reading a scan listing: `GetModeStr` and `GetWiFiStr` of `networks/daemon.c`.

`GetWiFiStr` goes through the tokens of a listing. Its flag is 1 once it has
the name of a cell, 2 once that cell is known to be managed, 3 once its signal
is read, and 0 again when its record is complete or its mode does not come.

A write past the end of an array is an error of the model. `atoi` is an argument:
a number that no `int` holds, or none that ends in `match`, leaves its value open,
and `GetWiFiStr_inside_iff` lets it be any.
-/

namespace CFunc.Networks

open CFunc.Lib.CText CFunc.Lib.Folds

/-! ### GetModeStr -/

/-- What stands between `mode` and the next `interval`. -/
def modeText (buffer mode : List Byte) (interval : Byte) : Option (List Byte) :=
  if buffer = [] ∨ mode = [] then none
  else
    match strstr mode buffer with
    | none => none
    | some found =>
        let begin := found.drop mode.length
        if interval = 0 then some begin
        else if interval ∈ begin then some (begin.takeWhile (· ≠ interval))
        else none

/-- The text is copied without a `NUL`. -/
def GetModeStr {n : Nat} (buffer mode : List Byte) (interval : Byte) (field : Vector Byte n) :
    Except StringFault (Vector Byte n × Int) :=
  match modeText buffer mode interval with
  | none => .ok (field, -1)
  | some text => do
      let field ← writeField field text
      return (field, 1)

/-! ### GetWiFiStr -/

def ESSID : List Byte := bytes "ESSID:\""

def MODE : List Byte := bytes "Mode:Managed"

def LEVEL : List Byte := bytes "level=-"

def KEY : List Byte := bytes "key:"

/-- The variables of `GetWiFiStr` and the array it fills; `temp` points to entry `i`. -/
structure WiFiScan where
  scan : Vector WiFi_Info 10
  bak : Vector Byte 20
  i : Nat
  j : Nat
  num : Nat
  flag : Nat
  deriving DecidableEq

/-- `match` after its `memset`. -/
def cleared : Vector Byte 20 := .replicate 20 0

/-- A store to `*temp`. -/
def WiFiScan.store (s : WiFiScan) (f : WiFi_Info → Except StringFault WiFi_Info) :
    Except StringFault WiFiScan :=
  if inside : s.i < 10 then do
    let entry ← f s.scan[s.i]
    return { s with scan := s.scan.set s.i entry }
  else .error .write

/-- The name of a cell. -/
def readName (p : List Byte) (s : WiFiScan) : Except StringFault WiFiScan := do
  let (found, ret) ← GetModeStr p ESSID 34 cleared
  if 0 < ret then
    let bak ← strcpy s.bak found
    return { s with flag := 1, bak := bak, num := s.j }
  else return s

/-- `strcpy(temp->SSID, bak)`. -/
def setSSID (bak : Vector Byte 20) (entry : WiFi_Info) : Except StringFault WiFi_Info := do
  let SSID ← strcpy entry.SSID bak
  return { entry with SSID := SSID }

/-- The mode of a cell, no more than three tokens after its name. -/
def readMode (p : List Byte) (s : WiFiScan) : Except StringFault WiFiScan :=
  if s.flag = 1 ∧ s.j - s.num ≤ 3 ∧ (strstr MODE p).isSome then do
    let s ← WiFiScan.store { s with flag := 2, num := s.j } (setSSID s.bak)
    return { s with bak := cleared }
  else return s

/-- A name whose mode has not come is given up. -/
def giveUp (s : WiFiScan) : WiFiScan :=
  if s.flag = 1 ∧ 3 < s.j - s.num then { s with flag := 0 } else s

/-- The class of a signal of `-signal` dBm. -/
def signalClass (signal : Int) : CInt :=
  if signal < 40 then 4
  else if 39 < signal ∧ signal < 60 then 3
  else if 59 < signal ∧ signal < 80 then 2
  else if 79 < signal ∧ signal < 100 then 1
  else 0

def readLevel (atoi : List Byte → Except StringFault Int) (p : List Byte) (s : WiFiScan) :
    Except StringFault WiFiScan :=
  if s.flag = 2 then do
    let (found, ret) ← GetModeStr p LEVEL 0 cleared
    if 0 < ret then
      let signal ← atoi found.toList
      let s ← s.store fun entry => return { entry with iSignal := signalClass signal }
      return { s with flag := 3 }
    else return s
  else return s

/-- `off` is looked for in the whole token, then `on`. -/
def setPassword (p : List Byte) (s : WiFiScan) : Except StringFault WiFiScan :=
  if (strstr (bytes "off") p).isSome then s.store fun entry => return { entry with password := 0 }
  else if (strstr (bytes "on") p).isSome then
    s.store fun entry => return { entry with password := 1 }
  else return s

def readKey (p : List Byte) (s : WiFiScan) : Except StringFault WiFiScan :=
  if s.flag = 3 then do
    let (_, ret) ← GetModeStr p KEY 10 cleared
    if 0 < ret then
      let s ← setPassword p s
      return { s with flag := 0, i := s.i + 1 }
    else return s
  else return s

/-- One round of the loop. -/
def scanToken (atoi : List Byte → Except StringFault Int) (s : WiFiScan) (p : List Byte) :
    Except StringFault WiFiScan :=
  if 0 < p.length then do
    let s ← readName p s
    let s ← readMode p s
    let s ← readLevel atoi p (giveUp s)
    let s ← readKey p s
    return { s with j := s.j + 1 }
  else return s

/-- The tokens that the loop goes through: all but the first. -/
def scanTokens (buffer : List Byte) : List (List Byte) :=
  (tokens 32 (buffer.takeWhile (· ≠ 0))).tail

def WiFiScan.start (scan : Vector WiFi_Info 10) (bak : Vector Byte 20) : WiFiScan :=
  { scan := scan, bak := bak, i := 0, j := 0, num := 0, flag := 0 }

/-- The string is in `buffer`; `bak` is what the array of that name holds before it is set. -/
def GetWiFiStr (atoi : List Byte → Except StringFault Int) (buffer : List Byte)
    (scan : Vector WiFi_Info 10) (bak : Vector Byte 20) :
    Except StringFault (Vector WiFi_Info 10 × Nat) := do
  let s ← (scanTokens buffer).foldlM (scanToken atoi) (.start scan bak)
  return (s.scan, s.i)

/-! ### What each statement does -/

section Texts

variable {p mode text : List Byte} {interval : Byte}

/-- A text stands in the buffer, after its mode and before its interval. -/
theorem modeText_spec (found : modeText p mode interval = some text) :
    ∃ before rest, p = before ++ mode ++ text ++ rest ∧
      (interval ≠ 0 → rest.head? = some interval ∧ interval ∉ text) := by
  rw [modeText] at found
  split at found
  · cases found
  · split at found
    · cases found
    · next begin at_begin =>
        obtain ⟨before, after, p_eq, rfl⟩ := append_of_strstr at_begin
        simp only [List.drop_left] at found
        split at found
        · next nul =>
            cases found
            exact ⟨before, [], by simp [p_eq], fun not_nul => absurd nul not_nul⟩
        · split at found
          · next member =>
              obtain ⟨name, rest, rfl, not_before⟩ := List.eq_append_cons_of_mem member
              rw [takeWhile_ne_append not_before] at found
              cases found
              exact ⟨before, interval :: rest, by simp [p_eq], fun _ => ⟨rfl, not_before⟩⟩
          · cases found

theorem GetModeStr_none {n : Nat} {field : Vector Byte n} (none : modeText p mode interval = none) :
    GetModeStr p mode interval field = .ok (field, -1) := by
  rw [GetModeStr, none]

/-- What `match` holds after a copy that fits. -/
theorem GetModeStr_some (found : modeText p mode interval = some text) (fits : text.length ≤ 20) :
    ∃ matched, GetModeStr p mode interval cleared = .ok (matched, 1) ∧
      matched.toList = text ++ List.replicate (20 - text.length) 0 := by
  obtain ⟨matched, write⟩ := writeField_ok cleared fits
  refine ⟨matched, ?_, ?_⟩
  · rw [GetModeStr, found]
    simp only [write]
    rfl
  · rw [toList_of_writeField write, cleared, Vector.toList_replicate, List.drop_replicate]

theorem GetModeStr_long {n : Nat} {field : Vector Byte n}
    (found : modeText p mode interval = some text) (long : n < text.length) :
    GetModeStr p mode interval field = .error .write := by
  rw [GetModeStr, found]
  simp only [writeField_eq_error_iff.mpr ⟨rfl, long⟩]
  rfl

end Texts

section Statements

variable {f : List Byte → Except StringFault Int} {p text : List Byte} {s : WiFiScan}

theorem store_inside {f : WiFi_Info → Except StringFault WiFi_Info} {entry : WiFi_Info}
    (room : s.i < 10) (made : f s.scan[s.i] = .ok entry) :
    s.store f = .ok { s with scan := s.scan.set s.i entry } := by
  rw [WiFiScan.store, dif_pos room, made]
  rfl

theorem store_pure (g : WiFi_Info → WiFi_Info) (room : s.i < 10) :
    s.store (fun entry => return g entry) =
      .ok { s with scan := s.scan.set s.i (g s.scan[s.i]) } := store_inside room rfl

theorem readName_none (none : modeText p ESSID 34 = none) : readName p s = .ok s := by
  rw [readName, GetModeStr_none none]
  rfl

theorem readName_some (found : modeText p ESSID 34 = some text) (string : 0 ∉ text)
    (fits : text.length < 20) :
    ∃ bak, cstr bak = text ∧ readName p s = .ok { s with flag := 1, bak := bak, num := s.j } := by
  obtain ⟨matched, call, padded⟩ := GetModeStr_some found fits.le
  have text_eq := cstr_of_padded padded string
  obtain ⟨bak, copied, bak_eq⟩ := strcpy_ok s.bak matched (by rwa [text_eq])
  refine ⟨bak, bak_eq.trans text_eq, ?_⟩
  rw [readName, call]
  change (strcpy s.bak matched >>= _) = _
  rw [copied]
  rfl

theorem readName_long (found : modeText p ESSID 34 = some text) (string : 0 ∉ text)
    (long : 20 ≤ text.length) : readName p s = .error .write := by
  rcases long.eq_or_lt with full | longer
  · -- `match` is full, and its copy lacks the room for a `NUL`
    obtain ⟨matched, call, padded⟩ := GetModeStr_some found full.ge
    rw [readName, call]
    change (strcpy s.bak matched >>= _) = _
    rw [strcpy_eq_error_iff.mpr ⟨rfl, by rwa [cstr_of_padded padded string]⟩]
    rfl
  · rw [readName, GetModeStr_long found longer]
    rfl

theorem readMode_other (other : ¬ (s.flag = 1 ∧ s.j - s.num ≤ 3 ∧ (strstr MODE p).isSome)) :
    readMode p s = .ok s := if_neg other

theorem readMode_managed (flag : s.flag = 1) (near : s.j - s.num ≤ 3)
    (managed : (strstr MODE p).isSome) (named : (cstr s.bak).length < 20) (room : s.i < 10) :
    ∃ SSID, cstr SSID = cstr s.bak ∧ readMode p s = .ok { s with
      flag := 2
      num := s.j
      bak := cleared
      scan := s.scan.set s.i { s.scan[s.i] with SSID := SSID } } := by
  obtain ⟨SSID, copied, name⟩ := strcpy_ok s.scan[s.i].SSID s.bak named
  have made : setSSID s.bak s.scan[s.i] = .ok { s.scan[s.i] with SSID := SSID } := by
    rw [setSSID, copied]
    rfl
  refine ⟨SSID, name, ?_⟩
  rw [readMode, if_pos ⟨flag, near, managed⟩,
    store_inside (s := { s with flag := 2, num := s.j }) room made]
  rfl

theorem readMode_full (flag : s.flag = 1) (near : s.j - s.num ≤ 3)
    (managed : (strstr MODE p).isSome) (full : 10 ≤ s.i) : readMode p s = .error .write := by
  rw [readMode, if_pos ⟨flag, near, managed⟩, WiFiScan.store, dif_neg (not_lt.mpr full)]
  rfl

theorem readLevel_other (other : s.flag = 2 → modeText p LEVEL 0 = none) :
    readLevel f p s = .ok s := by
  rw [readLevel]
  split
  · next flag =>
      rw [GetModeStr_none (other flag)]
      rfl
  · rfl

theorem readLevel_some (flag : s.flag = 2) (room : s.i < 10)
    (found : modeText p LEVEL 0 = some text) (fits : text.length ≤ 20) :
    readLevel f p s = do
      let signal ← f (text ++ List.replicate (20 - text.length) 0)
      return { s with
        flag := 3
        scan := s.scan.set s.i { s.scan[s.i] with iSignal := signalClass signal } } := by
  obtain ⟨matched, call, padded⟩ := GetModeStr_some found fits
  rw [readLevel, if_pos flag, call, ← padded]
  change (f matched.toList >>= _) = _
  congr 1
  funext signal
  rw [store_pure _ room]
  rfl

theorem readLevel_long (flag : s.flag = 2) (found : modeText p LEVEL 0 = some text)
    (long : 20 < text.length) : readLevel f p s = .error .write := by
  rw [readLevel, if_pos flag, GetModeStr_long found long]
  rfl

/-- The entry of a cell after its key token. -/
def keyed (p : List Byte) (entry : WiFi_Info) : WiFi_Info :=
  if (strstr (bytes "off") p).isSome then { entry with password := 0 }
  else if (strstr (bytes "on") p).isSome then { entry with password := 1 }
  else entry

theorem setPassword_eq (room : s.i < 10) :
    setPassword p s = .ok { s with scan := s.scan.set s.i (keyed p s.scan[s.i]) } := by
  rw [setPassword, keyed]
  split
  · exact store_pure _ room
  · split
    · exact store_pure _ room
    · rw [Vector.set_getElem_self]
      rfl

theorem readKey_other (other : s.flag = 3 → modeText p KEY 10 = none) : readKey p s = .ok s := by
  rw [readKey]
  split
  · next flag =>
      rw [GetModeStr_none (other flag)]
      rfl
  · rfl

theorem readKey_some (flag : s.flag = 3) (room : s.i < 10) (found : modeText p KEY 10 = some text)
    (fits : text.length ≤ 20) :
    readKey p s = .ok { s with
      flag := 0
      i := s.i + 1
      scan := s.scan.set s.i (keyed p s.scan[s.i]) } := by
  obtain ⟨matched, call, -⟩ := GetModeStr_some found fits
  rw [readKey, if_pos flag, call]
  change (setPassword p s >>= _) = _
  rw [setPassword_eq room]
  rfl

theorem readKey_long (flag : s.flag = 3) (found : modeText p KEY 10 = some text)
    (long : 20 < text.length) : readKey p s = .error .write := by
  rw [readKey, if_pos flag, GetModeStr_long found long]
  rfl

end Statements

/-! ### The writes of a run -/

/-- The statements of a round. -/
inductive Stage where
  | name
  | mode
  | deadline
  | level
  | key
  | count
  deriving DecidableEq, Repr

def stages : List Stage := [.name, .mode, .deadline, .level, .key, .count]

def perform (atoi : List Byte → Except StringFault Int) (s : WiFiScan) :
    Stage × List Byte → Except StringFault WiFiScan
  | (.name, p) => readName p s
  | (.mode, p) => readMode p s
  | (.deadline, _) => .ok (giveUp s)
  | (.level, p) => readLevel atoi p s
  | (.key, p) => readKey p s
  | (.count, _) => .ok { s with j := s.j + 1 }

/-- The statements of a run, each with its token. -/
def statements (buffer : List Byte) : List (Stage × List Byte) :=
  (scanTokens buffer).flatMap fun p => stages.map (·, p)

/-- The statement stays inside the arrays from the state `s`: a name and its `NUL` fit in 20
bytes, a record begins before the end of the array, and other texts have no more than 20 bytes. -/
def Fits (s : WiFiScan) : Stage × List Byte → Prop
  | (.name, p) => ∀ text, modeText p ESSID 34 = some text → text.length < 20
  | (.mode, p) => s.flag = 1 → s.j - s.num ≤ 3 → (strstr MODE p).isSome → s.i < 10
  | (.level, p) => s.flag = 2 → ∀ text, modeText p LEVEL 0 = some text → text.length ≤ 20
  | (.key, p) => s.flag = 3 → ∀ text, modeText p KEY 10 = some text → text.length ≤ 20
  | _ => True

theorem scanToken_eq (convert : List Byte → Except StringFault Int) {p : List Byte}
    (some_byte : p ≠ []) (s : WiFiScan) :
    scanToken convert s p = (stages.map (·, p)).foldlM (perform convert) s := by
  rw [scanToken, if_pos (List.length_pos_iff.mpr some_byte)]
  rfl

theorem mem_scanTokens {buffer p : List Byte} (member : p ∈ scanTokens buffer) :
    p ≠ [] ∧ 0 ∉ p := by
  have token := List.mem_of_mem_tail member
  refine ⟨of_decide_eq_true (List.mem_filter.mp token).2, fun nul => ?_⟩
  have inside := (infix_of_mem_tokens token).subset nul
  simpa using List.mem_takeWhile_imp inside

theorem run_eq (convert : List Byte → Except StringFault Int) (buffer : List Byte) (s : WiFiScan) :
    (scanTokens buffer).foldlM (scanToken convert) s =
      (statements buffer).foldlM (perform convert) s := by
  rw [statements, foldlM_flatMap]
  exact foldlM_congr (fun s p member => scanToken_eq convert (mem_scanTokens member).1 s) s

/-- `atoi` in a run that goes on where the number leaves its value open: what it then gives is
`other`. -/
def atoiOr (other : List Byte → Int) (array : List Byte) : Except StringFault Int :=
  match atoi array with
  | .ok value => .ok value
  | .error _ => .ok (other array)

theorem atoiOr_ok (other : List Byte → Int) (array : List Byte) :
    ∃ value, atoiOr other array = .ok value := by
  rw [atoiOr]
  split
  · exact ⟨_, rfl⟩
  · exact ⟨_, rfl⟩

/-- What the arrays hold between two statements. -/
structure Held (s : WiFiScan) : Prop where
  named : s.flag = 1 → (cstr s.bak).length < 20
  room : s.flag = 2 ∨ s.flag = 3 → s.i < 10

/-- The statement returns exactly where it fits, and leaves the arrays in order. -/
def Sound (other : List Byte → Int) (s : WiFiScan) (action : Stage × List Byte) : Prop :=
  ((∃ s', perform (atoiOr other) s action = .ok s') ↔ Fits s action) ∧
    ∀ s', perform (atoiOr other) s action = .ok s' → Held s'

section Sound

variable {other : List Byte → Int} {s s' : WiFiScan} {action : Stage × List Byte}
  {p text mode : List Byte} {interval : Byte}

theorem sound_of_ok (action : Stage × List Byte)
    (run : perform (atoiOr other) s action = .ok s') (fits : Fits s action) (held : Held s') :
    Sound other s action := by
  constructor
  · exact iff_of_true ⟨s', run⟩ fits
  · intro s'' run'
    rw [run] at run'
    cases run'
    exact held

theorem sound_of_error (action : Stage × List Byte) {fault : StringFault}
    (run : perform (atoiOr other) s action = .error fault) (too_long : ¬ Fits s action) :
    Sound other s action := by
  have fails : ∀ s', perform (atoiOr other) s action ≠ .ok s' := by
    intro s' run'
    rw [run] at run'
    cases run'
  exact ⟨iff_of_false (fun ⟨s', run'⟩ => fails s' run') too_long,
    fun s' run' => absurd run' (fails s')⟩

theorem not_mem_modeText (string : 0 ∉ p) (found : modeText p mode interval = some text) :
    0 ∉ text := by
  obtain ⟨before, rest, rfl, -⟩ := modeText_spec found
  simp only [List.mem_append, not_or] at string
  exact string.1.2

theorem sound_name (string : 0 ∉ p) (held : Held s) : Sound other s (.name, p) := by
  cases found : modeText p ESSID 34 with
  | none =>
      apply sound_of_ok (.name, p) (readName_none found) _ held
      intro text found'
      rw [found] at found'
      cases found'
  | some text =>
      have string' := not_mem_modeText string found
      by_cases fits : text.length < 20
      · obtain ⟨bak, name, run⟩ := readName_some (s := s) found string' fits
        apply sound_of_ok (.name, p) run
        · intro other found'
          rw [found] at found'
          cases found'
          exact fits
        · constructor
          case named => exact fun _ => by rwa [name]
          case room => rintro (flag | flag) <;> cases flag
      · apply sound_of_error (.name, p) (readName_long found string' (not_lt.mp fits))
        exact fun all => fits (all text found)

theorem sound_mode (held : Held s) : Sound other s (.mode, p) := by
  by_cases managed : s.flag = 1 ∧ s.j - s.num ≤ 3 ∧ (strstr MODE p).isSome
  · obtain ⟨flag, near, mode⟩ := managed
    by_cases room : s.i < 10
    · obtain ⟨SSID, -, run⟩ := readMode_managed flag near mode (held.named flag) room
      apply sound_of_ok (.mode, p) run fun _ _ _ => room
      constructor
      case named => intro flag; cases flag
      case room => exact fun _ => room
    · apply sound_of_error (.mode, p) (readMode_full flag near mode (not_lt.mp room))
      exact fun fits => room (fits flag near mode)
  · apply sound_of_ok (.mode, p) (readMode_other managed) _ held
    intro flag near mode
    exact absurd ⟨flag, near, mode⟩ managed

theorem sound_deadline (held : Held s) : Sound other s (.deadline, p) := by
  apply sound_of_ok (.deadline, p) rfl trivial
  rw [giveUp]
  split
  · constructor
    case named => intro flag; cases flag
    case room => rintro (flag | flag) <;> cases flag
  · exact held

theorem sound_level (held : Held s) : Sound other s (.level, p) := by
  by_cases skipped : s.flag = 2 → modeText p LEVEL 0 = none
  · apply sound_of_ok (.level, p) (readLevel_other skipped) _ held
    intro flag text found
    rw [skipped flag] at found
    cases found
  · obtain ⟨flag, some⟩ := Classical.not_imp.mp skipped
    obtain ⟨text, found⟩ := Option.ne_none_iff_exists'.mp some
    have room := held.room (.inl flag)
    by_cases fits : text.length ≤ 20
    · have fits_all : Fits s (.level, p) := by
        intro _ text' found'
        rw [found] at found'
        cases found'
        exact fits
      obtain ⟨value, signal⟩ := atoiOr_ok other (text ++ List.replicate (20 - text.length) 0)
      have run := readLevel_some (f := atoiOr other) flag room found fits
      rw [signal] at run
      apply sound_of_ok (.level, p) run fits_all
      constructor
      case named => intro flag; cases flag
      case room => exact fun _ => room
    · apply sound_of_error (.level, p) (readLevel_long flag found (not_le.mp fits))
      exact fun all => fits (all flag text found)

theorem sound_key (held : Held s) : Sound other s (.key, p) := by
  by_cases skipped : s.flag = 3 → modeText p KEY 10 = none
  · apply sound_of_ok (.key, p) (readKey_other skipped) _ held
    intro flag text found
    rw [skipped flag] at found
    cases found
  · obtain ⟨flag, some⟩ := Classical.not_imp.mp skipped
    obtain ⟨text, found⟩ := Option.ne_none_iff_exists'.mp some
    by_cases fits : text.length ≤ 20
    · apply sound_of_ok (.key, p) (readKey_some flag (held.room (.inr flag)) found fits)
      · intro _ text' found'
        rw [found] at found'
        cases found'
        exact fits
      · constructor
        case named => intro flag; cases flag
        case room => rintro (flag | flag) <;> cases flag
    · apply sound_of_error (.key, p) (readKey_long flag found (not_le.mp fits))
      exact fun all => fits (all flag text found)

theorem sound (string : 0 ∉ action.2) (held : Held s) :
    Sound other s action := by
  obtain ⟨stage, p⟩ := action
  cases stage with
  | name => exact sound_name string held
  | mode => exact sound_mode held
  | deadline => exact sound_deadline held
  | level => exact sound_level held
  | key => exact sound_key held
  | count => exact sound_of_ok _ rfl trivial ⟨held.named, held.room⟩

end Sound

theorem held_start (scan : Vector WiFi_Info 10) (bak : Vector Byte 20) :
    Held (.start scan bak) := by
  constructor
  case named => intro flag; cases flag
  case room => rintro (flag | flag) <;> cases flag

theorem mem_statements {buffer : List Byte} {action : Stage × List Byte}
    (member : action ∈ statements buffer) : 0 ∉ action.2 := by
  obtain ⟨p, token, in_round⟩ := List.mem_flatMap.mp member
  obtain ⟨stage, -, rfl⟩ := List.mem_map.mp in_round
  exact (mem_scanTokens token).2

/-- A run stays inside the arrays, and so comes to its end, exactly when every statement it comes
to fits. -/
theorem GetWiFiStr_inside_iff (other : List Byte → Int) (buffer : List Byte)
    (scan : Vector WiFi_Info 10) (bak : Vector Byte 20) :
    (∃ filled cells, GetWiFiStr (atoiOr other) buffer scan bak = .ok (filled, cells)) ↔
      ∀ s action, Meets (perform (atoiOr other)) (statements buffer) (.start scan bak) s action →
        Fits s action := by
  rw [← returns_iff Held Fits
    (fun s action member held => (sound (mem_statements member) held).1)
    (fun s s' action member held run => (sound (mem_statements member) held).2 s' run)
    (held_start scan bak), ← run_eq]
  constructor
  · rintro ⟨filled, cells, run⟩
    obtain ⟨s, run, -⟩ := bind_eq_ok_iff.mp run
    exact ⟨s, run⟩
  · rintro ⟨s, run⟩
    exact ⟨s.scan, s.i, bind_eq_ok_iff.mpr ⟨s, run, rfl⟩⟩

/-- A name of 20 bytes. -/
theorem GetWiFiStr_not_inside : ¬ ∀ (other : List Byte → Int) (buffer : List Byte)
    (scan : Vector WiFi_Info 10) (bak : Vector Byte 20),
    ∃ filled cells, GetWiFiStr (atoiOr other) buffer scan bak = .ok (filled, cells) := by
  intro inside
  obtain ⟨filled, cells, run⟩ := inside (fun _ => 0) (bytes "eth1 ESSID:\"aaaaaaaaaaaaaaaaaaaa\"")
    (.replicate 10 .zeroed) cleared
  have past : GetWiFiStr (atoiOr fun _ => 0) (bytes "eth1 ESSID:\"aaaaaaaaaaaaaaaaaaaa\"")
      (.replicate 10 .zeroed) cleared = .error .write := by decide +kernel
  rw [past] at run
  cases run

end CFunc.Networks
