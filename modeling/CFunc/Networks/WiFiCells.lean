import CFunc.Networks.WiFiTokens

/-!
What `GetWiFiStr` recovers from a listing of cells.

A cell gives its name, its mode, its signal and its key in this order, with
other tokens around them. A name with a blank falls apart into tokens and is
lost; a name with a mode or a signal inside it is taken for that too.
-/

namespace CFunc.Networks

open CFunc.Lib.CText CFunc.Lib.Folds

/-! ### Listings -/

/-- A token that says nothing about a cell. The empty one is one more blank. -/
structure Plain (token : List Byte) : Prop where
  no_blank : 32 ∉ token
  string : 0 ∉ token
  no_name : ¬ ESSID <:+: token
  no_mode : ¬ MODE <:+: token
  no_level : ¬ LEVEL <:+: token
  no_key : ¬ KEY <:+: token

abbrev Filler := { token : List Byte // Plain token }

/-- Printable bytes other than the double quote. -/
def isName (ssid : List Byte) : Prop :=
  ssid.length ≤ 19 ∧ ∀ c ∈ ssid, 32 ≤ c ∧ c ≤ 126 ∧ c ≠ 34

inductive CellMode where
  | managed
  | other (name : List Byte) (plain : Plain (bytes "Mode:" ++ name))

def CellMode.token : CellMode → List Byte
  | .managed => MODE
  | .other name _ => bytes "Mode:" ++ name

/-- The bytes of fillers. -/
def texts (fillers : List Filler) : List (List Byte) := fillers.map Subtype.val

/-- Those of them that are tokens. -/
def fillerTokens (fillers : List Filler) : List (List Byte) := (texts fillers).filter (· ≠ [])

/-- One cell of a listing, with the fillers before each of its four texts. Its mode is one of
the three tokens after its name. -/
structure Cell where
  before_name : List Filler
  ssid : List Byte
  name : isName ssid
  before_mode : List Filler
  near : (fillerTokens before_mode).length ≤ 2
  mode : CellMode
  before_level : List Filler
  level : Nat
  before_key : List Filler
  locked : Bool

def Cell.nameText (c : Cell) : List Byte := ESSID ++ (c.ssid ++ [34])

def Cell.levelToken (c : Cell) : List Byte := LEVEL ++ decimal c.level

def Cell.keyToken (c : Cell) : List Byte :=
  KEY ++ ((if c.locked then bytes "on" else bytes "off") ++ [10])

def Cell.pieces (c : Cell) : List (List Byte) :=
  texts c.before_name ++ c.nameText :: (texts c.before_mode ++ c.mode.token ::
    (texts c.before_level ++ c.levelToken :: (texts c.before_key ++ [c.keyToken])))

/-- A scan listing. -/
structure ScanListing where
  first : List Byte
  leads : first ≠ [] ∧ 32 ∉ first ∧ 0 ∉ first
  cells : List Cell
  few : cells.length ≤ 10
  rest : List Filler

def ScanListing.text (l : ScanListing) : List Byte :=
  [32].intercalate (l.first :: (l.cells.flatMap Cell.pieces ++ texts l.rest))

/-! ### What is to be recovered -/

def classOf (n : Nat) : CInt :=
  if n < 40 then 4 else if n < 60 then 3 else if n < 80 then 2 else if n < 100 then 1 else 0

def Cell.password (c : Cell) : CInt := if c.locked then 1 else 0

/-- The record of a cell, if it is managed. -/
def Cell.expected (c : Cell) : List Record :=
  match c.mode with
  | .managed => [{ ssid := c.ssid, signal := classOf c.level, password := c.password }]
  | .other _ _ => []

/-- The records of all managed cells, in order. -/
def ScanListing.expected (l : ScanListing) : List Record := l.cells.flatMap Cell.expected

/-- `GetWiFiStr` returns the number of managed cells and fills the array with their records. -/
def ScanListing.Recovered (l : ScanListing) (scan : Vector WiFi_Info 10) (bak : Vector Byte 20) :
    Prop :=
  ∃ filled, GetWiFiStr atoi l.text scan bak = .ok (filled, l.expected.length) ∧
    (filled.toList.take l.expected.length).map record = l.expected

/-- The name of a managed cell has no blank, its signal is an `int`, and below 40 when the name
contains the texts of a mode and of a signal; that of another cell has a blank or does not
contain the text of a mode. -/
def Cell.Recoverable (c : Cell) : Prop :=
  match c.mode with
  | .managed => 32 ∉ c.ssid ∧ (c.level : Int) ≤ INT_MAX ∧
      (MODE <:+: c.ssid → LEVEL <:+: c.ssid → c.level < 40)
  | .other _ _ => 32 ∈ c.ssid ∨ ¬ MODE <:+: c.ssid

/-! ### The tokens of a cell -/

/-- The tokens of a cell up to its name. -/
def Cell.nameTokens (c : Cell) : List (List Byte) :=
  fillerTokens c.before_name ++ tokens 32 c.nameText

/-- The tokens of a cell from its name to its mode. -/
def Cell.modeTokens (c : Cell) : List (List Byte) :=
  fillerTokens c.before_mode ++ [c.mode.token]

/-- The tokens of a cell after its mode. -/
def Cell.keyTokens (c : Cell) : List (List Byte) :=
  fillerTokens c.before_level ++ c.levelToken :: (fillerTokens c.before_key ++ [c.keyToken])

def Cell.allTokens (c : Cell) : List (List Byte) :=
  c.nameTokens ++ (c.modeTokens ++ c.keyTokens)

/-- A token that neither names a cell nor gives the key of one. -/
structure Silent (token : List Byte) : Prop where
  some_byte : token ≠ []
  no_name : ¬ ESSID <:+: token
  no_key : ¬ KEY <:+: token

section Tokens

variable {c : Cell} {b : Byte} {token : List Byte} {fillers : List Filler}

theorem mem_texts (member : token ∈ texts fillers) : Plain token := by
  obtain ⟨filler, -, rfl⟩ := List.mem_map.mp member
  exact filler.2

theorem mem_fillerTokens (member : token ∈ fillerTokens fillers) : token ≠ [] ∧ Plain token := by
  obtain ⟨text, not_empty⟩ := List.mem_filter.mp member
  exact ⟨of_decide_eq_true not_empty, mem_texts text⟩

theorem silent_fillers (member : token ∈ fillerTokens fillers) : Silent token := by
  obtain ⟨some_byte, plain⟩ := mem_fillerTokens member
  exact ⟨some_byte, plain.no_name, plain.no_key⟩

theorem CellMode.silent (mode : CellMode) : Silent mode.token := by
  cases mode with
  | managed => exact ⟨by decide, by decide, by decide⟩
  | other name plain => exact ⟨List.append_ne_nil_of_left_ne_nil (by decide) _, plain.no_name,
      plain.no_key⟩

theorem CellMode.no_level (mode : CellMode) : ¬ LEVEL <:+: mode.token := by
  cases mode with
  | managed => decide
  | other name plain => exact plain.no_level

theorem CellMode.not_mem (mode : CellMode) : 32 ∉ mode.token ∧ 0 ∉ mode.token := by
  cases mode with
  | managed => decide
  | other name plain => exact ⟨plain.no_blank, plain.string⟩

theorem not_mem_levelToken (c : Cell) (not_level : b ∉ LEVEL) (not_digit : isdigit b = false) :
    b ∉ c.levelToken := by
  rw [Cell.levelToken, List.mem_append, not_or]
  refine ⟨not_level, fun member => ?_⟩
  rw [isdigit_of_mem_decimal member] at not_digit
  cases not_digit

/-- A needle with a byte that a token lacks does not stand in it. -/
theorem not_infix_of_not_mem {needle : List Byte} (member : b ∈ needle) (absent : b ∉ token) :
    ¬ needle <:+: token := fun inside => absent (inside.subset member)

theorem Cell.level_silent (c : Cell) : Silent c.levelToken ∧ ¬ MODE <:+: c.levelToken := by
  refine ⟨⟨List.append_ne_nil_of_left_ne_nil (by decide) _, ?_, ?_⟩, ?_⟩
  · exact not_infix_of_not_mem (b := 69) (by decide) (not_mem_levelToken c (by decide) rfl)
  · exact not_infix_of_not_mem (b := 107) (by decide) (not_mem_levelToken c (by decide) rfl)
  · exact not_infix_of_not_mem (b := 77) (by decide) (not_mem_levelToken c (by decide) rfl)

theorem Cell.key_silent (c : Cell) :
    c.keyToken ≠ [] ∧ ¬ ESSID <:+: c.keyToken ∧ ¬ MODE <:+: c.keyToken := by
  rw [Cell.keyToken]
  cases c.locked <;> decide

theorem Cell.key_text (c : Cell) : ∃ text, modeText c.keyToken KEY 10 = some text ∧
    text.length ≤ 20 ∧ ∀ entry, (keyed c.keyToken entry).password = c.password := by
  rw [Cell.keyToken, Cell.password]
  cases c.locked with
  | true => exact ⟨bytes "on", by decide, by decide, fun _ => rfl⟩
  | false => exact ⟨bytes "off", by decide, by decide, fun _ => rfl⟩

theorem Cell.not_mem_ssid (c : Cell) (outside : ¬ (32 ≤ b ∧ b ≤ 126 ∧ b ≠ 34)) : b ∉ c.ssid :=
  fun member => outside (c.name.2 b member)

/-! ### The text of a listing -/

theorem tokens_texts (fillers : List Filler) :
    (texts fillers).flatMap (tokens 32) = fillerTokens fillers := by
  induction fillers with
  | nil => rfl
  | cons filler fillers ih =>
      have head : tokens 32 filler.1 = if filler.1 = [] then [] else [filler.1] :=
        tokens_of_not_mem filler.2.no_blank
      calc (texts (filler :: fillers)).flatMap (tokens 32)
        _ = tokens 32 filler.1 ++ (texts fillers).flatMap (tokens 32) := rfl
        _ = (filler.1 :: texts fillers).filter (· ≠ []) := by
            rw [head, ih, fillerTokens, List.filter_cons]
            by_cases empty : filler.1 = [] <;> simp [empty]
        _ = fillerTokens (filler :: fillers) := rfl

theorem tokens_token (some_byte : token ≠ []) (no_blank : 32 ∉ token) :
    tokens 32 token = [token] := by
  rw [tokens_of_not_mem no_blank, if_neg some_byte]

theorem Cell.not_mem_key (c : Cell) : 32 ∉ c.keyToken ∧ 0 ∉ c.keyToken := by
  rw [Cell.keyToken]
  cases c.locked <;> decide

theorem Cell.tokens_pieces (c : Cell) : c.pieces.flatMap (tokens 32) = c.allTokens := by
  have mode := tokens_token c.mode.silent.some_byte c.mode.not_mem.1
  have level := tokens_token c.level_silent.1.some_byte
    (not_mem_levelToken c (by decide) (by decide))
  have key := tokens_token c.key_silent.1 c.not_mem_key.1
  simp only [Cell.pieces, Cell.allTokens, Cell.nameTokens, Cell.modeTokens, Cell.keyTokens,
    List.flatMap_append, List.flatMap_cons, List.flatMap_nil, tokens_texts, mode, level, key,
    List.append_assoc, List.singleton_append, List.append_nil]

theorem Cell.pieces_string {piece : List Byte} (member : piece ∈ c.pieces) : 0 ∉ piece := by
  simp only [Cell.pieces, List.mem_append, List.mem_cons, List.not_mem_nil, or_false] at member
  rcases member with filler | rfl | filler | rfl | filler | rfl | filler | rfl
  · exact (mem_texts filler).string
  · rw [Cell.nameText, List.mem_append, List.mem_append, not_or, not_or]
    exact ⟨by decide, c.not_mem_ssid (by decide), by decide⟩
  · exact (mem_texts filler).string
  · exact c.mode.not_mem.2
  · exact (mem_texts filler).string
  · exact not_mem_levelToken c (by decide) rfl
  · exact (mem_texts filler).string
  · exact c.not_mem_key.2

theorem ScanListing.string (l : ScanListing) : 0 ∉ l.text := by
  apply not_mem_intercalate (by decide)
  intro piece member
  simp only [List.mem_cons, List.mem_append, List.mem_flatMap] at member
  rcases member with rfl | ⟨c, -, of_cell⟩ | filler
  · exact l.leads.2.2
  · exact c.pieces_string of_cell
  · exact (mem_texts filler).string

/-- The loop goes through the tokens of the cells. -/
theorem ScanListing.scanTokens_eq (l : ScanListing) :
    scanTokens l.text = l.cells.flatMap Cell.allTokens ++ fillerTokens l.rest := by
  have whole : l.text.takeWhile (· ≠ 0) = l.text := by
    rw [List.takeWhile_eq_self_iff]
    intro c member
    simpa using ne_of_mem_of_not_mem member l.string
  rw [scanTokens, whole, ScanListing.text, tokens_intercalate, List.flatMap_cons,
    tokens_token l.leads.1 l.leads.2.1, List.singleton_append, List.tail_cons,
    List.flatMap_append, tokens_texts, List.flatMap_assoc]
  simp only [Cell.tokens_pieces]

end Tokens

/-! ### The tokens of a name -/

section Names

variable {c : Cell} {token : List Byte}

theorem Cell.name_text (c : Cell) : modeText c.nameText ESSID 34 = some c.ssid :=
  modeText_append (by decide) (by decide) (c.not_mem_ssid (by decide))

theorem Cell.nameText_ne_nil (c : Cell) : c.nameText ≠ [] :=
  List.append_ne_nil_of_left_ne_nil (by decide) _

theorem Cell.short (c : Cell) : c.ssid.length < 20 := Nat.lt_succ_of_le c.name.1

/-- A name without a blank is one token. -/
theorem Cell.name_token (whole : 32 ∉ c.ssid) : tokens 32 c.nameText = [c.nameText] := by
  apply tokens_token c.nameText_ne_nil
  rw [Cell.nameText, List.mem_append, List.mem_append, not_or, not_or]
  exact ⟨by decide, whole, by decide⟩

/-- The tokens of a name with a blank have one quote each. -/
theorem Cell.split_tokens (split : 32 ∈ c.ssid) (member : token ∈ tokens 32 c.nameText) :
    modeText token ESSID 34 = none := by
  obtain ⟨left, right, ssid_eq⟩ := List.append_of_mem split
  have no_quote : 34 ∉ left ∧ 34 ∉ right := by
    have absent : 34 ∉ c.ssid := c.not_mem_ssid (by decide)
    rw [ssid_eq, List.mem_append, List.mem_cons, not_or, not_or] at absent
    exact ⟨absent.1, absent.2.2⟩
  have halves : c.nameText = (ESSID ++ left) ++ 32 :: (right ++ [34]) := by
    simp [Cell.nameText, ssid_eq]
  rw [halves, tokens_append_cons, List.mem_append] at member
  have one {half : List Byte} (token_of : token ∈ tokens 32 half) (count : half.count 34 = 1) :
      token.count 34 ≤ 1 := by
    rw [← count]
    exact (infix_of_mem_tokens token_of).sublist.count_le 34
  apply modeText_none_of_count
  rcases member with in_left | in_right
  · apply one in_left
    rw [List.count_append, List.count_eq_zero.mpr no_quote.1]
    decide
  · apply one in_right
    rw [List.count_append, List.count_eq_zero.mpr no_quote.2]
    decide

/-- In the token of a name, a mode or a signal stands in the name. -/
theorem Cell.infix_ssid {x : Byte} {xs : List Byte} (no_x : x ∉ ESSID) (no_quote : 34 ∉ x :: xs)
    (inside : x :: xs <:+: c.nameText) : x :: xs <:+: c.ssid :=
  infix_of_infix_concat no_quote (List.cons_ne_nil x xs) (infix_of_infix_append no_x inside)

theorem Cell.mode_nameText (c : Cell) : MODE <:+: c.nameText ↔ MODE <:+: c.ssid := by
  constructor
  · exact c.infix_ssid (x := 77) (by decide) (by decide)
  · exact fun inside => (inside.trans (List.prefix_append _ _).isInfix).trans
      (List.suffix_append _ _).isInfix

theorem Cell.level_nameText (no_level : ¬ LEVEL <:+: c.ssid) :
    modeText c.nameText LEVEL 0 = none :=
  modeText_none fun inside => no_level (c.infix_ssid (x := 108) (by decide) (by decide) inside)

theorem Cell.key_nameText (c : Cell) : modeText c.nameText KEY 10 = none := by
  apply modeText_none_of_not_mem _ (by decide)
  rw [Cell.nameText, List.mem_append, List.mem_append, not_or, not_or]
  exact ⟨by decide, c.not_mem_ssid (by decide), by decide⟩

/-- There is no room for more around two needles of 19 bytes. -/
theorem eq_of_full {ssid left first middle second right : List Byte} (short : ssid.length ≤ 19)
    (ssid_eq : ssid = left ++ (first ++ (middle ++ (second ++ right))))
    (full : 19 ≤ first.length + second.length) : ssid = first ++ second := by
  have lengths := congrArg List.length ssid_eq
  simp only [List.length_append] at lengths
  obtain rfl : left = [] := List.length_eq_zero_iff.mp (by omega)
  obtain rfl : middle = [] := List.length_eq_zero_iff.mp (by omega)
  obtain rfl : right = [] := List.length_eq_zero_iff.mp (by omega)
  rw [ssid_eq, List.nil_append, List.nil_append, List.append_nil]

/-- Two names contain both texts. -/
theorem Cell.both_texts (c : Cell) (mode : MODE <:+: c.ssid) (level : LEVEL <:+: c.ssid) :
    c.ssid = MODE ++ LEVEL ∨ c.ssid = LEVEL ++ MODE := by
  obtain ⟨left, middle, right, order | order⟩ := infix_disjoint (x := 77) (y := 108) mode level
    (by decide) (by decide)
  · exact .inl (eq_of_full c.name.1 order (by decide))
  · exact .inr (eq_of_full c.name.1 order (by decide))

/-- What such a name has in the place of a signal counts as 0. -/
theorem Cell.signal_text (c : Cell) (mode : MODE <:+: c.ssid) (level : LEVEL <:+: c.ssid) :
    ∃ text, modeText c.nameText LEVEL 0 = some text ∧ text.length ≤ 20 ∧
      atoi (text ++ List.replicate (20 - text.length) 0) = .ok 0 := by
  rw [Cell.nameText]
  rcases c.both_texts mode level with ssid_eq | ssid_eq
  · rw [ssid_eq]
    exact ⟨[34], by decide, by decide, by decide⟩
  · rw [ssid_eq]
    exact ⟨MODE ++ [34], by decide, by decide, by decide⟩

end Names

/-! ### A run over one cell -/

section Runs

variable {c : Cell} {rs : List Record} {ssid : List Byte} {signal : CInt} {k : Nat}
  {items : List (List Byte)} {fillers : List Filler}

theorem passed_items (silent : ∀ p ∈ items, p ≠ [] ∧ ¬ ESSID <:+: p ∧ ¬ MODE <:+: p) :
    Leads (scanToken atoi) items (Passed rs k) (Passed rs (k + items.length)) := by
  induction items generalizing k with
  | nil => exact .nil
  | cons p items ih =>
      obtain ⟨some_byte, no_name, no_mode⟩ := silent p List.mem_cons_self
      apply Leads.cons (passed_leads some_byte (modeText_none no_name) no_mode)
      rw [List.length_cons, Nat.add_comm items.length, ← Nat.add_assoc]
      exact ih fun q member => silent q (List.mem_cons_of_mem p member)

theorem named_items (silent : ∀ p ∈ items, p ≠ [] ∧ ¬ ESSID <:+: p ∧ ¬ MODE <:+: p)
    (young : k + items.length ≤ 3) :
    Leads (scanToken atoi) items (Named rs ssid k) (Named rs ssid (k + items.length)) := by
  induction items generalizing k with
  | nil => exact .nil
  | cons p items ih =>
      obtain ⟨some_byte, no_name, no_mode⟩ := silent p List.mem_cons_self
      rw [List.length_cons] at young ⊢
      apply Leads.cons (named_leads some_byte (modeText_none no_name) no_mode (by omega))
      rw [Nat.add_comm items.length, ← Nat.add_assoc]
      exact ih (fun q member => silent q (List.mem_cons_of_mem p member)) (by omega)

theorem seeking_fillers (fillers : List Filler) :
    Leads (scanToken atoi) (fillerTokens fillers) (Seeking rs) (Seeking rs) := by
  apply Leads.all
  intro p member
  have silent := silent_fillers member
  exact seeking_leads silent.some_byte (modeText_none silent.no_name)

theorem managed_fillers (fillers : List Filler) :
    Leads (scanToken atoi) (fillerTokens fillers) (Managed rs ssid) (Managed rs ssid) := by
  apply Leads.all
  intro p member
  have silent := silent_fillers member
  exact managed_leads silent.some_byte (modeText_none silent.no_name)
    (modeText_none (mem_fillerTokens member).2.no_level)

theorem measured_silent (silent : ∀ p ∈ items, Silent p) :
    Leads (scanToken atoi) items (Measured rs ssid signal) (Measured rs ssid signal) := by
  apply Leads.all
  intro p member
  exact measured_leads (silent p member).some_byte (modeText_none (silent p member).no_name)
    (modeText_none (silent p member).no_key)

theorem fillers_silent {p : List Byte} (member : p ∈ fillerTokens fillers) :
    p ≠ [] ∧ ¬ ESSID <:+: p ∧ ¬ MODE <:+: p := by
  obtain ⟨some_byte, plain⟩ := mem_fillerTokens member
  exact ⟨some_byte, plain.no_name, plain.no_mode⟩

/-- No token of a cell after its name gives a name. -/
theorem Cell.no_name {p : List Byte} (member : p ∈ c.modeTokens ++ c.keyTokens) :
    p ≠ [] ∧ ¬ ESSID <:+: p := by
  simp only [Cell.modeTokens, Cell.keyTokens, List.mem_append, List.mem_cons, List.not_mem_nil,
    or_false] at member
  rcases member with (filler | rfl) | filler | rfl | filler | rfl
  · exact ⟨(silent_fillers filler).some_byte, (silent_fillers filler).no_name⟩
  · exact ⟨c.mode.silent.some_byte, c.mode.silent.no_name⟩
  · exact ⟨(silent_fillers filler).some_byte, (silent_fillers filler).no_name⟩
  · exact ⟨c.level_silent.1.some_byte, c.level_silent.1.no_name⟩
  · exact ⟨(silent_fillers filler).some_byte, (silent_fillers filler).no_name⟩
  · exact ⟨c.key_silent.1, c.key_silent.2.1⟩

/-- Only the mode of a managed cell says so. -/
theorem Cell.no_mode {p : List Byte} (other : ¬ MODE <:+: c.mode.token)
    (member : p ∈ c.modeTokens ++ c.keyTokens) : ¬ MODE <:+: p := by
  simp only [Cell.modeTokens, Cell.keyTokens, List.mem_append, List.mem_cons, List.not_mem_nil,
    or_false] at member
  rcases member with (filler | rfl) | filler | rfl | filler | rfl
  · exact (fillers_silent filler).2.2
  · exact other
  · exact (fillers_silent filler).2.2
  · exact c.level_silent.2
  · exact (fillers_silent filler).2.2
  · exact c.key_silent.2.2

/-- A name with a blank is lost, and its cell with it. -/
theorem Cell.lost (split : 32 ∈ c.ssid) :
    Leads (scanToken atoi) c.allTokens (Seeking rs) (Seeking rs) := by
  rw [Cell.allTokens, Cell.nameTokens, List.append_assoc]
  apply (seeking_fillers c.before_name).append
  apply Leads.all
  intro p member
  rcases List.mem_append.mp member with of_name | later
  · have some_byte := of_decide_eq_true (List.mem_filter.mp of_name).2
    exact seeking_leads some_byte (c.split_tokens split of_name)
  · obtain ⟨some_byte, no_name⟩ := c.no_name later
    exact seeking_leads some_byte (modeText_none no_name)

theorem Cell.becomes_named (whole : 32 ∉ c.ssid) (no_mode : ¬ MODE <:+: c.ssid) :
    Leads (scanToken atoi) c.nameTokens (Seeking rs) (Named rs c.ssid 1) := by
  apply (seeking_fillers c.before_name).append
  rw [c.name_token whole]
  exact name_leads c.nameText_ne_nil c.name_text (c.not_mem_ssid (by decide)) c.short
    (mt c.mode_nameText.mp no_mode)

/-- A cell of another mode whose name contains no mode is passed over. -/
theorem Cell.passed_over (whole : 32 ∉ c.ssid) (no_mode : ¬ MODE <:+: c.ssid)
    (other : ¬ MODE <:+: c.mode.token) :
    Leads (scanToken atoi) c.allTokens (Seeking rs) (Seeking rs) := by
  have silent (p : List Byte) (member : p ∈ c.modeTokens ++ c.keyTokens) :
      p ≠ [] ∧ ¬ ESSID <:+: p ∧ ¬ MODE <:+: p :=
    ⟨(c.no_name member).1, (c.no_name member).2, c.no_mode other member⟩
  have three : 3 ≤ (c.modeTokens ++ c.keyTokens).length := by
    simp only [Cell.modeTokens, Cell.keyTokens, List.length_append, List.length_cons,
      List.length_nil]
    omega
  have passed :
      Leads (scanToken atoi) (c.modeTokens ++ c.keyTokens) (Named rs c.ssid 1) (Seeking rs) := by
    apply (passed_items silent).mono
    · exact fun s named => ⟨named.filled, .inr ⟨named.flag, named.age.ge⟩⟩
    · exact fun s passed => ⟨passed.filled, passed.flag.imp id fun late => ⟨late.1, by omega⟩⟩
  exact (c.becomes_named whole no_mode).append passed

/-- A cell that is managed is known to be so after its mode. -/
theorem Cell.becomes_managed (whole : 32 ∉ c.ssid) (no_mode : ¬ MODE <:+: c.ssid)
    (managed : MODE <:+: c.mode.token) (room : rs.length < 10) :
    Leads (scanToken atoi) (c.nameTokens ++ c.modeTokens) (Seeking rs) (Managed rs c.ssid) := by
  have young : 1 + (fillerTokens c.before_mode).length ≤ 3 := Nat.add_le_add_left c.near 1
  apply (c.becomes_named whole no_mode).append
  apply (named_items (fun p member => fillers_silent member) young).append
  exact named_managed_leads c.mode.silent.some_byte (modeText_none c.mode.silent.no_name) managed
    (modeText_none c.mode.no_level) c.short room young

/-- One whose name contains a mode is taken for managed at once. -/
theorem Cell.taken_for_managed (whole : 32 ∉ c.ssid) (mode : MODE <:+: c.ssid)
    (no_level : ¬ LEVEL <:+: c.ssid) (room : rs.length < 10) :
    Leads (scanToken atoi) (c.nameTokens ++ c.modeTokens) (Seeking rs) (Managed rs c.ssid) := by
  have name : Leads (scanToken atoi) c.nameTokens (Seeking rs) (Managed rs c.ssid) := by
    apply (seeking_fillers c.before_name).append
    rw [c.name_token whole]
    exact name_managed_leads c.nameText_ne_nil c.name_text (c.not_mem_ssid (by decide)) c.short
      (c.mode_nameText.mpr mode) (c.level_nameText no_level) room
  apply name.append
  apply (managed_fillers c.before_mode).append
  exact managed_leads c.mode.silent.some_byte (modeText_none c.mode.silent.no_name)
    (modeText_none c.mode.no_level)

/-- With a signal in the name too, its own signal is not read. -/
theorem Cell.taken_for_measured (whole : 32 ∉ c.ssid) (mode : MODE <:+: c.ssid)
    (level : LEVEL <:+: c.ssid) (room : rs.length < 10) :
    Leads (scanToken atoi) (c.nameTokens ++ c.modeTokens) (Seeking rs) (Measured rs c.ssid 4) := by
  obtain ⟨text, found, fits, number⟩ := c.signal_text mode level
  have name : Leads (scanToken atoi) c.nameTokens (Seeking rs) (Measured rs c.ssid 4) := by
    apply (seeking_fillers c.before_name).append
    rw [c.name_token whole]
    exact name_measured_leads c.nameText_ne_nil c.name_text (c.not_mem_ssid (by decide)) c.short
      (c.mode_nameText.mpr mode) found fits number c.key_nameText room
  apply name.append
  apply measured_silent
  intro p member
  rcases List.mem_append.mp member with filler | of_mode
  · exact silent_fillers filler
  · rw [List.mem_singleton.mp of_mode]
    exact c.mode.silent

/-- After its mode a cell is known to be managed if its name or its mode says so. -/
theorem Cell.mode_read (whole : 32 ∉ c.ssid) (seen : MODE <:+: c.ssid ∨ MODE <:+: c.mode.token)
    (not_both : ¬ (MODE <:+: c.ssid ∧ LEVEL <:+: c.ssid)) (room : rs.length < 10) :
    Leads (scanToken atoi) (c.nameTokens ++ c.modeTokens) (Seeking rs) (Managed rs c.ssid) := by
  by_cases mode : MODE <:+: c.ssid
  · exact c.taken_for_managed whole mode (fun level => not_both ⟨mode, level⟩) room
  · exact c.becomes_managed whole mode (seen.resolve_left mode) room

/-- The key after a signal. -/
theorem Cell.key_completes (c : Cell) :
    Leads (scanToken atoi) (fillerTokens c.before_key ++ [c.keyToken]) (Measured rs ssid signal)
      (Seeking (rs ++ [{ ssid := ssid, signal := signal, password := c.password }])) := by
  obtain ⟨text, found, fits, key⟩ := c.key_text
  apply (measured_silent fun p => silent_fillers).append
  exact key_leads c.key_silent.1 (modeText_none c.key_silent.2.1) found fits key

theorem Cell.level_text (c : Cell) : modeText c.levelToken LEVEL 0 = some (decimal c.level) :=
  modeText_append_nul (by decide)

/-- The record of a managed cell. -/
theorem Cell.level_completes (range : (c.level : Int) ≤ INT_MAX) :
    Leads (scanToken atoi) c.keyTokens (Managed rs ssid)
      (Seeking (rs ++
        [{ ssid := ssid, signal := signalClass c.level, password := c.password }])) := by
  have short : (decimal c.level).length ≤ 10 := by
    apply length_decimal_le _ (by decide)
    rw [INT_MAX] at range
    omega
  have number : atoi (decimal c.level ++ List.replicate (20 - (decimal c.level).length) 0) =
      .ok c.level := by
    obtain ⟨more, more_eq⟩ : ∃ more, 20 - (decimal c.level).length = more + 1 :=
      Nat.exists_eq_add_one.mpr (by omega)
    rw [more_eq, List.replicate_succ, atoi_decimal, toInt, if_pos ⟨by rw [INT_MIN]; omega, range⟩]
  apply (managed_fillers c.before_level).append
  apply Leads.cons _ c.key_completes
  exact managed_measured_leads c.level_silent.1.some_byte (modeText_none c.level_silent.1.no_name)
    c.level_text (by omega) number (modeText_none c.level_silent.1.no_key)

/-- A signal that is no `int` has no meaning. -/
theorem Cell.level_breaks (range : INT_MAX < c.level) :
    Breaks (scanToken atoi) c.keyTokens (Managed rs ssid) := by
  apply (managed_fillers c.before_level).breaks
  apply Breaks.cons
  apply managed_breaks c.level_silent.1.some_byte (modeText_none c.level_silent.1.no_name)
    c.level_text
  intro fits
  rcases fits.eq_or_lt with full | short
  · refine ⟨.read, ?_⟩
    rw [full, Nat.sub_self, List.replicate_zero, List.append_nil]
    exact atoi_unstopped (decimal_ne_nil _) fun d => isdigit_of_mem_decimal
  · refine ⟨.range, ?_⟩
    obtain ⟨more, more_eq⟩ := Nat.exists_eq_add_one.mpr (Nat.sub_pos_of_lt short)
    rw [more_eq, List.replicate_succ, atoi_decimal, toInt,
      if_neg fun both => not_le.mpr range both.2]

/-- The record of a cell whose signal was taken from its name. -/
theorem Cell.skipped_completes (c : Cell) :
    Leads (scanToken atoi) c.keyTokens (Measured rs ssid signal)
      (Seeking (rs ++ [{ ssid := ssid, signal := signal, password := c.password }])) := by
  apply (measured_silent fun p => silent_fillers).append
  apply Leads.cons _ c.key_completes
  exact measured_leads c.level_silent.1.some_byte
    (modeText_none c.level_silent.1.no_name) (modeText_none c.level_silent.1.no_key)

end Runs

/-! ### Runs over listings -/

/-- What the run over a cell records, unless it fails. -/
def Cell.recovered (c : Cell) : Option (List Record) :=
  if c.ssid.contains 32 ∨ ¬ (MODE <:+: c.ssid ∨ MODE <:+: c.mode.token) then some []
  else if MODE <:+: c.ssid ∧ LEVEL <:+: c.ssid then
    some [{ ssid := c.ssid, signal := 4, password := c.password }]
  else if (c.level : Int) ≤ INT_MAX then
    some [{ ssid := c.ssid, signal := signalClass c.level, password := c.password }]
  else none

def recoveredAll : List Cell → Option (List Record)
  | [] => some []
  | c :: cells =>
      match c.recovered, recoveredAll cells with
      | some new, some later => some (new ++ later)
      | _, _ => none

section Listings

variable {c : Cell} {cells : List Cell} {rs new : List Record}

theorem Cell.recovered_leads (recovered : c.recovered = some new) (room : rs.length < 10) :
    Leads (scanToken atoi) c.allTokens (Seeking rs) (Seeking (rs ++ new)) := by
  rw [Cell.recovered] at recovered
  split at recovered
  · next lost =>
      cases recovered
      rw [List.contains_iff_mem] at lost
      rw [List.append_nil]
      by_cases split : 32 ∈ c.ssid
      · exact c.lost split
      · obtain ⟨no_mode, other⟩ := not_or.mp (lost.resolve_left split)
        exact c.passed_over split no_mode other
  · next kept =>
      rw [List.contains_iff_mem] at kept
      obtain ⟨whole, seen⟩ := not_or.mp kept
      rw [Cell.allTokens, ← List.append_assoc]
      split at recovered
      · next both =>
          cases recovered
          exact (c.taken_for_measured whole both.1 both.2 room).append c.skipped_completes
      · next not_both =>
          split at recovered
          · next range =>
              cases recovered
              exact (c.mode_read whole (not_not.mp seen) not_both room).append
                (c.level_completes range)
          · cases recovered

theorem Cell.recovered_breaks (fails : c.recovered = none) (room : rs.length < 10) :
    Breaks (scanToken atoi) c.allTokens (Seeking rs) := by
  rw [Cell.recovered] at fails
  split at fails
  · cases fails
  · next kept =>
      rw [List.contains_iff_mem] at kept
      obtain ⟨whole, seen⟩ := not_or.mp kept
      split at fails
      · cases fails
      · next not_both =>
          split at fails
          · cases fails
          · next range =>
              rw [Cell.allTokens, ← List.append_assoc]
              exact (c.mode_read whole (not_not.mp seen) not_both room).breaks
                (c.level_breaks (not_le.mp range))

theorem Cell.length_recovered (recovered : c.recovered = some new) : new.length ≤ 1 := by
  rw [Cell.recovered] at recovered
  split at recovered
  · cases recovered
    exact Nat.zero_le 1
  · split at recovered
    · cases recovered
      exact le_rfl
    · split at recovered
      · cases recovered
        exact le_rfl
      · cases recovered

theorem cells_leads (recovered : recoveredAll cells = some new)
    (room : rs.length + cells.length ≤ 10) :
    Leads (scanToken atoi) (cells.flatMap Cell.allTokens) (Seeking rs) (Seeking (rs ++ new)) := by
  induction cells generalizing rs new with
  | nil =>
      cases recovered
      rw [List.append_nil]
      exact .nil
  | cons c cells ih =>
      rw [List.length_cons] at room
      cases first : c.recovered with
      | none => simp [recoveredAll, first] at recovered
      | some one =>
          cases rest : recoveredAll cells with
          | none => simp [recoveredAll, first, rest] at recovered
          | some later =>
              obtain rfl : one ++ later = new := by
                simpa [recoveredAll, first, rest] using recovered
              have short := c.length_recovered first
              rw [List.flatMap_cons, ← List.append_assoc]
              apply (c.recovered_leads first (by omega)).append
              exact ih rest (by rw [List.length_append]; omega)

theorem cells_break (fails : recoveredAll cells = none) (room : rs.length + cells.length ≤ 10) :
    Breaks (scanToken atoi) (cells.flatMap Cell.allTokens) (Seeking rs) := by
  induction cells generalizing rs with
  | nil => cases fails
  | cons c cells ih =>
      rw [List.length_cons] at room
      rw [List.flatMap_cons]
      cases first : c.recovered with
      | none => exact (c.recovered_breaks first (by omega)).append
      | some one =>
          have short := c.length_recovered first
          apply (c.recovered_leads first (by omega)).breaks
          apply ih
          · cases rest : recoveredAll cells with
            | none => rfl
            | some later => simp [recoveredAll, first, rest] at fails
          · rw [List.length_append]
            omega

theorem seeking_start (scan : Vector WiFi_Info 10) (bak : Vector Byte 20) :
    Seeking [] (.start scan bak) := ⟨⟨rfl, rfl⟩, .inl rfl⟩

/-- The run over a listing gives what its cells give one after the other. -/
theorem GetWiFiStr_listing {l : ScanListing} (recovered : recoveredAll l.cells = some new)
    (scan : Vector WiFi_Info 10) (bak : Vector Byte 20) :
    ∃ filled, GetWiFiStr atoi l.text scan bak = .ok (filled, new.length) ∧
      (filled.toList.take new.length).map record = new := by
  have few : ([] : List Record).length + l.cells.length ≤ 10 := by simpa using l.few
  obtain ⟨s, run, seeking⟩ := ((cells_leads recovered few).append (seeking_fillers l.rest))
    (.start scan bak) (seeking_start scan bak)
  have count := seeking.filled.count
  have records := seeking.filled.records
  rw [List.nil_append] at count records
  refine ⟨s.scan, ?_, by rw [← count, records]⟩
  rw [GetWiFiStr, l.scanTokens_eq, run, ← count]
  rfl

theorem GetWiFiStr_listing_fails {l : ScanListing} (fails : recoveredAll l.cells = none)
    (scan : Vector WiFi_Info 10) (bak : Vector Byte 20) :
    ∃ fault, GetWiFiStr atoi l.text scan bak = .error fault := by
  have few : ([] : List Record).length + l.cells.length ≤ 10 := by simpa using l.few
  have breaks : Breaks (scanToken atoi) (scanTokens l.text) (Seeking []) := by
    rw [l.scanTokens_eq]
    exact (cells_break fails few).append
  obtain ⟨fault, run⟩ := breaks (.start scan bak) (seeking_start scan bak)
  rw [GetWiFiStr, run]
  exact ⟨fault, rfl⟩

end Listings

/-! ### Which listings are recovered -/

theorem ScanListing.recovered_iff (l : ScanListing) (scan : Vector WiFi_Info 10)
    (bak : Vector Byte 20) :
    l.Recovered scan bak ↔ recoveredAll l.cells = some l.expected := by
  constructor
  · rintro ⟨filled, run, records⟩
    cases recovered : recoveredAll l.cells with
    | none =>
        obtain ⟨fault, fails⟩ := GetWiFiStr_listing_fails recovered scan bak
        rw [fails] at run
        cases run
    | some new =>
        obtain ⟨filled', run', records'⟩ := GetWiFiStr_listing recovered scan bak
        rw [run'] at run
        simp only [Except.ok.injEq, Prod.mk.injEq] at run
        obtain ⟨rfl, length_eq⟩ := run
        rw [← length_eq, records'] at records
        rw [records]
  · intro recovered
    exact GetWiFiStr_listing recovered scan bak

section Expected

variable {c : Cell} {cells : List Cell} {rs new : List Record}

theorem signalClass_eq (n : Nat) : signalClass n = classOf n := by
  simp only [signalClass, classOf]
  split_ifs <;> first | rfl | omega

/-- Signals of the first class. -/
theorem classOf_eq_four_iff (n : Nat) : classOf n = 4 ↔ n < 40 := by
  rw [classOf]
  split_ifs with below <;> simp [below]

theorem Cell.recovered_lost (lost : 32 ∈ c.ssid ∨ ¬ (MODE <:+: c.ssid ∨ MODE <:+: c.mode.token)) :
    c.recovered = some [] := if_pos (lost.imp_left List.contains_iff_mem.mpr)

theorem Cell.not_lost (whole : 32 ∉ c.ssid) (seen : MODE <:+: c.ssid ∨ MODE <:+: c.mode.token) :
    ¬ (c.ssid.contains 32 ∨ ¬ (MODE <:+: c.ssid ∨ MODE <:+: c.mode.token)) := by
  rw [List.contains_iff_mem]
  exact not_or.mpr ⟨whole, not_not.mpr seen⟩

theorem Cell.recovered_both (whole : 32 ∉ c.ssid) (mode : MODE <:+: c.ssid)
    (level : LEVEL <:+: c.ssid) :
    c.recovered = some [{ ssid := c.ssid, signal := 4, password := c.password }] := by
  rw [Cell.recovered, if_neg (c.not_lost whole (.inl mode)), if_pos ⟨mode, level⟩]

theorem Cell.recovered_read (whole : 32 ∉ c.ssid)
    (seen : MODE <:+: c.ssid ∨ MODE <:+: c.mode.token)
    (not_both : ¬ (MODE <:+: c.ssid ∧ LEVEL <:+: c.ssid)) :
    c.recovered = if (c.level : Int) ≤ INT_MAX then
        some [{ ssid := c.ssid, signal := classOf c.level, password := c.password }]
      else none := by
  rw [Cell.recovered, if_neg (c.not_lost whole seen), if_neg not_both, signalClass_eq]

theorem Cell.expected_managed (managed : c.mode = .managed) :
    c.expected = [{ ssid := c.ssid, signal := classOf c.level, password := c.password }] := by
  rw [Cell.expected, managed]

theorem Cell.recovered_managed (managed : c.mode = .managed) :
    c.recovered = some c.expected ↔ c.Recoverable := by
  have told : MODE <:+: c.mode.token := by
    rw [managed]
    exact List.infix_refl MODE
  rw [c.expected_managed managed, Cell.Recoverable, managed]
  by_cases split : 32 ∈ c.ssid
  · rw [c.recovered_lost (.inl split)]
    exact iff_of_false (by simp) fun recoverable => recoverable.1 split
  · by_cases both : MODE <:+: c.ssid ∧ LEVEL <:+: c.ssid
    · rw [c.recovered_both split both.1 both.2]
      have strongest : [Record.mk c.ssid 4 c.password] =
          [Record.mk c.ssid (classOf c.level) c.password] ↔ c.level < 40 := by
        rw [← classOf_eq_four_iff]
        simp [eq_comm]
      rw [Option.some_inj, strongest]
      constructor
      · intro small
        exact ⟨split, by rw [INT_MAX]; omega, fun _ _ => small⟩
      · exact fun recoverable => recoverable.2.2 both.1 both.2
    · rw [c.recovered_read split (.inr told) both]
      by_cases range : (c.level : Int) ≤ INT_MAX
      · rw [if_pos range]
        exact iff_of_true rfl ⟨split, range, fun mode level => absurd ⟨mode, level⟩ both⟩
      · rw [if_neg range]
        exact iff_of_false (by simp) fun recoverable => range recoverable.2.1

theorem Cell.recovered_other {name : List Byte} {plain : Plain (bytes "Mode:" ++ name)}
    (other : c.mode = .other name plain) : c.recovered = some c.expected ↔ c.Recoverable := by
  have untold : ¬ MODE <:+: c.mode.token := by
    rw [other]
    exact plain.no_mode
  have nothing : c.expected = [] := by rw [Cell.expected, other]
  rw [nothing, Cell.Recoverable, other]
  by_cases split : 32 ∈ c.ssid
  · exact iff_of_true (c.recovered_lost (.inl split)) (.inl split)
  · by_cases mode : MODE <:+: c.ssid
    · refine iff_of_false ?_ (not_or.mpr ⟨split, not_not.mpr mode⟩)
      by_cases level : LEVEL <:+: c.ssid
      · rw [c.recovered_both split mode level]
        simp
      · rw [c.recovered_read split (.inl mode) (fun both => level both.2)]
        split_ifs <;> simp
    · refine iff_of_true (c.recovered_lost (.inr ?_)) (.inr mode)
      exact not_or.mpr ⟨mode, untold⟩

theorem Cell.recovered_iff (c : Cell) : c.recovered = some c.expected ↔ c.Recoverable := by
  cases mode : c.mode with
  | managed => exact c.recovered_managed mode
  | other name plain => exact c.recovered_other mode

/-- A run records at least what is expected of a cell that is not lost for its blank. -/
theorem Cell.expected_le (recovered : c.recovered = some new)
    (whole : ∀ r ∈ c.expected, 32 ∉ r.ssid) : c.expected.length ≤ new.length := by
  cases mode : c.mode with
  | other name plain =>
      rw [Cell.expected, mode]
      exact Nat.zero_le _
  | managed =>
      rw [c.expected_managed mode] at whole ⊢
      have whole' : 32 ∉ c.ssid := whole _ (List.mem_singleton_self _)
      have told : MODE <:+: c.mode.token := by
        rw [mode]
        exact List.infix_refl MODE
      by_cases both : MODE <:+: c.ssid ∧ LEVEL <:+: c.ssid
      · rw [c.recovered_both whole' both.1 both.2] at recovered
        cases recovered
        exact le_rfl
      · rw [c.recovered_read whole' (.inr told) both] at recovered
        split at recovered
        · cases recovered
          exact le_rfl
        · cases recovered

theorem Cell.recovered_whole (recovered : c.recovered = some new) {r : Record}
    (member : r ∈ new) : 32 ∉ r.ssid := by
  rw [Cell.recovered] at recovered
  split at recovered
  · cases recovered
    cases member
  · next kept =>
      rw [List.contains_iff_mem] at kept
      have whole := (not_or.mp kept).1
      split at recovered
      · cases recovered
        rwa [List.mem_singleton.mp member]
      · split at recovered
        · cases recovered
          rwa [List.mem_singleton.mp member]
        · cases recovered

theorem recoveredAll_cons (recovered : recoveredAll (c :: cells) = some rs) :
    ∃ new later, c.recovered = some new ∧ recoveredAll cells = some later ∧ rs = new ++ later := by
  rw [recoveredAll] at recovered
  cases first : c.recovered with
  | none => simp [first] at recovered
  | some new =>
      cases rest : recoveredAll cells with
      | none => simp [rest] at recovered
      | some later =>
          rw [first, rest] at recovered
          cases recovered
          exact ⟨new, later, rfl, rfl, rfl⟩

theorem recoveredAll_whole (recovered : recoveredAll cells = some rs) {r : Record}
    (member : r ∈ rs) : 32 ∉ r.ssid := by
  induction cells generalizing rs with
  | nil =>
      cases recovered
      cases member
  | cons c cells ih =>
      obtain ⟨new, later, first, rest, rfl⟩ := recoveredAll_cons recovered
      rcases List.mem_append.mp member with here | there
      · exact c.recovered_whole first here
      · exact ih rest there

/-- With no name lost, all that is expected is recovered only if each cell gives what is
expected of it, as none gives less. -/
theorem recoveredAll_each (recovered : recoveredAll cells = some rs)
    (whole : ∀ c ∈ cells, ∀ r ∈ c.expected, 32 ∉ r.ssid) :
    (cells.flatMap Cell.expected).length ≤ rs.length ∧
      (rs = cells.flatMap Cell.expected → ∀ c ∈ cells, c.recovered = some c.expected) := by
  induction cells generalizing rs with
  | nil => exact ⟨Nat.zero_le _, fun _ c member => nomatch member⟩
  | cons c cells ih =>
      obtain ⟨new, later, first, rest, rfl⟩ := recoveredAll_cons recovered
      have least := c.expected_le first (whole c List.mem_cons_self)
      obtain ⟨least', each⟩ := ih rest fun d member => whole d (List.mem_cons_of_mem c member)
      rw [List.flatMap_cons, List.length_append, List.length_append]
      refine ⟨Nat.add_le_add least least', fun same => ?_⟩
      have lengths := congrArg List.length same
      rw [List.length_append, List.length_append] at lengths
      obtain ⟨rfl, rfl⟩ := List.append_inj same (by omega)
      intro d member
      rcases List.mem_cons.mp member with rfl | later
      · exact first
      · exact each rfl d later

theorem recoveredAll_iff (cells : List Cell) :
    recoveredAll cells = some (cells.flatMap Cell.expected) ↔ ∀ c ∈ cells, c.Recoverable := by
  simp only [← Cell.recovered_iff]
  constructor
  · intro recovered
    apply (recoveredAll_each recovered _).2 rfl
    intro c member r expected
    exact recoveredAll_whole recovered (List.mem_flatMap.mpr ⟨c, member, expected⟩)
  · intro each
    induction cells with
    | nil => rfl
    | cons c cells ih =>
        rw [recoveredAll, each c List.mem_cons_self,
          ih fun d member => each d (List.mem_cons_of_mem c member), List.flatMap_cons]

end Expected

/-- A listing is recovered exactly when each of its cells can be. -/
theorem GetWiFiStr_recovers_iff (l : ScanListing) (scan : Vector WiFi_Info 10)
    (bak : Vector Byte 20) : l.Recovered scan bak ↔ ∀ c ∈ l.cells, c.Recoverable := by
  rw [l.recovered_iff, ScanListing.expected, recoveredAll_iff]

/-- A managed cell with the name `a b`. -/
def blankCell : Cell :=
  { before_name := []
    ssid := bytes "a b"
    name := by unfold isName; decide
    before_mode := []
    near := by decide
    mode := .managed
    before_level := []
    level := 45
    before_key := []
    locked := true }

def blankListing : ScanListing :=
  { first := bytes "eth1"
    leads := by decide
    cells := [blankCell]
    few := by decide
    rest := [] }

theorem blankListing_not_recovered : ¬ ∀ (l : ScanListing) (scan : Vector WiFi_Info 10)
    (bak : Vector Byte 20), l.Recovered scan bak := by
  intro always
  obtain ⟨filled, run, -⟩ := always blankListing (.replicate 10 .zeroed) cleared
  have nothing : GetWiFiStr atoi blankListing.text (.replicate 10 .zeroed) cleared =
      .ok (.replicate 10 .zeroed, 0) := by decide +kernel
  rw [nothing] at run
  cases run

end CFunc.Networks
