import CFunc.Networks.WiFiScan

/-!
What one token does to a run of `GetWiFiStr`.

Between tokens a run is looking for a name, has one (`Named`), knows that its
cell is managed (`Managed`), or has its signal too (`Measured`). Each of these
states carries the records completed so far, which no later token changes.
-/

namespace CFunc.Networks

open CFunc.Lib.CText CFunc.Lib.Folds

/-! ### Texts in a token -/

section Texts

variable {p mode text : List Byte} {interval : Byte}

theorem modeText_none (absent : ¬ mode <:+: p) : modeText p mode interval = none := by
  rw [modeText]
  split
  · rfl
  · rw [strstr_eq_none_iff.mpr absent]

/-- A text has an end. -/
theorem modeText_none_of_not_mem (endless : interval ∉ p) (not_nul : interval ≠ 0) :
    modeText p mode interval = none := by
  cases found : modeText p mode interval with
  | none => rfl
  | some text =>
      obtain ⟨before, rest, rfl, ends⟩ := modeText_spec found
      exact absurd (List.mem_append_right _ (List.mem_of_mem_head? (ends not_nul).1)) endless

/-- Between two quotes there is no name where there is one quote. -/
theorem modeText_none_of_count (one : p.count 34 ≤ 1) : modeText p ESSID 34 = none := by
  cases found : modeText p ESSID 34 with
  | none => rfl
  | some text =>
      obtain ⟨before, rest, rfl, ends⟩ := modeText_spec found
      have closing : 0 < rest.count 34 :=
        List.count_pos_iff.mpr (List.mem_of_mem_head? (ends (by decide)).1)
      have opening : ESSID.count 34 = 1 := by decide
      simp only [List.count_append] at one
      omega

theorem modeText_append {rest : List Byte} (not_empty : mode ≠ []) (not_nul : interval ≠ 0)
    (inside : interval ∉ text) :
    modeText (mode ++ (text ++ interval :: rest)) mode interval = some text := by
  rw [modeText, if_neg (by simp [not_empty]), strstr_append]
  simp only [List.drop_left, if_neg not_nul]
  rw [if_pos (by simp), takeWhile_ne_append inside]

theorem modeText_append_nul (not_empty : mode ≠ []) :
    modeText (mode ++ text) mode 0 = some text := by
  rw [modeText, if_neg (by simp [not_empty]), strstr_append]
  simp only [List.drop_left, if_true]

end Texts

/-! ### Between two tokens -/

/-- A record as its reader takes it. -/
structure Record where
  ssid : List Byte
  signal : CInt
  password : CInt
  deriving DecidableEq

def record (entry : WiFi_Info) : Record :=
  { ssid := cstr entry.SSID, signal := entry.iSignal, password := entry.password }

/-- The records `rs` are complete. -/
structure Filled (rs : List Record) (s : WiFiScan) : Prop where
  records : (s.scan.toList.take s.i).map record = rs
  count : s.i = rs.length

/-- No name is waited on, or one whose mode is `k` tokens late. -/
structure Passed (rs : List Record) (k : Nat) (s : WiFiScan) : Prop where
  filled : Filled rs s
  flag : s.flag = 0 ∨ (s.flag = 1 ∧ s.num + k ≤ s.j)

/-- Whatever the next token is, it takes no earlier name further. -/
abbrev Seeking (rs : List Record) : WiFiScan → Prop := Passed rs 4

/-- The name came `k` tokens ago. -/
structure Named (rs : List Record) (ssid : List Byte) (k : Nat) (s : WiFiScan) : Prop where
  filled : Filled rs s
  flag : s.flag = 1
  name : cstr s.bak = ssid
  age : s.j = s.num + k

/-- The next record has its name. -/
structure Managed (rs : List Record) (ssid : List Byte) (s : WiFiScan) : Prop where
  filled : Filled rs s
  flag : s.flag = 2
  name : ∃ room : s.i < 10, cstr (s.scan[s.i]).SSID = ssid

/-- The next record has its name and its signal. -/
structure Measured (rs : List Record) (ssid : List Byte) (signal : CInt) (s : WiFiScan) :
    Prop where
  filled : Filled rs s
  flag : s.flag = 3
  name : ∃ room : s.i < 10,
    cstr (s.scan[s.i]).SSID = ssid ∧ (s.scan[s.i]).iSignal = signal

section Tokens

variable {rs : List Record} {p ssid text : List Byte} {s : WiFiScan} {k : Nat} {signal : CInt}

/-- A store to the next entry leaves the complete ones. -/
theorem Filled.set {entry : WiFi_Info} {bak : Vector Byte 20} {j num flag : Nat}
    (filled : Filled rs s) (room : s.i < 10) :
    Filled rs { s with
      scan := s.scan.set s.i entry
      bak := bak
      j := j
      num := num
      flag := flag } := by
  constructor
  case records =>
      rw [Vector.toList_set, List.take_set_of_le le_rfl]
      exact filled.records
  case count => exact filled.count

theorem scanToken_ok {s₁ s₂ s₃ s₄ : WiFiScan} (some_byte : p ≠ []) (name : readName p s = .ok s₁)
    (mode : readMode p s₁ = .ok s₂) (level : readLevel atoi p (giveUp s₂) = .ok s₃)
    (key : readKey p s₃ = .ok s₄) : scanToken atoi s p = .ok { s₄ with j := s₄.j + 1 } := by
  rw [scanToken, if_pos (List.length_pos_iff.mpr some_byte), name]
  change (readMode p s₁ >>= _) = _
  rw [mode]
  change (readLevel atoi p (giveUp s₂) >>= _) = _
  rw [level]
  change (readKey p s₃ >>= _) = _
  rw [key]
  rfl

/-! ### One statement -/

theorem giveUp_of_ne (other : s.flag ≠ 1) : giveUp s = s := if_neg fun late => other late.1

theorem giveUp_of_near (near : s.j - s.num ≤ 3) : giveUp s = s :=
  if_neg fun late => not_lt.mpr near late.2

/-- The mode of a name that is not too old begins the next record. -/
theorem readMode_begins (filled : Filled rs s) (flag : s.flag = 1) (near : s.j - s.num ≤ 3)
    (name : cstr s.bak = ssid) (short : ssid.length < 20) (managed : MODE <:+: p)
    (room : rs.length < 10) : ∃ s', readMode p s = .ok s' ∧ Managed rs ssid s' := by
  have inside : s.i < 10 := by rwa [filled.count]
  obtain ⟨SSID, copied, run⟩ := readMode_managed flag near (strstr_isSome_iff.mpr managed)
    (by rwa [name]) inside
  refine ⟨_, run, ?_⟩
  constructor
  case filled => exact filled.set inside
  case flag => rfl
  case name => exact ⟨inside, by simp [copied, name]⟩

theorem readLevel_measures (managed : Managed rs ssid s) (found : modeText p LEVEL 0 = some text)
    (fits : text.length ≤ 20) {value : Int}
    (number : atoi (text ++ List.replicate (20 - text.length) 0) = .ok value) :
    ∃ s', readLevel atoi p s = .ok s' ∧ Measured rs ssid (signalClass value) s' := by
  obtain ⟨inside, name⟩ := managed.name
  have run := readLevel_some (f := atoi) managed.flag inside found fits
  rw [number] at run
  refine ⟨_, run, ?_⟩
  constructor
  case filled => exact managed.filled.set inside
  case flag => rfl
  case name => exact ⟨inside, by simp [name]⟩

theorem record_keyed (p : List Byte) (entry : WiFi_Info) :
    record (keyed p entry) = { record entry with password := (keyed p entry).password } := by
  rw [keyed]
  split
  · rfl
  · split <;> rfl

/-- The key completes the record. -/
theorem readKey_completes (measured : Measured rs ssid signal s)
    (found : modeText p KEY 10 = some text) (fits : text.length ≤ 20) {password : CInt}
    (key : ∀ entry, (keyed p entry).password = password) :
    ∃ s', readKey p s = .ok s' ∧
      Passed (rs ++ [{ ssid := ssid, signal := signal, password := password }]) 4 s' := by
  obtain ⟨inside, name, level⟩ := measured.name
  refine ⟨_, readKey_some measured.flag inside found fits, ?_⟩
  constructor
  case filled =>
      constructor
      case records =>
          have entry : record (keyed p s.scan[s.i]) =
              { ssid := ssid, signal := signal, password := password } := by
            rw [record_keyed, key, record, name, level]
          rw [Vector.toList_set, List.take_add_one, List.take_set_of_le le_rfl, List.map_append,
            measured.filled.records]
          simp [inside, entry]
      case count => simp [measured.filled.count]
  case flag => exact .inl rfl

/-! ### One token -/

/-- A token without a name changes nothing while a name is looked for. -/
theorem seeking_leads (some_byte : p ≠ []) (no_name : modeText p ESSID 34 = none) :
    Leads (scanToken atoi) [p] (Seeking rs) (Seeking rs) := by
  apply Leads.single
  intro s seeking
  have late : giveUp s = { s with flag := 0 } := by
    rcases seeking.flag with flag | ⟨flag, late⟩
    · rw [giveUp_of_ne (by simp [flag]), ← flag]
    · exact if_pos ⟨flag, by omega⟩
  have not_near : ¬ (s.flag = 1 ∧ s.j - s.num ≤ 3 ∧ (strstr MODE p).isSome) := by
    rintro ⟨flag, near, -⟩
    rcases seeking.flag with flag' | ⟨-, late⟩
    · rw [flag] at flag'
      cases flag'
    · omega
  refine ⟨_, scanToken_ok some_byte (readName_none no_name) (readMode_other not_near)
    (readLevel_other ?_) (readKey_other ?_), ?_⟩
  · rw [late]
    exact fun flag => nomatch flag
  · rw [late]
    exact fun flag => nomatch flag
  · rw [late]
    exact ⟨⟨seeking.filled.records, seeking.filled.count⟩, .inl rfl⟩

/-- While its mode does not come, a name gets older. -/
theorem passed_leads (some_byte : p ≠ []) (no_name : modeText p ESSID 34 = none)
    (no_mode : ¬ MODE <:+: p) : Leads (scanToken atoi) [p] (Passed rs k) (Passed rs (k + 1)) := by
  apply Leads.single
  intro s passed
  have other : ¬ (s.flag = 1 ∧ s.j - s.num ≤ 3 ∧ (strstr MODE p).isSome) :=
    fun managed => no_mode (strstr_isSome_iff.mp managed.2.2)
  have low : (giveUp s).flag = 0 ∨ (giveUp s).flag = 1 := by
    rw [giveUp]
    split
    · exact .inl rfl
    · exact passed.flag.imp id fun named => named.1
  refine ⟨_, scanToken_ok some_byte (readName_none no_name) (readMode_other other)
    (readLevel_other (by omega)) (readKey_other (by omega)), ?_⟩
  rw [giveUp]
  split
  · exact ⟨⟨passed.filled.records, passed.filled.count⟩, .inl rfl⟩
  · exact ⟨⟨passed.filled.records, passed.filled.count⟩,
      passed.flag.imp id fun named => ⟨named.1, Nat.succ_le_succ named.2⟩⟩

/-- A token with a name and without a mode. -/
theorem name_leads (some_byte : p ≠ []) (found : modeText p ESSID 34 = some ssid)
    (string : 0 ∉ ssid) (short : ssid.length < 20) (no_mode : ¬ MODE <:+: p) :
    Leads (scanToken atoi) [p] (Seeking rs) (Named rs ssid 1) := by
  apply Leads.single
  intro s seeking
  obtain ⟨bak, name, run⟩ := readName_some (s := s) found string short
  have near : s.j - s.j ≤ 3 := by simp
  refine ⟨_, scanToken_ok some_byte run
    (readMode_other fun managed => no_mode (strstr_isSome_iff.mp managed.2.2))
    (readLevel_other ?_) (readKey_other ?_), ?_⟩
  · rw [giveUp_of_near near]
    exact fun flag => nomatch flag
  · rw [giveUp_of_near near]
    exact fun flag => nomatch flag
  · rw [giveUp_of_near near]
    exact ⟨⟨seeking.filled.records, seeking.filled.count⟩, rfl, name, rfl⟩

theorem named_leads (some_byte : p ≠ []) (no_name : modeText p ESSID 34 = none)
    (no_mode : ¬ MODE <:+: p) (young : k ≤ 3) :
    Leads (scanToken atoi) [p] (Named rs ssid k) (Named rs ssid (k + 1)) := by
  apply Leads.single
  intro s named
  have near : s.j - s.num ≤ 3 := by
    rw [named.age]
    omega
  have flag := named.flag
  refine ⟨_, scanToken_ok some_byte (readName_none no_name)
    (readMode_other fun managed => no_mode (strstr_isSome_iff.mp managed.2.2))
    (readLevel_other ?_) (readKey_other ?_), ?_⟩
  · rw [giveUp_of_near near, flag]
    exact fun flag => nomatch flag
  · rw [giveUp_of_near near, flag]
    exact fun flag => nomatch flag
  · rw [giveUp_of_near near]
    exact ⟨⟨named.filled.records, named.filled.count⟩, flag, named.name,
      congrArg (· + 1) named.age⟩

/-- The states after a token do not depend on its number. -/
theorem Managed.counted (managed : Managed rs ssid s) :
    Managed rs ssid { s with j := s.j + 1 } :=
  ⟨⟨managed.filled.records, managed.filled.count⟩, managed.flag, managed.name⟩

theorem Measured.counted (measured : Measured rs ssid signal s) :
    Measured rs ssid signal { s with j := s.j + 1 } :=
  ⟨⟨measured.filled.records, measured.filled.count⟩, measured.flag, measured.name⟩

theorem Managed.giveUp_eq (managed : Managed rs ssid s) : giveUp s = s :=
  giveUp_of_ne (by simp [managed.flag])

theorem Measured.giveUp_eq (measured : Measured rs ssid signal s) : giveUp s = s :=
  giveUp_of_ne (by simp [measured.flag])

theorem named_managed_leads (some_byte : p ≠ []) (no_name : modeText p ESSID 34 = none)
    (managed : MODE <:+: p) (no_level : modeText p LEVEL 0 = none) (short : ssid.length < 20)
    (room : rs.length < 10) (young : k ≤ 3) :
    Leads (scanToken atoi) [p] (Named rs ssid k) (Managed rs ssid) := by
  apply Leads.single
  intro s named
  have near : s.j - s.num ≤ 3 := by
    rw [named.age]
    omega
  obtain ⟨s₂, run, holds⟩ := readMode_begins named.filled named.flag near named.name short managed
    room
  refine ⟨_, scanToken_ok some_byte (readName_none no_name) run
    (readLevel_other ?_) (readKey_other ?_), ?_⟩
  · exact fun _ => no_level
  · rw [holds.giveUp_eq, holds.flag]
    exact fun flag => nomatch flag
  · rw [holds.giveUp_eq]
    exact holds.counted

/-- A name with the mode inside it begins a record at once. -/
theorem name_managed_leads (some_byte : p ≠ []) (found : modeText p ESSID 34 = some ssid)
    (string : 0 ∉ ssid) (short : ssid.length < 20) (managed : MODE <:+: p)
    (no_level : modeText p LEVEL 0 = none) (room : rs.length < 10) :
    Leads (scanToken atoi) [p] (Seeking rs) (Managed rs ssid) := by
  apply Leads.single
  intro s seeking
  obtain ⟨bak, name, run⟩ := readName_some (s := s) found string short
  obtain ⟨s₂, run', holds⟩ := readMode_begins (p := p)
    (s := { s with flag := 1, bak := bak, num := s.j })
    ⟨seeking.filled.records, seeking.filled.count⟩ rfl (by simp) name short managed room
  refine ⟨_, scanToken_ok some_byte run run' (readLevel_other ?_) (readKey_other ?_), ?_⟩
  · exact fun _ => no_level
  · rw [holds.giveUp_eq, holds.flag]
    exact fun flag => nomatch flag
  · rw [holds.giveUp_eq]
    exact holds.counted

/-- With the signal inside it too, it even has what follows taken for its signal. -/
theorem name_measured_leads (some_byte : p ≠ []) (found : modeText p ESSID 34 = some ssid)
    (string : 0 ∉ ssid) (short : ssid.length < 20) (managed : MODE <:+: p)
    (level : modeText p LEVEL 0 = some text) (fits : text.length ≤ 20) {value : Int}
    (number : atoi (text ++ List.replicate (20 - text.length) 0) = .ok value)
    (no_key : modeText p KEY 10 = none) (room : rs.length < 10) :
    Leads (scanToken atoi) [p] (Seeking rs) (Measured rs ssid (signalClass value)) := by
  apply Leads.single
  intro s seeking
  obtain ⟨bak, name, run⟩ := readName_some (s := s) found string short
  obtain ⟨s₂, run', begun⟩ := readMode_begins (p := p)
    (s := { s with flag := 1, bak := bak, num := s.j })
    ⟨seeking.filled.records, seeking.filled.count⟩ rfl (by simp) name short managed room
  obtain ⟨s₃, run'', holds⟩ := readLevel_measures begun level fits number
  rw [← begun.giveUp_eq] at run''
  exact ⟨_, scanToken_ok some_byte run run' run'' (readKey_other fun _ => no_key), holds.counted⟩

theorem managed_leads (some_byte : p ≠ []) (no_name : modeText p ESSID 34 = none)
    (no_level : modeText p LEVEL 0 = none) :
    Leads (scanToken atoi) [p] (Managed rs ssid) (Managed rs ssid) := by
  apply Leads.single
  intro s managed
  refine ⟨_, scanToken_ok some_byte (readName_none no_name) (readMode_other ?_)
    (readLevel_other ?_) (readKey_other ?_), ?_⟩
  · rw [managed.flag]
    exact fun named => nomatch named.1
  · exact fun _ => no_level
  · rw [managed.giveUp_eq, managed.flag]
    exact fun flag => nomatch flag
  · rw [managed.giveUp_eq]
    exact managed.counted

theorem managed_measured_leads (some_byte : p ≠ []) (no_name : modeText p ESSID 34 = none)
    (level : modeText p LEVEL 0 = some text) (fits : text.length ≤ 20) {value : Int}
    (number : atoi (text ++ List.replicate (20 - text.length) 0) = .ok value)
    (no_key : modeText p KEY 10 = none) :
    Leads (scanToken atoi) [p] (Managed rs ssid) (Measured rs ssid (signalClass value)) := by
  apply Leads.single
  intro s managed
  obtain ⟨s₃, run, holds⟩ := readLevel_measures managed level fits number
  rw [← managed.giveUp_eq] at run
  refine ⟨_, scanToken_ok some_byte (readName_none no_name) (readMode_other ?_) run
    (readKey_other fun _ => no_key), holds.counted⟩
  rw [managed.flag]
  exact fun named => nomatch named.1

/-- A signal that is no `int` has no class. -/
theorem managed_breaks (some_byte : p ≠ []) (no_name : modeText p ESSID 34 = none)
    (level : modeText p LEVEL 0 = some text)
    (number : text.length ≤ 20 → ∃ fault,
      atoi (text ++ List.replicate (20 - text.length) 0) = .error fault) :
    Breaks (scanToken atoi) [p] (Managed rs ssid) := by
  intro s managed
  have mode : readMode p s = .ok s := by
    apply readMode_other
    rw [managed.flag]
    exact fun named => nomatch named.1
  have fails : ∃ fault, readLevel atoi p s = .error fault := by
    by_cases fits : text.length ≤ 20
    · obtain ⟨inside, -⟩ := managed.name
      obtain ⟨fault, number⟩ := number fits
      rw [readLevel_some managed.flag inside level fits, number]
      exact ⟨fault, rfl⟩
    · exact ⟨.write, readLevel_long managed.flag level (not_le.mp fits)⟩
  obtain ⟨fault, fails⟩ := fails
  refine ⟨fault, ?_⟩
  rw [foldlM_singleton, scanToken, if_pos (List.length_pos_iff.mpr some_byte),
    readName_none no_name]
  change (readMode p s >>= _) = _
  rw [mode]
  change (readLevel atoi p (giveUp s) >>= _) = _
  rw [managed.giveUp_eq, fails]
  rfl

theorem measured_leads (some_byte : p ≠ []) (no_name : modeText p ESSID 34 = none)
    (no_key : modeText p KEY 10 = none) :
    Leads (scanToken atoi) [p] (Measured rs ssid signal) (Measured rs ssid signal) := by
  apply Leads.single
  intro s measured
  refine ⟨_, scanToken_ok some_byte (readName_none no_name) (readMode_other ?_)
    (readLevel_other ?_) (readKey_other fun _ => no_key), ?_⟩
  · rw [measured.flag]
    exact fun named => nomatch named.1
  · rw [measured.giveUp_eq, measured.flag]
    exact fun flag => nomatch flag
  · rw [measured.giveUp_eq]
    exact measured.counted

theorem key_leads (some_byte : p ≠ []) (no_name : modeText p ESSID 34 = none)
    (found : modeText p KEY 10 = some text) (fits : text.length ≤ 20) {password : CInt}
    (key : ∀ entry, (keyed p entry).password = password) :
    Leads (scanToken atoi) [p] (Measured rs ssid signal)
      (Seeking (rs ++ [{ ssid := ssid, signal := signal, password := password }])) := by
  apply Leads.single
  intro s measured
  obtain ⟨s₄, run, holds⟩ := readKey_completes measured found fits key
  rw [← measured.giveUp_eq] at run
  refine ⟨_, scanToken_ok some_byte (readName_none no_name) (readMode_other ?_)
    (readLevel_other ?_) run, ?_⟩
  · rw [measured.flag]
    exact fun named => nomatch named.1
  · rw [measured.giveUp_eq, measured.flag]
    exact fun flag => nomatch flag
  · exact ⟨⟨holds.filled.records, holds.filled.count⟩,
      holds.flag.imp id fun named => ⟨named.1, Nat.le_succ_of_le named.2⟩⟩

end Tokens

end CFunc.Networks
