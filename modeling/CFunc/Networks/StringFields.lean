import CFunc.Networks.Resolver
import CFunc.Networks.System

/-!
The string fields of the structure that the daemon and its clients share.

Three functions store strings there, and each copies the bytes alone: `GetLinkSSID` and
`GetModeStr` in a loop, `ConnectWifiDaemon` with `memcpy`. The structure is read from the file in
every pass, so a string comes to stand on the one before it, and what that has at its length
decides whether it ends there.
-/

namespace CFunc.Networks

open CFunc.Lib.CText CFunc.Lib.Folds

/-! ### Fields and stores -/

inductive StringField where
  | szLink_SSID
  | szLink_Password
  /-- entry `k` of the name servers of interface `i` -/
  | DNSServer (i k : Fin 2)
  deriving DecidableEq

def StringField.size : StringField → Nat
  | szLink_SSID => 20
  | szLink_Password => 20
  | DNSServer _ _ => 16

def StringField.bytes (info : N_Info_t) : StringField → List Byte
  | szLink_SSID => info.szLink_SSID.toList
  | szLink_Password => info.szLink_Password.toList
  | DNSServer i k => ((info.Status.get i).DNSServer.get k).toList

/-- What a reader of the field takes. -/
def StringField.string (info : N_Info_t) (field : StringField) : List Byte :=
  (field.bytes info).takeWhile (· ≠ 0)

/-- A call that stores strings. `ssid` is the name in the info file `link_info`. -/
inductive Store where
  | GetLinkSSID (link_info ssid : List Byte)
  | GetDNSStr (i : Fin 2) (dns_info : List Byte)
  | ConnectWifiDaemon (pSSID pPassword : List Byte)
  deriving DecidableEq

/-- The structure after the call; a client saves it. -/
def Store.run (info : N_Info_t) : Store → Option N_Info_t
  | GetLinkSSID link_info _ => (Networks.GetLinkSSID (some link_info) info).map Prod.fst
  | GetDNSStr i dns_info =>
      (Networks.GetDNSStr (some dns_info) (info.Status.get i)).toOption.map fun listing =>
        (listed i listing { gNetInfo := info, iConnect_flag := 0, iSearchApNum := 0 }).gNetInfo
  | ConnectWifiDaemon pSSID pPassword => (ClientCall.ConnectWifiDaemon pSSID pPassword).edit info

/-- The call is to store the value in the field. -/
inductive Store.Stores : Store → StringField → List Byte → Prop where
  | link {link_info ssid : List Byte} : Stores (GetLinkSSID link_info ssid) .szLink_SSID ssid
  | server {i k : Fin 2} {dns_info address : List Byte} :
      (found dns_info)[(k : Nat)]? = some address →
        Stores (GetDNSStr i dns_info) (.DNSServer i k) address
  | ssid {pSSID pPassword : List Byte} :
      Stores (ConnectWifiDaemon pSSID pPassword) .szLink_SSID pSSID
  | password {pSSID pPassword : List Byte} :
      Stores (ConnectWifiDaemon pSSID pPassword) .szLink_Password pPassword

/-- The info file has its name between quotes. -/
def Store.Quoted : Store → Prop
  | GetLinkSSID link_info ssid => 34 ∉ ssid ∧
      ∃ rest, strstr (bytes "ESSID=\"") link_info = some (bytes "ESSID=\"" ++ (ssid ++ 34 :: rest))
  | _ => True

/-- Its values are strings, and shorter than their fields. -/
structure Store.Given (store : Store) : Prop where
  quoted : store.Quoted
  string : ∀ field value, store.Stores field value → 0 ∉ value
  shorter : ∀ field value, store.Stores field value → value.length < field.size

/-- The daemon's comparison comes to the first access point found that has the name. -/
def FindsLinked (ssid : List Byte) (info : N_Info_t) : Prop :=
  ∀ (iConnect_flag iSearchApNum : CInt) (ap : WiFi_Info),
    (info.Scan.toList.take iSearchApNum.toInt.toNat).find? (fun ap => cstr ap.SSID = ssid) =
        some ap →
      linkedSignal ⟨info, iConnect_flag, iSearchApNum⟩ = ap.iSignal

/-- Each field reads back as the value that the call stores in it. -/
structure Store.ReadsBack (store : Store) (info after : N_Info_t) : Prop where
  run : store.run info = some after
  strings : ∀ field value, store.Stores field value → field.string after = value
  linked : ∀ link_info ssid, store = .GetLinkSSID link_info ssid → FindsLinked ssid after

/-- The fields had a `NUL` where the values end. -/
def Store.Ended (store : Store) (info : N_Info_t) : Prop :=
  ∀ field value, store.Stores field value → (field.bytes info)[value.length]? = some 0

section Stores

variable {store : Store} {info after : N_Info_t} {ssid : List Byte}

theorem findsLinked_of_string (string : cstr info.szLink_SSID = ssid) : FindsLinked ssid info := by
  intro iConnect_flag iSearchApNum ap first
  simp only [linkedSignal, string, first]

/-- A copy without a `NUL`. -/
theorem overlay_reads_iff {n : Nat} (field : Vector Byte n) {value : List Byte}
    (string : 0 ∉ value) (shorter : value.length < n) :
    ∃ written, overlay field value = some written ∧ writeField field value = .ok written ∧
      (cstr written = value ↔ field.toList[value.length]? = some 0) := by
  obtain ⟨written, copied⟩ := (overlay_isSome_iff field).mpr shorter.le
  have write : writeField field value = .ok written := by rw [writeField, copied]
  have inside : value.length < field.toList.length := by rwa [Vector.length_toList]
  refine ⟨written, copied, write, (cstr_of_writeField_iff write string shorter).trans ?_⟩
  rw [List.getElem?_eq_getElem inside, Vector.getElem_toList, Option.some.injEq]

theorem GetLinkSSID_reads_iff {link_info : List Byte}
    (given : (Store.GetLinkSSID link_info ssid).Given) :
    (∃ after, (Store.GetLinkSSID link_info ssid).ReadsBack info after) ↔
      (Store.GetLinkSSID link_info ssid).Ended info := by
  obtain ⟨no_quote, rest, at_name⟩ := given.quoted
  have string := given.string _ _ .link
  have shorter := given.shorter _ _ .link
  obtain ⟨szLink_SSID, copied, -, reads⟩ := overlay_reads_iff info.szLink_SSID string shorter
  have run : (Store.GetLinkSSID link_info ssid).run info =
      some { info with szLink_SSID := szLink_SSID } := by
    have name : (bytes "ESSID=\"" ++ (ssid ++ 34 :: rest)).drop 7 = ssid ++ 34 :: rest := rfl
    have closed : (ssid ++ 34 :: rest).contains 34 = true := by simp
    simp only [Store.run, Networks.GetLinkSSID, at_name, name, takeWhile_ne_append no_quote, closed,
      if_true, copied, Option.map_some]
  constructor
  · rintro ⟨after, reads_back⟩ field value stores
    cases stores
    obtain rfl := Option.some.inj (run.symm.trans reads_back.run)
    exact reads.mp (reads_back.strings _ _ .link)
  · intro ended
    have string := reads.mpr (ended _ _ .link)
    refine ⟨_, run, ?_, ?_⟩
    · rintro field value stores
      cases stores
      exact string
    · rintro _ _ ⟨⟩
      exact findsLinked_of_string string

/-- One entry of the name servers. -/
theorem entry_reads_iff (server : Vector Byte 16) {found : Option (List Byte)}
    (string : ∀ address, found = some address → 0 ∉ address)
    (shorter : ∀ address, found = some address → address.length < 16) :
    (∃ written, writeText server found = .ok written ∧
        ∀ address, found = some address → cstr written = address) ↔
      ∀ address, found = some address → server.toList[address.length]? = some 0 := by
  cases found with
  | none => simp [writeText]
  | some address =>
      obtain ⟨written, -, write, reads⟩ :=
        overlay_reads_iff server (string address rfl) (shorter address rfl)
      simp [writeText, write, reads]

theorem GetDNSStr_reads_iff {i : Fin 2} {dns_info : List Byte}
    (given : (Store.GetDNSStr i dns_info).Given) :
    (∃ after, (Store.GetDNSStr i dns_info).ReadsBack info after) ↔
      (Store.GetDNSStr i dns_info).Ended info := by
  have entries := GetDNSStr_entries_iff (info.Status.get i) dns_info fun k server =>
    ∀ address, (found dns_info)[(k : Nat)]? = some address → cstr server = address
  rw [forall_congr' fun k => entry_reads_iff ((info.Status.get i).DNSServer.get k)
    (fun address at_k => given.string _ _ (.server at_k))
    (fun address at_k => given.shorter _ _ (.server at_k))] at entries
  constructor
  · rintro ⟨after, run, strings, -⟩ field value stores
    rw [Store.run] at run
    cases resolved : Networks.GetDNSStr (some dns_info) (info.Status.get i) with
    | ok listing =>
        rw [resolved] at run
        obtain rfl := Option.some.inj run
        have reads := entries.mp ⟨listing, resolved, fun k address at_k => by
          simpa [StringField.string, StringField.bytes, cstr, listed, get_set] using
            strings _ _ (.server (i := i) at_k)⟩
        cases stores with
        | server at_k => exact reads _ _ at_k
    | error fault =>
        rw [resolved] at run
        cases run
  · intro ended
    obtain ⟨listing, resolved, reads⟩ := entries.mpr fun k address at_k => ended _ _ (.server at_k)
    refine ⟨_, by rw [Store.run, resolved]; rfl, ?_, ?_⟩
    · rintro field value stores
      cases stores with
      | server at_k =>
          simpa [StringField.string, StringField.bytes, cstr, listed, get_set] using reads _ _ at_k
    · rintro _ _ ⟨⟩

theorem ConnectWifiDaemon_reads_iff {pSSID pPassword : List Byte}
    (given : (Store.ConnectWifiDaemon pSSID pPassword).Given) :
    (∃ after, (Store.ConnectWifiDaemon pSSID pPassword).ReadsBack info after) ↔
      (Store.ConnectWifiDaemon pSSID pPassword).Ended info := by
  obtain ⟨szLink_SSID, ssid_copied, -, ssid_reads⟩ := overlay_reads_iff info.szLink_SSID
    (given.string _ _ .ssid) (given.shorter _ _ .ssid)
  obtain ⟨szLink_Password, password_copied, -, password_reads⟩ :=
    overlay_reads_iff info.szLink_Password (given.string _ _ .password)
      (given.shorter _ _ .password)
  have run : (Store.ConnectWifiDaemon pSSID pPassword).run info = some
      { info with
        szLink_SSID := szLink_SSID
        szLink_Password := szLink_Password
        iConnect_Format := 2 } := by
    simp only [Store.run, ClientCall.edit, ssid_copied, password_copied]
  constructor
  · rintro ⟨after, reads_back⟩ field value stores
    obtain rfl := Option.some.inj (run.symm.trans reads_back.run)
    cases stores with
    | ssid => exact ssid_reads.mp (reads_back.strings _ _ .ssid)
    | password => exact password_reads.mp (reads_back.strings _ _ .password)
  · intro ended
    refine ⟨_, run, ?_, ?_⟩
    · rintro field value stores
      cases stores with
      | ssid => exact ssid_reads.mpr (ended _ _ .ssid)
      | password => exact password_reads.mpr (ended _ _ .password)
    · rintro _ _ ⟨⟩

/-- The strings read back if and only if the fields had a `NUL` where they end. -/
theorem Store.readsBack_iff (given : store.Given) (info : N_Info_t) :
    (∃ after, store.ReadsBack info after) ↔ store.Ended info := by
  cases store with
  | GetLinkSSID link_info ssid => exact GetLinkSSID_reads_iff given
  | GetDNSStr i dns_info => exact GetDNSStr_reads_iff given
  | ConnectWifiDaemon pSSID pPassword => exact ConnectWifiDaemon_reads_iff given

theorem Store.readsBack_iff_sample :
    ∃ after,
      (Store.ConnectWifiDaemon (bytes "office") (bytes "secret")).ReadsBack .zeroed after := by
  have given : (Store.ConnectWifiDaemon (bytes "office") (bytes "secret")).Given := by
    constructor
    case quoted => trivial
    case string =>
        rintro field value stores
        cases stores <;> decide
    case shorter =>
        rintro field value stores
        cases stores <;> decide
  apply (Store.readsBack_iff given .zeroed).mpr
  rintro field value stores
  cases stores <;> decide

def office : N_Info_t :=
  { N_Info_t.zeroed with szLink_SSID := .ofFn fun i => (bytes "office").getD i 0 }

/-- `lab` after `office`. -/
theorem Store.not_readsBack :
    ¬ ∀ (store : Store) (info : N_Info_t), store.Given → ∃ after, store.ReadsBack info after := by
  intro always
  have given : (Store.GetLinkSSID (bytes "ESSID=\"lab\"") (bytes "lab")).Given := by
    constructor
    case quoted => exact ⟨by decide, [], by decide⟩
    case string =>
        rintro field value stores
        cases stores
        decide
    case shorter =>
        rintro field value stores
        cases stores
        decide
  obtain ⟨after, run, strings, -⟩ := always _ office given
  have mixed : ((Store.GetLinkSSID (bytes "ESSID=\"lab\"") (bytes "lab")).run office).map
      (fun after => StringField.szLink_SSID.string after) = some (bytes "labice") := by
    decide +kernel
  rw [run] at mixed
  exact absurd ((strings _ _ .link).symm.trans (Option.some.inj mixed)) (by decide)

end Stores

end CFunc.Networks
