import CFunc.Networks.Daemon
import CFunc.Networks.WiFiTokens

/-!
The name servers: `GetDNSStr` of `networks/daemon.c`.

The first call of `strtok` stands before the loop, and the token it gives is not looked at. The
buffer has the size of the file and so no room for a `NUL`: its string goes on in what memory
holds behind it.
-/

namespace CFunc.Networks

open CFunc.Lib.CText CFunc.Lib.Folds

/-! ### The code -/

def NAMESERVER : List Byte := bytes "nameserver "

/-- `GetModeStr` into entry `i` of `DNSServer`. -/
def setServer (p : List Byte) (i : Nat) (Status : NetStatus) : Except StringFault NetStatus :=
  if inside : i < 2 then do
    let (server, _) ← GetModeStr p NAMESERVER 0 Status.DNSServer[i]
    return { Status with DNSServer := Status.DNSServer.set i server }
  else .error .write

/-- The loop over the tokens that are left. -/
def serverLoop (Status : NetStatus) (i : Nat) : List (List Byte) → Except StringFault NetStatus
  | [] => .ok Status
  | p :: rest =>
      if 0 < p.length then
        if (strstr NAMESERVER p).isSome then do
          let Status ← setServer p i Status
          if i + 1 = 2 then return Status else serverLoop Status (i + 1) rest
        else if i = 2 then .ok Status
        else serverLoop Status i rest
      else serverLoop Status i rest

/-- `dns_info` is the string at `szFileBuffer`, or `none` when the file does not open. -/
def GetDNSStr (dns_info : Option (List Byte)) (Status : NetStatus) : Except StringFault Listing :=
  match dns_info with
  | none => .ok { status := Status, dns_failed := true }
  | some szFileBuffer => do
      let Status ← serverLoop Status 0 (tokens 10 szFileBuffer).tail
      return { status := Status, dns_failed := false }

/-! ### The addresses that are stored -/

/-- What stands behind `nameserver `. -/
def address (p : List Byte) : Option (List Byte) := modeText p NAMESERVER 0

/-- The addresses of a text, in the order of its lines. -/
def addresses (s : List Byte) : List (List Byte) := (tokens 10 s).filterMap address

/-- The addresses that the loop comes to. -/
def found (szFileBuffer : List Byte) : List (List Byte) :=
  (tokens 10 szFileBuffer).tail.filterMap address

/-- The addresses that are stored fit in their entries. -/
def ServersFit (dns_info : Option (List Byte)) : Prop :=
  ∀ szFileBuffer ∈ dns_info, ∀ k : Fin 2, ∀ text ∈ (found szFileBuffer)[(k : Nat)]?,
    text.length ≤ 16

/-- A text into a field, where there is one. -/
def writeText {n : Nat} (field : Vector Byte n) : Option (List Byte) →
    Except StringFault (Vector Byte n)
  | none => .ok field
  | some text => writeField field text

/-- Texts for the entries from `i` on. -/
def placed (i : Nat) (texts : List (List Byte)) (k : Fin 2) : Option (List Byte) :=
  if (k : Nat) < i then none else texts[(k : Nat) - i]?

/-- `Status'` has the texts in its name servers, and is else as `Status`. -/
def Stored (Status Status' : NetStatus) (texts : Fin 2 → Option (List Byte)) : Prop :=
  ∃ DNSServer, Status' = { Status with DNSServer := DNSServer } ∧
    ∀ k : Fin 2, writeText (Status.DNSServer.get k) (texts k) = .ok (DNSServer.get k)

section Loop

variable {p mode text : List Byte} {interval : Byte} {i : Nat} {ps texts : List (List Byte)}
  {Status Status' : NetStatus} {listing : Listing}

/-- `GetModeStr`, its return value not looked at. -/
theorem GetModeStr_bind {n : Nat} {β : Type} (field : Vector Byte n)
    (rest : Vector Byte n → Except StringFault β) :
    (GetModeStr p mode interval field >>= fun result => rest result.1) =
      writeText field (modeText p mode interval) >>= rest := by
  rw [GetModeStr]
  cases modeText p mode interval with
  | none => rfl
  | some text =>
      simp only [writeText]
      cases writeField field text <;> rfl

theorem setServer_eq (inside : i < 2) :
    setServer p i Status = do
      let server ← writeText Status.DNSServer[i] (address p)
      return { Status with DNSServer := Status.DNSServer.set i server } := by
  rw [setServer, dif_pos inside]
  exact GetModeStr_bind _ fun server =>
    return { Status with DNSServer := Status.DNSServer.set i server }

/-- A token with `nameserver ` has an address. -/
theorem address_isSome (p : List Byte) : (address p).isSome = (strstr NAMESERVER p).isSome := by
  rw [address, modeText]
  by_cases empty : p = []
  · subst empty
    decide
  · have named : NAMESERVER ≠ [] := by decide
    rw [if_neg (by simp [empty, named])]
    cases strstr NAMESERVER p with
    | none => rfl
    | some found => simp

theorem stored_none : Stored Status Status' (fun _ => none) ↔ Status = Status' := by
  constructor
  · rintro ⟨DNSServer, rfl, same⟩
    have entries : Status.DNSServer = DNSServer :=
      Vector.ext fun k inside => Except.ok.inj (same ⟨k, inside⟩)
    rw [← entries]
  · rintro rfl
    exact ⟨Status.DNSServer, rfl, fun _ => rfl⟩

theorem placed_nil (i : Nat) : placed i [] = fun _ => none := by
  funext k
  rw [placed, List.getElem?_nil, ite_self]

theorem placed_zero (texts : List (List Byte)) :
    placed 0 texts = fun k : Fin 2 => texts[(k : Nat)]? := by
  funext k
  rw [placed, if_neg (Nat.not_lt_zero _), Nat.sub_zero]

theorem placed_two (texts : List (List Byte)) : placed 2 texts = fun _ => none := by
  funext k
  rw [placed, if_pos k.isLt]

/-- The first text in its entry, and the others behind it. -/
theorem stored_cons {server : Vector Byte 16} (inside : i < 2)
    (write : writeField (Status.DNSServer.get ⟨i, inside⟩) text = .ok server) :
    Stored { Status with DNSServer := Status.DNSServer.set i server } Status'
        (placed (i + 1) texts) ↔
      Stored Status Status' (placed i (text :: texts)) := by
  apply exists_congr
  intro DNSServer
  apply and_congr_right
  intro _
  apply forall_congr'
  intro k
  have entry : (Status.DNSServer.set i server).get k =
      if i = k then server else Status.DNSServer.get k := by
    simpa only [Fin.ext_iff] using get_set Status.DNSServer ⟨i, inside⟩ k server
  rw [entry]
  rcases lt_trichotomy (k : Nat) i with before | here | behind
  · have apart : i ≠ k := before.ne'
    simp [placed, before, before.trans (Nat.lt_succ_self i), apart]
  · subst here
    simp [placed, writeText, write]
  · obtain ⟨d, next⟩ := Nat.exists_eq_add_of_lt behind
    have apart : i ≠ k := behind.ne
    have index : (k : Nat) - i = d + 1 ∧ (k : Nat) - (i + 1) = d := by omega
    simp [placed, index, apart, behind.not_gt, Nat.not_lt.mpr (Nat.succ_le_of_lt behind)]

theorem serverLoop_ok_iff (Status Status' : NetStatus) (ps : List (List Byte)) (inside : i < 2) :
    serverLoop Status i ps = .ok Status' ↔
      Stored Status Status' (placed i (ps.filterMap address)) := by
  induction ps generalizing Status i with
  | nil =>
      rw [serverLoop, List.filterMap_nil, placed_nil, stored_none, Except.ok.injEq]
  | cons p ps ih =>
      rw [serverLoop, ← address_isSome]
      cases found : address p with
      | none =>
          rw [List.filterMap_cons_none found, ← ih _ inside]
          simp [inside.ne]
      | some text =>
          have some_byte : 0 < p.length := by
            rw [List.length_pos_iff]
            rintro rfl
            cases found
          rw [List.filterMap_cons_some found, if_pos some_byte, Option.isSome_some, if_pos rfl,
            setServer_eq inside, found, writeText]
          change (writeField (Status.DNSServer.get ⟨i, inside⟩) text >>= _ >>= _) = _ ↔ _
          cases write : writeField (Status.DNSServer.get ⟨i, inside⟩) text with
          | error fault =>
              apply iff_of_false
              · intro run
                cases run
              · rintro ⟨DNSServer, -, entries⟩
                have here := entries ⟨i, inside⟩
                simp [placed, writeText, write] at here
          | ok server =>
              rw [← stored_cons inside write]
              change (if i + 1 = 2 then _ else serverLoop _ (i + 1) ps) = _ ↔ _
              split
              · next last =>
                  rw [last, placed_two, stored_none]
                  simp [pure, Except.pure]
              · next more => exact ih _ (by omega)

theorem GetDNSStr_ok_iff {szFileBuffer : List Byte} :
    GetDNSStr (some szFileBuffer) Status = .ok listing ↔
      listing.dns_failed = false ∧
        Stored Status listing.status fun k => (found szFileBuffer)[(k : Nat)]? := by
  have loop := serverLoop_ok_iff Status listing.status (tokens 10 szFileBuffer).tail
    (show 0 < 2 by decide)
  rw [placed_zero] at loop
  rw [found, ← loop, GetDNSStr]
  cases serverLoop Status 0 (tokens 10 szFileBuffer).tail with
  | error fault => simp [bind, Except.bind]
  | ok status =>
      obtain ⟨status', dns_failed⟩ := listing
      simp [bind, Except.bind, pure, Except.pure, and_comm, eq_comm]

/-- The entries of a run, each by itself. -/
theorem GetDNSStr_entries_iff (Status : NetStatus) (szFileBuffer : List Byte)
    (Q : Fin 2 → Vector Byte 16 → Prop) :
    (∃ listing, GetDNSStr (some szFileBuffer) Status = .ok listing ∧
        ∀ k : Fin 2, Q k (listing.status.DNSServer.get k)) ↔
      ∀ k : Fin 2, ∃ server,
        writeText (Status.DNSServer.get k) (found szFileBuffer)[(k : Nat)]? = .ok server ∧
          Q k server := by
  rw [← exists_vector_iff]
  constructor
  · rintro ⟨⟨status, dns_failed⟩, run, holds⟩
    obtain ⟨-, DNSServer, rfl, written⟩ := GetDNSStr_ok_iff.mp run
    exact ⟨DNSServer, fun k => ⟨written k, holds k⟩⟩
  · rintro ⟨DNSServer, entries⟩
    refine ⟨⟨{ Status with DNSServer := DNSServer }, false⟩, ?_, fun k => (entries k).2⟩
    exact GetDNSStr_ok_iff.mpr ⟨rfl, DNSServer, rfl, fun k => (entries k).1⟩

theorem writeText_ok_iff {n : Nat} {field : Vector Byte n} {found : Option (List Byte)} :
    (∃ written, writeText field found = .ok written) ↔ ∀ text ∈ found, text.length ≤ n := by
  cases found with
  | none => simp [writeText]
  | some text =>
      simp only [writeText, Option.mem_some_iff, forall_eq']
      constructor
      · rintro ⟨written, write⟩
        by_contra long
        rw [writeField_eq_error_iff.mpr ⟨rfl, not_le.mp long⟩] at write
        cases write
      · exact writeField_ok field

/-- It returns where the addresses fit. -/
theorem GetDNSStr_returns_iff (dns_info : Option (List Byte)) (Status : NetStatus) :
    (∃ listing, GetDNSStr dns_info Status = .ok listing) ↔ ServersFit dns_info := by
  cases dns_info with
  | none => simp [GetDNSStr, ServersFit]
  | some szFileBuffer =>
      have entries := GetDNSStr_entries_iff Status szFileBuffer fun _ _ => True
      simp only [implies_true, and_true] at entries
      rw [entries]
      simp only [ServersFit, Option.mem_some_iff, forall_eq']
      exact forall_congr' fun k => writeText_ok_iff

end Loop

/-! ### The file -/

/-- A line without its end. -/
inductive Line where
  | server (address : List Byte) (short : address.length ≤ 15)
      (plain : 0 ∉ address ∧ 10 ∉ address)
  | other (text : List Byte) (no_server : ¬ NAMESERVER <:+: text)
      (plain : 0 ∉ text ∧ 10 ∉ text)

def Line.text : Line → List Byte
  | server address _ _ => NAMESERVER ++ address
  | other text _ _ => text

def Line.server? : Line → Option (List Byte)
  | server address _ _ => some address
  | other _ _ _ => none

def fileText (lines : List Line) : List Byte := lines.flatMap fun line => line.text ++ [10]

/-- The addresses of the file. -/
def servers (lines : List Line) : List (List Byte) := lines.filterMap Line.server?

/-- The string at the buffer: `memory` is what stands behind the bytes of the file. -/
def bufferText (lines : List Line) (memory : List Byte) : List Byte :=
  fileText lines ++ memory.takeWhile (· ≠ 0)

/-- The first two addresses of the file are in a status that was zeroed, and nothing else. -/
def Collects (lines : List Line) (memory : List Byte) : Prop :=
  ∃ listing, GetDNSStr (some (bufferText lines memory)) .zeroed = .ok listing ∧
    ∀ k : Fin 2, cstr (listing.status.DNSServer.get k) = (servers lines).getD k []

/-- 1 if the token before the loop has an address. -/
def primed (szFileBuffer : List Byte) : Nat :=
  if ((tokens 10 szFileBuffer).head?.bind address).isSome then 1 else 0

section File

variable {lines : List Line} {memory rest text : List Byte}

theorem Line.not_mem_text (line : Line) : 0 ∉ line.text ∧ 10 ∉ line.text := by
  have named : 0 ∉ NAMESERVER ∧ 10 ∉ NAMESERVER := by decide
  cases line with
  | server address _ plain =>
      simp only [text, List.mem_append, not_or]
      exact ⟨⟨named.1, plain.1⟩, named.2, plain.2⟩
  | other text _ plain => exact plain

theorem Line.address_text (line : Line) : address line.text = line.server? := by
  cases line with
  | server address _ _ => exact modeText_append_nul (by decide)
  | other text no_server _ => exact modeText_none no_server

theorem Line.addresses_text (line : Line) : addresses line.text = line.server?.toList := by
  rw [addresses, tokens_of_not_mem line.not_mem_text.2, ← line.address_text]
  split
  · next empty =>
      rw [empty]
      rfl
  · cases here : address line.text <;> simp [here]

theorem servers_cons (line : Line) (lines : List Line) :
    servers (line :: lines) = line.server?.toList ++ servers lines := by
  cases here : line.server? <;> simp [servers, here]

theorem addresses_fileText (lines : List Line) (rest : List Byte) :
    addresses (fileText lines ++ rest) = servers lines ++ addresses rest := by
  induction lines with
  | nil => rfl
  | cons line lines ih =>
      have pieces : fileText (line :: lines) ++ rest =
          line.text ++ 10 :: (fileText lines ++ rest) := by
        simp [fileText]
      rw [pieces, addresses, tokens_append_cons, List.filterMap_append, ← addresses, ← addresses,
        ih, line.addresses_text, servers_cons, List.append_assoc]

theorem found_eq (szFileBuffer : List Byte) :
    found szFileBuffer = (addresses szFileBuffer).drop (primed szFileBuffer) := by
  rw [found, addresses, primed]
  cases tokens 10 szFileBuffer with
  | nil => rfl
  | cons p rest =>
      cases first : address p with
      | none => simp [first]
      | some text => simp [first]

theorem not_mem_address {p : List Byte} (string : 0 ∉ p) (some_text : address p = some text) :
    0 ∉ text := by
  obtain ⟨before, rest, rfl, -⟩ := modeText_spec some_text
  intro nul
  exact string (List.mem_append_left rest (List.mem_append_right (before ++ NAMESERVER) nul))

theorem not_mem_found {szFileBuffer : List Byte} (string : 0 ∉ szFileBuffer)
    (member : text ∈ found szFileBuffer) : 0 ∉ text := by
  obtain ⟨p, token, some_text⟩ := List.mem_filterMap.mp member
  apply not_mem_address _ some_text
  intro nul
  exact string ((infix_of_mem_tokens (List.mem_of_mem_tail token)).subset nul)

theorem not_mem_bufferText (lines : List Line) (memory : List Byte) :
    0 ∉ bufferText lines memory := by
  rw [bufferText, List.mem_append, not_or]
  constructor
  · intro nul
    obtain ⟨line, -, inside⟩ := List.mem_flatMap.mp nul
    rcases List.mem_append.mp inside with here | at_end
    · exact line.not_mem_text.1 here
    · cases List.mem_singleton.mp at_end
  · intro nul
    simpa using List.mem_takeWhile_imp nul

theorem length_server_le {k : Nat} : ((servers lines).getD k []).length ≤ 15 := by
  rw [List.getD_eq_getElem?_getD]
  cases here : (servers lines)[k]? with
  | none => exact Nat.zero_le 15
  | some address =>
      obtain ⟨line, -, is_server⟩ := List.mem_filterMap.mp (List.mem_of_getElem? here)
      cases line with
      | server address short plain =>
          cases is_server
          exact short
      | other text no_server plain => cases is_server

/-- An entry that was zeroed. -/
theorem writeText_zeroed_iff {found : Option (List Byte)} (string : ∀ t ∈ found, 0 ∉ t)
    (fits : text.length ≤ 15) :
    (∃ server, writeText (.replicate 16 0) found = .ok server ∧ cstr server = text) ↔
      found.getD [] = text := by
  cases found with
  | none =>
      have empty : cstr (.replicate 16 0 : Vector Byte 16) = [] := by decide
      simp only [writeText, Except.ok.injEq, exists_eq_left', empty, Option.getD_none]
  | some t =>
      have reads {server : Vector Byte 16}
          (write : writeText (.replicate 16 0) (some t) = .ok server) : cstr server = t := by
        apply cstr_of_padded _ (string t rfl)
        · exact 16 - t.length
        · rw [toList_of_writeField write, Vector.toList_replicate, List.drop_replicate]
      constructor
      · rintro ⟨server, write, rfl⟩
        exact (reads write).symm
      · rintro rfl
        obtain ⟨server, write⟩ := writeField_ok (.replicate 16 0 : Vector Byte 16)
          (show t.length ≤ 16 from fits.trans (by decide))
        exact ⟨server, write, reads write⟩

/-- The first two addresses are collected if and only if they are the first two of those that
follow, in the file and behind the buffer, the token before the loop. -/
theorem GetDNSStr_collects_iff (lines : List Line) (memory : List Byte) :
    Collects lines memory ↔
      ∀ k < 2, (servers lines ++ addresses (memory.takeWhile (· ≠ 0))).getD
          (primed (bufferText lines memory) + k) [] =
        (servers lines).getD k [] := by
  rw [Collects, GetDNSStr_entries_iff _ _ fun k server => cstr server = (servers lines).getD k [],
    Fin.forall_iff]
  apply forall₂_congr
  intro k inside
  have string : ∀ t ∈ (found (bufferText lines memory))[k]?, 0 ∉ t := fun t member =>
    not_mem_found (not_mem_bufferText lines memory) (List.mem_of_getElem? member)
  have zeroed : NetStatus.zeroed.DNSServer.get ⟨k, inside⟩ = .replicate 16 0 :=
    Vector.getElem_replicate inside
  rw [zeroed, writeText_zeroed_iff string length_server_le]
  rw [found_eq, List.getElem?_drop, ← List.getD_eq_getElem?_getD, bufferText, addresses_fileText]

/-- A file of one line. -/
theorem GetDNSStr_not_collects :
    ¬ ∀ (lines : List Line) (memory : List Byte), Collects lines memory := by
  intro always
  obtain ⟨listing, run, strings⟩ :=
    always [.server (bytes "192.168.1.1") (by decide) (by decide)] []
  have nothing : GetDNSStr (some (bytes "nameserver 192.168.1.1\n")) .zeroed =
      .ok { status := .zeroed, dns_failed := false } := by decide +kernel
  obtain rfl := Except.ok.inj (nothing.symm.trans run)
  exact absurd (strings 0) (by decide)

end File

end CFunc.Networks
