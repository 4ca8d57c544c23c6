import CFunc.Networks.Resolver

/-!
The status of an interface: `GetNetStatus` and `DealMatchStr` of `networks/daemon.c`.

`GetModeStr` copies a value without a `NUL` to an array on the stack that was never set, and
`DealMatchStr` takes from there whatever characters of an address it meets. What the stack held
decides where a value ends.
-/

namespace CFunc.Networks

open CFunc.Lib.CText CFunc.Lib.Folds

/-! ### The code -/

def NetMode : Vector (List Byte) 5 :=
  #v[bytes "inet addr:", bytes "Mask:", [], [], bytes "HWaddr "]

/-- The characters that `DealMatchStr` copies. -/
def dealt (c : Byte) : Bool := c = 46 ∨ (48 ≤ c ∧ c ≤ 58) ∨ (65 ≤ c ∧ c ≤ 70)

/-- Where every character is copied, the loop goes on past the end of the array. -/
def DealMatchStr {n m : Nat} (Source : Vector Byte n) (Dst : Vector Byte m) :
    Except StringFault (Vector Byte m × Nat) :=
  let text := Source.toList.takeWhile dealt
  if text.length = n then .error .read
  else do
    let Dst ← writeField Dst (text ++ [0])
    return (Dst, text.length)

/-- A row of `match`, and the row of `Dst` it is copied to. -/
structure Row where
  matched : Vector Byte 25
  Dst : Vector Byte 25
  deriving DecidableEq

/-- One round of the loop. -/
def matchRow (readbuffer : List Byte) (i : Fin 5) (row : Row) : Except StringFault Row := do
  let (matched, _) ← GetModeStr readbuffer (NetMode.get i) 32 row.matched
  let (Dst, _) ← DealMatchStr matched row.Dst
  return { matched := matched, Dst := Dst }

/-- `readbuffer` is the string that the command has put out, or `none` when nothing is read;
`scratch` is what the two arrays hold before they are set. -/
def GetNetStatus (readbuffer dns_info : Option (List Byte)) (scratch : Vector Row 5)
    (Status : NetStatus) : Except StringFault Listing :=
  match readbuffer with
  | none => .ok { status := Status, dns_failed := false }
  | some readbuffer => do
      let rows ← (List.finRange 5).foldlM
        (fun rows i => do return rows.set i (← matchRow readbuffer i (rows.get i)) i.isLt) scratch
      let listing ← GetDNSStr dns_info Status
      let IPAddr ← strcpy listing.status.IPAddr (rows.get 0).Dst
      let SubNetMask ← strcpy listing.status.SubNetMask (rows.get 1).Dst
      let GateWay ← strcpy listing.status.GateWay (rows.get 2).Dst
      let MACAddr ← strcpy listing.status.MACAddr (rows.get 4).Dst
      return { listing with
        status := { listing.status with
          IPAddr := IPAddr
          SubNetMask := SubNetMask
          GateWay := GateWay
          MACAddr := MACAddr } }

/-! ### What is to hold -/

/-- The label stands in the listing, and where it first does, the value and a blank follow it. -/
def Follows (readbuffer label value : List Byte) : Prop :=
  ∃ rest, strstr label readbuffer = some (label ++ (value ++ 32 :: rest))

/-- The three values of a listing, each of the characters of an address and short enough. -/
structure Listed (readbuffer ip mask mac : List Byte) : Prop where
  ip_follows : Follows readbuffer (bytes "inet addr:") ip
  mask_follows : Follows readbuffer (bytes "Mask:") mask
  mac_follows : Follows readbuffer (bytes "HWaddr ") mac
  characters : ∀ c ∈ ip ++ mask ++ mac, dealt c
  ip_fits : ip.length < 16
  mask_fits : mask.length < 16
  mac_fits : mac.length < 20

/-- Both runs store the three values. -/
def Agree (readbuffer ip mask mac : List Byte) (dns_info : Option (List Byte))
    (scratch scratch' : Vector Row 5) (Status : NetStatus) : Prop :=
  ∃ listing listing',
    GetNetStatus (some readbuffer) dns_info scratch Status = .ok listing ∧
    GetNetStatus (some readbuffer) dns_info scratch' Status = .ok listing' ∧
    (listing.status.IPAddr = listing'.status.IPAddr ∧
      listing.status.SubNetMask = listing'.status.SubNetMask ∧
      listing.status.MACAddr = listing'.status.MACAddr) ∧
    cstr listing.status.IPAddr = ip ∧
    cstr listing.status.SubNetMask = mask ∧
    cstr listing.status.MACAddr = mac

/-- What the stack is to hold: right behind each value a byte that `DealMatchStr` does not copy,
and in the two rows without a label no text that is too long for the gateway or its row. -/
structure Clean (ip mask mac : List Byte) (scratch : Vector Row 5) : Prop where
  ip_ends : ∀ c ∈ (scratch.get 0).matched[ip.length]?, dealt c = false
  mask_ends : ∀ c ∈ (scratch.get 1).matched[mask.length]?, dealt c = false
  gateway_fits : ((scratch.get 2).matched.toList.takeWhile dealt).length < 16
  unused_ends : ((scratch.get 3).matched.toList.takeWhile dealt).length < 25
  mac_ends : ∀ c ∈ (scratch.get 4).matched[mac.length]?, dealt c = false

/-! ### A round -/

section Round

variable {n m : Nat} {Source : Vector Byte n} {Dst Dst' : Vector Byte m} {count : Nat}
  {readbuffer value text : List Byte} {i : Fin 5} {row row' : Row}

theorem DealMatchStr_ok_iff : DealMatchStr Source Dst = .ok (Dst', count) ↔
    (Source.toList.takeWhile dealt).length = count ∧ count ≠ n ∧
      writeField Dst (Source.toList.takeWhile dealt ++ [0]) = .ok Dst' := by
  rw [DealMatchStr]
  by_cases whole : (Source.toList.takeWhile dealt).length = n
  · rw [if_pos whole]
    apply iff_of_false
    · intro run
      cases run
    · rintro ⟨rfl, other, -⟩
      exact other whole
  · rw [if_neg whole, bind_eq_ok_iff]
    constructor
    · rintro ⟨written, write, result⟩
      cases result
      exact ⟨rfl, whole, write⟩
    · rintro ⟨rfl, -, write⟩
      exact ⟨Dst', write, rfl⟩

theorem matchRow_ok_iff : matchRow readbuffer i row = .ok row' ↔
    writeText row.matched (modeText readbuffer (NetMode.get i) 32) = .ok row'.matched ∧
      ∃ count, DealMatchStr row'.matched row.Dst = .ok (row'.Dst, count) := by
  have run : matchRow readbuffer i row =
      writeText row.matched (modeText readbuffer (NetMode.get i) 32) >>= fun matched =>
        DealMatchStr matched row.Dst >>= fun result =>
          return { matched := matched, Dst := result.1 } :=
    GetModeStr_bind row.matched fun matched => do
      let (Dst, _) ← DealMatchStr matched row.Dst
      return ({ matched := matched, Dst := Dst } : Row)
  rw [run, bind_eq_ok_iff]
  constructor
  · rintro ⟨matched, copied, rest⟩
    obtain ⟨⟨Dst, count⟩, dealt, result⟩ := bind_eq_ok_iff.mp rest
    cases result
    exact ⟨copied, count, dealt⟩
  · rintro ⟨copied, count, dealt⟩
    exact ⟨row'.matched, copied, bind_eq_ok_iff.mpr ⟨(row'.Dst, count), dealt, rfl⟩⟩

/-- What a round leaves in a row of `Dst`. -/
theorem matchRow_text_iff :
    (∃ row', matchRow readbuffer i row = .ok row' ∧ cstr row'.Dst = text) ↔
      ∃ matched, writeText row.matched (modeText readbuffer (NetMode.get i) 32) = .ok matched ∧
        matched.toList.takeWhile dealt = text ∧ text.length < 25 := by
  have string (matched : Vector Byte 25) : 0 ∉ matched.toList.takeWhile dealt := by
    intro nul
    exact absurd (List.mem_takeWhile_imp nul) (by decide)
  constructor
  · rintro ⟨row', run, rfl⟩
    obtain ⟨copied, count, run⟩ := matchRow_ok_iff.mp run
    obtain ⟨-, -, write⟩ := DealMatchStr_ok_iff.mp run
    have bytes_eq := toList_of_writeField write
    rw [List.append_assoc] at bytes_eq
    have text_eq := cstr_eq bytes_eq (string row'.matched)
    refine ⟨row'.matched, copied, text_eq.symm, ?_⟩
    rw [text_eq]
    by_contra long
    rw [writeField_eq_error_iff.mpr ⟨rfl, by simpa using long⟩] at write
    cases write
  · rintro ⟨matched, copied, rfl, fits⟩
    obtain ⟨Dst, write⟩ := writeField_ok row.Dst
      (show (matched.toList.takeWhile dealt ++ [0]).length ≤ 25 by simpa using fits)
    have bytes_eq := toList_of_writeField write
    rw [List.append_assoc] at bytes_eq
    have run : ∃ count, DealMatchStr matched row.Dst = .ok (Dst, count) :=
      ⟨_, DealMatchStr_ok_iff.mpr ⟨rfl, fits.ne, write⟩⟩
    exact ⟨⟨matched, Dst⟩, matchRow_ok_iff.mpr ⟨copied, run⟩, cstr_eq bytes_eq (string matched)⟩

/-- The text behind a label. -/
theorem modeText_of_follows {label : List Byte} (named : label ≠ [])
    (follows : Follows readbuffer label value) (characters : ∀ c ∈ value, dealt c) :
    modeText readbuffer label 32 = some value := by
  obtain ⟨rest, at_label⟩ := follows
  obtain ⟨before, -, rfl, -⟩ := append_of_strstr at_label
  have no_blank : (32 : Byte) ∉ value := fun blank => absurd (characters 32 blank) (by decide)
  have some_byte : before ++ (label ++ (value ++ 32 :: rest)) ≠ [] := by simp
  rw [modeText, if_neg (not_or.mpr ⟨some_byte, named⟩), at_label]
  simp only [List.drop_left, takeWhile_ne_append no_blank]
  simp

/-- A value ends where the row held another byte behind it. -/
theorem matchRow_value_iff (named : NetMode.get i ≠ [])
    (follows : Follows readbuffer (NetMode.get i) value) (characters : ∀ c ∈ value, dealt c)
    (fits : value.length < 25) :
    (∃ row', matchRow readbuffer i row = .ok row' ∧ cstr row'.Dst = value) ↔
      ∀ c ∈ row.matched[value.length]?, dealt c = false := by
  obtain ⟨matched, copied⟩ := writeField_ok row.matched fits.le
  have inside : value.length < row.matched.toList.length := by rwa [Vector.length_toList]
  have text_eq : matched.toList.takeWhile dealt = value ↔
      dealt row.matched[value.length] = false := by
    rw [toList_of_writeField copied, List.takeWhile_append_of_pos characters,
      List.append_right_eq_self, List.drop_eq_getElem_cons inside, Vector.getElem_toList]
    simp [List.takeWhile_eq_nil_iff]
  rw [matchRow_text_iff, modeText_of_follows named follows characters]
  simp [writeText, copied, text_eq, fits]

/-- A row without a label holds what the stack held. -/
theorem matchRow_none_iff (unlabelled : modeText readbuffer (NetMode.get i) 32 = none) :
    (∃ row', matchRow readbuffer i row = .ok row' ∧ cstr row'.Dst = text) ↔
      row.matched.toList.takeWhile dealt = text ∧ text.length < 25 := by
  rw [matchRow_text_iff, unlabelled]
  simp [writeText]

end Round

/-! ### A run -/

/-- What the copies at the end of a run make of what `GetDNSStr` leaves. -/
structure Copied (rows : Vector Row 5) (before after : Listing) : Prop where
  IPAddr : strcpy before.status.IPAddr (rows.get 0).Dst = .ok after.status.IPAddr
  SubNetMask : strcpy before.status.SubNetMask (rows.get 1).Dst = .ok after.status.SubNetMask
  GateWay : strcpy before.status.GateWay (rows.get 2).Dst = .ok after.status.GateWay
  MACAddr : strcpy before.status.MACAddr (rows.get 4).Dst = .ok after.status.MACAddr
  DNSServer : after.status.DNSServer = before.status.DNSServer
  dns_failed : after.dns_failed = before.dns_failed

section Run

variable {readbuffer ip mask mac : List Byte} {dns_info : Option (List Byte)}
  {scratch scratch' rows : Vector Row 5} {Status : NetStatus} {listing listing' : Listing}

theorem rows_ok_iff :
    (List.finRange 5).foldlM
        (fun rows i => do return rows.set i (← matchRow readbuffer i (rows.get i)) i.isLt) scratch =
      .ok rows ↔
      ∀ i : Fin 5, matchRow readbuffer i (scratch.get i) = .ok (rows.get i) := by
  rw [foldlM_set_ok_iff (List.nodup_finRange 5)]
  simp only [List.mem_finRange, if_true]

theorem GetNetStatus_ok_iff :
    GetNetStatus (some readbuffer) dns_info scratch Status = .ok listing ↔
      ∃ rows before, (∀ i : Fin 5, matchRow readbuffer i (scratch.get i) = .ok (rows.get i)) ∧
        GetDNSStr dns_info Status = .ok before ∧ Copied rows before listing := by
  rw [GetNetStatus, bind_eq_ok_iff]
  apply exists_congr
  intro rows
  rw [rows_ok_iff]
  constructor
  · rintro ⟨matched, run⟩
    obtain ⟨before, resolved, run⟩ := bind_eq_ok_iff.mp run
    obtain ⟨IPAddr, ip_copied, run⟩ := bind_eq_ok_iff.mp run
    obtain ⟨SubNetMask, mask_copied, run⟩ := bind_eq_ok_iff.mp run
    obtain ⟨GateWay, gateway_copied, run⟩ := bind_eq_ok_iff.mp run
    obtain ⟨MACAddr, mac_copied, run⟩ := bind_eq_ok_iff.mp run
    cases run
    exact ⟨before, matched, resolved, ip_copied, mask_copied, gateway_copied, mac_copied, rfl, rfl⟩
  · rintro ⟨before, matched, resolved, copied⟩
    refine ⟨matched, bind_eq_ok_iff.mpr ⟨before, resolved, ?_⟩⟩
    obtain ⟨⟨IPAddr, SubNetMask, GateWay, DNSServer, MACAddr⟩, dns_failed⟩ := listing
    obtain ⟨ip_copied, mask_copied, gateway_copied, mac_copied, rfl, rfl⟩ := copied
    refine bind_eq_ok_iff.mpr ⟨IPAddr, ip_copied, ?_⟩
    refine bind_eq_ok_iff.mpr ⟨SubNetMask, mask_copied, ?_⟩
    refine bind_eq_ok_iff.mpr ⟨GateWay, gateway_copied, ?_⟩
    exact bind_eq_ok_iff.mpr ⟨MACAddr, mac_copied, rfl⟩

theorem Listed.value_fits (listed : Listed readbuffer ip mask mac) :
    ip.length < 25 ∧ mask.length < 25 ∧ mac.length < 25 :=
  ⟨listed.ip_fits.trans (by decide), listed.mask_fits.trans (by decide),
    listed.mac_fits.trans (by decide)⟩

theorem Listed.ip_iff (listed : Listed readbuffer ip mask mac) (row : Row) :
    (∃ row', matchRow readbuffer 0 row = .ok row' ∧ cstr row'.Dst = ip) ↔
      ∀ c ∈ row.matched[ip.length]?, dealt c = false := by
  have characters : ∀ c ∈ ip, dealt c := fun c member => listed.characters c (by simp [member])
  exact matchRow_value_iff (by decide) listed.ip_follows characters listed.value_fits.1

theorem Listed.mask_iff (listed : Listed readbuffer ip mask mac) (row : Row) :
    (∃ row', matchRow readbuffer 1 row = .ok row' ∧ cstr row'.Dst = mask) ↔
      ∀ c ∈ row.matched[mask.length]?, dealt c = false := by
  have characters : ∀ c ∈ mask, dealt c := fun c member => listed.characters c (by simp [member])
  exact matchRow_value_iff (by decide) listed.mask_follows characters listed.value_fits.2.1

theorem Listed.mac_iff (listed : Listed readbuffer ip mask mac) (row : Row) :
    (∃ row', matchRow readbuffer 4 row = .ok row' ∧ cstr row'.Dst = mac) ↔
      ∀ c ∈ row.matched[mac.length]?, dealt c = false := by
  have characters : ∀ c ∈ mac, dealt c := fun c member => listed.characters c (by simp [member])
  exact matchRow_value_iff (by decide) listed.mac_follows characters listed.value_fits.2.2

/-- The two rows without a label. -/
theorem modeText_unlabelled (readbuffer : List Byte) :
    modeText readbuffer (NetMode.get 2) 32 = none ∧
      modeText readbuffer (NetMode.get 3) 32 = none :=
  ⟨if_pos (.inr rfl), if_pos (.inr rfl)⟩

/-- One run stores the three values. -/
def Stores (readbuffer ip mask mac : List Byte) (dns_info : Option (List Byte))
    (scratch : Vector Row 5) (Status : NetStatus) (listing : Listing) : Prop :=
  GetNetStatus (some readbuffer) dns_info scratch Status = .ok listing ∧
    cstr listing.status.IPAddr = ip ∧
    cstr listing.status.SubNetMask = mask ∧
    cstr listing.status.MACAddr = mac

theorem clean_of_stores (listed : Listed readbuffer ip mask mac)
    (stores : Stores readbuffer ip mask mac dns_info scratch Status listing) :
    Clean ip mask mac scratch ∧ ServersFit dns_info := by
  obtain ⟨run, ip_stored, mask_stored, mac_stored⟩ := stores
  obtain ⟨rows, before, matched, resolved, copied⟩ := GetNetStatus_ok_iff.mp run
  have gateway : (scratch.get 2).matched.toList.takeWhile dealt = cstr (rows.get 2).Dst ∧ _ :=
    (matchRow_none_iff (modeText_unlabelled readbuffer).1).mp ⟨rows.get 2, matched 2, rfl⟩
  have unused : (scratch.get 3).matched.toList.takeWhile dealt = cstr (rows.get 3).Dst ∧ _ :=
    (matchRow_none_iff (modeText_unlabelled readbuffer).2).mp ⟨rows.get 3, matched 3, rfl⟩
  refine ⟨?_, (GetDNSStr_returns_iff dns_info Status).mp ⟨before, resolved⟩⟩
  constructor
  case ip_ends =>
      exact (listed.ip_iff (scratch.get 0)).mp
        ⟨rows.get 0, matched 0, (cstr_of_strcpy copied.IPAddr).symm.trans ip_stored⟩
  case mask_ends =>
      exact (listed.mask_iff (scratch.get 1)).mp
        ⟨rows.get 1, matched 1, (cstr_of_strcpy copied.SubNetMask).symm.trans mask_stored⟩
  case gateway_fits =>
      rw [gateway.1]
      exact length_lt_of_strcpy copied.GateWay
  case unused_ends =>
      rw [unused.1]
      exact unused.2
  case mac_ends =>
      exact (listed.mac_iff (scratch.get 4)).mp
        ⟨rows.get 4, matched 4, (cstr_of_strcpy copied.MACAddr).symm.trans mac_stored⟩

theorem stores_of_clean (listed : Listed readbuffer ip mask mac)
    (clean : Clean ip mask mac scratch) (fit : ServersFit dns_info) :
    ∃ listing, Stores readbuffer ip mask mac dns_info scratch Status listing := by
  let texts : Vector (List Byte) 5 :=
    #v[ip, mask, (scratch.get 2).matched.toList.takeWhile dealt,
      (scratch.get 3).matched.toList.takeWhile dealt, mac]
  have rounds : ∀ i : Fin 5, ∃ row', matchRow readbuffer i (scratch.get i) = .ok row' ∧
      cstr row'.Dst = texts.get i
    | 0 => (listed.ip_iff (scratch.get 0)).mpr clean.ip_ends
    | 1 => (listed.mask_iff (scratch.get 1)).mpr clean.mask_ends
    | 2 => (matchRow_none_iff (modeText_unlabelled readbuffer).1).mpr
        ⟨rfl, clean.gateway_fits.trans (by decide)⟩
    | 3 => (matchRow_none_iff (modeText_unlabelled readbuffer).2).mpr ⟨rfl, clean.unused_ends⟩
    | 4 => (listed.mac_iff (scratch.get 4)).mpr clean.mac_ends
  obtain ⟨rows, matched⟩ := exists_vector_iff.mpr rounds
  obtain ⟨before, resolved⟩ := (GetDNSStr_returns_iff dns_info Status).mpr fit
  have ip_eq : cstr (rows.get 0).Dst = ip := (matched 0).2
  have mask_eq : cstr (rows.get 1).Dst = mask := (matched 1).2
  have gateway_eq : cstr (rows.get 2).Dst = (scratch.get 2).matched.toList.takeWhile dealt :=
    (matched 2).2
  have mac_eq : cstr (rows.get 4).Dst = mac := (matched 4).2
  obtain ⟨IPAddr, ip_copied, ip_stored⟩ :=
    strcpy_ok before.status.IPAddr (rows.get 0).Dst (by rw [ip_eq]; exact listed.ip_fits)
  obtain ⟨SubNetMask, mask_copied, mask_stored⟩ :=
    strcpy_ok before.status.SubNetMask (rows.get 1).Dst (by rw [mask_eq]; exact listed.mask_fits)
  obtain ⟨GateWay, gateway_copied, -⟩ :=
    strcpy_ok before.status.GateWay (rows.get 2).Dst (by rw [gateway_eq]; exact clean.gateway_fits)
  obtain ⟨MACAddr, mac_copied, mac_stored⟩ :=
    strcpy_ok before.status.MACAddr (rows.get 4).Dst (by rw [mac_eq]; exact listed.mac_fits)
  have copied : Copied rows before
      ⟨⟨IPAddr, SubNetMask, GateWay, before.status.DNSServer, MACAddr⟩, before.dns_failed⟩ :=
    ⟨ip_copied, mask_copied, gateway_copied, mac_copied, rfl, rfl⟩
  exact ⟨_, GetNetStatus_ok_iff.mpr ⟨rows, before, fun i => (matched i).1, resolved, copied⟩,
    ip_stored.trans ip_eq, mask_stored.trans mask_eq, mac_stored.trans mac_eq⟩

/-- The same strings in two runs are the same arrays. -/
theorem fields_eq (stores : Stores readbuffer ip mask mac dns_info scratch Status listing)
    (stores' : Stores readbuffer ip mask mac dns_info scratch' Status listing') :
    listing.status.IPAddr = listing'.status.IPAddr ∧
      listing.status.SubNetMask = listing'.status.SubNetMask ∧
      listing.status.MACAddr = listing'.status.MACAddr := by
  obtain ⟨run, ip_stored, mask_stored, mac_stored⟩ := stores
  obtain ⟨run', ip_stored', mask_stored', mac_stored'⟩ := stores'
  obtain ⟨rows, before, -, resolved, copied⟩ := GetNetStatus_ok_iff.mp run
  obtain ⟨rows', before', -, resolved', copied'⟩ := GetNetStatus_ok_iff.mp run'
  obtain rfl := Except.ok.inj (resolved.symm.trans resolved')
  exact ⟨strcpy_unique copied.IPAddr copied'.IPAddr (ip_stored.trans ip_stored'.symm),
    strcpy_unique copied.SubNetMask copied'.SubNetMask (mask_stored.trans mask_stored'.symm),
    strcpy_unique copied.MACAddr copied'.MACAddr (mac_stored.trans mac_stored'.symm)⟩

/-- Two runs store the values of the listing if and only if the stack is clean in both, and the
addresses of the name servers fit. -/
theorem GetNetStatus_agree_iff (listed : Listed readbuffer ip mask mac)
    (dns_info : Option (List Byte)) (scratch scratch' : Vector Row 5) (Status : NetStatus) :
    Agree readbuffer ip mask mac dns_info scratch scratch' Status ↔
      Clean ip mask mac scratch ∧ Clean ip mask mac scratch' ∧ ServersFit dns_info := by
  constructor
  · rintro ⟨listing, listing', run, run', ⟨ip_eq, mask_eq, mac_eq⟩, ip_stored, mask_stored,
      mac_stored⟩
    obtain ⟨clean, fit⟩ := clean_of_stores listed ⟨run, ip_stored, mask_stored, mac_stored⟩
    have stores' : Stores readbuffer ip mask mac dns_info scratch' Status listing' :=
      ⟨run', ip_eq ▸ ip_stored, mask_eq ▸ mask_stored, mac_eq ▸ mac_stored⟩
    exact ⟨clean, (clean_of_stores listed stores').1, fit⟩
  · rintro ⟨clean, clean', fit⟩
    obtain ⟨listing, stores⟩ := stores_of_clean listed clean fit
    obtain ⟨listing', stores'⟩ := stores_of_clean listed clean' fit
    exact ⟨listing, listing', stores.1, stores'.1, fields_eq stores stores', stores.2⟩

/-! A listing, and a stack that was cleared. -/

def sampleListing : List Byte := bytes "HWaddr 00:1A inet addr:10.0.0.2 Mask:255.0.0.0 UP"

theorem listed_sample :
    Listed sampleListing (bytes "10.0.0.2") (bytes "255.0.0.0") (bytes "00:1A") := by
  constructor
  case ip_follows => exact ⟨bytes "Mask:255.0.0.0 UP", by decide +kernel⟩
  case mask_follows => exact ⟨bytes "UP", by decide +kernel⟩
  case mac_follows => exact ⟨bytes "inet addr:10.0.0.2 Mask:255.0.0.0 UP", by decide +kernel⟩
  all_goals decide +kernel

def clearedRow : Row := { matched := .replicate 25 0, Dst := .replicate 25 0 }

theorem clean_sample :
    Clean (bytes "10.0.0.2") (bytes "255.0.0.0") (bytes "00:1A") (.replicate 5 clearedRow) := by
  constructor <;> decide +kernel

theorem GetNetStatus_agree_iff_sample :
    Agree sampleListing (bytes "10.0.0.2") (bytes "255.0.0.0") (bytes "00:1A") none
      (.replicate 5 clearedRow) (.replicate 5 clearedRow) .zeroed :=
  (GetNetStatus_agree_iff listed_sample none _ _ _).mpr
    ⟨clean_sample, clean_sample, fun _ member => nomatch member⟩

/-- A 9 behind the address belongs to it. -/
def strayRow : Row := { clearedRow with matched := clearedRow.matched.set 8 57 }

theorem GetNetStatus_not_agree :
    ¬ ∀ (readbuffer ip mask mac : List Byte) (dns_info : Option (List Byte))
      (scratch scratch' : Vector Row 5) (Status : NetStatus), Listed readbuffer ip mask mac →
        Agree readbuffer ip mask mac dns_info scratch scratch' Status := by
  intro always
  obtain ⟨listing, -, run, -, -, ip_stored, -⟩ := always sampleListing _ _ _ none
    ((Vector.replicate 5 clearedRow).set 0 strayRow) (.replicate 5 clearedRow) .zeroed
    listed_sample
  have stray : (GetNetStatus (some sampleListing) none
      ((Vector.replicate 5 clearedRow).set 0 strayRow) .zeroed).map
        (fun listing => cstr listing.status.IPAddr) = .ok (bytes "10.0.0.29") := by
    decide +kernel
  rw [run] at stray
  exact absurd (ip_stored.symm.trans (Except.ok.inj stray)) (by decide)

end Run

end CFunc.Networks
