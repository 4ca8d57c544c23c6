import CFunc.Networks.Daemon

/-!
The command branch of `networks/daemon.c` on a FIFO that does not block.

A `read` gives bytes, none at the end of the file, or -1 while a writer has sent nothing. The
branch tests its result for 0 only, so that the byte it goes by may be an earlier one, or what
`malloc` left.
-/

namespace CFunc.Networks

/-! ### The branch to its end -/

/-- What becomes of the command branch in one pass. -/
inductive Taken where
  | idle
  | called (command : Command)
  /-- `exit(-1)`, for want of memory -/
  | exited
  | undefined
  deriving DecidableEq

/-- `malloc(len+1)`, and what follows. No memory has a negative size; for -1 there is a block of no
bytes, and what is read into it has no meaning. -/
def allocated (len : Int) (rest : Nat → Taken) : Taken :=
  if len = -1 then .undefined
  else if len < 0 then .exited
  else rest len.toNat

def takenWifi (fifo : Fifo) (pFifo_rBuffer : List Byte) : Taken :=
  let pFifo_rBuffer := (fifo.read [1, 1]).into pFifo_rBuffer
  allocated (firstByte pFifo_rBuffer) fun len =>
    let ssid_read := fifo.read [1, 1, len]
    if ssid_read.nonzero then
      let szSSID := terminated len (ssid_read.into (fifo.fresh_ssid (len + 1)))
      let len_read := fifo.read [1, 1, len, 1]
      if len_read.nonzero then
        let pFifo_rBuffer := len_read.into pFifo_rBuffer
        if firstByte pFifo_rBuffer = 0 then .called (.ConnectWifi szSSID none)
        else
          allocated (firstByte pFifo_rBuffer) fun len' =>
            let password_read := fifo.read [1, 1, len, 1, len']
            if password_read.nonzero then
              let szPassword :=
                terminated len' (password_read.into (fifo.fresh_password (len' + 1)))
              .called (.ConnectWifi szSSID (some szPassword))
            else .idle
      else .idle
    else .idle

def takenCommand (fifo : Fifo) : Taken :=
  let command_read := fifo.read [1]
  if command_read.nonzero then
    let pFifo_rBuffer := command_read.into [fifo.fresh_byte]
    let iConnect_Flag := firstByte pFifo_rBuffer
    if iConnect_Flag = 0 then .called .ConnectInternet
    else if iConnect_Flag = 1 then takenWifi fifo pFifo_rBuffer
    else if iConnect_Flag = 2 then .called .ConnectWifiAuto
    else .idle
  else .idle

/-- The command that is taken, where the length of a buffer has a meaning. -/
def Taken.command : Taken → Option (Option Command)
  | idle => some none
  | called command => some (some command)
  | exited => none
  | undefined => none

theorem command_allocated (len : Int) (rest : Nat → Taken) :
    (allocated len rest).command = if len < 0 then none else (rest len.toNat).command := by
  rw [allocated]
  split
  case isTrue same =>
    subst same
    rfl
  case isFalse =>
    split
    · rfl
    · rfl

theorem command_ite {c : Prop} [Decidable c] (yes no : Taken) :
    (if c then yes else no).command = if c then yes.command else no.command :=
  apply_ite Taken.command c yes no

theorem readWifiCommand_eq (fifo : Fifo) (pFifo_rBuffer : List Byte) :
    readWifiCommand fifo pFifo_rBuffer = (takenWifi fifo pFifo_rBuffer).command := by
  simp only [readWifiCommand, takenWifi, command_ite, command_allocated]
  rfl

/-- The main loop takes the same command. -/
theorem readCommand_eq (fifo : Fifo) : readCommand fifo = (takenCommand fifo).command := by
  simp only [readCommand, takenCommand, command_ite, readWifiCommand_eq]
  rfl

/-! ### What was sent -/

/-- The read delivered `b`. -/
def Read.Delivers (result : Read) (b : Byte) : Prop := ∃ rest, result = .delivered (b :: rest)

/-- The read delivered `n` bytes. -/
def Read.Full (result : Read) (n : Nat) : Prop := ∃ data, result = .delivered data ∧ n ≤ data.length

/-- The byte in a buffer of one after the read. -/
def Read.byte (result : Read) (before : Byte) : Byte :=
  match result with
  | .delivered (b :: _) => b
  | _ => before

/-- A length byte as a size. -/
def size (len : Byte) : Nat := len.toInt.toNat

/-- The string of `len` bytes is what the read delivered. -/
def StringSent (result : Read) (len : Nat) (string : List Byte) : Prop :=
  ∃ data, result = .delivered data ∧ len ≤ data.length ∧ string = terminated len data

/-- A length of 0 stands for no password. -/
def PasswordSent (fifo : Fifo) (n : Nat) : Option (List Byte) → Prop
  | none => (fifo.read [1, 1, n, 1]).Delivers 0
  | some szPassword => ∃ len', (fifo.read [1, 1, n, 1]).Delivers len' ∧
      StringSent (fifo.read [1, 1, n, 1, size len']) (size len') szPassword

/-- The command, with its arguments, was read from the FIFO. -/
def Sent (fifo : Fifo) : Command → Prop
  | .ConnectInternet => (fifo.read [1]).Delivers 0
  | .ConnectWifi szSSID szPassword => (fifo.read [1]).Delivers 1 ∧
      ∃ len, (fifo.read [1, 1]).Delivers len ∧
        StringSent (fifo.read [1, 1, size len]) (size len) szSSID ∧
        PasswordSent fifo (size len) szPassword
  | .ConnectWifiAuto => (fifo.read [1]).Delivers 2

/-- Nothing is called that was not sent. -/
def OnlySent (fifo : Fifo) : Taken → Prop
  | .idle => True
  | .called command => Sent fifo command
  | .exited => True
  | .undefined => False

/-! ### When the reads bear it out -/

/-- After the command byte 1: no length is -1, and where no read at the end of the file stops the
pass, every read has delivered what it was to. -/
def WifiHonest (fifo : Fifo) (flag : Byte) : Prop :=
  let len := (fifo.read [1, 1]).byte flag
  let n := size len
  let len' := (fifo.read [1, 1, n, 1]).byte len
  let n' := size len'
  len ≠ -1 ∧
  (0 ≤ len.toInt → (fifo.read [1, 1, n]).nonzero → (fifo.read [1, 1, n, 1]).nonzero →
    len' ≠ -1 ∧
    (0 ≤ len'.toInt → (len' ≠ 0 → (fifo.read [1, 1, n, 1, n']).nonzero) →
      (fifo.read [1]).Full 1 ∧ (fifo.read [1, 1]).Full 1 ∧ (fifo.read [1, 1, n]).Full n ∧
        (fifo.read [1, 1, n, 1]).Full 1 ∧ (len' ≠ 0 → (fifo.read [1, 1, n, 1, n']).Full n')))

/-- A read that fails leaves neither 0 nor 2 in the buffer, and what is taken for the wifi command
is one. -/
def Honest (fifo : Fifo) : Prop :=
  (fifo.read [1] = .fail → fifo.fresh_byte ≠ 0 ∧ fifo.fresh_byte ≠ 2) ∧
  ((fifo.read [1]).nonzero → (fifo.read [1]).byte fifo.fresh_byte = 1 → WifiHonest fifo 1)

section Reads

variable {result : Read} {before b : Byte} {n len : Nat} {fresh string : List Byte}

theorem firstByte_into (buffer : List Byte) :
    firstByte (result.into buffer) = (result.byte (buffer.headD 0)).toInt := by
  cases result with
  | fail => rfl
  | delivered data =>
      cases data with
      | nil => rfl
      | cons b rest => rfl

theorem headD_into (buffer : List Byte) :
    (result.into buffer).headD 0 = result.byte (buffer.headD 0) := by
  cases result with
  | fail => rfl
  | delivered data =>
      cases data with
      | nil => rfl
      | cons b rest => rfl

theorem Read.Delivers.byte_eq (delivers : result.Delivers b) : result.byte before = b := by
  obtain ⟨rest, rfl⟩ := delivers
  rfl

theorem Read.Delivers.full (delivers : result.Delivers b) : result.Full 1 := by
  obtain ⟨rest, rfl⟩ := delivers
  exact ⟨b :: rest, rfl, Nat.le_add_left 1 _⟩

theorem Read.Full.delivers (full : result.Full 1) (before : Byte) :
    result.Delivers (result.byte before) := by
  obtain ⟨data, rfl, some_byte⟩ := full
  cases data with
  | nil => cases some_byte
  | cons b rest => exact ⟨rest, rfl⟩

theorem StringSent.full (sent : StringSent result len string) : result.Full len := by
  obtain ⟨data, delivered, enough, -⟩ := sent
  exact ⟨data, delivered, enough⟩

/-- A read in full leaves nothing of what the buffer held. -/
theorem Read.Full.sent (full : result.Full len) (fresh : List Byte) :
    StringSent result len (terminated len (result.into fresh)) := by
  obtain ⟨data, rfl, enough⟩ := full
  refine ⟨data, rfl, enough, ?_⟩
  rw [terminated, terminated, Read.into, List.take_append_of_le_length enough]

theorem stringSent_iff (fresh : List Byte) :
    StringSent result len (terminated len (result.into fresh)) ↔ result.Full len :=
  ⟨StringSent.full, fun full => full.sent fresh⟩

theorem delivers_iff (byte_eq : result.byte before = b) : result.Delivers b ↔ result.Full 1 := by
  constructor
  · exact Read.Delivers.full
  · intro full
    exact byte_eq ▸ full.delivers before

end Reads

/-! ### The stages of the branch -/

section Stages

variable {fifo : Fifo} {szSSID : List Byte} {szPassword : Option (List Byte)} {n : Nat}
  {before : Byte}

theorem onlySent_allocated (len : Byte) (rest : Nat → Taken) :
    OnlySent fifo (allocated len.toInt rest) ↔
      len ≠ -1 ∧ (0 ≤ len.toInt → OnlySent fifo (rest (size len))) := by
  have minus_one : len.toInt = -1 ↔ len = -1 := BitVec.toInt_inj (y := -1)
  by_cases empty : len = -1
  · rw [allocated, if_pos (minus_one.mpr empty)]
    exact iff_of_false id fun both => both.1 empty
  · rw [allocated, if_neg (mt minus_one.mp empty), and_iff_right empty]
    by_cases negative : len.toInt < 0
    · rw [if_pos negative]
      exact iff_of_true trivial fun nonneg => absurd nonneg (not_le.mpr negative)
    · rw [if_neg negative, forall_prop_of_true (not_lt.mp negative)]
      rfl

theorem onlySent_ite (c : Prop) [Decidable c] (yes : Taken) :
    OnlySent fifo (if c then yes else .idle) ↔ (c → OnlySent fifo yes) := by
  by_cases holds : c
  · rw [if_pos holds, forall_prop_of_true holds]
  · rw [if_neg holds]
    exact iff_of_true trivial fun c => absurd c holds

/-- For a command byte 1 in the buffer the arguments of the call are left to trace. -/
theorem sent_wifi_iff (flag : (fifo.read [1]).byte fifo.fresh_byte = 1)
    (length : size ((fifo.read [1, 1]).byte 1) = n) :
    Sent fifo (.ConnectWifi szSSID szPassword) ↔
      (fifo.read [1]).Full 1 ∧ (fifo.read [1, 1]).Full 1 ∧
        StringSent (fifo.read [1, 1, n]) n szSSID ∧ PasswordSent fifo n szPassword := by
  subst length
  rw [Sent, delivers_iff flag]
  apply and_congr_right'
  constructor
  · rintro ⟨len, delivers, rest⟩
    rw [delivers.byte_eq]
    exact ⟨delivers.full, rest⟩
  · rintro ⟨full, rest⟩
    exact ⟨_, full.delivers 1, rest⟩

theorem passwordSent_none_iff (zero : (fifo.read [1, 1, n, 1]).byte before = 0) :
    PasswordSent fifo n none ↔ (fifo.read [1, 1, n, 1]).Full 1 :=
  delivers_iff zero

theorem passwordSent_some_iff {n' : Nat}
    (length : size ((fifo.read [1, 1, n, 1]).byte before) = n') (fresh : List Byte) :
    PasswordSent fifo n
        (some (terminated n' ((fifo.read [1, 1, n, 1, n']).into fresh))) ↔
      (fifo.read [1, 1, n, 1]).Full 1 ∧ (fifo.read [1, 1, n, 1, n']).Full n' := by
  subst length
  constructor
  · rintro ⟨len', delivers, sent⟩
    rw [delivers.byte_eq] at sent ⊢
    exact ⟨delivers.full, sent.full⟩
  · rintro ⟨full, full'⟩
    exact ⟨_, full.delivers before, full'.sent fresh⟩

/-- What follows on the length of the password. -/
theorem onlySent_password_iff (flag : (fifo.read [1]).byte fifo.fresh_byte = 1) {len' : Byte}
    (length : size ((fifo.read [1, 1]).byte 1) = n)
    (length' : (fifo.read [1, 1, n, 1]).byte ((fifo.read [1, 1]).byte 1) = len')
    (fresh fresh' : List Byte) :
    OnlySent fifo
        (if len'.toInt = 0 then
          .called (.ConnectWifi (terminated n ((fifo.read [1, 1, n]).into fresh)) none)
        else
          allocated len'.toInt fun n' =>
            if (fifo.read [1, 1, n, 1, n']).nonzero then
              .called (.ConnectWifi (terminated n ((fifo.read [1, 1, n]).into fresh))
                (some (terminated n' ((fifo.read [1, 1, n, 1, n']).into fresh'))))
            else .idle) ↔
      len' ≠ -1 ∧
      (0 ≤ len'.toInt → (len' ≠ 0 → (fifo.read [1, 1, n, 1, size len']).nonzero) →
        (fifo.read [1]).Full 1 ∧ (fifo.read [1, 1]).Full 1 ∧ (fifo.read [1, 1, n]).Full n ∧
          (fifo.read [1, 1, n, 1]).Full 1 ∧
          (len' ≠ 0 → (fifo.read [1, 1, n, 1, size len']).Full (size len'))) := by
  have is_zero : len'.toInt = 0 ↔ len' = 0 := BitVec.toInt_inj (y := 0)
  by_cases zero : len' = 0
  · -- there is no password to read
    subst zero
    have sent : OnlySent fifo (.called (.ConnectWifi
        (terminated n ((fifo.read [1, 1, n]).into fresh)) none)) ↔
        (fifo.read [1]).Full 1 ∧ (fifo.read [1, 1]).Full 1 ∧ (fifo.read [1, 1, n]).Full n ∧
          (fifo.read [1, 1, n, 1]).Full 1 := by
      rw [OnlySent, sent_wifi_iff flag length, stringSent_iff, passwordSent_none_iff length']
    rw [if_pos (is_zero.mpr rfl), sent]
    constructor
    · rintro ⟨first, second, third, fourth⟩
      exact ⟨by decide, fun _ _ => ⟨first, second, third, fourth, absurd rfl⟩⟩
    · rintro ⟨-, all⟩
      obtain ⟨first, second, third, fourth, -⟩ := all le_rfl (absurd rfl)
      exact ⟨first, second, third, fourth⟩
  · have sent : OnlySent fifo (.called (.ConnectWifi
        (terminated n ((fifo.read [1, 1, n]).into fresh))
        (some (terminated (size len')
          ((fifo.read [1, 1, n, 1, size len']).into fresh'))))) ↔
        (fifo.read [1]).Full 1 ∧ (fifo.read [1, 1]).Full 1 ∧ (fifo.read [1, 1, n]).Full n ∧
          (fifo.read [1, 1, n, 1]).Full 1 ∧
          (fifo.read [1, 1, n, 1, size len']).Full (size len') := by
      rw [OnlySent, sent_wifi_iff flag length, stringSent_iff,
        passwordSent_some_iff (congrArg size length')]
    rw [if_neg (mt is_zero.mp zero), onlySent_allocated, onlySent_ite, sent,
      forall_prop_of_true zero, forall_prop_of_true zero]

theorem onlySent_wifi_iff (flag : (fifo.read [1]).byte fifo.fresh_byte = 1)
    {pFifo_rBuffer : List Byte} (buffer : pFifo_rBuffer.headD 0 = 1) :
    OnlySent fifo (takenWifi fifo pFifo_rBuffer) ↔ WifiHonest fifo 1 := by
  simp only [takenWifi, firstByte_into, headD_into, buffer, onlySent_allocated, onlySent_ite]
  apply and_congr_right'
  apply imp_congr_right
  intro _
  apply imp_congr_right
  intro _
  apply imp_congr_right
  intro _
  exact onlySent_password_iff flag rfl rfl _ _

/-- Past the end of the file a read that did not fail gave a byte. -/
theorem Read.full_iff {result : Read} (going : result.nonzero) :
    result.Full 1 ↔ result ≠ .fail := by
  cases result with
  | fail => exact iff_of_false (fun ⟨_, same, _⟩ => nomatch same) (not_not.mpr rfl)
  | delivered data =>
      cases data with
      | nil => exact absurd going (by decide)
      | cons b rest => exact iff_of_true ⟨_, rfl, Nat.le_add_left 1 _⟩ nofun

/-- A pass calls only what was sent if and only if the reads bear it out. -/
theorem takenCommand_sent_iff (fifo : Fifo) :
    OnlySent fifo (takenCommand fifo) ↔ Honest fifo := by
  have left_over (failed : fifo.read [1] = .fail) :
      (fifo.read [1]).byte fifo.fresh_byte = fifo.fresh_byte := by
    rw [failed]
    rfl
  have is_zero : ((fifo.read [1]).byte fifo.fresh_byte).toInt = 0 ↔
      (fifo.read [1]).byte fifo.fresh_byte = 0 := BitVec.toInt_inj (y := 0)
  have is_one : ((fifo.read [1]).byte fifo.fresh_byte).toInt = 1 ↔
      (fifo.read [1]).byte fifo.fresh_byte = 1 := BitVec.toInt_inj (y := 1)
  have is_two : ((fifo.read [1]).byte fifo.fresh_byte).toInt = 2 ↔
      (fifo.read [1]).byte fifo.fresh_byte = 2 := BitVec.toInt_inj (y := 2)
  rw [takenCommand, onlySent_ite, Honest]
  simp only [firstByte_into, List.headD_cons]
  by_cases going : (fifo.read [1]).nonzero
  · rw [forall_prop_of_true going, forall_prop_of_true going]
    by_cases zero : (fifo.read [1]).byte fifo.fresh_byte = 0
    · rw [if_pos (is_zero.mpr zero), OnlySent, Sent, delivers_iff zero, Read.full_iff going, zero]
      constructor
      · exact fun read => ⟨fun failed => absurd failed read, fun one => absurd one (by decide)⟩
      · exact fun honest failed => (honest.1 failed).1 ((left_over failed).symm.trans zero)
    · rw [if_neg (mt is_zero.mp zero)]
      by_cases one : (fifo.read [1]).byte fifo.fresh_byte = 1
      · have buffer : ((fifo.read [1]).into [fifo.fresh_byte]).headD 0 = 1 :=
          (headD_into _).trans one
        rw [if_pos (is_one.mpr one), onlySent_wifi_iff one buffer, forall_prop_of_true one]
        refine (and_iff_right fun failed => ?_).symm
        rw [← left_over failed, one]
        decide
      · rw [if_neg (mt is_one.mp one)]
        by_cases two : (fifo.read [1]).byte fifo.fresh_byte = 2
        · rw [if_pos (is_two.mpr two), OnlySent, Sent, delivers_iff two, Read.full_iff going, two]
          constructor
          · exact fun read => ⟨fun failed => absurd failed read, fun one => absurd one (by decide)⟩
          · exact fun honest failed => (honest.1 failed).2 ((left_over failed).symm.trans two)
        · rw [if_neg (mt is_two.mp two)]
          refine iff_of_true trivial ⟨fun failed => ?_, fun same => absurd same one⟩
          rw [← left_over failed]
          exact ⟨zero, two⟩
  · apply iff_of_true (fun going' => absurd going' going)
    refine ⟨fun failed => ?_, fun going' => absurd going' going⟩
    rw [failed] at going
    exact absurd rfl going

/-- A writer is connected and has sent nothing, and the fresh byte is 0. -/
def silent : Fifo where
  read _ := .fail
  fresh_byte := 0
  fresh_ssid n := List.replicate n 0
  fresh_password n := List.replicate n 0

/-- The daemon connects without a command. -/
theorem called_without_command : ¬ ∀ fifo : Fifo, OnlySent fifo (takenCommand fifo) := by
  intro always
  obtain ⟨rest, delivered⟩ : Sent silent .ConnectInternet := always silent
  cases delivered

end Stages

end CFunc.Networks
