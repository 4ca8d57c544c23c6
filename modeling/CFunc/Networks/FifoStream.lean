import CFunc.Networks.Daemon
import Mathlib.Data.List.TakeWhile
import Mathlib.Tactic.Ring

/-!
The command FIFO as a stream of messages.

A pass of the command branch asks for bytes one field at a time and leaves what
it did not ask for to the next pass. A `read` of no bytes returns 0, as at the
end of the file, so an empty field reads as a missing one.
-/

namespace CFunc.Networks

/-- The FIFO with `stream` waiting: a `read` returns the bytes asked for, as far
as there are any. The buffers are those of `fifo`. -/
def Fifo.holding (fifo : Fifo) (stream : List Byte) : Fifo :=
  { fifo with
    read := fun sizes =>
      .delivered ((stream.drop sizes.dropLast.sum).take (sizes.getLastD 0)) }

/-! ### What a pass asks for -/

/-- `readWifiCommand`, with the sizes of its reads. -/
def askWifiCommand (fifo : Fifo) (pFifo_rBuffer : List Byte) :
    Option (Option Command) × List Nat :=
  let pFifo_rBuffer := (fifo.read [1, 1]).into pFifo_rBuffer
  if firstByte pFifo_rBuffer < 0 then (none, [1, 1])
  else
    let len := (firstByte pFifo_rBuffer).toNat
    let ssid_read := fifo.read [1, 1, len]
    if ssid_read.nonzero then
      let szSSID := terminated len (ssid_read.into (fifo.fresh_ssid (len + 1)))
      let len_read := fifo.read [1, 1, len, 1]
      if len_read.nonzero then
        let pFifo_rBuffer := len_read.into pFifo_rBuffer
        if firstByte pFifo_rBuffer = 0 then
          (some (some (.ConnectWifi szSSID none)), [1, 1, len, 1])
        else if firstByte pFifo_rBuffer < 0 then (none, [1, 1, len, 1])
        else
          let len' := (firstByte pFifo_rBuffer).toNat
          let password_read := fifo.read [1, 1, len, 1, len']
          if password_read.nonzero then
            let szPassword := terminated len' (password_read.into (fifo.fresh_password (len' + 1)))
            (some (some (.ConnectWifi szSSID (some szPassword))), [1, 1, len, 1, len'])
          else (some none, [1, 1, len, 1, len'])
      else (some none, [1, 1, len, 1])
    else (some none, [1, 1, len])

/-- `readCommand`, with the sizes of its reads. -/
def askCommand (fifo : Fifo) : Option (Option Command) × List Nat :=
  let command_read := fifo.read [1]
  if command_read.nonzero then
    let pFifo_rBuffer := command_read.into [fifo.fresh_byte]
    let iConnect_Flag := firstByte pFifo_rBuffer
    if iConnect_Flag = 0 then (some (some .ConnectInternet), [1])
    else if iConnect_Flag = 1 then askWifiCommand fifo pFifo_rBuffer
    else if iConnect_Flag = 2 then (some (some .ConnectWifiAuto), [1])
    else (some none, [1])
  else (some none, [1])

theorem askWifiCommand_fst (fifo : Fifo) (pFifo_rBuffer : List Byte) :
    (askWifiCommand fifo pFifo_rBuffer).1 = readWifiCommand fifo pFifo_rBuffer := by
  simp only [askWifiCommand, readWifiCommand]
  split_ifs <;> rfl

/-- Counting the bytes asked for does not change the command taken. -/
theorem askCommand_fst (fifo : Fifo) : (askCommand fifo).1 = readCommand fifo := by
  simp only [askCommand, readCommand]
  split_ifs
  · rfl
  · exact askWifiCommand_fst _ _
  · rfl
  · rfl
  · rfl

/-- One pass of the command branch: the command it takes, and what it leaves. -/
def commandPass (fifo : Fifo) (stream : List Byte) : Option (Option Command) × List Byte :=
  let asked := askCommand (fifo.holding stream)
  (asked.1, stream.drop asked.2.sum)

/-- Successive passes, each with the buffers `malloc` then gives it. -/
def commandPasses (fresh : Nat → Fifo) :
    Nat → List Byte → List (Option (Option Command) × List Byte)
  | 0, _ => []
  | n + 1, stream =>
      let pass := commandPass (fresh n) stream
      pass :: commandPasses fresh n pass.2

/-! ### Messages -/

/-- The bytes of a field, whose length a `char` counts. -/
structure Name where
  data : List Byte
  counted : data.length ≤ 127

inductive Message where
  | wired
  | wifi (ssid password : Name)
  | auto

def Name.encode (name : Name) : List Byte :=
  BitVec.ofNat 8 name.data.length :: name.data

def Message.encode : Message → List Byte
  | wired => [0]
  | wifi ssid password => 1 :: (ssid.encode ++ password.encode)
  | auto => [2]

/-- The call a message asks for. -/
def Message.command : Message → Command
  | wired => .ConnectInternet
  | wifi ssid password => .ConnectWifi ssid.data (some password.data)
  | auto => .ConnectWifiAuto

def encodeAll (messages : List Message) : List Byte := messages.flatMap Message.encode

/-- What passes in step with the messages take and leave. -/
def inStep : List Message → List (Option (Option Command) × List Byte)
  | [] => []
  | m :: more => (some (some m.command), encodeAll more) :: inStep more

/-- Each pass takes one whole message and makes its call. -/
def Decodes (fresh : Nat → Fifo) (messages : List Message) : Prop :=
  commandPasses fresh messages.length (encodeAll messages) = inStep messages

/-- A field that is a nonempty C string. -/
def Name.Plain (name : Name) : Prop := name.data ≠ [] ∧ 0 ∉ name.data

def Message.Plain : Message → Prop
  | wired => True
  | wifi ssid password => ssid.Plain ∧ password.Plain
  | auto => True

/-! ### One pass over one message -/

/-- The part of a field before its first `NUL`. -/
def Name.cut (name : Name) : List Byte := name.data.takeWhile (· ≠ 0)

theorem Name.cut_eq_iff {name : Name} : name.cut = name.data ↔ 0 ∉ name.data := by
  rw [cut, List.takeWhile_eq_self_iff]
  constructor
  · intro all member
    exact absurd (all 0 member) (by decide)
  · intro absent b member
    exact decide_eq_true fun zero => absent (zero ▸ member)

section Reads

variable (fifo : Fifo)

/-- A read of as many bytes as a field has, with all before it taken. -/
theorem Fifo.holding_read (before data rest : List Byte) (sizes : List Nat)
    (taken : sizes.sum = before.length) :
    (fifo.holding (before ++ (data ++ rest))).read (sizes ++ [data.length]) =
      .delivered data := by
  simp only [holding, List.dropLast_concat, taken, List.drop_left, List.getLastD_concat,
    List.take_left]

theorem firstByte_count (name : Name) (buffer : List Byte) :
    firstByte ((Read.delivered [BitVec.ofNat 8 name.data.length]).into buffer) =
      name.data.length := by
  have counted := name.counted
  simp only [Read.into, firstByte, List.cons_append, List.headD_cons]
  rw [BitVec.toInt_ofNat', Int.bmod_eq_of_le (by omega) (by omega)]

theorem terminated_name (name : Name) (fresh : List Byte) :
    terminated name.data.length ((Read.delivered name.data).into fresh) = name.cut := by
  simp only [terminated, Read.into, List.take_left, Name.cut]

/-- A pass over a message for the wire or for the automatic link. -/
theorem commandPass_byte {byte : Byte} {command : Command} (rest : List Byte)
    (known : byte = 0 ∧ command = .ConnectInternet ∨ byte = 2 ∧ command = .ConnectWifiAuto) :
    commandPass fifo (byte :: rest) = (some (some command), rest) := by
  have first : (fifo.holding (byte :: rest)).read [1] = .delivered [byte] :=
    fifo.holding_read [] [byte] rest [] rfl
  rcases known with ⟨rfl, rfl⟩ | ⟨rfl, rfl⟩
  · simp only [commandPass, askCommand, first]
    rfl
  · simp only [commandPass, askCommand, first]
    rfl

/-- The reads of a whole wifi message deliver its bytes. -/
structure Delivers (ssid password : Name) : Prop where
  command : fifo.read [1] = .delivered [1]
  ssid_count : fifo.read [1, 1] = .delivered [BitVec.ofNat 8 ssid.data.length]
  ssid_data : fifo.read [1, 1, ssid.data.length] = .delivered ssid.data
  password_count : fifo.read [1, 1, ssid.data.length, 1] =
    .delivered [BitVec.ofNat 8 password.data.length]
  password_data : fifo.read [1, 1, ssid.data.length, 1, password.data.length] =
    .delivered password.data

variable {fifo}

theorem Delivers.askCommand {ssid password : Name} (reads : Delivers fifo ssid password) :
    askCommand fifo =
      if ssid.data = [] then (some none, [1, 1, ssid.data.length])
      else if password.data = [] then
        (some (some (.ConnectWifi ssid.cut none)), [1, 1, ssid.data.length, 1])
      else
        (some (some (.ConnectWifi ssid.cut (some password.cut))),
          [1, 1, ssid.data.length, 1, password.data.length]) := by
  have wifi : CFunc.Networks.askCommand fifo =
      askWifiCommand fifo ((Read.delivered [1]).into [fifo.fresh_byte]) := by
    simp only [CFunc.Networks.askCommand, reads.command]
    rfl
  rw [wifi]
  have no_sign (name : Name) : ¬ ((name.data.length : Int) < 0) := by omega
  simp only [askWifiCommand, reads.ssid_count, firstByte_count, if_neg (no_sign _),
    Int.toNat_natCast, reads.ssid_data, terminated_name, reads.password_count,
    reads.password_data]
  by_cases no_ssid : ssid.data = []
  · rw [if_pos no_ssid, no_ssid]
    rfl
  · by_cases no_password : password.data = []
    · rw [if_neg no_ssid, if_pos no_password]
      simp [Read.nonzero, no_ssid, no_password]
    · rw [if_neg no_ssid, if_neg no_password]
      simp [Read.nonzero, no_ssid, no_password]

variable (fifo)

theorem holding_delivers (ssid password : Name) (rest : List Byte) :
    Delivers (fifo.holding ((Message.wifi ssid password).encode ++ rest)) ssid password := by
  let len := BitVec.ofNat 8 ssid.data.length
  let len' := BitVec.ofNat 8 password.data.length
  have stream : (Message.wifi ssid password).encode ++ rest =
      1 :: len :: (ssid.data ++ (len' :: (password.data ++ rest))) := by
    simp only [Message.encode, Name.encode, List.cons_append, List.append_assoc, len, len']
  rw [stream]
  constructor
  · exact fifo.holding_read [] [1] (len :: (ssid.data ++ (len' :: (password.data ++ rest)))) [] rfl
  · exact fifo.holding_read [1] [len] (ssid.data ++ (len' :: (password.data ++ rest))) [1] rfl
  · exact fifo.holding_read [1, len] ssid.data (len' :: (password.data ++ rest)) [1, 1] rfl
  · refine fifo.holding_read (1 :: len :: ssid.data) [len'] (password.data ++ rest)
      [1, 1, ssid.data.length] ?_
    simp
    omega
  · have assoc : 1 :: len :: (ssid.data ++ (len' :: (password.data ++ rest))) =
        (1 :: len :: (ssid.data ++ [len'])) ++ (password.data ++ rest) := by simp
    rw [assoc]
    refine fifo.holding_read _ password.data rest [1, 1, ssid.data.length, 1] ?_
    simp
    omega

/-- A pass over a wifi message. -/
theorem commandPass_wifi (ssid password : Name) (rest : List Byte) :
    commandPass fifo ((Message.wifi ssid password).encode ++ rest) =
      if ssid.data = [] then (some none, password.encode ++ rest)
      else if password.data = [] then (some (some (.ConnectWifi ssid.cut none)), rest)
      else (some (some (.ConnectWifi ssid.cut (some password.cut))), rest) := by
  have whole : (Message.wifi ssid password).encode ++ rest =
      1 :: BitVec.ofNat 8 ssid.data.length :: (ssid.data ++ (password.encode ++ rest)) := by
    simp only [Message.encode, Name.encode, List.cons_append, List.append_assoc]
  have asked := (holding_delivers fifo ssid password rest).askCommand
  rw [commandPass, asked]
  split_ifs with no_ssid no_password
  · rw [whole, no_ssid]
    rfl
  · have taken : [1, 1, ssid.data.length, 1].sum =
        ((Message.wifi ssid password).encode).length := by
      simp [Message.encode, Name.encode, no_password]
      omega
    dsimp only
    rw [taken, List.drop_left]
  · have taken : [1, 1, ssid.data.length, 1, password.data.length].sum =
        ((Message.wifi ssid password).encode).length := by
      simp [Message.encode, Name.encode]
      omega
    dsimp only
    rw [taken, List.drop_left]

/-- A pass is in step with a message exactly when its fields are nonempty C strings. -/
theorem commandPass_eq_iff (m : Message) (rest : List Byte) :
    commandPass fifo (m.encode ++ rest) = (some (some m.command), rest) ↔ m.Plain := by
  cases m with
  | wired => exact iff_of_true (commandPass_byte fifo rest (.inl ⟨rfl, rfl⟩)) trivial
  | auto => exact iff_of_true (commandPass_byte fifo rest (.inr ⟨rfl, rfl⟩)) trivial
  | wifi ssid password =>
      rw [commandPass_wifi, Message.Plain, Name.Plain, Name.Plain]
      split_ifs with no_ssid no_password
      · exact iff_of_false (by simp) fun plain => plain.1.1 no_ssid
      · exact iff_of_false (by simp [Message.command]) fun plain => plain.2.1 no_password
      · simp [Message.command, no_ssid, no_password, Name.cut_eq_iff]

end Reads

/-! ### All sequences of messages -/

/-- The passes keep in step with the messages exactly when every wifi message
has a nonempty SSID and a nonempty password, neither with a `NUL` in it. -/
theorem decodes_iff (fresh : Nat → Fifo) (messages : List Message) :
    Decodes fresh messages ↔ ∀ m ∈ messages, m.Plain := by
  induction messages with
  | nil => exact iff_of_true rfl (by simp)
  | cons m more ih =>
      have all : encodeAll (m :: more) = m.encode ++ encodeAll more := List.flatMap_cons
      rw [List.forall_mem_cons, ← ih,
        ← commandPass_eq_iff (fresh more.length) m (encodeAll more)]
      simp only [Decodes, List.length_cons, commandPasses, inStep, List.cons.injEq, all]
      constructor
      · rintro ⟨pass, passes⟩
        rw [pass] at passes
        exact ⟨pass, passes⟩
      · rintro ⟨pass, passes⟩
        rw [pass]
        exact ⟨rfl, passes⟩

/-- The empty password of an open network is taken for no password at all. -/
theorem open_network_not_decoded :
    ¬ ∀ (fresh : Nat → Fifo) (messages : List Message), Decodes fresh messages := by
  intro always
  let fifo : Fifo :=
    { read := fun _ => .fail
      fresh_byte := 0
      fresh_ssid := fun _ => []
      fresh_password := fun _ => [] }
  have decoded := always (fun _ => fifo)
    [.wifi ⟨bytes "linksys", by decide⟩ ⟨[], by decide⟩, .wired]
  have first := (List.cons.inj decoded).1
  exact absurd first (by decide)

end CFunc.Networks
