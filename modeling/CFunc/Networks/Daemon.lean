import CFunc.Networks.NetInfo

/-!
The main loop of `networks/daemon.c`.

One pass of the loop reads `NET_PATH` three times (at its top and in each of
the two probes) and may save it once, at its bottom. Between these accesses it
works on `gNetInfo` alone, so the pass is cut into steps at its file accesses.
What commands, files and the FIFO deliver is an input of the steps.
-/

namespace CFunc.Networks

/-! ### Probing an interface -/

/-- What a probe meets outside: the exit code of `ping`, and the text of the
wireless info file up to its first `NUL`, or `none` when it does not open. -/
structure Probe where
  ping : CInt
  wifi_info : Option (List Byte)
  deriving DecidableEq

/-- `stack` is what `NetInfo_Tmp` holds before it is read. The paths on which
the function falls off its end return no value. -/
def Get_Net_Status (file : NetFile) (stack : N_Info_t) (probe : Probe) (flag : CInt)
    (gNetInfo : N_Info_t) : N_Info_t × Option CInt :=
  let NetInfo_Tmp := (ReadNetInfo file stack).1
  if flag = 0 then
    if NetInfo_Tmp.iDhcp_Wire = 1 then
      if probe.ping = 0 then ({ gNetInfo with iStatus_Wire := 1 }, some 0)
      else (.zeroed, some (-1))
    else (gNetInfo, some (-1))
  else
    match probe.wifi_info with
    | none => ({ gNetInfo with iStatus_Wireless := 0 }, some (-1))
    | some szFileBuffer =>
        if (strstr (bytes "Connected") szFileBuffer).isSome then
          if NetInfo_Tmp.iDhcp_Wireless = 1 then
            ({ gNetInfo with iStatus_Wireless := 1 }, some 0)
          else (gNetInfo, none)
        else if (strstr (bytes "Disconnected") szFileBuffer).isSome then (.zeroed, some (-1))
        else (gNetInfo, none)

/-! ### The command FIFO -/

/-- The result of a `read`: -1, or the bytes delivered, none of them at the end of file. -/
inductive Read where
  | fail
  | delivered (data : List Byte)
  deriving DecidableEq

/-- `read` as a condition: it is false for 0 only. -/
def Read.nonzero : Read → Bool
  | .fail => true
  | .delivered data => data ≠ []

/-- The buffer after a `read` into it. -/
def Read.into (result : Read) (buffer : List Byte) : List Byte :=
  match result with
  | .fail => buffer
  | .delivered data => data ++ buffer.drop data.length

/-- The FIFO as the daemon meets it: the result of each `read` given the sizes
asked for so far, and what `malloc` leaves in the three buffers. -/
structure Fifo where
  read : List Nat → Read
  fresh_byte : Byte
  fresh_ssid : Nat → List Byte
  fresh_password : Nat → List Byte

/-- The connection a command asks for, with the arguments of the call. -/
inductive Command where
  | ConnectInternet
  | ConnectWifi (szSSID : List Byte) (szPassword : Option (List Byte))
  | ConnectWifiAuto
  deriving DecidableEq

/-- `*pFifo_rBuffer` as an `int`; plain `char` is signed here. -/
def firstByte (buffer : List Byte) : Int :=
  (buffer.headD 0).toInt

/-- The string in a buffer of `len` bytes and a `NUL` after them. -/
def terminated (len : Nat) (buffer : List Byte) : List Byte :=
  (buffer.take len).takeWhile (· ≠ 0)

/-- The arguments of the wifi command, once its command byte is read. A
negative length has no meaning: no buffer of that size exists. -/
def readWifiCommand (fifo : Fifo) (pFifo_rBuffer : List Byte) : Option (Option Command) :=
  let pFifo_rBuffer := (fifo.read [1, 1]).into pFifo_rBuffer
  if firstByte pFifo_rBuffer < 0 then none
  else
    let len := (firstByte pFifo_rBuffer).toNat
    let ssid_read := fifo.read [1, 1, len]
    if ssid_read.nonzero then
      let szSSID := terminated len (ssid_read.into (fifo.fresh_ssid (len + 1)))
      let len_read := fifo.read [1, 1, len, 1]
      if len_read.nonzero then
        let pFifo_rBuffer := len_read.into pFifo_rBuffer
        if firstByte pFifo_rBuffer = 0 then some (some (.ConnectWifi szSSID none))
        else if firstByte pFifo_rBuffer < 0 then none
        else
          let len' := (firstByte pFifo_rBuffer).toNat
          let password_read := fifo.read [1, 1, len, 1, len']
          if password_read.nonzero then
            let szPassword := terminated len' (password_read.into (fifo.fresh_password (len' + 1)))
            some (some (.ConnectWifi szSSID (some szPassword)))
          else some none
      else some none
    else some none

/-- The command one pass takes from the FIFO, if it takes one. -/
def readCommand (fifo : Fifo) : Option (Option Command) :=
  let command_read := fifo.read [1]
  if command_read.nonzero then
    let pFifo_rBuffer := command_read.into [fifo.fresh_byte]
    let iConnect_Flag := firstByte pFifo_rBuffer
    if iConnect_Flag = 0 then some (some .ConnectInternet)
    else if iConnect_Flag = 1 then readWifiCommand fifo pFifo_rBuffer
    else if iConnect_Flag = 2 then some (some .ConnectWifiAuto)
    else some none
  else some none

/-- The DHCP field that records what a connect call returned. -/
def connected (command : Command) (ret : CInt) (gNetInfo : N_Info_t) : N_Info_t :=
  let flag : CInt := if ret = 0 then 1 else 0
  match command with
  | .ConnectInternet => { gNetInfo with iDhcp_Wire := flag }
  | .ConnectWifi _ _ => { gNetInfo with iDhcp_Wireless := flag }
  | .ConnectWifiAuto => { gNetInfo with iDhcp_Wireless := flag }

/-! ### The status tests -/

/-- What `SearchWiFi` leaves in the scan array, and what it returns. -/
structure Search where
  scan : Vector WiFi_Info 10
  count : CInt
  deriving DecidableEq

/-- What `GetNetStatus` and `GetGateWay` leave in the status of an interface;
`GetDNSStr` clears `iStatus_Wireless` when its file does not open. -/
structure Listing where
  status : NetStatus
  dns_failed : Bool
  deriving DecidableEq

/-- What the rest of a pass meets outside. A connect call that does not return
has no result. -/
structure Outside where
  pid_opens : Bool
  fifo_opens : Bool
  fifo : Fifo
  connect : Command → Option CInt
  eth0 : Listing
  eth1 : Listing
  link_info : Option (List Byte)

/-- The variables of `main` that outlive a step. -/
structure Local where
  gNetInfo : N_Info_t
  iConnect_flag : CInt
  iSearchApNum : CInt
  deriving DecidableEq

/-- How control leaves a piece of the loop body. -/
inductive Flow where
  | next (l : Local)
  /-- `continue` -/
  | again (l : Local)
  /-- `return -1` -/
  | stopped
  | undefined
  deriving DecidableEq

def Flow.andThen (flow : Flow) (rest : Local → Flow) : Flow :=
  match flow with
  | .next l => rest l
  | other => other

def searched (search : Search) (l : Local) : Local :=
  { l with
    iSearchApNum := search.count
    gNetInfo := { l.gNetInfo with Scan := search.scan, iSearchApNum := search.count } }

/-- A changed connection flag is signalled with `SIG_NET`; without the pid file
the daemon ends. -/
def notify (o : Outside) (iConnect_flag : CInt) (l : Local) : Flow :=
  if o.pid_opens then .next { l with iConnect_flag := iConnect_flag } else .stopped

def takeCommand (o : Outside) (l : Local) : Flow :=
  if o.fifo_opens then
    match readCommand o.fifo with
    | none => .undefined
    | some none => .next l
    | some (some command) =>
        match o.connect command with
        | none => .undefined
        | some ret => .next { l with gNetInfo := connected command ret l.gNetInfo }
  else .again l

def offline_test (o : Outside) (l : Local) : Flow :=
  if l.gNetInfo.iStatus_Wire = 0 ∧ l.gNetInfo.iStatus_Wireless = 0 then
    (if l.iConnect_flag = 1 then notify o 0 l else .next l).andThen (takeCommand o)
  else .next l

/-- `GetNetStatus` and `GetGateWay` on interface `i`. -/
def listed (i : Fin 2) (listing : Listing) (l : Local) : Local :=
  { l with
    gNetInfo :=
      { l.gNetInfo with
        Status := l.gNetInfo.Status.set i listing.status
        iStatus_Wireless := if listing.dns_failed then 0 else l.gNetInfo.iStatus_Wireless } }

def wire_test (o : Outside) (l : Local) : Flow :=
  if l.gNetInfo.iStatus_Wire = 1 then
    (if l.iConnect_flag = 0 then notify o 1 l else .next l).andThen fun l =>
      .next (listed 0 o.eth0 l)
  else .next l

/-- The name between the quotes of `ESSID="`, copied without a `NUL`. A name
without its closing quote, or too long for the field, has no meaning. -/
def GetLinkSSID (link_info : Option (List Byte)) (gNetInfo : N_Info_t) :
    Option (N_Info_t × CInt) :=
  match link_info with
  | none => some ({ gNetInfo with iStatus_Wireless := 0 }, -1)
  | some szFileBuffer =>
      match strstr (bytes "ESSID=\"") szFileBuffer with
      | none => some (gNetInfo, -1)
      | some pSSID =>
          let name := (pSSID.drop 7).takeWhile (· ≠ 34)
          if (pSSID.drop 7).contains 34 then
            match overlay gNetInfo.szLink_SSID name with
            | none => none
            | some szLink_SSID => some ({ gNetInfo with szLink_SSID := szLink_SSID }, 0)
          else none

/-- The signal of the first access point found that has the linked name. The
array ends at its tenth entry, whatever the count. -/
def linkedSignal (l : Local) : CInt :=
  let found := l.gNetInfo.Scan.toList.take l.iSearchApNum.toInt.toNat
  match found.find? fun ap => cstr ap.SSID = cstr l.gNetInfo.szLink_SSID with
  | none => l.gNetInfo.iSignal
  | some ap => ap.iSignal

def wireless_test (o : Outside) (l : Local) : Flow :=
  if l.gNetInfo.iStatus_Wireless = 1 then
    match GetLinkSSID o.link_info l.gNetInfo with
    | none => .undefined
    | some (gNetInfo, _) =>
        let l := { l with gNetInfo := gNetInfo }
        (if l.iConnect_flag = 0 then notify o 1 l else .next l).andThen fun l =>
          let l := { l with gNetInfo := { l.gNetInfo with iSignal := linkedSignal l } }
          .next (listed 1 o.eth1 l)
  else .next l

def status_tests (o : Outside) (l : Local) : Flow :=
  ((offline_test o l).andThen (wire_test o)).andThen (wireless_test o)

/-! ### The loop, cut at its file accesses -/

inductive Phase where
  /-- the top of the loop -/
  | top
  /-- before `Get_Net_Status(0)` -/
  | wire_probe
  /-- before `Get_Net_Status(1)` -/
  | wireless_probe
  /-- before `SearchWiFi` -/
  | search
  /-- before the tests of the two statuses -/
  | tests
  /-- before `SaveNetInfo` -/
  | save
  /-- after `return -1` -/
  | stopped
  deriving DecidableEq, Repr

structure Daemon where
  phase : Phase
  vars : Local
  deriving DecidableEq

/-- `main` enters the loop with the file just saved. -/
def Daemon.start : NetFile × Daemon :=
  ((SaveNetInfo .zeroed).1,
    { phase := .top, vars := { gNetInfo := .zeroed, iConnect_flag := 0, iSearchApNum := 0 } })

/-- One step of the loop, with what it meets outside. -/
inductive Action where
  | read
  | probe_wire (stack : N_Info_t) (probe : Probe)
  | probe_wireless (stack : N_Info_t) (probe : Probe)
  | search (found : Search)
  | tests (o : Outside)
  | save

def Daemon.setInfo (d : Daemon) (phase : Phase) (gNetInfo : N_Info_t) : Daemon :=
  { phase := phase, vars := { d.vars with gNetInfo := gNetInfo } }

/-- The daemon's step, when it is at the phase the action belongs to and the
action has a meaning there. -/
def Daemon.step (file : NetFile) (d : Daemon) : Action → Option (NetFile × Daemon)
  | .read =>
      if d.phase = .top then some (file, d.setInfo .wire_probe (ReadNetInfo file .zeroed).1)
      else none
  | .probe_wire stack probe =>
      if d.phase = .wire_probe then
        some (file, d.setInfo .wireless_probe
          (Get_Net_Status file stack probe 0 d.vars.gNetInfo).1)
      else none
  | .probe_wireless stack probe =>
      if d.phase = .wireless_probe then
        some (file, d.setInfo .search (Get_Net_Status file stack probe 1 d.vars.gNetInfo).1)
      else none
  | .search found =>
      if d.phase = .search then some (file, { phase := .tests, vars := searched found d.vars })
      else none
  | .tests o =>
      if d.phase = .tests then
        match status_tests o d.vars with
        | .next l => some (file, { phase := .save, vars := l })
        | .again l => some (file, { phase := .top, vars := l })
        | .stopped => some (file, { d with phase := .stopped })
        | .undefined => none
      else none
  | .save =>
      if d.phase = .save then
        some ((SaveNetInfo d.vars.gNetInfo).1, { d with phase := .top })
      else none

end CFunc.Networks
