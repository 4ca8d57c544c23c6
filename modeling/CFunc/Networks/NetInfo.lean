import CFunc.Lib.CInt
import CFunc.Lib.CString

/-!
The network-info structure of `networks/wifi_interface.h` and the file
`NET_PATH` through which the daemon and its clients share it.
-/

namespace CFunc.Networks

structure NetStatus where
  IPAddr : Vector Byte 16
  SubNetMask : Vector Byte 16
  GateWay : Vector Byte 16
  DNSServer : Vector (Vector Byte 16) 2
  MACAddr : Vector Byte 20
  deriving DecidableEq

structure WiFi_Info where
  SSID : Vector Byte 20
  password : CInt
  iSignal : CInt
  iPassword_Format : CInt
  deriving DecidableEq

/-- `Status[0]` is the wired interface `eth0`, `Status[1]` the wireless `eth1`. -/
structure N_Info_t where
  Status : Vector NetStatus 2
  Scan : Vector WiFi_Info 10
  szLink_SSID : Vector Byte 20
  szLink_Password : Vector Byte 20
  iStatus_Wire : CInt
  iStatus_Wireless : CInt
  iAction_Flag : CInt
  iDhcp_Wire : CInt
  iDhcp_Wireless : CInt
  iSignal : CInt
  iSearchApNum : CInt
  iSearch_Flag : CInt
  iPassword_Format : CInt
  iConnect_Format : CInt
  deriving DecidableEq

def NetStatus.zeroed : NetStatus :=
  { IPAddr := .replicate 16 0
    SubNetMask := .replicate 16 0
    GateWay := .replicate 16 0
    DNSServer := .replicate 2 (.replicate 16 0)
    MACAddr := .replicate 20 0 }

def WiFi_Info.zeroed : WiFi_Info :=
  { SSID := .replicate 20 0, password := 0, iSignal := 0, iPassword_Format := 0 }

/-- `memset(&info, '\0', sizeof(N_Info_t))`. -/
def N_Info_t.zeroed : N_Info_t :=
  { Status := .replicate 2 .zeroed
    Scan := .replicate 10 .zeroed
    szLink_SSID := .replicate 20 0
    szLink_Password := .replicate 20 0
    iStatus_Wire := 0
    iStatus_Wireless := 0
    iAction_Flag := 0
    iDhcp_Wire := 0
    iDhcp_Wireless := 0
    iSignal := 0
    iSearchApNum := 0
    iSearch_Flag := 0
    iPassword_Format := 0
    iConnect_Format := 0 }

/-- What stands at `NET_PATH`. A file too short for the structure leaves the
buffer of the reader indeterminate: `left` is what it then holds. -/
inductive NetFile where
  | absent
  | short (left : N_Info_t)
  | complete (info : N_Info_t)
  deriving DecidableEq

def ReadNetInfo (file : NetFile) (pNetInfo : N_Info_t) : N_Info_t × CInt :=
  match file with
  | .absent => (pNetInfo, -1)
  | .short left => (left, 0)
  | .complete info => (info, 0)

def SaveNetInfo (pNetInfo : N_Info_t) : NetFile × CInt :=
  (.complete pNetInfo, 0)

end CFunc.Networks
