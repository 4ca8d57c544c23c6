import CFunc.Networks.Daemon

/-!
The daemon and its clients on the file they share.

A client call of `networks/wifi_interface.c` reads `NET_PATH`, edits its own
copy of the structure and saves it. Nothing locks the file, so between the two
accesses of one party any other party may step.
-/

namespace CFunc.Networks

inductive ClientCall where
  | ConnectInternetDaemon
  | ConnectWifiDaemon (pSSID pPassword : List Byte)
  | ConnectWifiAutoiDaemon
  | Clear_Connect_Flag
  deriving DecidableEq

/-- What a call does to its copy between `ReadNetInfo` and `SaveNetInfo`. -/
def ClientCall.edit (gNetInfo : N_Info_t) : ClientCall → Option N_Info_t
  | ConnectInternetDaemon => some { gNetInfo with iConnect_Format := 1 }
  | ConnectWifiDaemon pSSID pPassword =>
      match overlay gNetInfo.szLink_SSID pSSID, overlay gNetInfo.szLink_Password pPassword with
      | some szLink_SSID, some szLink_Password =>
          some
            { gNetInfo with
              szLink_SSID := szLink_SSID
              szLink_Password := szLink_Password
              iConnect_Format := 2 }
      | _, _ => none
  | ConnectWifiAutoiDaemon => some { gNetInfo with iConnect_Format := 3 }
  | Clear_Connect_Flag =>
      some { gNetInfo with iAction_Flag := gNetInfo.iAction_Flag &&& 0xfffffffe }

/-- `clients i` is the `i`-th client's call between its two file accesses, with its copy. -/
structure System where
  file : NetFile
  daemon : Daemon
  clients : Nat → Option (ClientCall × N_Info_t)

inductive Party where
  | daemon
  | client (i : Nat)
  deriving DecidableEq

/-- `stack` is what the local structure of a call holds before it is read. -/
inductive Label where
  | daemon (action : Action)
  | client_read (i : Nat) (call : ClientCall) (stack : N_Info_t)
  | client_save (i : Nat)

def System.setClient (s : System) (i : Nat) (held : Option (ClientCall × N_Info_t)) : System :=
  { s with clients := fun j => if j = i then held else s.clients j }

def System.step (s : System) : Label → Option System
  | .daemon action =>
      match s.daemon.step s.file action with
      | none => none
      | some (file, daemon) => some { s with file := file, daemon := daemon }
  | .client_read i call stack =>
      match s.clients i with
      | none => some (s.setClient i (some (call, (ReadNetInfo s.file stack).1)))
      | some _ => none
  | .client_save i =>
      match s.clients i with
      | none => none
      | some (call, copy) =>
          match call.edit copy with
          | none => none
          | some gNetInfo => some { s.setClient i none with file := (SaveNetInfo gNetInfo).1 }

/-- The daemon enters its loop, and no call is under way. -/
def System.start : System :=
  { file := Daemon.start.1, daemon := Daemon.start.2, clients := fun _ => none }

def System.run : System → List Label → Option System
  | s, [] => some s
  | s, label :: labels =>
      match s.step label with
      | none => none
      | some s' => s'.run labels

/-- The labels of the clients. -/
def Label.isClient : Label → Bool
  | .daemon _ => false
  | .client_read .. => true
  | .client_save _ => true

theorem System.run_append (s : System) (labels more : List Label) :
    s.run (labels ++ more) = (s.run labels).bind (·.run more) := by
  induction labels generalizing s with
  | nil => rfl
  | cons label labels ih =>
      simp only [run, List.cons_append]
      cases s.step label with
      | none => rfl
      | some s' => exact ih s'

theorem System.run_cons_eq_some {s t : System} {label : Label} {labels : List Label} :
    s.run (label :: labels) = some t ↔ ∃ s', s.step label = some s' ∧ s'.run labels = some t := by
  rw [run]
  cases s.step label with
  | none => simp
  | some s' => simp

theorem System.run_append_eq_some {s t : System} {labels more : List Label} :
    s.run (labels ++ more) = some t ↔ ∃ s', s.run labels = some s' ∧ s'.run more = some t := by
  rw [run_append, Option.bind_eq_some_iff]

/-- A step of the daemon, as a step of the system. -/
theorem System.step_daemon {s t : System} {action : Action}
    (stepped : s.step (.daemon action) = some t) :
    s.daemon.step s.file action = some (t.file, t.daemon) ∧ t.clients = s.clients := by
  simp only [step] at stepped
  cases result : s.daemon.step s.file action with
  | none => simp [result] at stepped
  | some next =>
      obtain ⟨file, daemon⟩ := next
      obtain rfl : _ = t := by simpa [result] using stepped
      exact ⟨rfl, rfl⟩

/-- No step of a client touches the daemon. -/
theorem System.daemon_of_client_step {s t : System} {label : Label} (client : label.isClient)
    (stepped : s.step label = some t) : t.daemon = s.daemon := by
  cases label with
  | daemon action => simp [Label.isClient] at client
  | client_read i call stack =>
      simp only [step] at stepped
      split at stepped
      · obtain rfl : _ = t := by simpa using stepped
        rfl
      · cases stepped
  | client_save i =>
      simp only [step] at stepped
      split at stepped
      · cases stepped
      · split at stepped
        · cases stepped
        · obtain rfl : _ = t := by simpa using stepped
          rfl

theorem System.daemon_of_client_run {s t : System} {labels : List Label}
    (clients : ∀ label ∈ labels, label.isClient) (ran : s.run labels = some t) :
    t.daemon = s.daemon := by
  induction labels generalizing s with
  | nil =>
      obtain rfl : s = t := by simpa [run] using ran
      rfl
  | cons label labels ih =>
      obtain ⟨s', stepped, rest⟩ := run_cons_eq_some.mp ran
      rw [ih (fun l member => clients l (List.mem_cons_of_mem _ member)) rest]
      exact daemon_of_client_step (clients label List.mem_cons_self) stepped

end CFunc.Networks
