import CFunc.Networks.System

/-!
What a probe of one interface does to the record of the other.

`Get_Net_Status` assigns the status of the interface it probes. On two paths,
a failed ping and a disconnected card, it then clears the whole structure, the
other interface included.
-/

namespace CFunc.Networks

/-- What is recorded about the wireless interface stays. -/
structure SameWireless (a b : N_Info_t) : Prop where
  status : a.iStatus_Wireless = b.iStatus_Wireless
  dhcp : a.iDhcp_Wireless = b.iDhcp_Wireless
  listing : a.Status[1] = b.Status[1]
  scan : a.Scan = b.Scan
  ssid : a.szLink_SSID = b.szLink_SSID

/-- What is recorded about the wired interface stays. -/
structure SameWire (a b : N_Info_t) : Prop where
  status : a.iStatus_Wire = b.iStatus_Wire
  dhcp : a.iDhcp_Wire = b.iDhcp_Wire
  listing : a.Status[0] = b.Status[0]

theorem SameWireless.refl (a : N_Info_t) : SameWireless a a := ⟨rfl, rfl, rfl, rfl, rfl⟩

/-- The wired probe is made and fails. -/
def WireClears (file : NetFile) (stack : N_Info_t) (probe : Probe) : Prop :=
  (ReadNetInfo file stack).1.iDhcp_Wire = 1 ∧ probe.ping ≠ 0

/-- The wireless info speaks of a disconnected card and not of a connected one. -/
def WirelessClears (probe : Probe) : Prop :=
  ∃ text, probe.wifi_info = some text ∧ (strstr (bytes "Connected") text).isSome = false ∧
    (strstr (bytes "Disconnected") text).isSome = true

/-- All the wired probe can do. -/
theorem Get_Net_Status_wire (file : NetFile) (stack : N_Info_t) (probe : Probe)
    (gNetInfo : N_Info_t) :
    (WireClears file stack probe ∧
      (Get_Net_Status file stack probe 0 gNetInfo).1 = .zeroed) ∨
    (¬ WireClears file stack probe ∧ (ReadNetInfo file stack).1.iDhcp_Wire = 1 ∧ probe.ping = 0 ∧
      (Get_Net_Status file stack probe 0 gNetInfo).1 = { gNetInfo with iStatus_Wire := 1 }) ∨
    (¬ WireClears file stack probe ∧ (ReadNetInfo file stack).1.iDhcp_Wire ≠ 1 ∧
      (Get_Net_Status file stack probe 0 gNetInfo).1 = gNetInfo) := by
  by_cases dhcp : (ReadNetInfo file stack).1.iDhcp_Wire = 1
  · by_cases ping : probe.ping = 0
    · refine .inr (.inl ⟨fun clears => clears.2 ping, dhcp, ping, ?_⟩)
      rw [Get_Net_Status, if_pos rfl, if_pos dhcp, if_pos ping]
    · refine .inl ⟨⟨dhcp, ping⟩, ?_⟩
      rw [Get_Net_Status, if_pos rfl, if_pos dhcp, if_neg ping]
  · refine .inr (.inr ⟨fun clears => dhcp clears.1, dhcp, ?_⟩)
    rw [Get_Net_Status, if_pos rfl, if_neg dhcp]

/-- All the wireless probe can do. -/
theorem Get_Net_Status_wireless (file : NetFile) (stack : N_Info_t) (probe : Probe)
    (gNetInfo : N_Info_t) :
    (WirelessClears probe ∧ (Get_Net_Status file stack probe 1 gNetInfo).1 = .zeroed) ∨
    (¬ WirelessClears probe ∧ ∃ status,
      (Get_Net_Status file stack probe 1 gNetInfo).1 =
        { gNetInfo with iStatus_Wireless := status }) := by
  have flag : (1 : CInt) ≠ 0 := by decide
  rw [Get_Net_Status, if_neg flag]
  cases info : probe.wifi_info with
  | none =>
      refine .inr ⟨?_, 0, rfl⟩
      rintro ⟨text, text_eq, _⟩
      rw [info] at text_eq
      exact absurd text_eq nofun
  | some text =>
      cases connected : (strstr (bytes "Connected") text).isSome with
      | true =>
          refine .inr ⟨?_, ?_⟩
          · rintro ⟨text', text_eq, not_connected, _⟩
            rw [info] at text_eq
            obtain rfl := Option.some.inj text_eq
            simp [connected] at not_connected
          · simp only [connected, if_true]
            split
            · exact ⟨1, rfl⟩
            · exact ⟨gNetInfo.iStatus_Wireless, rfl⟩
      | false =>
          cases disconnected : (strstr (bytes "Disconnected") text).isSome with
          | true =>
              refine .inl ⟨⟨text, info, connected, disconnected⟩, ?_⟩
              simp [connected, disconnected]
          | false =>
              refine .inr ⟨?_, gNetInfo.iStatus_Wireless, by simp [connected, disconnected]⟩
              rintro ⟨text', text_eq, _, is_disconnected⟩
              rw [info] at text_eq
              obtain rfl := Option.some.inj text_eq
              simp [disconnected] at is_disconnected

theorem wire_probe_keeps_wireless_iff (file : NetFile) (stack : N_Info_t) (probe : Probe)
    (gNetInfo : N_Info_t) :
    SameWireless (Get_Net_Status file stack probe 0 gNetInfo).1 gNetInfo ↔
      ¬ WireClears file stack probe ∨ SameWireless .zeroed gNetInfo := by
  rcases Get_Net_Status_wire file stack probe gNetInfo with
    ⟨clears, result⟩ | ⟨keeps, _, _, result⟩ | ⟨keeps, _, result⟩
  · rw [result]
    exact ⟨.inr, fun either => either.resolve_left (not_not.mpr clears)⟩
  · rw [result]
    exact iff_of_true ⟨rfl, rfl, rfl, rfl, rfl⟩ (.inl keeps)
  · rw [result]
    exact iff_of_true (.refl _) (.inl keeps)

theorem wireless_probe_keeps_wire_iff (file : NetFile) (stack : N_Info_t) (probe : Probe)
    (gNetInfo : N_Info_t) :
    SameWire (Get_Net_Status file stack probe 1 gNetInfo).1 gNetInfo ↔
      ¬ WirelessClears probe ∨ SameWire .zeroed gNetInfo := by
  rcases Get_Net_Status_wireless file stack probe gNetInfo with
    ⟨clears, result⟩ | ⟨keeps, status, result⟩
  · rw [result]
    exact ⟨.inr, fun either => either.resolve_left (not_not.mpr clears)⟩
  · rw [result]
    exact iff_of_true ⟨rfl, rfl, rfl⟩ (.inl keeps)

/-! ### From the wired probe to the status tests -/

/-- A run of daemon and clients from the start to the status tests of a pass:
`wired` is the state in which the pass makes its wired probe, and between the
daemon's steps the clients may step. -/
def PassToTests (wired tests : System) (stack : N_Info_t) (wire wireless : Probe) : Prop :=
  ∃ (before first second : List Label) (stack' : N_Info_t) (found : Search),
    (∀ label ∈ first, label.isClient) ∧ (∀ label ∈ second, label.isClient) ∧
    System.start.run before = some wired ∧
    wired.run (.daemon (.probe_wire stack wire) :: (first ++
      .daemon (.probe_wireless stack' wireless) :: (second ++
        [.daemon (.search found)]))) = some tests

/-- A pass reaches the tests with the structure the two probes left, but for the scan. -/
theorem PassToTests.iStatus_Wire_eq {wired tests : System} {stack : N_Info_t}
    {wire wireless : Probe} (pass : PassToTests wired tests stack wire wireless) :
    ∃ file stack', tests.daemon.vars.gNetInfo.iStatus_Wire =
      (Get_Net_Status file stack' wireless 1
        (Get_Net_Status wired.file stack wire 0 wired.daemon.vars.gNetInfo).1).1.iStatus_Wire := by
  obtain ⟨_, first, second, stack', found, only_first, only_second, _, ran⟩ := pass
  obtain ⟨s₁, probed_wire, ran⟩ := System.run_cons_eq_some.mp ran
  obtain ⟨s₂, ran_first, ran⟩ := System.run_append_eq_some.mp ran
  obtain ⟨s₃, probed_wireless, ran⟩ := System.run_cons_eq_some.mp ran
  obtain ⟨s₄, ran_second, ran⟩ := System.run_append_eq_some.mp ran
  obtain ⟨s₅, searched, ran⟩ := System.run_cons_eq_some.mp ran
  obtain rfl : s₅ = tests := by simpa [System.run] using ran
  have vars₁ := (System.step_daemon probed_wire).1
  have vars₃ := (System.step_daemon probed_wireless).1
  have vars₅ := (System.step_daemon searched).1
  simp only [Daemon.step, Option.ite_none_right_eq_some, Option.some.injEq, Prod.mk.injEq] at *
  refine ⟨s₂.file, stack', ?_⟩
  rw [← vars₅.2.2, System.daemon_of_client_run only_second ran_second, ← vars₃.2.2,
    System.daemon_of_client_run only_first ran_first, ← vars₁.2.2]
  rfl

/-- With a wired probe that was made and succeeded, the tests see the wired
interface up exactly when the wireless probe did not clear the structure. -/
theorem PassToTests.iStatus_Wire_iff {wired tests : System} {stack : N_Info_t}
    {wire wireless : Probe} (pass : PassToTests wired tests stack wire wireless)
    (made : (ReadNetInfo wired.file stack).1.iDhcp_Wire = 1) (succeeded : wire.ping = 0) :
    tests.daemon.vars.gNetInfo.iStatus_Wire = 1 ↔ ¬ WirelessClears wireless := by
  obtain ⟨file, stack', status⟩ := pass.iStatus_Wire_eq
  rw [status]
  rcases Get_Net_Status_wire wired.file stack wire wired.daemon.vars.gNetInfo with
    ⟨clears, _⟩ | ⟨_, _, _, up⟩ | ⟨_, not_made, _⟩
  · exact absurd succeeded clears.2
  · rw [up]
    rcases Get_Net_Status_wireless file stack' wireless
        { wired.daemon.vars.gNetInfo with iStatus_Wire := 1 } with
      ⟨clears, result⟩ | ⟨keeps, status, result⟩
    · rw [result]
      exact iff_of_false (by decide) (not_not.mpr clears)
    · rw [result]
      exact iff_of_true rfl keeps
  · exact absurd made not_made

/-- When a probe leaves the record of the other interface alone, for every
content of the structure and of the file and every outcome, and when a pass
that found the wired interface up still knows so at its status tests. -/
theorem probes_separate_iff (gNetInfo : N_Info_t) (file : NetFile) (stack : N_Info_t)
    (probe : Probe) :
    (SameWireless (Get_Net_Status file stack probe 0 gNetInfo).1 gNetInfo ↔
      ¬ WireClears file stack probe ∨ SameWireless .zeroed gNetInfo) ∧
    (SameWire (Get_Net_Status file stack probe 1 gNetInfo).1 gNetInfo ↔
      ¬ WirelessClears probe ∨ SameWire .zeroed gNetInfo) ∧
    ∀ (wired tests : System) (wireless : Probe), PassToTests wired tests stack probe wireless →
      (ReadNetInfo wired.file stack).1.iDhcp_Wire = 1 → probe.ping = 0 →
      (tests.daemon.vars.gNetInfo.iStatus_Wire = 1 ↔ ¬ WirelessClears wireless) :=
  ⟨wire_probe_keeps_wireless_iff file stack probe gNetInfo,
    wireless_probe_keeps_wire_iff file stack probe gNetInfo,
    fun _ _ _ pass made succeeded => pass.iStatus_Wire_iff made succeeded⟩

/-- A first pass that connects the wire on a FIFO command, and a second one in
which the ping succeeds and the wireless info file does not open. -/
theorem probes_separate_iff_sample :
    ∃ (wired tests : System) (wire wireless : Probe),
      PassToTests wired tests .zeroed wire wireless ∧
      tests.daemon.vars.gNetInfo.iStatus_Wire = 1 := by
  let wire : Probe := { ping := 0, wifi_info := none }
  let found : Search := { scan := .replicate 10 .zeroed, count := 0 }
  let fifo : Fifo :=
    { read := fun _ => .delivered [0]
      fresh_byte := 0
      fresh_ssid := fun _ => []
      fresh_password := fun _ => [] }
  let o : Outside :=
    { pid_opens := true
      fifo_opens := true
      fifo := fifo
      connect := fun _ => some 0
      eth0 := { status := .zeroed, dns_failed := false }
      eth1 := { status := .zeroed, dns_failed := false }
      link_info := none }
  have pass : PassToTests _ _ .zeroed wire wire :=
    ⟨[.daemon .read, .daemon (.probe_wire .zeroed wire), .daemon (.probe_wireless .zeroed wire),
        .daemon (.search found), .daemon (.tests o), .daemon .save, .daemon .read],
      [], [], .zeroed, found, nofun, nofun, rfl, rfl⟩
  refine ⟨_, _, wire, wire, pass, ((probes_separate_iff .zeroed (.complete .zeroed)
    .zeroed wire).2.2 _ _ _ pass rfl rfl).mpr ?_⟩
  rintro ⟨text, text_eq, _⟩
  exact absurd text_eq nofun

/-- A failed ping on the wire forgets that the wireless link is up, and a
disconnected card forgets that the wire is. -/
theorem probes_not_separate :
    ¬ SameWireless
      (Get_Net_Status (.complete { N_Info_t.zeroed with iDhcp_Wire := 1, iStatus_Wireless := 1 })
        .zeroed { ping := 1, wifi_info := none } 0
        { N_Info_t.zeroed with iDhcp_Wire := 1, iStatus_Wireless := 1 }).1
      { N_Info_t.zeroed with iDhcp_Wire := 1, iStatus_Wireless := 1 } ∧
    ¬ SameWire
      (Get_Net_Status (.complete { N_Info_t.zeroed with iDhcp_Wire := 1, iStatus_Wire := 1 })
        .zeroed { ping := 0, wifi_info := some (bytes "Disconnected") } 1
        { N_Info_t.zeroed with iDhcp_Wire := 1, iStatus_Wire := 1 }).1
      { N_Info_t.zeroed with iDhcp_Wire := 1, iStatus_Wire := 1 } := by
  constructor
  · rintro ⟨status, _⟩
    exact absurd status (by decide)
  · rintro ⟨status, _⟩
    exact absurd status (by decide)

end CFunc.Networks
