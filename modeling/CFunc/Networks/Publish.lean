import CFunc.Networks.Probe

/-!
What a pass of the daemon's loop leaves in the file.

`SaveNetInfo` stands at the bottom of the loop only, so a pass that ends in
`continue` publishes nothing. Between the probes and the save two more readers
of the wireless link, `GetLinkSSID` and `GetDNSStr`, may clear its status.
-/

namespace CFunc.Networks

/-! ### Passes -/

/-- What one pass of the loop meets outside. -/
structure Pass where
  stack_wire : N_Info_t
  wire : Probe
  stack_wireless : N_Info_t
  wireless : Probe
  found : Search
  outside : Outside

/-- The steps of a pass up to its status tests. -/
def Pass.actions (p : Pass) : List Action :=
  [.read, .probe_wire p.stack_wire p.wire, .probe_wireless p.stack_wireless p.wireless,
    .search p.found, .tests p.outside]

def Daemon.steps : NetFile × Daemon → List Action → Option (NetFile × Daemon)
  | s, [] => some s
  | s, action :: actions =>
      match s.2.step s.1 action with
      | none => none
      | some s' => steps s' actions

/-- A whole pass. Only tests that are passed lead to the save. -/
def Daemon.pass (s : NetFile × Daemon) (p : Pass) : Option (NetFile × Daemon) :=
  match steps s p.actions with
  | none => none
  | some s' => if s'.2.phase = .save then s'.2.step s'.1 .save else some s'

def Daemon.passes : NetFile × Daemon → List Pass → Option (NetFile × Daemon)
  | s, [] => some s
  | s, p :: more =>
      match pass s p with
      | none => none
      | some s' => passes s' more

/-- The structure after the two probes of a pass. -/
def Pass.probed (p : Pass) (file : NetFile) : N_Info_t :=
  (Get_Net_Status file p.stack_wireless p.wireless 1
    (Get_Net_Status file p.stack_wire p.wire 0 (ReadNetInfo file .zeroed).1).1).1

/-- `P` of every pass of a run that does not terminate the daemon: of the file
before it, what it meets, and the file after it. -/
def EveryPass (P : NetFile → Pass → NetFile → Prop) (run : List Pass) : Prop :=
  ∀ before p after s s', run = before ++ p :: after →
    Daemon.passes Daemon.start before = some s → Daemon.pass s p = some s' →
    s'.2.phase = .top → P s.1 p s'.1

/-- The file holds the two statuses the probes of the pass produced. -/
def Published (file : NetFile) (p : Pass) (file' : NetFile) : Prop :=
  ∃ info, file' = .complete info ∧ info.iStatus_Wire = (p.probed file).iStatus_Wire ∧
    info.iStatus_Wireless = (p.probed file).iStatus_Wireless

/-! ### The links a pass finds up -/

/-- The wireless info speaks of a connected card. -/
def Connected (probe : Probe) : Prop :=
  ∃ text, probe.wifi_info = some text ∧ (strstr (bytes "Connected") text).isSome = true

/-- The wire answers, or is not probed and was up, and no disconnected card
clears the structure. -/
def WireUp (info : N_Info_t) (p : Pass) : Prop :=
  ¬ WirelessClears p.wireless ∧
    (info.iDhcp_Wire = 1 ∧ p.wire.ping = 0 ∨ info.iDhcp_Wire ≠ 1 ∧ info.iStatus_Wire = 1)

/-- The card is connected on a leased address, or says nothing and was up when
no failed ping cleared the structure. -/
def WirelessUp (info : N_Info_t) (p : Pass) : Prop :=
  Connected p.wireless ∧ info.iDhcp_Wireless = 1 ∨
    p.wireless.wifi_info.isSome ∧ ¬ WirelessClears p.wireless ∧
      ¬ (info.iDhcp_Wire = 1 ∧ p.wire.ping ≠ 0) ∧ info.iStatus_Wireless = 1

/-- With both links down the FIFO opens or the file says so already. With the
wireless link up its info opens, and so does the DNS file for each link listed. -/
def Reaches (file : NetFile) (p : Pass) : Prop :=
  ∃ info, file = .complete info ∧
    (¬ WireUp info p ∧ ¬ WirelessUp info p → p.outside.fifo_opens = true ∨
      info.iStatus_Wire = 0 ∧ info.iStatus_Wireless = 0) ∧
    (WirelessUp info p → p.outside.link_info.isSome = true ∧ p.outside.eth1.dns_failed = false ∧
      (WireUp info p → p.outside.eth0.dns_failed = false))

/-! ### The two probes together -/

/-- A status is 0 or 1. -/
def Flag (status : CInt) : Prop := status = 0 ∨ status = 1

structure Flags (info : N_Info_t) : Prop where
  wire : Flag info.iStatus_Wire
  wireless : Flag info.iStatus_Wireless

theorem Flags.zeroed : Flags .zeroed := ⟨.inl rfl, .inl rfl⟩

theorem Flag.ne_one {status : CInt} (flag : Flag status) (not_one : status ≠ 1) : status = 0 :=
  flag.resolve_right not_one

theorem Connected.not_clears {probe : Probe} (connected : Connected probe) :
    ¬ WirelessClears probe := by
  obtain ⟨text, text_eq, found⟩ := connected
  rintro ⟨text', text'_eq, not_found, _⟩
  obtain rfl : text = text' := Option.some.inj (text_eq.symm.trans text'_eq)
  rw [found] at not_found
  cases not_found

/-- All the wireless probe can do to the wireless status. -/
theorem Get_Net_Status_link (file : NetFile) (stack : N_Info_t) (probe : Probe)
    (gNetInfo : N_Info_t) (keeps : ¬ WirelessClears probe) :
    (Get_Net_Status file stack probe 1 gNetInfo).1 =
      { gNetInfo with
        iStatus_Wireless :=
          match probe.wifi_info with
          | none => 0
          | some text =>
              if (strstr (bytes "Connected") text).isSome ∧
                  (ReadNetInfo file stack).1.iDhcp_Wireless = 1 then 1
              else gNetInfo.iStatus_Wireless } := by
  have flag : (1 : CInt) ≠ 0 := by decide
  rw [Get_Net_Status, if_neg flag]
  cases info : probe.wifi_info with
  | none => rfl
  | some text =>
      cases connected : (strstr (bytes "Connected") text).isSome with
      | true =>
          by_cases dhcp : (ReadNetInfo file stack).1.iDhcp_Wireless = 1
          · simp only [connected, dhcp, if_true, and_self]
          · simp only [connected, dhcp, if_true, if_false, and_false]
      | false =>
          have not_disconnected : (strstr (bytes "Disconnected") text).isSome = false := by
            rw [Bool.eq_false_iff]
            exact fun disconnected => keeps ⟨text, info, connected, disconnected⟩
          simp only [connected, not_disconnected, Bool.false_eq_true, if_false, false_and]

section Probes

variable {info : N_Info_t} {p : Pass}

theorem probed_of_clears (clears : WirelessClears p.wireless) (file : NetFile) :
    p.probed file = .zeroed := by
  rcases Get_Net_Status_wireless file p.stack_wireless p.wireless
      (Get_Net_Status file p.stack_wire p.wire 0 (ReadNetInfo file .zeroed).1).1 with
    ⟨_, result⟩ | ⟨keeps, _⟩
  · exact result
  · exact absurd clears keeps

theorem probed_iStatus_Wire (flags : Flags info) :
    Flag (p.probed (.complete info)).iStatus_Wire ∧
      ((p.probed (.complete info)).iStatus_Wire = 1 ↔ WireUp info p) := by
  by_cases clears : WirelessClears p.wireless
  · rw [probed_of_clears clears]
    exact ⟨.inl rfl, iff_of_false (by decide) fun up => up.1 clears⟩
  · rw [Pass.probed, Get_Net_Status_link _ _ _ _ clears]
    rcases Get_Net_Status_wire (.complete info) p.stack_wire p.wire info with
      ⟨⟨dhcp, ping⟩, result⟩ | ⟨_, dhcp, ping, result⟩ | ⟨_, dhcp, result⟩
    · simp only [ReadNetInfo] at result ⊢
      rw [result]
      refine ⟨.inl rfl, iff_of_false (by decide) ?_⟩
      rintro ⟨_, ⟨_, answers⟩ | ⟨not_probed, _⟩⟩
      · exact ping answers
      · exact not_probed dhcp
    · simp only [ReadNetInfo] at result ⊢
      rw [result]
      exact ⟨.inr rfl, iff_of_true rfl ⟨clears, .inl ⟨dhcp, ping⟩⟩⟩
    · simp only [ReadNetInfo] at result ⊢
      rw [result]
      refine ⟨flags.wire, fun up => ⟨clears, .inr ⟨dhcp, up⟩⟩, ?_⟩
      rintro ⟨_, ⟨probed, _⟩ | ⟨_, up⟩⟩
      · exact absurd probed dhcp
      · exact up

theorem probed_iStatus_Wireless (flags : Flags info) :
    Flag (p.probed (.complete info)).iStatus_Wireless ∧
      ((p.probed (.complete info)).iStatus_Wireless = 1 ↔ WirelessUp info p) := by
  by_cases clears : WirelessClears p.wireless
  · rw [probed_of_clears clears]
    refine ⟨.inl rfl, iff_of_false (by decide) ?_⟩
    rintro (⟨connected, _⟩ | ⟨_, keeps, _⟩)
    · exact connected.not_clears clears
    · exact keeps clears
  · rw [Pass.probed, Get_Net_Status_link _ _ _ _ clears]
    -- what the wired probe left in the wireless status
    have before : (Get_Net_Status (.complete info) p.stack_wire p.wire 0 info).1.iStatus_Wireless =
        if info.iDhcp_Wire = 1 ∧ p.wire.ping ≠ 0 then 0 else info.iStatus_Wireless := by
      rcases Get_Net_Status_wire (.complete info) p.stack_wire p.wire info with
        ⟨fails, result⟩ | ⟨keeps, _, _, result⟩ | ⟨keeps, _, result⟩
      · rw [result]
        exact (if_pos fails).symm
      · rw [result]
        exact (if_neg keeps).symm
      · rw [result]
        exact (if_neg keeps).symm
    simp only [ReadNetInfo, before]
    cases text_eq : p.wireless.wifi_info with
    | none =>
        have zero : (0 : CInt) ≠ 1 := by decide
        refine ⟨.inl rfl, iff_of_false zero ?_⟩
        rintro (⟨⟨text, opens, _⟩, _⟩ | ⟨opens, _⟩)
        · rw [text_eq] at opens
          cases opens
        · rw [text_eq] at opens
          cases opens
    | some text =>
        have connected :
            Connected p.wireless ↔ (strstr (bytes "Connected") text).isSome = true := by
          constructor
          · rintro ⟨text', opens, found⟩
            rw [text_eq] at opens
            rwa [Option.some.inj opens]
          · exact fun found => ⟨text, text_eq, found⟩
        have opens : p.wireless.wifi_info.isSome = true := by
          rw [text_eq]
          rfl
        rw [WirelessUp, connected]
        dsimp only
        by_cases leased : (strstr (bytes "Connected") text).isSome = true ∧ info.iDhcp_Wireless = 1
        · rw [if_pos leased]
          exact ⟨.inr rfl, iff_of_true rfl (.inl leased)⟩
        · rw [if_neg leased]
          by_cases fails : info.iDhcp_Wire = 1 ∧ p.wire.ping ≠ 0
          · rw [if_pos fails]
            refine ⟨.inl rfl, iff_of_false (by decide) ?_⟩
            rintro (now | ⟨_, _, keeps, _⟩)
            · exact leased now
            · exact keeps fails
          · rw [if_neg fails]
            refine ⟨flags.wireless, fun up => .inr ⟨opens, clears, fails, up⟩, ?_⟩
            rintro (now | ⟨_, _, _, up⟩)
            · exact absurd now leased
            · exact up

end Probes

/-! ### What the tests leave of the statuses -/

/-- The variables where the flow goes on satisfy `next`, where it ends in
`continue` `again`. -/
def Flow.Meets (next again : Local → Prop) : Flow → Prop
  | .next l => next l
  | .again l => again l
  | .stopped => True
  | .undefined => True

theorem Flow.Meets.andThen {first next again : Local → Prop} {flow : Flow} {rest : Local → Flow}
    (met : flow.Meets first again) (then_meets : ∀ l, first l → (rest l).Meets next again) :
    (flow.andThen rest).Meets next again := by
  cases flow with
  | next l => exact then_meets l met
  | again l => exact met
  | stopped => trivial
  | undefined => trivial

theorem Flow.Meets.mono {first next again again' : Local → Prop} {flow : Flow}
    (met : flow.Meets first again) (next_of : ∀ l, first l → next l)
    (again_of : ∀ l, again l → again' l) : flow.Meets next again' := by
  cases flow with
  | next l => exact next_of l met
  | again l => exact again_of l met
  | stopped => trivial
  | undefined => trivial

section Tests

variable (o : Outside) (l : Local)

/-- The signal touches neither the structure nor the flow of a pass that goes on. -/
theorem maybe_notify_meets (c : Prop) [Decidable c] (flag : CInt) :
    (if c then notify o flag l else .next l).Meets (fun l' => l'.gNetInfo = l.gNetInfo)
      fun _ => False := by
  unfold notify
  split
  · split
    · rfl
    · trivial
  · rfl

theorem takeCommand_meets :
    (takeCommand o l).Meets
      (fun l' => l'.gNetInfo.iStatus_Wire = l.gNetInfo.iStatus_Wire ∧
        l'.gNetInfo.iStatus_Wireless = l.gNetInfo.iStatus_Wireless ∧ o.fifo_opens = true)
      fun _ => o.fifo_opens = false := by
  unfold takeCommand
  by_cases opens : o.fifo_opens = true
  · rw [if_pos opens]
    split
    · trivial
    · exact ⟨rfl, rfl, opens⟩
    · rename_i command _
      split
      · trivial
      · exact ⟨by cases command <;> rfl, by cases command <;> rfl, opens⟩
  · rw [if_neg opens]
    exact Bool.eq_false_iff.mpr opens

/-- Both links are down. -/
def Offline (info : N_Info_t) : Prop := info.iStatus_Wire = 0 ∧ info.iStatus_Wireless = 0

theorem offline_test_meets :
    (offline_test o l).Meets
      (fun l' => l'.gNetInfo.iStatus_Wire = l.gNetInfo.iStatus_Wire ∧
        l'.gNetInfo.iStatus_Wireless = l.gNetInfo.iStatus_Wireless ∧
        (Offline l.gNetInfo → o.fifo_opens = true))
      fun _ => Offline l.gNetInfo ∧ o.fifo_opens = false := by
  unfold offline_test
  split
  · rename_i offline
    refine Flow.Meets.andThen ((maybe_notify_meets o l (l.iConnect_flag = 1) 0).mono
      (fun _ => id) fun _ => False.elim) fun l' same => (takeCommand_meets o l').mono ?_ ?_
    · rintro l'' ⟨wire, wireless, opens⟩
      rw [same] at wire wireless
      exact ⟨wire, wireless, fun _ => opens⟩
    · exact fun _ shut => ⟨offline, shut⟩
  · rename_i online
    exact ⟨rfl, rfl, fun offline => absurd offline online⟩

theorem wire_test_meets :
    (wire_test o l).Meets
      (fun l' => l'.gNetInfo.iStatus_Wire = l.gNetInfo.iStatus_Wire ∧
        l'.gNetInfo.iStatus_Wireless =
          if l.gNetInfo.iStatus_Wire = 1 ∧ o.eth0.dns_failed then 0
          else l.gNetInfo.iStatus_Wireless)
      fun _ => False := by
  unfold wire_test
  by_cases up : l.gNetInfo.iStatus_Wire = 1
  · rw [if_pos up]
    refine (maybe_notify_meets o l (l.iConnect_flag = 0) 1).andThen fun l' same => ?_
    refine ⟨by rw [listed, same], ?_⟩
    rw [listed, same]
    simp only [up, true_and]
  · rw [if_neg up]
    exact ⟨rfl, by rw [if_neg fun both => up both.1]⟩

/-- The link's info and the DNS file open. -/
def LinkReadable : Prop := o.link_info.isSome = true ∧ o.eth1.dns_failed = false

instance : Decidable (LinkReadable o) := inferInstanceAs (Decidable (_ ∧ _))

theorem GetLinkSSID_statuses {link_info : Option (List Byte)} {info info' : N_Info_t} {ret : CInt}
    (called : GetLinkSSID link_info info = some (info', ret)) :
    info'.iStatus_Wire = info.iStatus_Wire ∧
      info'.iStatus_Wireless = if link_info.isSome then info.iStatus_Wireless else 0 := by
  unfold GetLinkSSID at called
  split at called
  · obtain ⟨rfl, rfl⟩ : _ ∧ _ := by simpa using called
    exact ⟨rfl, rfl⟩
  · split at called
    · obtain ⟨rfl, rfl⟩ : _ ∧ _ := by simpa using called
      exact ⟨rfl, rfl⟩
    · dsimp only at called
      split at called
      · split at called
        · cases called
        · obtain ⟨rfl, rfl⟩ : _ ∧ _ := by simpa using called
          exact ⟨rfl, rfl⟩
      · cases called

theorem wireless_test_meets :
    (wireless_test o l).Meets
      (fun l' => l'.gNetInfo.iStatus_Wire = l.gNetInfo.iStatus_Wire ∧
        l'.gNetInfo.iStatus_Wireless =
          if l.gNetInfo.iStatus_Wireless = 1 ∧ ¬ LinkReadable o then 0
          else l.gNetInfo.iStatus_Wireless)
      fun _ => False := by
  unfold wireless_test
  by_cases up : l.gNetInfo.iStatus_Wireless = 1
  · rw [if_pos up]
    cases called : GetLinkSSID o.link_info l.gNetInfo with
    | none => trivial
    | some result =>
        obtain ⟨info, ret⟩ := result
        obtain ⟨wire, wireless⟩ := GetLinkSSID_statuses called
        refine (maybe_notify_meets o { l with gNetInfo := info } (l.iConnect_flag = 0) 1).andThen
          fun l' same => ?_
        constructor
        · simp only [listed, same, wire]
        · simp only [listed, same, wireless, up, LinkReadable, true_and]
          cases o.link_info.isSome <;> cases o.eth1.dns_failed <;> rfl
  · rw [if_neg up]
    exact ⟨rfl, by rw [if_neg fun both => up both.1]⟩

/-- All the tests can do to the statuses of a pass that goes on, and when the
pass ends in `continue`. -/
theorem status_tests_meets :
    (status_tests o l).Meets
      (fun l' => l'.gNetInfo.iStatus_Wire = l.gNetInfo.iStatus_Wire ∧
        (Offline l.gNetInfo → o.fifo_opens = true) ∧
        (l.gNetInfo.iStatus_Wireless = 0 → l'.gNetInfo.iStatus_Wireless = 0) ∧
        (l.gNetInfo.iStatus_Wireless = 1 → l'.gNetInfo.iStatus_Wireless =
          if LinkReadable o ∧ (l.gNetInfo.iStatus_Wire = 1 → o.eth0.dns_failed = false)
          then 1 else 0))
      fun _ => Offline l.gNetInfo ∧ o.fifo_opens = false := by
  unfold status_tests
  have wire_tested : ((offline_test o l).andThen (wire_test o)).Meets
      (fun l' => l'.gNetInfo.iStatus_Wire = l.gNetInfo.iStatus_Wire ∧
        (Offline l.gNetInfo → o.fifo_opens = true) ∧
        l'.gNetInfo.iStatus_Wireless =
          if l.gNetInfo.iStatus_Wire = 1 ∧ o.eth0.dns_failed then 0
          else l.gNetInfo.iStatus_Wireless)
      fun _ => Offline l.gNetInfo ∧ o.fifo_opens = false := by
    refine (offline_test_meets o l).andThen ?_
    rintro l₁ ⟨wire, wireless, opens⟩
    refine (wire_test_meets o l₁).mono ?_ fun _ => False.elim
    rintro l₂ ⟨wire', wireless'⟩
    rw [wire, wireless] at wireless'
    exact ⟨wire'.trans wire, opens, wireless'⟩
  refine wire_tested.andThen ?_
  rintro l₂ ⟨wire, opens, wireless⟩
  refine (wireless_test_meets o l₂).mono ?_ fun _ => False.elim
  rintro l₃ ⟨wire', wireless'⟩
  have zero : (0 : CInt) ≠ 1 := by decide
  refine ⟨wire'.trans wire, opens, fun down => ?_, fun up => ?_⟩
  · rw [down, ite_self] at wireless
    rwa [wireless, if_neg fun both => zero both.1] at wireless'
  · rw [up] at wireless
    rw [wireless']
    by_cases cleared : l.gNetInfo.iStatus_Wire = 1 ∧ o.eth0.dns_failed = true
    · rw [wireless, if_pos cleared, if_neg fun both => zero both.1, if_neg]
      rintro ⟨_, kept⟩
      rw [kept cleared.1] at cleared
      cases cleared.2
    · have kept : l.gNetInfo.iStatus_Wire = 1 → o.eth0.dns_failed = false :=
        fun up => Bool.eq_false_iff.mpr fun failed => cleared ⟨up, failed⟩
      rw [wireless, if_neg cleared]
      by_cases readable : LinkReadable o
      · rw [if_neg fun both => both.2 readable, if_pos ⟨readable, kept⟩]
      · rw [if_pos ⟨rfl, readable⟩, if_neg fun both => readable both.1]

end Tests

/-! ### Runs of passes -/

/-- Between two passes the file is whole, with statuses 0 or 1. -/
def Rested (s : NetFile × Daemon) : Prop :=
  ∃ info, s.1 = .complete info ∧ Flags info ∧ (s.2.phase = .top ∨ s.2.phase = .stopped)

theorem Rested.start : Rested Daemon.start := ⟨.zeroed, rfl, .zeroed, .inl rfl⟩

/-- The variables at the status tests of a pass. -/
def Pass.tested (p : Pass) (file : NetFile) (l : Local) : Local :=
  searched p.found { l with gNetInfo := p.probed file }

/-- A pass is its status tests, with a save where they are passed. -/
theorem pass_eq (file : NetFile) (l : Local) (p : Pass) :
    Daemon.pass (file, { phase := .top, vars := l }) p =
      match status_tests p.outside (p.tested file l) with
      | .next l' => some (.complete l'.gNetInfo, { phase := .top, vars := l' })
      | .again l' => some (file, { phase := .top, vars := l' })
      | .stopped => some (file, { phase := .stopped, vars := p.tested file l })
      | .undefined => none := by
  have tests : Daemon.steps (file, { phase := .top, vars := l }) p.actions =
      Daemon.steps (file, { phase := .tests, vars := p.tested file l }) [.tests p.outside] := rfl
  rw [Daemon.pass, tests]
  simp only [Daemon.steps, Daemon.step, if_true]
  cases status_tests p.outside (p.tested file l) with
  | next l' => rfl
  | again l' => rfl
  | stopped => rfl
  | undefined => rfl

theorem pass_of_stopped {s : NetFile × Daemon} (stopped : s.2.phase = .stopped) (p : Pass) :
    Daemon.pass s p = none := by
  have no_read : s.2.step s.1 .read = none := by
    simp only [Daemon.step, stopped]
    rfl
  simp only [Daemon.pass, Pass.actions, Daemon.steps, no_read]

/-- What a pass from a whole file leaves, and when it publishes its probes. -/
theorem pass_spec {info : N_Info_t} {l : Local} {p : Pass} {s' : NetFile × Daemon}
    (flags : Flags info)
    (ran : Daemon.pass (.complete info, { phase := .top, vars := l }) p = some s') :
    Rested s' ∧
      (s'.2.phase = .top → (Published (.complete info) p s'.1 ↔ Reaches (.complete info) p)) := by
  obtain ⟨wire_flag, wire_up⟩ := probed_iStatus_Wire (p := p) flags
  obtain ⟨wireless_flag, wireless_up⟩ := probed_iStatus_Wireless (p := p) flags
  have met := status_tests_meets p.outside (p.tested (.complete info) l)
  have reaches : Reaches (.complete info) p ↔
      (¬ WireUp info p ∧ ¬ WirelessUp info p → p.outside.fifo_opens = true ∨
        info.iStatus_Wire = 0 ∧ info.iStatus_Wireless = 0) ∧
      (WirelessUp info p → p.outside.link_info.isSome = true ∧ p.outside.eth1.dns_failed = false ∧
        (WireUp info p → p.outside.eth0.dns_failed = false)) := by
    constructor
    · rintro ⟨info', same, holds⟩
      rwa [NetFile.complete.inj same]
    · exact fun holds => ⟨info, rfl, holds⟩
  rw [reaches, ← wire_up, ← wireless_up]
  rw [pass_eq] at ran
  cases flow : status_tests p.outside (p.tested (.complete info) l) with
  | next l' =>
      rw [flow] at met ran
      obtain rfl := Option.some.inj ran
      obtain ⟨wire, opens, kept_down, kept_up⟩ := met
      have published : Published (.complete info) p (.complete l'.gNetInfo) ↔
          l'.gNetInfo.iStatus_Wireless = (p.probed (.complete info)).iStatus_Wireless := by
        constructor
        · rintro ⟨saved, same, _, holds⟩
          rwa [NetFile.complete.inj same]
        · exact fun holds => ⟨_, rfl, wire, holds⟩
      have wire_flag' : Flag l'.gNetInfo.iStatus_Wire := by rwa [wire]
      have zero : (0 : CInt) ≠ 1 := by decide
      rcases wireless_flag with down | up
      · have still_down := kept_down down
        refine ⟨⟨_, rfl, ⟨wire_flag', .inl still_down⟩, .inl rfl⟩, fun _ => ?_⟩
        rw [published, still_down, down]
        refine iff_of_true rfl ⟨fun links => .inl (opens ⟨wire_flag.ne_one links.1, down⟩), ?_⟩
        exact fun up => absurd up zero
      · have still_up := kept_up up
        refine ⟨⟨_, rfl, ⟨wire_flag', ?_⟩, .inl rfl⟩, fun _ => ?_⟩
        · rw [still_up]
          exact ite_eq_or_eq _ _ _ |>.symm
        · rw [published, still_up, up, ite_eq_left_iff, imp_iff_not zero, not_not]
          constructor
          · rintro ⟨⟨link, dns⟩, dns₀⟩
            exact ⟨fun links => absurd rfl links.2, fun _ => ⟨link, dns, dns₀⟩⟩
          · rintro ⟨_, readable⟩
            obtain ⟨link, dns, dns₀⟩ := readable rfl
            exact ⟨⟨link, dns⟩, dns₀⟩
  | again l' =>
      rw [flow] at met ran
      obtain rfl := Option.some.inj ran
      obtain ⟨⟨wire, wireless⟩, shut⟩ := met
      simp only [Pass.tested, searched] at wire wireless
      refine ⟨⟨info, rfl, flags, .inl rfl⟩, fun _ => ?_⟩
      have zero : (0 : CInt) ≠ 1 := by decide
      rw [wire, wireless, shut]
      simp only [Published, wire, wireless, zero, not_false_eq_true, and_self, true_implies,
        false_implies, and_true, Bool.false_eq_true, false_or]
      constructor
      · rintro ⟨saved, same, holds⟩
        rwa [NetFile.complete.inj same]
      · exact fun holds => ⟨info, rfl, holds⟩
  | stopped =>
      rw [flow] at ran
      obtain rfl := Option.some.inj ran
      exact ⟨⟨info, rfl, flags, .inr rfl⟩, fun top => nomatch top⟩
  | undefined =>
      rw [flow] at ran
      cases ran

theorem Rested.pass {s s' : NetFile × Daemon} {p : Pass} (rested : Rested s)
    (ran : Daemon.pass s p = some s') :
    Rested s' ∧ (s'.2.phase = .top → (Published s.1 p s'.1 ↔ Reaches s.1 p)) := by
  obtain ⟨file, phase, vars⟩ := s
  obtain ⟨info, whole, flags, top | stopped⟩ := rested
  · dsimp only at whole top
    subst whole top
    exact pass_spec flags ran
  · rw [pass_of_stopped stopped] at ran
    cases ran

theorem Rested.passes {s s' : NetFile × Daemon} {run : List Pass} (rested : Rested s)
    (ran : Daemon.passes s run = some s') : Rested s' := by
  induction run generalizing s with
  | nil =>
      obtain rfl := Option.some.inj ran
      exact rested
  | cons p more ih =>
      rw [Daemon.passes] at ran
      cases first : Daemon.pass s p with
      | none =>
          rw [first] at ran
          cases ran
      | some s₁ =>
          rw [first] at ran
          exact ih (rested.pass first).1 ran

/-- In every run, each pass that goes on publishes what its probes produced
exactly when each such pass keeps the condition. -/
theorem published_iff (run : List Pass) :
    EveryPass Published run ↔ EveryPass (fun file p _ => Reaches file p) run := by
  constructor
  · intro published before p after s s' split ran passed top
    exact (((Rested.start.passes ran).pass passed).2 top).mp
      (published before p after s s' split ran passed top)
  · intro reaches before p after s s' split ran passed top
    exact (((Rested.start.passes ran).pass passed).2 top).mpr
      (reaches before p after s s' split ran passed top)

/-- The wire is connected on a command, found up and signalled; then its ping
fails, the FIFO does not open, and the file still says that the wire is up. -/
theorem link_down_not_published : ¬ ∀ run, EveryPass Published run := by
  intro always
  let listing : Listing := { status := .zeroed, dns_failed := false }
  let outside (fifo_opens : Bool) : Outside :=
    { pid_opens := true
      fifo_opens := fifo_opens
      fifo :=
        { read := fun _ => .delivered [0]
          fresh_byte := 0
          fresh_ssid := fun _ => []
          fresh_password := fun _ => [] }
      connect := fun _ => some 0
      eth0 := listing
      eth1 := listing
      link_info := none }
  let pass (ping : CInt) (fifo_opens : Bool) : Pass :=
    { stack_wire := .zeroed
      wire := { ping := ping, wifi_info := none }
      stack_wireless := .zeroed
      wireless := { ping := ping, wifi_info := none }
      found := { scan := .replicate 10 .zeroed, count := 0 }
      outside := outside fifo_opens }
  have published := always [pass 0 true, pass 0 true, pass 1 false]
    [pass 0 true, pass 0 true] (pass 1 false) [] _ _ rfl rfl rfl rfl
  obtain ⟨info, whole, wire, _⟩ := published
  obtain rfl := NetFile.complete.inj whole
  exact absurd wire (by decide)

end CFunc.Networks
