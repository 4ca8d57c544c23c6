import CFunc.Networks.Probe

/-!
Lost and kept updates of the network-info file.

Every party saves the whole structure it read, so a save undoes whatever others
saved since that read. A client's update is kept for as long as nobody saves a
structure read before it: the daemon itself assigns none of the fields a client
assigns but the linked SSID, which it takes from the card.
-/

namespace CFunc.Networks

/-! ### The fields a client call assigns -/

inductive Field where
  | iConnect_Format
  | szLink_SSID
  | szLink_Password
  /-- bit 0 of `iAction_Flag` -/
  | iAction_Flag_0
  deriving DecidableEq, Repr

inductive FieldValue where
  | number (n : CInt)
  | text (t : Vector Byte 20)
  deriving DecidableEq

def Field.get (info : N_Info_t) : Field → FieldValue
  | iConnect_Format => .number info.iConnect_Format
  | szLink_SSID => .text info.szLink_SSID
  | szLink_Password => .text info.szLink_Password
  | iAction_Flag_0 => .number (info.iAction_Flag &&& 1)

def ClientCall.assigns : ClientCall → Field → Bool
  | ConnectInternetDaemon, f => f = .iConnect_Format
  | ConnectWifiDaemon _ _, f => f ≠ .iAction_Flag_0
  | ConnectWifiAutoiDaemon, f => f = .iConnect_Format
  | Clear_Connect_Flag, f => f = .iAction_Flag_0

/-- A call leaves the fields it does not assign. -/
theorem ClientCall.get_edit {call : ClientCall} {f : Field} (spared : call.assigns f = false)
    {copy saved : N_Info_t} (edited : call.edit copy = some saved) : f.get saved = f.get copy := by
  cases call with
  | ConnectInternetDaemon =>
      obtain rfl := Option.some.inj edited
      cases f <;> first | rfl | simp [assigns] at spared
  | ConnectWifiDaemon pSSID pPassword =>
      simp only [edit] at edited
      split at edited
      · obtain rfl := Option.some.inj edited
        cases f <;> first | rfl | simp [assigns] at spared
      · cases edited
  | ConnectWifiAutoiDaemon =>
      obtain rfl := Option.some.inj edited
      cases f <;> first | rfl | simp [assigns] at spared
  | Clear_Connect_Flag =>
      obtain rfl := Option.some.inj edited
      cases f <;> first | rfl | simp [assigns] at spared

/-! ### What the daemon's tests leave alone -/

/-- The variables at the exit of a piece of the loop body satisfy `P`. -/
def Flow.Ensures (P : Local → Prop) : Flow → Prop
  | .next l => P l
  | .again l => P l
  | .stopped => True
  | .undefined => True

theorem Flow.Ensures.andThen {P : Local → Prop} {flow : Flow} {rest : Local → Flow}
    (first : flow.Ensures P) (second : ∀ l, flow = .next l → P l → (rest l).Ensures P) :
    (flow.andThen rest).Ensures P := by
  cases flow with
  | next l => exact second l rfl first
  | again l => exact first
  | stopped => trivial
  | undefined => trivial

section Frame

variable {f : Field} {v : FieldValue} {o : Outside} {l : Local}

theorem notify_ensures (flag : CInt) (holds : f.get l.gNetInfo = v) :
    (notify o flag l).Ensures fun l => f.get l.gNetInfo = v := by
  unfold notify
  split
  · exact holds
  · trivial

theorem maybe_notify_ensures {c : Prop} [Decidable c] (flag : CInt) (holds : f.get l.gNetInfo = v) :
    (if c then notify o flag l else .next l).Ensures fun l => f.get l.gNetInfo = v := by
  split
  · exact notify_ensures flag holds
  · exact holds

theorem get_connected (command : Command) (ret : CInt) :
    f.get (connected command ret l.gNetInfo) = f.get l.gNetInfo := by
  cases command <;> cases f <;> rfl

theorem takeCommand_ensures (holds : f.get l.gNetInfo = v) :
    (takeCommand o l).Ensures fun l => f.get l.gNetInfo = v := by
  unfold takeCommand
  split
  · split
    · trivial
    · exact holds
    · split
      · trivial
      · exact (get_connected _ _).trans holds
  · exact holds

theorem offline_test_ensures (holds : f.get l.gNetInfo = v) :
    (offline_test o l).Ensures fun l => f.get l.gNetInfo = v := by
  unfold offline_test
  split
  · exact (maybe_notify_ensures 0 holds).andThen fun l _ holds => takeCommand_ensures holds
  · exact holds

theorem get_listed (i : Fin 2) (listing : Listing) :
    f.get (listed i listing l).gNetInfo = f.get l.gNetInfo := by
  cases f <;> rfl

theorem wire_test_ensures (holds : f.get l.gNetInfo = v) :
    (wire_test o l).Ensures fun l => f.get l.gNetInfo = v := by
  unfold wire_test
  split
  · exact (maybe_notify_ensures 1 holds).andThen fun l _ holds => (get_listed 0 o.eth0).trans holds
  · exact holds

/-- `GetLinkSSID` assigns the linked SSID, and only when it returns 0. -/
theorem get_GetLinkSSID {info saved : N_Info_t} {ret : CInt}
    (called : GetLinkSSID o.link_info info = some (saved, ret))
    (spared : f = .szLink_SSID → ret ≠ 0) : f.get saved = f.get info := by
  unfold GetLinkSSID at called
  split at called
  · obtain ⟨rfl, rfl⟩ : _ ∧ _ := by simpa using called
    cases f <;> rfl
  · split at called
    · obtain ⟨rfl, rfl⟩ : _ ∧ _ := by simpa using called
      rfl
    · simp only at called
      split at called
      · split at called
        · cases called
        · obtain ⟨rfl, rfl⟩ : _ ∧ _ := by simpa using called
          cases f with
          | szLink_SSID => exact absurd rfl (spared rfl)
          | iConnect_Format => rfl
          | szLink_Password => rfl
          | iAction_Flag_0 => rfl
      · cases called

theorem wireless_test_ensures (holds : f.get l.gNetInfo = v)
    (spared : f = .szLink_SSID → l.gNetInfo.iStatus_Wireless = 1 →
      ∀ saved, GetLinkSSID o.link_info l.gNetInfo ≠ some (saved, 0)) :
    (wireless_test o l).Ensures fun l => f.get l.gNetInfo = v := by
  unfold wireless_test
  split
  · rename_i up
    split
    · trivial
    · rename_i gNetInfo ret called
      have kept : f.get gNetInfo = f.get l.gNetInfo := by
        refine get_GetLinkSSID called ?_
        rintro is_ssid rfl
        exact spared is_ssid up gNetInfo called
      refine (maybe_notify_ensures 1 (kept.trans holds)).andThen fun l _ holds => ?_
      refine (get_listed 1 o.eth1).trans (Eq.trans ?_ holds)
      cases f <;> rfl
  · exact holds

end Frame

/-! ### Steps that assign a field -/

/-- The tests find the card up and name the network it is linked to. -/
def NamesSSID (o : Outside) (l : Local) : Prop :=
  ∃ l' saved, (offline_test o l).andThen (wire_test o) = .next l' ∧
    l'.gNetInfo.iStatus_Wireless = 1 ∧
    GetLinkSSID o.link_info l'.gNetInfo = some (saved, 0)

/-- The step deliberately assigns the field. -/
def Deliberate (f : Field) (s : System) : Label → Prop
  | .client_save i => ∃ call copy, s.clients i = some (call, copy) ∧ call.assigns f = true
  | .daemon (.tests o) => f = .szLink_SSID ∧ NamesSSID o s.daemon.vars
  | _ => False

/-- A probe of the daemon clears the structure in this step. -/
def Clears (s : System) : Label → Prop
  | .daemon (.probe_wire stack probe) => WireClears s.file stack probe
  | .daemon (.probe_wireless _ probe) => WirelessClears probe
  | _ => False

theorem status_tests_ensures {f : Field} {v : FieldValue} {o : Outside} {l : Local}
    (holds : f.get l.gNetInfo = v) (spared : ¬ (f = .szLink_SSID ∧ NamesSSID o l)) :
    (status_tests o l).Ensures fun l => f.get l.gNetInfo = v := by
  have online := (offline_test_ensures (o := o) holds).andThen
    fun l _ holds => wire_test_ensures (o := o) holds
  refine online.andThen fun l' reached holds => wireless_test_ensures holds ?_
  intro is_ssid up saved called
  exact spared ⟨is_ssid, l', saved, reached, up, called⟩

/-! ### Who may save -/

def Label.reader : Label → Option Party
  | .daemon .read => some .daemon
  | .client_read i _ _ => some (.client i)
  | _ => none

def Label.saver : Label → Option Party
  | .daemon .save => some .daemon
  | .client_save i => some (.client i)
  | _ => none

/-- The parties whose copy was read late enough, and not cleared, after a step. -/
def freshAfter (fresh : Party → Prop) (s : System) (label : Label) (p : Party) : Prop :=
  label.reader = some p ∨ (fresh p ∧ ¬ (p = .daemon ∧ Clears s label))

/-- Every save of the run is by a party with a fresh copy. -/
def Timely : (Party → Prop) → System → List Label → Prop
  | _, _, [] => True
  | fresh, s, label :: labels =>
      (∀ p, label.saver = some p → fresh p) ∧
      ∀ s', s.step label = some s' → Timely (freshAfter fresh s label) s' labels

/-- No step of the run deliberately assigns the field. -/
def Undisturbed (f : Field) : System → List Label → Prop
  | _, [] => True
  | s, label :: labels =>
      ¬ Deliberate f s label ∧ ∀ s', s.step label = some s' → Undisturbed f s' labels

/-! ### What is kept -/

/-- The file and every fresh copy hold the value. -/
structure Kept (f : Field) (v : FieldValue) (fresh : Party → Prop) (s : System) : Prop where
  file : ∃ info, s.file = .complete info ∧ f.get info = v
  daemon : fresh .daemon → f.get s.daemon.vars.gNetInfo = v
  clients : ∀ i call copy, fresh (.client i) → s.clients i = some (call, copy) → f.get copy = v

theorem Daemon.step_kept {f : Field} {v : FieldValue} {s : System} {action : Action}
    {file' : NetFile} {daemon' : Daemon} {info : N_Info_t} (file : s.file = .complete info)
    (file_holds : f.get info = v)
    (stepped : s.daemon.step s.file action = some (file', daemon'))
    (spared : ¬ Deliberate f s (.daemon action))
    (copy_holds : (Label.daemon action).reader ≠ some .daemon →
      f.get s.daemon.vars.gNetInfo = v)
    (kept : ¬ Clears s (.daemon action)) : f.get daemon'.vars.gNetInfo = v := by
  cases action with
  | read =>
      simp only [step, Option.ite_none_right_eq_some, Option.some.injEq, Prod.mk.injEq] at stepped
      obtain ⟨_, _, rfl⟩ := stepped
      simpa [setInfo, ReadNetInfo, file] using file_holds
  | probe_wire stack probe =>
      simp only [step, Option.ite_none_right_eq_some, Option.some.injEq, Prod.mk.injEq] at stepped
      obtain ⟨_, _, rfl⟩ := stepped
      refine Eq.trans ?_ (copy_holds (Option.some_ne_none _).symm)
      rcases Get_Net_Status_wire s.file stack probe s.daemon.vars.gNetInfo with
        ⟨clears, _⟩ | ⟨_, _, _, up⟩ | ⟨_, _, same⟩
      · exact absurd clears kept
      · rw [setInfo, up]
        cases f <;> rfl
      · rw [setInfo, same]
  | probe_wireless stack probe =>
      simp only [step, Option.ite_none_right_eq_some, Option.some.injEq, Prod.mk.injEq] at stepped
      obtain ⟨_, _, rfl⟩ := stepped
      refine Eq.trans ?_ (copy_holds (Option.some_ne_none _).symm)
      rcases Get_Net_Status_wireless s.file stack probe s.daemon.vars.gNetInfo with
        ⟨clears, _⟩ | ⟨_, status, result⟩
      · exact absurd clears kept
      · rw [setInfo, result]
        cases f <;> rfl
  | search found =>
      simp only [step, Option.ite_none_right_eq_some, Option.some.injEq, Prod.mk.injEq] at stepped
      obtain ⟨_, _, rfl⟩ := stepped
      refine Eq.trans ?_ (copy_holds (Option.some_ne_none _).symm)
      cases f <;> rfl
  | tests o =>
      have ensured := status_tests_ensures (o := o) (copy_holds (Option.some_ne_none _).symm) spared
      simp only [step, Option.ite_none_right_eq_some] at stepped
      obtain ⟨_, stepped⟩ := stepped
      cases flow : status_tests o s.daemon.vars with
      | next l =>
          rw [flow] at stepped ensured
          obtain ⟨_, rfl⟩ : _ ∧ _ := by simpa using stepped
          exact ensured
      | again l =>
          rw [flow] at stepped ensured
          obtain ⟨_, rfl⟩ : _ ∧ _ := by simpa using stepped
          exact ensured
      | stopped =>
          rw [flow] at stepped
          obtain ⟨_, rfl⟩ : _ ∧ _ := by simpa using stepped
          exact copy_holds (Option.some_ne_none _).symm
      | undefined =>
          rw [flow] at stepped
          cases stepped
  | save =>
      simp only [step, Option.ite_none_right_eq_some, Option.some.injEq, Prod.mk.injEq] at stepped
      obtain ⟨_, _, rfl⟩ := stepped
      exact copy_holds (Option.some_ne_none _).symm

/-- The daemon changes the file only by saving its structure. -/
theorem Daemon.file_of_step {file file' : NetFile} {d d' : Daemon} {action : Action}
    (stepped : d.step file action = some (file', d')) :
    file' = file ∨ (action = .save ∧ file' = .complete d.vars.gNetInfo) := by
  cases action with
  | save =>
      simp only [step, Option.ite_none_right_eq_some, Option.some.injEq, Prod.mk.injEq] at stepped
      exact .inr ⟨rfl, stepped.2.1.symm⟩
  | tests o =>
      simp only [step, Option.ite_none_right_eq_some] at stepped
      obtain ⟨_, stepped⟩ := stepped
      left
      split at stepped <;> simp_all
  | _ =>
      simp only [step, Option.ite_none_right_eq_some, Option.some.injEq, Prod.mk.injEq] at stepped
      exact .inl stepped.2.1.symm

theorem Kept.step {f : Field} {v : FieldValue} {fresh : Party → Prop} {s t : System}
    {label : Label} (kept : Kept f v fresh s) (stepped : s.step label = some t)
    (spared : ¬ Deliberate f s label) (timely : ∀ p, label.saver = some p → fresh p) :
    Kept f v (freshAfter fresh s label) t := by
  obtain ⟨info, file, file_holds⟩ := kept.file
  cases label with
  | daemon action =>
      obtain ⟨daemon_step, clients⟩ := System.step_daemon stepped
      refine ⟨?_, ?_, ?_⟩
      · rcases Daemon.file_of_step daemon_step with same | ⟨rfl, saved⟩
        · exact ⟨info, same.trans file, file_holds⟩
        · exact ⟨_, saved, kept.daemon (timely .daemon rfl)⟩
      · intro fresh_after
        refine Daemon.step_kept file file_holds daemon_step spared ?_ ?_
        · intro not_reader
          exact kept.daemon (fresh_after.resolve_left not_reader).1
        · rcases fresh_after with reader | ⟨_, not_cleared⟩
          · cases action <;> first | exact fun clears => clears | cases reader
          · exact fun clears => not_cleared ⟨rfl, clears⟩
      · intro i call copy fresh_after held
        rw [clients] at held
        refine kept.clients i call copy (fresh_after.resolve_left ?_).1 held
        cases action <;> simp [Label.reader]
  | client_read i call stack =>
      simp only [System.step] at stepped
      split at stepped
      · obtain rfl := Option.some.inj stepped
        refine ⟨⟨info, file, file_holds⟩, fun fresh_after => ?_, ?_⟩
        · exact kept.daemon (fresh_after.resolve_left (by simp [Label.reader])).1
        · intro j call' copy fresh_after held
          simp only [System.setClient] at held
          split at held
          · obtain ⟨_, rfl⟩ : _ ∧ _ := by simpa using held
            simpa [ReadNetInfo, file] using file_holds
          · rename_i other
            refine kept.clients j call' copy (fresh_after.resolve_left ?_).1 held
            simpa [Label.reader] using Ne.symm other
      · cases stepped
  | client_save i =>
      simp only [System.step] at stepped
      split at stepped
      · cases stepped
      · rename_i call copy held
        split at stepped
        · cases stepped
        · rename_i saved edited
          obtain rfl := Option.some.inj stepped
          have not_assigned : call.assigns f = false := by
            cases assigned : call.assigns f with
            | false => rfl
            | true => exact absurd ⟨call, copy, held, assigned⟩ spared
          refine ⟨⟨saved, rfl, ?_⟩, fun fresh_after => ?_, ?_⟩
          · rw [ClientCall.get_edit not_assigned edited]
            exact kept.clients i call copy (timely _ rfl) held
          · exact kept.daemon (fresh_after.resolve_left (Option.some_ne_none _).symm).1
          · intro j call' copy' fresh_after held'
            simp only [System.setClient] at held'
            split at held'
            · cases held'
            · have fresh := fresh_after.resolve_left (Option.some_ne_none _).symm
              exact kept.clients j call' copy' fresh.1 held'

theorem Kept.run {f : Field} {v : FieldValue} {fresh : Party → Prop} {s t : System}
    {labels : List Label} (kept : Kept f v fresh s) (ran : s.run labels = some t)
    (undisturbed : Undisturbed f s labels) (timely : Timely fresh s labels) :
    ∃ info, t.file = .complete info ∧ f.get info = v := by
  induction labels generalizing fresh s with
  | nil =>
      obtain rfl : s = t := by simpa [System.run] using ran
      exact kept.file
  | cons label labels ih =>
      obtain ⟨s', stepped, rest⟩ := System.run_cons_eq_some.mp ran
      exact ih (kept.step stepped undisturbed.1 timely.1) rest (undisturbed.2 s' stepped)
        (timely.2 s' stepped)

/-- Every field that a client call saved keeps the saved value, whatever the others
do, until a step assigns it on purpose, as long as every later save is of a
structure read after the client's save and not cleared by a probe. -/
theorem update_kept {s t u : System} {i : Nat} {call : ClientCall} {copy : N_Info_t}
    {f : Field} {labels : List Label} (held : s.clients i = some (call, copy))
    (saves : s.step (.client_save i) = some t)
    (ran : t.run labels = some u) (undisturbed : Undisturbed f t labels)
    (timely : Timely (fun _ => False) t labels) :
    ∃ saved info, call.edit copy = some saved ∧ t.file = .complete saved ∧
      u.file = .complete info ∧ f.get info = f.get saved := by
  simp only [System.step, held] at saves
  split at saves
  · cases saves
  · rename_i saved edited
    obtain rfl := Option.some.inj saves
    have kept : Kept f (f.get saved) (fun _ => False)
        { s.setClient i none with file := (SaveNetInfo saved).1 } :=
      ⟨⟨saved, rfl, rfl⟩, False.elim, fun _ _ _ never => never.elim⟩
    obtain ⟨info, file, same⟩ := kept.run ran undisturbed timely
    exact ⟨saved, info, edited, rfl, file, same⟩

theorem Undisturbed.cons {f : Field} {s s' : System} {label : Label} {labels : List Label}
    (stepped : s.step label = some s') (spared : ¬ Deliberate f s label)
    (rest : Undisturbed f s' labels) : Undisturbed f s (label :: labels) := by
  refine ⟨spared, fun t stepped' => ?_⟩
  obtain rfl := Option.some.inj (stepped.symm.trans stepped')
  exact rest

theorem Timely.cons {fresh : Party → Prop} {s s' : System} {label : Label} {labels : List Label}
    (stepped : s.step label = some s') (timely : ∀ p, label.saver = some p → fresh p)
    (rest : Timely (freshAfter fresh s label) s' labels) : Timely fresh s (label :: labels) := by
  refine ⟨timely, fun t stepped' => ?_⟩
  obtain rfl := Option.some.inj (stepped.symm.trans stepped')
  exact rest

/-- A ping is answered, and there is no info text. -/
def steady : Probe := { ping := 0, wifi_info := none }

/-- The daemon is asked for nothing. -/
def at_rest : Outside :=
  { pid_opens := true
    fifo_opens := true
    fifo :=
      { read := fun _ => .delivered []
        fresh_byte := 0
        fresh_ssid := fun _ => []
        fresh_password := fun _ => [] }
    connect := fun _ => none
    eth0 := { status := .zeroed, dns_failed := false }
    eth1 := { status := .zeroed, dns_failed := false }
    link_info := none }

/-- What the daemon does between its read and its save. -/
def probing : List Label :=
  [.daemon (.probe_wire .zeroed steady), .daemon (.probe_wireless .zeroed steady),
    .daemon (.search { scan := .replicate 10 .zeroed, count := 0 }), .daemon (.tests at_rest),
    .daemon .save]

/-- A client asks for the wired connection; the daemon reads and saves after it, and so does
another client, which clears the action flag. -/
theorem update_kept_sample :
    ∃ (s t u : System) (saved info : N_Info_t),
      s.clients 0 = some (.ConnectInternetDaemon, .zeroed) ∧
      s.step (.client_save 0) = some t ∧
      t.run (.daemon .read :: (probing ++
        [.client_read 1 .Clear_Connect_Flag .zeroed, .client_save 1])) = some u ∧
      t.file = .complete saved ∧ u.file = .complete info ∧
      Field.iConnect_Format.get info = Field.iConnect_Format.get saved := by
  let s := System.start.setClient 0 (some (.ConnectInternetDaemon, .zeroed))
  have undisturbed : Undisturbed .iConnect_Format
      { s.setClient 0 none with file := .complete { N_Info_t.zeroed with iConnect_Format := 1 } }
      (.daemon .read :: (probing ++
        [.client_read 1 .Clear_Connect_Flag .zeroed, .client_save 1])) := by
    refine .cons rfl (fun never => never) (.cons rfl (fun never => never)
      (.cons rfl (fun never => never) (.cons rfl (fun never => never)
        (.cons rfl (fun named => absurd named.1 (by decide)) (.cons rfl (fun never => never)
          (.cons rfl (fun never => never) (.cons rfl ?_ trivial)))))))
    rintro ⟨call, copy, held, assigned⟩
    obtain ⟨rfl, _⟩ : _ ∧ _ := Prod.mk.inj (Option.some.inj held)
    exact absurd assigned (by decide)
  have timely : Timely (fun _ => False)
      { s.setClient 0 none with file := .complete { N_Info_t.zeroed with iConnect_Format := 1 } }
      (.daemon .read :: (probing ++
        [.client_read 1 .Clear_Connect_Flag .zeroed, .client_save 1])) := by
    refine .cons rfl nofun (.cons rfl nofun (.cons rfl nofun (.cons rfl nofun (.cons rfl nofun
      (.cons rfl ?_ (.cons rfl nofun (.cons rfl (fun p saver => .inl saver) trivial)))))))
    intro p saver
    obtain rfl : p = .daemon := (Option.some.inj saver).symm
    refine .inr ⟨.inr ⟨.inr ⟨.inr ⟨.inl rfl, fun cleared => ?_⟩, fun cleared => ?_⟩, ?_⟩, ?_⟩
    · exact cleared.2.2 rfl
    · obtain ⟨text, info, -⟩ := cleared.2
      cases info
    · exact fun cleared => cleared.2
    · exact fun cleared => cleared.2
  obtain ⟨saved, info, _, file, file', same⟩ :=
    update_kept (s := s) (i := 0) rfl rfl rfl undisturbed timely
  exact ⟨s, _, _, saved, info, rfl, rfl, rfl, file, file', same⟩

/-- The client reads and saves between the daemon's read and its save: the
request of the client is gone, though no step assigned the field. -/
theorem lost_update :
    ∃ (s t u : System) (before labels : List Label) (saved info : N_Info_t),
      System.start.run before = some s ∧
      s.clients 0 = some (.ConnectInternetDaemon, .zeroed) ∧
      s.step (.client_save 0) = some t ∧ t.run labels = some u ∧
      Undisturbed .iConnect_Format t labels ∧
      t.file = .complete saved ∧ u.file = .complete info ∧
      Field.iConnect_Format.get info ≠ Field.iConnect_Format.get saved := by
  refine ⟨_, _, _, [.daemon .read, .client_read 0 .ConnectInternetDaemon .zeroed], probing,
    _, _, rfl, rfl, rfl, rfl, ?_, rfl, rfl, by decide⟩
  exact .cons rfl (fun never => never) (.cons rfl (fun never => never)
    (.cons rfl (fun never => never) (.cons rfl (fun named => absurd named.1 (by decide))
      (.cons rfl (fun never => never) trivial))))

end CFunc.Networks
