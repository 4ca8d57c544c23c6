import CFunc.Networks.System

/-!
The requests of `networks/wifi_interface.c` on any state of the shared file.

Each request reads the structure into a local variable, edits it and saves it. It looks neither at
what `ReadNetInfo` returns nor at what `fread` counted, so that a file that is missing or short is
replaced by what the stack held.
-/

namespace CFunc.Networks

/-! ### The code -/

inductive Request where
  | client (call : ClientCall)
  | Clear_Search_Flag
  deriving DecidableEq

def Request.edit (gNetInfo : N_Info_t) : Request → Option N_Info_t
  | client call => call.edit gNetInfo
  | Clear_Search_Flag =>
      some { gNetInfo with iAction_Flag := gNetInfo.iAction_Flag &&& 0xfffffffb }

/-- The file after the request. `stack` is what its structure holds before it is read. -/
def Request.run (file : NetFile) (stack : N_Info_t) (request : Request) : Option NetFile :=
  match request.edit (ReadNetInfo file stack).1 with
  | none => none
  | some gNetInfo => some (SaveNetInfo gNetInfo).1

/-! ### What a request is to change -/

/-- `saved` is `read` but for what the request is to change: a field, or a bit of the flags. -/
def Request.OnlyMeant (read saved : N_Info_t) : Request → Prop
  | client .ConnectInternetDaemon =>
      saved = { read with iConnect_Format := saved.iConnect_Format }
  | client (.ConnectWifiDaemon _ _) =>
      saved =
        { read with
          szLink_SSID := saved.szLink_SSID
          szLink_Password := saved.szLink_Password
          iConnect_Format := saved.iConnect_Format }
  | client .ConnectWifiAutoiDaemon =>
      saved = { read with iConnect_Format := saved.iConnect_Format }
  | client .Clear_Connect_Flag =>
      saved = { read with iAction_Flag := saved.iAction_Flag } ∧
        saved.iAction_Flag &&& ~~~1 = read.iAction_Flag &&& ~~~1
  | Clear_Search_Flag =>
      saved = { read with iAction_Flag := saved.iAction_Flag } ∧
        saved.iAction_Flag &&& ~~~4 = read.iAction_Flag &&& ~~~4

/-- A whole structure is saved with no other change, and any other file stays as it is. -/
def Request.Harmless (request : Request) (after : NetFile) : NetFile → Prop
  | .complete read => ∃ saved, after = .complete saved ∧ request.OnlyMeant read saved
  | file => after = file

/-- The strings of a request are no longer than their fields. -/
def Request.Fits : Request → Prop
  | client (.ConnectWifiDaemon pSSID pPassword) => pSSID.length ≤ 20 ∧ pPassword.length ≤ 20
  | _ => True

section Requests

variable {request : Request} {file after : NetFile} {stack info saved : N_Info_t}

theorem Request.edit_iff : (∃ saved, request.edit info = some saved) ↔ request.Fits := by
  cases request with
  | client call =>
      cases call with
      | ConnectInternetDaemon => exact iff_of_true ⟨_, rfl⟩ trivial
      | ConnectWifiDaemon pSSID pPassword =>
          rw [Fits, ← overlay_isSome_iff info.szLink_SSID,
            ← overlay_isSome_iff info.szLink_Password]
          simp only [edit, ClientCall.edit]
          cases overlay info.szLink_SSID pSSID with
          | none => simp
          | some szLink_SSID =>
              cases overlay info.szLink_Password pPassword with
              | none => simp
              | some szLink_Password => simp
      | ConnectWifiAutoiDaemon => exact iff_of_true ⟨_, rfl⟩ trivial
      | Clear_Connect_Flag => exact iff_of_true ⟨_, rfl⟩ trivial
  | Clear_Search_Flag => exact iff_of_true ⟨_, rfl⟩ trivial

/-- Clearing a bit leaves the others. -/
theorem clear_bit (flags bit : CInt) : flags &&& ~~~bit &&& ~~~bit = flags &&& ~~~bit := by
  rw [BitVec.and_assoc, BitVec.and_self]

theorem Request.onlyMeant_of_edit (edited : request.edit info = some saved) :
    request.OnlyMeant info saved := by
  cases request with
  | client call =>
      cases call with
      | ConnectInternetDaemon =>
          obtain rfl := Option.some.inj edited
          rfl
      | ConnectWifiDaemon pSSID pPassword =>
          simp only [edit, ClientCall.edit] at edited
          split at edited
          · obtain rfl := Option.some.inj edited
            rfl
          · cases edited
      | ConnectWifiAutoiDaemon =>
          obtain rfl := Option.some.inj edited
          rfl
      | Clear_Connect_Flag =>
          obtain rfl := Option.some.inj edited
          exact ⟨rfl, clear_bit _ 1⟩
  | Clear_Search_Flag =>
      obtain rfl := Option.some.inj edited
      exact ⟨rfl, clear_bit _ 4⟩

/-- Whatever was read, a whole structure is saved. -/
theorem Request.run_eq_some : request.run file stack = some after ↔
    ∃ saved, request.edit (ReadNetInfo file stack).1 = some saved ∧ after = .complete saved := by
  rw [run]
  cases request.edit (ReadNetInfo file stack).1 with
  | none => simp
  | some saved =>
      simp only [Option.some.injEq, exists_eq_left']
      exact eq_comm

/-- A request does no harm if and only if it finds a whole structure, and its strings fit. -/
theorem Request.harmless_iff (request : Request) (file : NetFile) (stack : N_Info_t) :
    (∃ after, request.run file stack = some after ∧ request.Harmless after file) ↔
      (∃ info, file = .complete info) ∧ request.Fits := by
  constructor
  · rintro ⟨after, ran, harmless⟩
    obtain ⟨saved, edited, rfl⟩ := run_eq_some.mp ran
    refine ⟨?_, edit_iff.mp ⟨saved, edited⟩⟩
    cases file with
    | absent => cases harmless
    | short left => cases harmless
    | complete info => exact ⟨info, rfl⟩
  · rintro ⟨⟨info, rfl⟩, fits⟩
    obtain ⟨saved, edited⟩ := edit_iff.mpr fits
    exact ⟨.complete saved, run_eq_some.mpr ⟨saved, edited, rfl⟩, saved, rfl,
      onlyMeant_of_edit edited⟩

/-- Without a file the caller's stack is published. -/
theorem Request.stack_published :
    ¬ ∀ (request : Request) (file : NetFile) (stack : N_Info_t),
      ∃ after, request.run file stack = some after ∧ request.Harmless after file := by
  intro always
  obtain ⟨after, ran, harmless⟩ := always .Clear_Search_Flag .absent .zeroed
  obtain ⟨saved, -, rfl⟩ := run_eq_some.mp ran
  cases harmless

end Requests

end CFunc.Networks
