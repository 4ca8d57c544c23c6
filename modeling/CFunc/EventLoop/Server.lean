import CFunc.EventLoop.LoopRuns

/-!
The server of `event-loop-server/server.c` and `event-loop-server/remote.c`.

What `accept`, `socket` and `open` return is given from outside, and so is what
`select` finds ready. The handler for the connection reads nothing from it. The
server is in one of two phases, and in each it watches one descriptor; what it
writes on its error output is left out.
-/

namespace CFunc.EventLoop.Remote

open CFunc.Lib CFunc.Clibs

/-- The procedures registered as file handlers. -/
inductive Handler where
  | handle_accept_event
  | handle_serial_event
  deriving DecidableEq, Repr

/-- The procedure registered as a callback. -/
inductive Callback where
  | process_remaining
  deriving DecidableEq, Repr

def STDIO_CONNECTION_NAME : List Byte := bytes "stdio"

def INVALID_DESCRIPTOR : Int := -1

/-- The static state of the server, with that of its event loop. Every handler has `NULL` for its
argument. -/
structure Server where
  loop : State Handler Callback Unit
  remote_desc : Int
  listen_desc : Int

/-- What the environment does in a round; `accepted` is what `accept` returns if it is called. -/
structure External where
  accepted : Int
  ready : Option Masks
  remote_event : Malloc (QueueH.Elem Int)
  callback_event : Malloc (CallbackEvent Callback Unit)

/-- The answer to a round of the loop, but for the calls of a handler. -/
def External.answer (x : External) (requests : List (Request Handler Callback Unit)) :
    Answer Handler Callback Unit :=
  { requests := requests, returns := 0, ready := x.ready, remote_event := x.remote_event,
    callback_event := x.callback_event }

/-- The state as the program starts. -/
def Server.start : Server :=
  { loop := State.start Handler Callback Unit
    remote_desc := INVALID_DESCRIPTOR
    listen_desc := INVALID_DESCRIPTOR }

/-- `remote_prepare`, with what `socket` returns. A port that is not a number is complained of, and
the first digits are used. -/
def remote_prepare (name : List Byte) (socket : Int) (s : Server) : Server :=
  if name = STDIO_CONNECTION_NAME then s
  else if ':'.toUInt8.toBitVec ∉ name then s
  else { s with listen_desc := socket }

/-- `remote_open`, with what `open` returns, or -1 where it is not called. -/
def remote_open (name : List Byte) (opened : Int) (s : Server) : Option Server :=
  if name = STDIO_CONNECTION_NAME then do
    let n ← add_file_handler 0 .handle_serial_event () s.loop.remote_notifier
    return { s with remote_desc := 0, loop := { s.loop with remote_notifier := n } }
  else if ':'.toUInt8.toBitVec ∉ name then do
    let n ← add_file_handler opened .handle_serial_event () s.loop.remote_notifier
    return { s with remote_desc := opened, loop := { s.loop with remote_notifier := n } }
  else do
    let n ← add_file_handler s.listen_desc .handle_accept_event () s.loop.remote_notifier
    return { s with loop := { s.loop with remote_notifier := n } }

/-- The calls of `handle_accept_event`, which returns 0. -/
def handle_accept_event (listen_desc accepted : Int) : List (Request Handler Callback Unit) :=
  [.delete_file_handler listen_desc, .add_file_handler accepted .handle_serial_event ()]

/-- One round of `start_event_loop`. The handler called in it makes its calls;
`handle_serial_event` makes none and returns what `process_serial_event` does, which is 0. -/
def round (x : External) (s : Server) :
    Option (Reactive.Response Server (Output Handler Callback Unit)) := do
  let r ← EventLoop.round (x.answer []) s.loop
  match r.output with
  | [.handler .handle_accept_event _ _] =>
      let loop ← requests (x.answer (handle_accept_event s.listen_desc x.accepted)) r.state
      return { state := { s with loop := loop, remote_desc := x.accepted }, output := r.output,
               stopped := r.stopped }
  | _ => return { state := { s with loop := r.state }, output := r.output, stopped := r.stopped }

/-- The server up to some round of its event loop. -/
def main (name : List Byte) (socket opened : Int) (externals : List External) :
    Option (Reactive.Response Server (Output Handler Callback Unit)) := do
  let s ← remote_open name opened (remote_prepare name socket Server.start)
  Reactive.run round externals s

/-! ### Phases -/

/-- The descriptor watched, with the error to report when it is found ready and its handler has
not been called yet. -/
inductive Phase where
  | listening (fd : Int) (turn : Option Int)
  | connected (fd : Int) (turn : Option Int)

namespace Phase

/-- What a round finds of the one descriptor. -/
def turn (x : External) (fd : Int) : Option Int :=
  match x.ready with
  | none => none
  | some ready =>
      if ready.readable fd.toNat || ready.exception fd.toNat then
        some (if ready.exception fd.toNat then 1 else 0)
      else none

/-- A connection that is accepted has to have a place in an `fd_set`. -/
def accept (fd : Int) : Option Phase :=
  if 0 ≤ fd ∧ fd < FD_SETSIZE then some (.connected fd none) else none

def listen (fd : Int) : Option Phase :=
  if 0 ≤ fd ∧ fd < FD_SETSIZE then some (.listening fd none) else none

def start (name : List Byte) (socket opened : Int) : Option Phase :=
  if name = STDIO_CONNECTION_NAME then accept 0
  else if ':'.toUInt8.toBitVec ∉ name then accept opened
  else listen socket

/-- The server waits for its descriptor, or calls the handler of it. It never stops. -/
def round (x : External) : Phase →
    Option (Reactive.Response Phase (Output Handler Callback Unit))
  | .listening fd none =>
      some { state := .listening fd (turn x fd), output := [.select (fd + 1) (watch_masks [fd])],
             stopped := false }
  | .listening _ (some error) => do
      let p ← accept x.accepted
      return { state := p, output := [.handler .handle_accept_event error ()], stopped := false }
  | .connected fd none =>
      some { state := .connected fd (turn x fd), output := [.select (fd + 1) (watch_masks [fd])],
             stopped := false }
  | .connected fd (some error) =>
      some { state := .connected fd none, output := [.handler .handle_serial_event error ()],
             stopped := false }

def main (name : List Byte) (socket opened : Int) (externals : List External) :
    Option (Reactive.Response Phase (Output Handler Callback Unit)) := do
  let p ← start name socket opened
  Reactive.run round externals p

end Phase

/-! ### The server is in its phases -/

/-- One descriptor is watched, and there are no callbacks. -/
def watching_one (fd : Int) (proc : Handler) (turn : Option Int) : Watching Handler Callback Unit :=
  { watched := [{ fd := fd, proc := proc, client_data := () }]
    found := turn.toList.map fun error => some (fd, error)
    callbacks := Pending.start Callback Unit }

theorem find_one (fd : Int) (proc : Handler) (x : External) :
    Watching.find_all x.ready (watching_one fd proc none).watched =
      (Phase.turn x fd).toList.map fun error => some (fd, error) := by
  cases ready : x.ready with
  | none => simp [Watching.find_all, Phase.turn, ready]
  | some ready' =>
      simp only [Watching.find_all, Phase.turn, ready, watching_one, List.filterMap_cons,
        List.filterMap_nil, Watching.find_ready]
      by_cases found : (ready'.readable fd.toNat || ready'.exception fd.toNat) = true
      · simp [found]
      · simp [found]

theorem wait_one {fd : Int} (natural : 0 ≤ fd) (proc : Handler) (x : External) :
    (watching_one fd proc none).round (x.answer []) =
      some { state := watching_one fd proc (Phase.turn x fd),
             output := [.select (fd + 1) (watch_masks [fd])], stopped := false } := by
  have top : highest_of [fd] = fd + 1 := max_eq_left (b := 0) (by omega)
  have waited : (watching_one fd proc none).round (x.answer []) =
      some { state := { watching_one fd proc none with
               found := Watching.find_all x.ready (watching_one fd proc none).watched },
             output := [.select (highest_of [fd]) (watch_masks [fd])], stopped := false } := rfl
  rw [waited, find_one, top]
  rfl

theorem call_one (fd : Int) (proc : Handler) (error : Int) (x : External) :
    (watching_one fd proc (some error)).round (x.answer []) =
      some { state := watching_one fd proc none, output := [.handler proc error ()],
             stopped := false } := by
  have search : Keyed.find Watch.fd fd (watching_one fd proc (some error)).watched =
      some { fd := fd, proc := proc, client_data := () } := by
    simp [watching_one, Keyed.find]
  change (Keyed.find Watch.fd fd (watching_one fd proc (some error)).watched).bind _ = _
  rw [search]
  rfl

/-- What the phase watches. -/
def Phase.watching : Phase → Watching Handler Callback Unit
  | .listening fd turn => watching_one fd .handle_accept_event turn
  | .connected fd turn => watching_one fd .handle_serial_event turn

structure Serves (s : Server) (p : Phase) : Prop where
  shown : Shows s.loop p.watching
  inside : ∀ fd ∈ p.watching.watched.map Watch.fd, 0 ≤ fd ∧ fd < FD_SETSIZE
  listen_desc : ∀ fd turn, p = .listening fd turn → s.listen_desc = fd

/-- A round in which no connection is accepted. -/
theorem round_quiet {x : External} {s : Server}
    {r : Reactive.Response (State Handler Callback Unit) (Output Handler Callback Unit)}
    (taken : EventLoop.round (x.answer []) s.loop = some r)
    (other : ∀ error, r.output ≠ [.handler .handle_accept_event error ()]) :
    round x s = some { state := { s with loop := r.state }, output := r.output,
                       stopped := r.stopped } := by
  rw [round, taken]
  simp only [Option.bind_eq_bind, Option.bind_some]
  split
  next error _ accepts => exact absurd accepts (other error)
  next => rfl

theorem Phase.accept_eq_some {fd : Int} {p : Phase} (accepted : accept fd = some p) :
    p = .connected fd none ∧ 0 ≤ fd ∧ fd < FD_SETSIZE := by
  rw [accept] at accepted
  split_ifs at accepted with place
  exact ⟨(Option.some.inj accepted).symm, place⟩

/-- The connection accepted takes the place of the descriptor listened to. -/
theorem accept_rel {s : State Handler Callback Unit} {fd : Int} (x : External)
    (shown : Shows s (watching_one fd .handle_accept_event none)) :
    Option.Rel (fun s p => Shows s p.watching)
      (requests (x.answer (handle_accept_event fd x.accepted)) s) (Phase.accept x.accepted) := by
  have related := requests_rel (x.answer (handle_accept_event fd x.accepted)) shown
  have replaced : (x.answer (handle_accept_event fd x.accepted)).requests.foldlM Watching.request
      (watching_one fd .handle_accept_event none) =
        (Phase.accept x.accepted).map Phase.watching := by
    simp [External.answer, handle_accept_event, Watching.request, watching_one, Phase.accept]
    split_ifs <;> rfl
  rw [replaced] at related
  generalize requests (x.answer (handle_accept_event fd x.accepted)) s = m,
    Phase.accept x.accepted = m' at related
  cases m' with
  | none =>
      cases related
      exact .none
  | some p =>
      cases related with
      | some shown => exact .some shown

theorem round_serves (x : External) {s : Server} {p : Phase} (serves : Serves s p) :
    Option.Rel (Reactive.Agree Serves) (round x s) (p.round x) := by
  have shown := round_rel (x.answer []) serves.shown
  cases p with
  | listening fd turn =>
      have inside := serves.inside fd List.mem_cons_self
      have listen_desc := serves.listen_desc fd turn rfl
      cases turn with
      | none =>
          rw [Phase.watching, wait_one inside.1] at shown
          generalize taken : EventLoop.round (x.answer []) s.loop = m at shown
          cases shown with
          | some agree =>
              rw [round_quiet taken fun error same => by simpa using agree.output.symm.trans same]
              refine .some ⟨⟨agree.state, serves.inside, ?_⟩, agree.output, agree.stopped⟩
              rintro _ _ ⟨⟩
              exact listen_desc
      | some error =>
          rw [Phase.watching, call_one] at shown
          generalize taken : EventLoop.round (x.answer []) s.loop = m at shown
          cases shown with
          | some agree =>
              rename_i r
              have accepted := accept_rel x agree.state
              rw [round, taken, Phase.round]
              simp only [Option.bind_eq_bind, Option.bind_some, agree.output, listen_desc]
              generalize requests (x.answer (handle_accept_event fd x.accepted)) r.state = m,
                accept_eq : Phase.accept x.accepted = m' at accepted
              cases accepted with
              | none => exact .none
              | some shown =>
                  obtain ⟨rfl, place⟩ := Phase.accept_eq_some accept_eq
                  refine .some ⟨⟨shown, ?_, ?_⟩, rfl, agree.stopped⟩
                  · intro d member
                    obtain rfl := List.mem_singleton.mp member
                    exact place
                  · rintro _ _ ⟨⟩
  | connected fd turn =>
      have inside := serves.inside fd List.mem_cons_self
      cases turn with
      | none =>
          rw [Phase.watching, wait_one inside.1] at shown
          generalize taken : EventLoop.round (x.answer []) s.loop = m at shown
          cases shown with
          | some agree =>
              rw [round_quiet taken fun error same => by simpa using agree.output.symm.trans same]
              refine .some ⟨⟨agree.state, serves.inside, ?_⟩, agree.output, agree.stopped⟩
              rintro _ _ ⟨⟩
      | some error =>
          rw [Phase.watching, call_one] at shown
          generalize taken : EventLoop.round (x.answer []) s.loop = m at shown
          cases shown with
          | some agree =>
              rw [round_quiet taken fun error same => by simpa using agree.output.symm.trans same]
              refine .some ⟨⟨agree.state, serves.inside, ?_⟩, agree.output, agree.stopped⟩
              rintro _ _ ⟨⟩

/-- The first descriptor that is watched. -/
theorem open_rel (fd : Int) (proc : Handler) :
    Option.Rel
      (fun n t => Shows { State.start Handler Callback Unit with remote_notifier := n } t)
      (add_file_handler fd proc () (State.start Handler Callback Unit).remote_notifier)
      (if 0 ≤ fd ∧ fd < FD_SETSIZE then some (watching_one fd proc none) else none) := by
  have related := request_add start_shows (Malloc.lowest (CallbackEvent Callback Unit)) fd proc ()
  have first : (Watching.start Handler Callback Unit).request (.add_file_handler fd proc ()) =
      if 0 ≤ fd ∧ fd < FD_SETSIZE then some (watching_one fd proc none) else none := by
    simp [Watching.request, Watching.start, watching_one]
  rw [first, request] at related
  generalize add_file_handler fd proc () _ = m, (if 0 ≤ fd ∧ fd < FD_SETSIZE then
    some (watching_one fd proc none) else none) = m' at related
  cases m with
  | none =>
      cases related
      exact .none
  | some n =>
      cases related with
      | some shown => exact .some shown

theorem opened_rel {s : Server} {fd : Int} {proc : Handler} {p : Option Phase}
    (start : s.loop = State.start Handler Callback Unit) (remote_desc : Int)
    (watch : p.map Phase.watching =
      if 0 ≤ fd ∧ fd < FD_SETSIZE then some (watching_one fd proc none) else none)
    (listen_desc : ∀ d turn, p = some (.listening d turn) → s.listen_desc = d) :
    Option.Rel Serves
      (do let n ← add_file_handler fd proc () s.loop.remote_notifier
          return { s with remote_desc := remote_desc,
                          loop := { s.loop with remote_notifier := n } })
      p := by
  have related := open_rel fd proc
  rw [start]
  by_cases inside : 0 ≤ fd ∧ fd < FD_SETSIZE
  · rw [if_pos inside] at watch related
    obtain ⟨q, rfl, watching⟩ := Option.map_eq_some_iff.mp watch
    generalize add_file_handler fd proc () _ = m at related
    cases related with
    | some shown =>
        refine .some ⟨watching ▸ shown, ?_, fun d turn same => listen_desc d turn (same ▸ rfl)⟩
        rw [watching]
        intro d member
        obtain rfl := List.mem_singleton.mp member
        exact inside
  · rw [if_neg inside] at watch related
    obtain rfl := Option.map_eq_none_iff.mp watch
    generalize add_file_handler fd proc () _ = m at related
    cases related
    exact .none

theorem Phase.accept_watching (fd : Int) :
    (accept fd).map watching = if 0 ≤ fd ∧ fd < FD_SETSIZE then
      some (watching_one fd .handle_serial_event none) else none := by
  rw [accept]
  split_ifs <;> rfl

theorem Phase.listen_watching (fd : Int) :
    (listen fd).map watching = if 0 ≤ fd ∧ fd < FD_SETSIZE then
      some (watching_one fd .handle_accept_event none) else none := by
  rw [listen]
  split_ifs <;> rfl

theorem start_serves (name : List Byte) (socket opened : Int) :
    Option.Rel Serves (remote_open name opened (remote_prepare name socket Server.start))
      (Phase.start name socket opened) := by
  have connected {fd d : Int} {turn : Option Int}
      (same : Phase.accept fd = some (.listening d turn)) : False := by
    cases (Phase.accept_eq_some same).1
  rw [remote_open, remote_prepare, Phase.start]
  split_ifs
  · exact opened_rel (s := Server.start) rfl 0 (Phase.accept_watching 0)
      fun _ _ same => (connected same).elim
  · refine opened_rel (s := { Server.start with listen_desc := socket }) rfl INVALID_DESCRIPTOR
      (Phase.listen_watching socket) fun d turn same => ?_
    rw [Phase.listen] at same
    split_ifs at same
    obtain ⟨rfl, -⟩ := Phase.listening.inj (Option.some.inj same)
    rfl
  · exact opened_rel (s := Server.start) rfl opened (Phase.accept_watching opened)
      fun _ _ same => (connected same).elim

theorem main_rel (name : List Byte) (socket opened : Int) (externals : List External) :
    Option.Rel (Reactive.Agree Serves) (main name socket opened externals)
      (Phase.main name socket opened externals) := by
  have start := start_serves name socket opened
  rw [main, Phase.main]
  generalize remote_open name opened _ = m, Phase.start name socket opened = m' at start
  cases start with
  | none => exact .none
  | some serves =>
      exact Reactive.run_rel (fun x _ _ _ serves => round_serves x serves) serves

theorem Phase.round_goes_on (x : External) (p : Phase)
    (r : Reactive.Response Phase (Output Handler Callback Unit)) (taken : p.round x = some r) :
    r.stopped = false := by
  cases p with
  | listening fd turn =>
      cases turn with
      | none =>
          obtain rfl := Option.some.inj taken
          rfl
      | some error =>
          obtain ⟨q, -, ⟨⟩⟩ := Option.bind_eq_some_iff.mp taken
          rfl
  | connected fd turn => cases turn <;> (obtain rfl := Option.some.inj taken; rfl)

/-- The server shows its phases, whatever the environment does: it watches one descriptor at a time,
calls the handler of that descriptor once each time it is found ready, and has no meaning exactly
where the descriptor to watch has no place in an `fd_set`, as that of a failed `accept` has not. Its
event loop never returns. -/
theorem server_refines (name : List Byte) (socket opened : Int) (externals : List External) :
    (main name socket opened externals).map Reactive.Response.seen =
        (Phase.main name socket opened externals).map Reactive.Response.seen ∧
      ∀ r, main name socket opened externals = some r → r.stopped = false := by
  have related := main_rel name socket opened externals
  refine ⟨Reactive.seen_eq related, fun r ran => ?_⟩
  rw [ran] at related
  generalize shown : Phase.main name socket opened externals = m at related
  cases related with
  | some agree =>
      obtain ⟨p, -, ran⟩ := Option.bind_eq_some_iff.mp shown
      rw [agree.stopped]
      exact Reactive.run_goes_on Phase.round_goes_on ran

end CFunc.EventLoop.Remote
