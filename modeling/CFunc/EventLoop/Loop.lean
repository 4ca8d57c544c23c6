import CFunc.EventLoop.Callbacks
import CFunc.EventLoop.Notifier
import CFunc.Lib.Reactive

/-!
The loop of `event-loop-server/event-loop.c`.

A round of the loop meets its environment at most once: it calls the handler of
an event, or a callback, or `select`. An `Answer` says what the environment
would do in a round, and a run takes one answer after another. A handler may
call any of the functions of the event loop, in any order.
-/

namespace CFunc.EventLoop

open CFunc.Lib CFunc.Clibs

/-- The static state of the event loop. -/
structure State (F P D : Type) where
  event_queue : QueueH.Queue Int
  remote_notifier : Notifier F D
  callback_list : CallbackList P D

/-- A call of a function of the event loop. -/
inductive Request (F P D : Type) where
  | add_file_handler (fd : Int) (proc : F) (client_data : D)
  | delete_file_handler (fd : Int)
  | append_callback_event (proc : P) (data : D)
  | delete_callback_event (id : Int)

/-- What the environment does in a round: the calls and the result of a handler or a callback,
the descriptors that `select` finds ready, and the addresses that `malloc` answers with. -/
structure Answer (F P D : Type) where
  requests : List (Request F P D)
  returns : Int
  ready : Option Masks
  remote_event : Malloc (QueueH.Elem Int)
  callback_event : Malloc (CallbackEvent P D)

/-- What the environment sees: a handler called with its error and argument, a callback called,
and `select` called with the number of descriptors and those watched. -/
inductive Output (F P D : Type) where
  | handler (proc : F) (error : Int) (client_data : D)
  | callback (proc : P) (data : D)
  | select (nfds : Int) (check_masks : Masks)

variable {F P D : Type}

/-- The static state as the program starts, after `initialize_event_loop`. -/
def State.start (F P D : Type) : State F P D :=
  { event_queue := QueueH.alloc Int
    remote_notifier :=
      { first_file_handler := []
        check_masks := { readable := FD_ZERO, writable := FD_ZERO, exception := FD_ZERO }
        num_fds := 0 }
    callback_list := CallbackList.start P D }

/-- A call. No more callbacks are in the list than have been appended, which bounds the loop of
`delete_callback_event`. -/
def request (malloc : Malloc (CallbackEvent P D)) (s : State F P D) :
    Request F P D → Option (State F P D)
  | .add_file_handler fd proc client_data => do
      let n ← add_file_handler fd proc client_data s.remote_notifier
      return { s with remote_notifier := n }
  | .delete_file_handler fd => do
      let n ← delete_file_handler fd s.remote_notifier
      return { s with remote_notifier := n }
  | .append_callback_event proc data => do
      let c := s.callback_list
      let (_, c) ← append_callback_event c (malloc.address c.cells) proc data
      return { s with callback_list := c }
  | .delete_callback_event id =>
      match delete_callback_event s.callback_list.num_callbacks.toNat s.callback_list id with
      | .done t => some { s with callback_list := t.c }
      | _ => none

/-- The calls of a handler or a callback. -/
def requests (a : Answer F P D) (s : State F P D) : Option (State F P D) :=
  a.requests.foldlM (request a.callback_event) s

/-- `wait_for_event`, which returns -1 without a call of `select` when no descriptor is watched. -/
def wait_for_event (a : Answer F P D) (s : State F P D) :
    Option (Reactive.Response (State F P D) (Output F P D)) := do
  let n := s.remote_notifier
  if n.num_fds = 0 then return { state := s, output := [], stopped := true }
  else
    let (num_found, ready_masks) := select a.ready n.num_fds n.check_masks
    let (handlers, event_queue) ←
      enqueue_found a.remote_event ready_masks n.first_file_handler num_found s.event_queue
    return {
      state := { s with event_queue := event_queue,
                        remote_notifier := { n with first_file_handler := handlers } }
      output := [.select n.num_fds n.check_masks]
      stopped := false }

/-- One round of `start_event_loop`: `process_event`, and when that returns 0 `process_callback`,
and when that returns 0 `wait_for_event`. -/
def round (a : Answer F P D) (s : State F P D) :
    Option (Reactive.Response (State F P D) (Output F P D)) := do
  if QueueH.is_empty s.event_queue then
    let (called, c) ← process_callback s.callback_list
    match called with
    | none => wait_for_event a s
    | some (proc, data) =>
        let s ← requests a { s with callback_list := c }
        return { state := s, output := [.callback proc data], stopped := a.returns ≠ 0 }
  else
    let (fd, event_queue) ← QueueH.deque s.event_queue
    let (called, n) := handle_file_event fd s.remote_notifier
    let s := { s with event_queue := event_queue, remote_notifier := n }
    match called with
    | none => return { state := s, output := [], stopped := false }
    | some (proc, error, client_data) =>
        let s ← requests a s
        return { state := s, output := [.handler proc error client_data], stopped := a.returns < 0 }

/-- `start_event_loop`, which has returned when the run has stopped. -/
def start_event_loop (answers : List (Answer F P D)) (s : State F P D) :
    Option (Reactive.Response (State F P D) (Output F P D)) :=
  Reactive.run round answers s

/-- What a program does with the event loop: calls of its functions, as those of an answer, and
then a run of it. -/
structure Session (F P D : Type) where
  setup : Answer F P D
  answers : List (Answer F P D)

/-- A session, after which the program goes on only when the loop has returned. -/
def session (x : Session F P D) (s : State F P D) :
    Option (Reactive.Response (State F P D) (Output F P D)) := do
  let s ← requests x.setup s
  let r ← start_event_loop x.answers s
  return { r with stopped := !r.stopped }

end CFunc.EventLoop
