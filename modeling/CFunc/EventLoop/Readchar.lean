import CFunc.EventLoop.Server

/-!
The buffer of `event-loop-server/remote.c`.

`readchar` hands out the bytes that `read` puts into a buffer, and while some are
left it keeps a callback in the event loop, so that the loop does not wait for
more before they are looked at. A `read` that fails leaves -1 in the count of
bytes; the next `readchar` takes that for bytes that are left, unless the
connection is closed before. `BUFSIZ` is that of the GNU library.
-/

namespace CFunc.EventLoop.Remote

open CFunc.Lib

def NOT_SCHEDULED : Int := -1

def BUFSIZ : Nat := 8192

/-- What `read` returns: -1, or bytes for the buffer, none of them at the end of the input. -/
inductive Received where
  | failed
  | got (data : List Byte) (fits : data.length ≤ BUFSIZ)

/-- The static state of `readchar`, and the callback list of the event loop. -/
structure Readchar where
  readchar_callback : Int
  readchar_buf : List Byte
  readchar_bufcnt : Int
  readchar_bufp : Option Nat
  callback_list : CallbackList Callback Unit

/-- The state as the program starts. -/
def Readchar.start : Readchar :=
  { readchar_callback := NOT_SCHEDULED
    readchar_buf := List.replicate BUFSIZ 0
    readchar_bufcnt := 0
    readchar_bufp := none
    callback_list := CallbackList.start Callback Unit }

def reschedule (malloc : Malloc (CallbackEvent Callback Unit)) (s : Readchar) : Option Readchar :=
  if 0 < s.readchar_bufcnt ∧ s.readchar_callback = NOT_SCHEDULED then do
    let c := s.callback_list
    let (id, c) ← append_callback_event c (malloc.address c.cells) .process_remaining ()
    return { s with readchar_callback := id, callback_list := c }
  else some s

/-- The end of `readchar`, with the byte it returns. -/
def next_char (malloc : Malloc (CallbackEvent Callback Unit)) (s : Readchar) :
    Option (Int × Readchar) := do
  let bufcnt ← addInt s.readchar_bufcnt (-1)
  let bufp ← s.readchar_bufp
  let ch ← s.readchar_buf[bufp]?
  let s ← reschedule malloc { s with readchar_bufcnt := bufcnt, readchar_bufp := some (bufp + 1) }
  return ((ch.toNat : Int), s)

/-- What `readchar` returns, whether it calls `read`, and the state after it. -/
def readchar (received : Received) (malloc : Malloc (CallbackEvent Callback Unit)) (s : Readchar) :
    Option (Int × Bool × Readchar) :=
  if s.readchar_bufcnt = 0 then
    match received with
    | .failed => some (-1, true, { s with readchar_bufcnt := -1 })
    | .got data _ =>
        let s := { s with readchar_buf := data ++ s.readchar_buf.drop data.length,
                          readchar_bufcnt := data.length }
        if s.readchar_bufcnt ≤ 0 then some (-1, true, s)
        else do
          let (ch, s) ← next_char malloc { s with readchar_bufp := some 0 }
          return (ch, true, s)
  else do
    let (ch, s) ← next_char malloc s
    return (ch, false, s)

/-- No more callbacks are in the list than have been appended, which bounds the loop of
`delete_callback_event`. -/
def reset_readchar (s : Readchar) : Option Readchar :=
  let s := { s with readchar_bufcnt := 0 }
  if s.readchar_callback ≠ NOT_SCHEDULED then
    match delete_callback_event s.callback_list.num_callbacks.toNat s.callback_list
        s.readchar_callback with
    | .done t => some { s with callback_list := t.c, readchar_callback := NOT_SCHEDULED }
    | _ => none
  else some s

/-- `process_remaining` up to its call of `handle_serial_event`, and whether it makes it. -/
def process_remaining (s : Readchar) : Bool × Readchar :=
  (decide (0 < s.readchar_bufcnt), { s with readchar_callback := NOT_SCHEDULED })

/-! ### Histories -/

/-- What is done to the buffer: a call of `readchar`, by a handler or elsewhere, with what `read`
would return; the end of `remote_close`; and a call of `process_callback` by the event loop. -/
inductive Use where
  | readchar (received : Received) (malloc : Malloc (CallbackEvent Callback Unit))
  | reset_readchar
  | process_callback

/-- What is seen: what `readchar` returns and whether it calls `read`, and whether a callback is run
and calls `handle_serial_event`. -/
inductive Seen where
  | returned (ch : Int) (reads : Bool)
  | closed
  | processed (called : Option Bool)
  deriving DecidableEq, Repr

def use (u : Use) (s : Readchar) : Option (Reactive.Response Readchar Seen) :=
  match u with
  | .readchar received malloc => do
      let (ch, reads, s) ← readchar received malloc s
      return { state := s, output := [.returned ch reads], stopped := false }
  | .reset_readchar => do
      let s ← reset_readchar s
      return { state := s, output := [.closed], stopped := false }
  | .process_callback => do
      let (called, c) ← process_callback s.callback_list
      match called with
      | none => return { state := s, output := [.processed none], stopped := false }
      | some (.process_remaining, _) =>
          let (called, s) := process_remaining { s with callback_list := c }
          return { state := s, output := [.processed (some called)], stopped := false }

/-! ### The stream -/

/-- The bytes received that have not been handed out, whether the last `read` failed, whether a
callback is to look at what is left, and how many have been appended. -/
structure Stream where
  left : List Byte
  failed : Bool
  scheduled : Bool
  num_callbacks : Nat

namespace Stream

def start : Stream := { left := [], failed := false, scheduled := false, num_callbacks := 0 }

/-- Once a byte is handed out, a callback is to look at what is left. -/
def take (left : List Byte) (t : Stream) : Stream :=
  if left = [] ∨ t.scheduled = true then { t with left := left }
  else { t with left := left, scheduled := true, num_callbacks := t.num_callbacks + 1 }

/-- Bytes are handed out in the order they came in; only when none is left are more read. A callback
that is due runs, and looks at what is left if there is something. -/
def use (u : Use) (t : Stream) : Seen × Stream :=
  match u with
  | .readchar received _ =>
      match t.left with
      | ch :: left => (.returned ch.toNat false, t.take left)
      | [] =>
          match received with
          | .failed => (.returned (-1) true, { t with failed := true })
          | .got [] _ => (.returned (-1) true, { t with failed := false })
          | .got (ch :: left) _ => (.returned ch.toNat true, take left { t with failed := false })
  | .reset_readchar => (.closed, { t with left := [], failed := false, scheduled := false })
  | .process_callback =>
      if t.scheduled then
        (.processed (some (decide (t.left ≠ []))), { t with scheduled := false })
      else (.processed none, t)

def seen : List Use → Stream → List Seen
  | [], _ => []
  | u :: uses, t => (t.use u).1 :: seen uses (t.use u).2

end Stream

end CFunc.EventLoop.Remote
