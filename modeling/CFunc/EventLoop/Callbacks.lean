import CFunc.Lib.CInt
import CFunc.Lib.LinkedList
import CFunc.Lib.Loop
import Mathlib.Logic.Function.Basic

/-!
The callback list of `event-loop-server/event-loop.c`.

Events live at addresses between `malloc` and `free`; an access to any other
address has no meaning. The address that `malloc` answers with is given to
`append_callback_event`. What a pointer to a procedure and a pointer to data
point to is left open.
-/

namespace CFunc.EventLoop

open CFunc.Lib

/-- Address of a callback event, the value of a pointer other than `NULL`. -/
abbrev Ptr := Nat

/-- `struct callback_event` -/
structure CallbackEvent (P D : Type) where
  id : Int
  proc : P
  data : D
  next : Option Ptr

/-- `callback_list`, with the events that are allocated. -/
structure CallbackList (P D : Type) where
  first : Option Ptr
  last : Option Ptr
  num_callbacks : Int
  cells : Ptr → Option (CallbackEvent P D)

variable {P D : Type}

/-- The table as the program starts. -/
def CallbackList.start (P D : Type) : CallbackList P D :=
  { first := none, last := none, num_callbacks := 0, cells := fun _ => none }

/-- The id returned comes first. -/
def append_callback_event (c : CallbackList P D) (p : Ptr) (proc : P) (data : D) :
    Option (Int × CallbackList P D) := do
  let num_callbacks ← addInt c.num_callbacks 1
  let event := { id := c.num_callbacks, proc := proc, data := data, next := none }
  let cells := Function.update c.cells p (some event)
  let first := if c.first = none then some p else c.first
  match c.last with
  | none =>
      return (event.id,
        { first := first, last := some p, num_callbacks := num_callbacks, cells := cells })
  | some l =>
      let last ← cells l
      let cells := Function.update cells l (some { last with next := some p })
      return (event.id,
        { first := first, last := some p, num_callbacks := num_callbacks, cells := cells })

/-- The loop of `delete_callback_event`. Its pointer to a pointer is one to `first`, or one to the
`next` of the event at an address; `event_ptr` is what it points to, and `NULL` after the break. -/
structure Search (P D : Type) where
  c : CallbackList P D
  p : Option Ptr
  event_ptr : Option Ptr

/-- `*p = link` -/
def assign (c : CallbackList P D) (p link : Option Ptr) : Option (CallbackList P D) :=
  match p with
  | none => some { c with first := link }
  | some a => do
      let e ← c.cells a
      return { c with cells := Function.update c.cells a (some { e with next := link }) }

/-- What follows the unlinking of an event: it is freed, and `last` no longer points to it. -/
def release (c : CallbackList P D) (event_ptr : Ptr) : CallbackList P D :=
  { c with last := if c.last = some event_ptr then none else c.last,
           cells := Function.update c.cells event_ptr none }

/-- One round of the loop. -/
def search (id : Int) (t : Search P D) : Option (Search P D) := do
  let event_ptr ← t.event_ptr
  let e ← t.c.cells event_ptr
  if e.id = id then
    let c ← assign t.c t.p e.next
    return { t with c := release c event_ptr, event_ptr := none }
  else return { t with p := some event_ptr, event_ptr := e.next }

def delete_callback_event (fuel : Nat) (c : CallbackList P D) (id : Int) :
    Loop.Result (Search P D) :=
  Loop.run (fun t => t.event_ptr.isSome) (search id) fuel
    { c := c, p := none, event_ptr := c.first }

/-- `process_callback` up to the call, with the procedure it calls and the argument; there is
none when the list is empty. What is returned is -1 when the call returns anything but 0, 1 when
it returns 0, and 0 without a call. -/
def process_callback (c : CallbackList P D) : Option (Option (P × D) × CallbackList P D) :=
  match c.first with
  | none => some (none, c)
  | some event_ptr => do
      let e ← c.cells event_ptr
      let c := { c with first := e.next }
      let c := if c.first = none then { c with last := none } else c
      return (some (e.proc, e.data), { c with cells := Function.update c.cells event_ptr none })

/-- The events met on a walk along `next`, from `p` to `NULL`. -/
def walk (c : CallbackList P D) : Nat → Option Ptr → Option (List (Int × P × D))
  | _, none => some []
  | 0, some _ => none
  | fuel + 1, some p => do
      let e ← c.cells p
      let rest ← walk c fuel e.next
      return (e.id, e.proc, e.data) :: rest

end CFunc.EventLoop
