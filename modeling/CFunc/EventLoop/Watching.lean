import CFunc.EventLoop.CallbackRep
import CFunc.EventLoop.Loop

/-!
What the event loop is for.

Descriptors are watched, each with a handler. When nothing is left to do the
loop waits for all of them at once. The handlers of those found ready are then
called in turn, one round after another, and a descriptor that is no longer
watched when its turn comes, or not watched without a break since it was found,
is passed over. The callbacks that are due come next, and only then does the
loop wait again.
-/

namespace CFunc.EventLoop

open CFunc.Lib

/-- A descriptor that is watched. -/
structure Watch (F D : Type) where
  fd : Int
  proc : F
  client_data : D

/-- The descriptors watched, the newest first; those found ready whose turn has not come, each
with the error to report, or `none` in place of one that is to be passed over; and the callbacks
that are due. -/
structure Watching (F P D : Type) where
  watched : List (Watch F D)
  found : List (Option (Int × Int))
  callbacks : Pending P D

/-- The set of the descriptors in a list. -/
def members_of (fds : List Int) : FdSet := fun d => decide ((d : Int) ∈ fds)

/-- Each descriptor is watched for reading and for exceptions, none for writing. -/
def watch_masks (fds : List Int) : Masks :=
  { readable := members_of fds, writable := FD_ZERO, exception := members_of fds }

/-- The highest descriptor in a list, and one more. -/
def highest_of : List Int → Int
  | [] => 0
  | fd :: fds => max (fd + 1) (highest_of fds)

variable {F P D : Type}

namespace Watching

def start (F P D : Type) : Watching F P D :=
  { watched := [], found := [], callbacks := Pending.start P D }

/-- A descriptor found ready is passed over when it is the one given. -/
def cancel (fd : Int) : Option (Int × Int) → Option (Int × Int)
  | some (fd', error) => if fd' = fd then none else some (fd', error)
  | none => none

/-- Only a descriptor with a place in an `fd_set` can be watched, and ids stay within `int`. -/
def request (t : Watching F P D) : Request F P D → Option (Watching F P D)
  | .add_file_handler fd proc client_data =>
      if fd ∈ t.watched.map Watch.fd then
        let renew (w : Watch F D) : Watch F D := { w with proc := proc, client_data := client_data }
        some { t with watched := Keyed.change Watch.fd fd renew t.watched }
      else if 0 ≤ fd ∧ fd < FD_SETSIZE then
        some { t with
          watched := { fd := fd, proc := proc, client_data := client_data } :: t.watched }
      else none
  | .delete_file_handler fd =>
      some { t with watched := t.watched.filter (fun w => w.fd ≠ fd),
                    found := t.found.map (cancel fd) }
  | .append_callback_event proc data =>
      if (t.callbacks.num_callbacks : Int) < INT_MAX then
        some { t with callbacks := t.callbacks.append proc data }
      else none
  | .delete_callback_event id => some { t with callbacks := t.callbacks.delete id }

/-- The handlers to call for what is ready: those of descriptors that are readable or failed. -/
def find_ready (ready : Masks) (w : Watch F D) : Option (Option (Int × Int)) :=
  let readable := ready.readable w.fd.toNat
  let failed := ready.exception w.fd.toNat
  if readable || failed then some (some (w.fd, if failed then 1 else 0)) else none

/-- What is found, nothing when the waiting fails. -/
def find_all (ready : Option Masks) (watched : List (Watch F D)) : List (Option (Int × Int)) :=
  match ready with
  | none => []
  | some ready => watched.filterMap (find_ready ready)

/-- All descriptors are waited for; there has to be one. -/
def wait (a : Answer F P D) (t : Watching F P D) :
    Reactive.Response (Watching F P D) (Output F P D) :=
  if t.watched = [] then { state := t, output := [], stopped := true }
  else
    let fds := t.watched.map Watch.fd
    { state := { t with found := find_all a.ready t.watched }
      output := [.select (highest_of fds) (watch_masks fds)]
      stopped := false }

/-- One round. The loop stops when a handler returns less than 0, a callback anything but 0, or
nothing is watched. -/
def round (a : Answer F P D) (t : Watching F P D) :
    Option (Reactive.Response (Watching F P D) (Output F P D)) := do
  match t.found with
  | none :: found =>
      return { state := { t with found := found }, output := [], stopped := false }
  | some (fd, error) :: found =>
      let w ← Keyed.find Watch.fd fd t.watched
      let t ← a.requests.foldlM request { t with found := found }
      return { state := t, output := [.handler w.proc error w.client_data],
               stopped := a.returns < 0 }
  | [] =>
      match t.callbacks.events with
      | (_, proc, data) :: _ =>
          let t ← a.requests.foldlM request { t with callbacks := t.callbacks.next }
          return { state := t, output := [.callback proc data], stopped := a.returns ≠ 0 }
      | [] => return wait a t

def session (x : Session F P D) (t : Watching F P D) :
    Option (Reactive.Response (Watching F P D) (Output F P D)) := do
  let t ← x.setup.requests.foldlM request t
  let r ← Reactive.run round x.answers t
  return { r with stopped := !r.stopped }

end Watching

end CFunc.EventLoop
