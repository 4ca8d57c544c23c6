import CFunc.Clibs.Queue
import CFunc.Lib.CInt
import CFunc.Lib.Keyed
import Mathlib.Logic.Function.Basic
import Mathlib.Order.Lattice.Nat

/-!
The file handlers of `event-loop-server/event-loop.c`.

`FD_SET` and its like have no meaning for a descriptor that an `fd_set` has no
place for. The list of file handlers is a list, since no pointer into it
outlives the function that found it. The event queue is the one of
`clibs/queue.h`, whose events all have the same procedure.
-/

namespace CFunc.EventLoop

open CFunc.Lib CFunc.Clibs

/-! ### Sets of descriptors -/

def FD_SETSIZE : Nat := 1024

/-- `fd_set` -/
abbrev FdSet := Nat → Bool

def FD_ZERO : FdSet := fun _ => false

/-- The place of a descriptor in a set. -/
def place (fd : Int) : Option Nat :=
  if 0 ≤ fd ∧ fd < FD_SETSIZE then some fd.toNat else none

def FD_SET (fd : Int) (s : FdSet) : Option FdSet := do
  let d ← place fd
  return Function.update s d true

def FD_CLR (fd : Int) (s : FdSet) : Option FdSet := do
  let d ← place fd
  return Function.update s d false

def FD_ISSET (fd : Int) (s : FdSet) : Option Bool := do
  let d ← place fd
  return s d

/-- The members of `check_masks` and of `ready_masks`, in order. -/
structure Masks where
  readable : FdSet
  writable : FdSet
  exception : FdSet

/-- The number of members of a set. -/
def members (s : FdSet) : Nat := (List.range FD_SETSIZE).countP s

/-- `select`, with the descriptors below `nfds` that are ready or have failed for what they are
watched for. It counts them set by set; when it is `none` it fails with -1, and then the loop
clears the sets. -/
def select (ready : Option Masks) (nfds : Int) (masks : Masks) : Int × Masks :=
  match ready with
  | none => (-1, { readable := FD_ZERO, writable := FD_ZERO, exception := FD_ZERO })
  | some ready =>
      let found (asked is : FdSet) : FdSet := fun d => asked d && is d && decide ((d : Int) < nfds)
      let masks := { readable := found masks.readable ready.readable,
                     writable := found masks.writable ready.writable,
                     exception := found masks.exception ready.exception }
      ((members masks.readable + members masks.writable + members masks.exception : Nat), masks)

/-! ### File handlers -/

def remote_READABLE : CInt := 1 <<< 1
def remote_WRITABLE : CInt := 1 <<< 2
def remote_EXCEPTION : CInt := 1 <<< 3

/-- `file_handler`, whose `error` has no value until its first event is handled. -/
structure FileHandler (F D : Type) where
  fd : Int
  mask : CInt
  ready_mask : CInt
  proc : F
  client_data : D
  error : Option Int

/-- `remote_notifier`; `ready_masks` are those `select` leaves, and are not read later. -/
structure Notifier (F D : Type) where
  first_file_handler : List (FileHandler F D)
  check_masks : Masks
  num_fds : Int

variable {F D : Type}

/-- `FD_SET` when the bit is in the mask, and `FD_CLR` otherwise. -/
def FD_PUT (mask bit : CInt) (fd : Int) (s : FdSet) : Option FdSet :=
  if mask &&& bit ≠ 0 then FD_SET fd s else FD_CLR fd s

def create_file_handler (fd : Int) (mask : CInt) (proc : F) (client_data : D) (n : Notifier F D) :
    Option (Notifier F D) :=
  match Keyed.find FileHandler.fd fd n.first_file_handler with
  | none => do
      let readable ← FD_PUT mask remote_READABLE fd n.check_masks.readable
      let writable ← FD_PUT mask remote_WRITABLE fd n.check_masks.writable
      let exception ← FD_PUT mask remote_EXCEPTION fd n.check_masks.exception
      let file_ptr := { fd := fd, mask := mask, ready_mask := 0, proc := proc,
                        client_data := client_data, error := none }
      return { first_file_handler := file_ptr :: n.first_file_handler,
               check_masks :=
                 { readable := readable, writable := writable, exception := exception },
               num_fds := if n.num_fds ≤ fd then fd + 1 else n.num_fds }
  | some _ =>
      some { n with
        first_file_handler := Keyed.change FileHandler.fd fd
          (fun file_ptr => { file_ptr with proc := proc, client_data := client_data, mask := mask })
          n.first_file_handler }

def add_file_handler (fd : Int) (proc : F) (client_data : D) (n : Notifier F D) :
    Option (Notifier F D) :=
  create_file_handler fd (remote_READABLE ||| remote_EXCEPTION) proc client_data n

/-- The loop that looks for the highest descriptor watched, `i` being its counter. -/
def highest (masks : Masks) : Nat → Option Nat
  | 0 => some 0
  | i + 1 => do
      let readable ← FD_ISSET i masks.readable
      let writable ← FD_ISSET i masks.writable
      let exception ← FD_ISSET i masks.exception
      if readable || writable || exception then return i + 1 else highest masks i

/-- `num_fds` once a descriptor is no longer watched. -/
def find_max (masks : Masks) (fd num_fds : Int) : Option Int :=
  if fd + 1 = num_fds then (highest masks (num_fds - 1).toNat).map fun i => (i : Int)
  else some num_fds

/-- `FD_CLR` when the bit is in the mask. -/
def FD_DROP (mask bit : CInt) (fd : Int) (s : FdSet) : Option FdSet :=
  if mask &&& bit ≠ 0 then FD_CLR fd s else some s

def delete_file_handler (fd : Int) (n : Notifier F D) : Option (Notifier F D) :=
  match Keyed.find FileHandler.fd fd n.first_file_handler with
  | none => some n
  | some file_ptr => do
      let readable ← FD_DROP file_ptr.mask remote_READABLE fd n.check_masks.readable
      let writable ← FD_DROP file_ptr.mask remote_WRITABLE fd n.check_masks.writable
      let exception ← FD_DROP file_ptr.mask remote_EXCEPTION fd n.check_masks.exception
      let check_masks := { readable := readable, writable := writable, exception := exception }
      let num_fds ← find_max check_masks fd n.num_fds
      return { first_file_handler := Keyed.remove FileHandler.fd fd n.first_file_handler,
               check_masks := check_masks, num_fds := num_fds }

/-- `handle_file_event` up to the call, with the procedure it calls, the error and the argument. It
returns -1 when the call returns less than 0, and 0 otherwise. -/
def handle_file_event (event_file_desc : Int) (n : Notifier F D) :
    Option (F × Int × D) × Notifier F D :=
  match Keyed.find FileHandler.fd event_file_desc n.first_file_handler with
  | none => (none, n)
  | some file_ptr =>
      let error : Int := if file_ptr.ready_mask &&& remote_EXCEPTION ≠ 0 then 1 else 0
      let mask := file_ptr.ready_mask &&& file_ptr.mask
      (if mask ≠ 0 then some (file_ptr.proc, error, file_ptr.client_data) else none,
        { n with
          first_file_handler := Keyed.change FileHandler.fd event_file_desc
            (fun file_ptr => { file_ptr with error := some error, ready_mask := 0 })
            n.first_file_handler })

/-! ### Waiting -/

/-- What `malloc` answers with, by what is allocated: an address that holds nothing. -/
structure Malloc (ε : Type) where
  address : (Nat → Option ε) → Nat
  free : ∀ cells : Nat → Option ε, (∃ p, cells p = none) → cells (address cells) = none

/-- The lowest address that holds nothing. -/
noncomputable def Malloc.lowest (ε : Type) : Malloc ε where
  address cells := sInf {p | cells p = none}
  free _ some_free := Nat.sInf_mem some_free

/-- What a descriptor was found ready for. -/
def found_mask (ready : Masks) (fd : Int) : Option CInt := do
  let readable ← FD_ISSET fd ready.readable
  let writable ← FD_ISSET fd ready.writable
  let exception ← FD_ISSET fd ready.exception
  return (if readable then remote_READABLE else 0) ||| (if writable then remote_WRITABLE else 0) |||
    (if exception then remote_EXCEPTION else 0)

/-- The loop that enqueues the events, from some handler on. -/
def enqueue_found (malloc : Malloc (QueueH.Elem Int)) (ready : Masks) :
    List (FileHandler F D) → Int → QueueH.Queue Int →
      Option (List (FileHandler F D) × QueueH.Queue Int)
  | [], _, event_queue => some ([], event_queue)
  | file_ptr :: rest, num_found, event_queue =>
      if 0 < num_found then do
        let mask ← found_mask ready file_ptr.fd
        if mask = 0 then
          let (rest, event_queue) ← enqueue_found malloc ready rest num_found event_queue
          return (file_ptr :: rest, event_queue)
        else
          let event_queue ←
            if file_ptr.ready_mask = 0 then
              QueueH.enque event_queue (malloc.address event_queue.elems) file_ptr.fd
            else pure event_queue
          let (rest, event_queue) ← enqueue_found malloc ready rest (num_found - 1) event_queue
          return ({ file_ptr with ready_mask := mask } :: rest, event_queue)
      else some (file_ptr :: rest, event_queue)

end CFunc.EventLoop
