import CFunc.Lib.CInt
import CFunc.Lib.LinkedList
import CFunc.Lib.Loop

/-!
The queue macros of `clibs/queue.h`.

Elements live at addresses between `malloc` and `free`. An access to any other
address, or to `NULL`, has no meaning, and neither has a failed assertion. The
address that `malloc` answers with is given to `enque`. What a callback does is
given by its calls; `int` is 32 bits wide and its counters wrap.
-/

namespace CFunc.Clibs.QueueH

open CFunc.Lib CFunc.Lib.LinkedList

/-- Address of an element, the value of a pointer other than `NULL`. -/
abbrev Ptr := Nat

/-- `QUEUE_ELEM(TYPE)` -/
structure Elem (α : Type) where
  next : Option Ptr
  data : α

/-- `QUEUE_ITER(TYPE)` -/
structure Iter where
  p : Option Ptr
  prev : Option Ptr
  deriving DecidableEq, Repr

/-- `QUEUE(TYPE)`, with the elements that are allocated. -/
structure Queue (α : Type) where
  head : Option Ptr
  tail : Option Ptr
  elems : Ptr → Option (Elem α)

variable {α : Type}

/-- The elements with what is stored at `p` changed. -/
def set (elems : Ptr → Option (Elem α)) (p : Ptr) (e : Option (Elem α)) : Ptr → Option (Elem α) :=
  fun a => if a = p then e else elems a

def alloc (α : Type) : Queue α := { head := none, tail := none, elems := fun _ => none }

def enque (q : Queue α) (p : Ptr) (v : α) : Option (Queue α) := do
  let elems := set q.elems p (some { next := none, data := v })
  match q.tail with
  | none => return { head := some p, tail := some p, elems := elems }
  | some t =>
      let last ← elems t
      return { q with tail := some p, elems := set elems t (some { last with next := some p }) }

def deque (q : Queue α) : Option (α × Queue α) := do
  let p ← q.head
  let q ←
    if q.head = q.tail then pure { q with head := none, tail := none }
    else do
      let e ← q.elems p
      pure { q with head := e.next }
  let e ← q.elems p
  return (e.data, { q with elems := set q.elems p none })

def is_empty (q : Queue α) : Bool := q.head == none

def remove_elem (q : Queue α) (iter : Iter) : Option (Queue α × Iter) := do
  let p ← iter.p
  let q ←
    if iter.p = q.head ∨ iter.p = q.tail then do
      let q ←
        if iter.p = q.head then do
          let e ← q.elems p
          pure { q with head := e.next }
        else pure q
      pure (if iter.p = q.tail then { q with tail := iter.prev } else q)
    else do
      let e ← q.elems p
      let prev ← iter.prev
      let before ← q.elems prev
      pure { q with elems := set q.elems prev (some { before with next := e.next }) }
  let _ ← q.elems p
  return ({ q with elems := set q.elems p none }, { iter with p := none })

/-! ### Loops -/

/-- What a call of the callback does: whether it removes the element it is
called for, and what it returns. -/
structure Call where
  removes : Bool
  returns : Bool
  deriving DecidableEq, Repr

/-- The calls of a callback in a pass, in order. -/
abbrev Operate := Nat → Call

/-- The loop of `iterate` after `calls` calls. -/
structure Pass (α : Type) where
  q : Queue α
  iter : Iter
  calls : Nat
  returned : Bool

/-- One round of the loop. -/
def visit (operate : Operate) (t : Pass α) : Option (Pass α) := do
  let p ← t.iter.p
  let e ← t.q.elems p
  let (q, iter) ← if (operate t.calls).removes then remove_elem t.q t.iter else pure (t.q, t.iter)
  if (operate t.calls).returns then
    let iter := if iter.p ≠ none then { iter with prev := iter.p } else iter
    return { q := q, iter := { iter with p := e.next }, calls := t.calls + 1, returned := false }
  else return { q := q, iter := iter, calls := t.calls + 1, returned := true }

/-- `iterate` returns 0 when its loop has `returned`, and 1 otherwise. -/
def iterate (operate : Operate) (fuel : Nat) (q : Queue α) : Loop.Result (Pass α) :=
  Loop.run (fun t => !t.returned && t.iter.p.isSome) (visit operate) fuel
    { q := q, iter := { p := q.head, prev := none }, calls := 0, returned := false }

/-- One round of the loop of `length`, over `p` and `len`. -/
def lengthStep (q : Queue α) (t : Option Ptr × CInt) : Option (Option Ptr × CInt) := do
  let p ← t.1
  let e ← q.elems p
  return (e.next, t.2 + 1)

/-- `length`, whose result is the second component. -/
def length (fuel : Nat) (q : Queue α) : Loop.Result (Option Ptr × CInt) :=
  Loop.run (fun t => t.1.isSome) (lengthStep q) fuel (q.head, 0)

/-- The data met on a walk along `next`, from `p` to `NULL`. -/
def walk (q : Queue α) : Nat → Option Ptr → Option (List α)
  | _, none => some []
  | 0, some _ => none
  | fuel + 1, some p => do
      let e ← q.elems p
      let rest ← walk q fuel e.next
      return e.data :: rest

end CFunc.Clibs.QueueH
