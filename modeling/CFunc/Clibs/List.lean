import CFunc.Lib.LinkedRing

/-!
The intrusive lists of `clibs/list.h`.

A list is a ring through its head, entered there. The heap gives every
`struct list_head` its two pointers, and a function that follows a `NULL` has
no result. What the functions are for is said of the sequences of elements
behind the heads.
-/

namespace CFunc.Clibs.ListH

open CFunc.Lib.LinkedRing

variable {κ : Type} [DecidableEq κ]

/-! ### The code -/

/-- `x->next = p` -/
def setNext (h : Heap κ) (x : κ) (p : Option κ) : Heap κ :=
  { h with next := Function.update h.next x p }

/-- `x->prev = p` -/
def setPrev (h : Heap κ) (x : κ) (p : Option κ) : Heap κ :=
  { h with prev := Function.update h.prev x p }

def INIT_LIST_HEAD (h : Heap κ) (list : κ) : Heap κ :=
  let h := setNext h list (some list)
  setPrev h list (some list)

def __list_add (h : Heap κ) (new prev next : κ) : Heap κ :=
  let h := setPrev h next (some new)
  let h := setNext h new (some next)
  let h := setPrev h new (some prev)
  setNext h prev (some new)

def list_add (h : Heap κ) (new head : κ) : Option (Heap κ) := do
  let next ← h.next head
  return __list_add h new head next

def list_add_tail (h : Heap κ) (new head : κ) : Option (Heap κ) := do
  let prev ← h.prev head
  return __list_add h new prev head

def __list_del (h : Heap κ) (prev next : κ) : Heap κ :=
  let h := setPrev h next (some prev)
  setNext h prev (some next)

/-- `__list_del(entry->prev, entry->next)` -/
def unlink (h : Heap κ) (entry : κ) : Option (Heap κ) := do
  let prev ← h.prev entry
  let next ← h.next entry
  return __list_del h prev next

def list_del (h : Heap κ) (entry : κ) : Option (Heap κ) := do
  let h ← unlink h entry
  let h := setNext h entry none
  return setPrev h entry none

def list_del_init (h : Heap κ) (entry : κ) : Option (Heap κ) := do
  let h ← unlink h entry
  return INIT_LIST_HEAD h entry

def list_move (h : Heap κ) (list head : κ) : Option (Heap κ) := do
  let h ← unlink h list
  list_add h list head

def list_move_tail (h : Heap κ) (list head : κ) : Option (Heap κ) := do
  let h ← unlink h list
  list_add_tail h list head

def list_empty (h : Heap κ) (head : κ) : Bool := h.next head = some head

def __list_splice (h : Heap κ) (list head : κ) : Option (Heap κ) := do
  let first ← h.next list
  let last ← h.prev list
  let at' ← h.next head
  let h := setPrev h first (some head)
  let h := setNext h head (some first)
  let h := setNext h last (some at')
  return setPrev h at' (some last)

def list_splice (h : Heap κ) (list head : κ) : Option (Heap κ) :=
  if ¬ list_empty h list then __list_splice h list head else some h

def list_splice_init (h : Heap κ) (list head : κ) : Option (Heap κ) :=
  if ¬ list_empty h list then do
    let h ← __list_splice h list head
    return INIT_LIST_HEAD h list
  else some h

def list_swap (h : Heap κ) (node1 node2 : κ) : Option (Heap κ) := do
  let temp := h.prev node1
  let before ← h.prev node1
  let h := setNext h before (some node2)
  let before ← h.prev node2
  let h := setNext h before (some node1)
  let h := setPrev h node1 (h.prev node2)
  let h := setPrev h node2 temp
  let after ← h.next node1
  let h := setPrev h after (some node2)
  let after ← h.next node2
  let h := setPrev h after (some node1)
  let temp := h.next node1
  let h := setNext h node1 (h.next node2)
  return setNext h node2 temp

/-! ### Sequences -/

/-- The elements of each list, by its head. -/
abbrev Lists (κ : Type) := κ → Option (List κ)

/-- The elements behind a head. -/
def elems (R : Lists κ) (head : κ) : List κ := (R head).getD []

/-- The lists without an element. -/
def remove (R : Lists κ) (entry : κ) : Lists κ := fun a => (R a).map (·.erase entry)

def setElems (R : Lists κ) (head : κ) (l : List κ) : Lists κ := Function.update R head (some l)

/-- The heap holds every list as a ring through its head, and no node is in two of them. -/
structure Rings (h : Heap κ) (R : Lists κ) : Prop where
  ring : ∀ {a l}, R a = some l → Ring h a l
  apart : ∀ {a b l r}, R a = some l → R b = some r → a ≠ b → ∀ x ∈ a :: l, x ∉ b :: r

/-- The node is in no list, neither as an element nor as a head. -/
def Free (R : Lists κ) (x : κ) : Prop := ∀ a l, R a = some l → x ∉ a :: l

/-- The node is an element of a list. -/
def Member (R : Lists κ) (x : κ) : Prop := ∃ a l, R a = some l ∧ x ∈ l

/-- A call of one of the functions. -/
inductive Call (κ : Type) where
  | add (new head : κ)
  | add_tail (new head : κ)
  | del (entry : κ)
  | del_init (entry : κ)
  | move (list head : κ)
  | move_tail (list head : κ)
  | splice (list head : κ)
  | splice_init (list head : κ)
  deriving DecidableEq, Repr

namespace Call

def run (h : Heap κ) : Call κ → Option (Heap κ)
  | add new head => list_add h new head
  | add_tail new head => list_add_tail h new head
  | del entry => list_del h entry
  | del_init entry => list_del_init h entry
  | move list head => list_move h list head
  | move_tail list head => list_move_tail h list head
  | splice list head => list_splice h list head
  | splice_init list head => list_splice_init h list head

/-- The roles the comments give to the arguments. -/
def Respects (R : Lists κ) : Call κ → Prop
  | add new head => R head ≠ none ∧ Free R new
  | add_tail new head => R head ≠ none ∧ Free R new
  | del entry => Member R entry
  | del_init entry => Member R entry
  | move list head => Member R list ∧ R head ≠ none
  | move_tail list head => Member R list ∧ R head ≠ none
  | splice list head => R list ≠ none ∧ R head ≠ none ∧ list ≠ head
  | splice_init list head => R list ≠ none ∧ R head ≠ none ∧ list ≠ head

/-- What becomes of the sequences. A list that was spliced has no head any more, unless it
was empty. -/
def spec (R : Lists κ) : Call κ → Lists κ
  | add new head => setElems R head (new :: elems R head)
  | add_tail new head => setElems R head (elems R head ++ [new])
  | del entry => remove R entry
  | del_init entry => setElems (remove R entry) entry []
  | move list head => setElems (remove R list) head (list :: elems (remove R list) head)
  | move_tail list head => setElems (remove R list) head (elems (remove R list) head ++ [list])
  | splice list head =>
      if elems R list = [] then R
      else setElems (Function.update R list none) head (elems R list ++ elems R head)
  | splice_init list head => setElems (setElems R head (elems R list ++ elems R head)) list []

/-- The lists that the call is about, by their heads. -/
def Concerns (R : Lists κ) : Call κ → κ → Prop
  | add _ head, a => a = head
  | add_tail _ head, a => a = head
  | del entry, a => entry ∈ elems R a
  | del_init entry, a => entry ∈ elems R a
  | move list head, a => list ∈ elems R a ∨ a = head
  | move_tail list head, a => list ∈ elems R a ∨ a = head
  | splice list head, a => a = list ∨ a = head
  | splice_init list head, a => a = list ∨ a = head

end Call

end CFunc.Clibs.ListH
