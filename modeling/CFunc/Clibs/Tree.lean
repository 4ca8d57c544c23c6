import CFunc.Lib.Byte
import CFunc.Lib.CInt
import CFunc.Lib.LinkedTree
import Mathlib.Logic.Relation

/-!
The node hierarchy of `clibs/tree.c`.

Nodes live in a heap that `malloc` only extends, so a pointer is an address in
a list and `NULL` is `none`. The `cstl` vector of indices is the list it grows.
`int` is 32 bits wide and its counters wrap.
-/

namespace CFunc.Clibs.Tree

open CFunc.Lib.LinkedTree

/-- Address of a node, the value of a pointer other than `NULL`. -/
abbrev Ptr := Nat

def MAX_NAME_LEN : Nat := 50

/-- The C string in a `char[MAX_NAME_LEN]`: what stands before its `NUL`. -/
structure CName where
  chars : List Byte
  fits : chars.length < MAX_NAME_LEN
  plain : 0 ∉ chars
  deriving DecidableEq

/-- The name a zeroed buffer holds. -/
def CName.empty : CName := ⟨[], by decide, by simp⟩

/-- `tree.c` copies a `reg` that its `tree.h` does not declare. -/
structure NodeData where
  id : CInt
  reg : CInt
  name : CName
  deriving DecidableEq

structure HierNode where
  index : CInt
  data : NodeData
  child : Option Ptr
  sibling : Option Ptr
  deriving DecidableEq

structure HierTree where
  num : CInt
  nodeIndexs : List CInt
  rootIndex : CInt
  root : Option Ptr
  deriving DecidableEq

/-- The heap together with what `g_hiertree` points to. -/
structure State where
  heap : List HierNode
  g_hiertree : HierTree
  deriving DecidableEq

/-- A node after `malloc` and `memset`. -/
def zeroed : HierNode :=
  { index := 0, data := { id := 0, reg := 0, name := .empty }, child := none, sibling := none }

/-! ### Search -/

def check_node_index (tree : HierTree) (index : CInt) : Bool :=
  if index = -1 then false else tree.nodeIndexs.any (· == index)

/-- Child before sibling. A recursion deeper than `fuel`, or through a pointer
to no node, has no result. -/
def _get_node_by_index (heap : List HierNode) (index : CInt) :
    Nat → Option Ptr → Option (Option Ptr)
  | fuel, node =>
      if index = -1 then some none
      else
        match fuel, node with
        | _, none => some none
        | 0, some _ => none
        | fuel + 1, some node =>
            match heap[node]? with
            | none => none
            | some info =>
                if info.index = index then some (some node)
                else
                  match _get_node_by_index heap index fuel info.child with
                  | none => none
                  | some none => _get_node_by_index heap index fuel info.sibling
                  | some (some nodeinfo) => some (some nodeinfo)

/-- A recursion deeper than the number of nodes is on some node twice and never ends. -/
def get_node_by_index (s : State) (index : CInt) : Option (Option Ptr) :=
  if check_node_index s.g_hiertree index ≠ true then some none
  else _get_node_by_index s.heap index s.heap.length s.g_hiertree.root

/-! ### Growing the hierarchy -/

/-- `while (head) { last_child = head; head = head->sibling; }` -/
def walk_siblings (heap : List HierNode) : Nat → Option Ptr → Option Ptr → Option (Option Ptr)
  | _, last_child, none => some last_child
  | 0, _, some _ => none
  | fuel + 1, _, some head =>
      match heap[head]? with
      | none => none
      | some node => walk_siblings heap fuel (some head) node.sibling

def set_child_link (heap : List HierNode) (p new_node : Ptr) : List HierNode :=
  heap.modify p fun node => { node with child := some new_node }

def set_sibling_link (heap : List HierNode) (p new_node : Ptr) : List HierNode :=
  heap.modify p fun node => { node with sibling := some new_node }

/-- Where the new node at the end of the heap is attached, once the parent is found. -/
def attach (heap : List HierNode) (parent_node new_node : Ptr) : Option (List HierNode) :=
  match heap[parent_node]? with
  | none => none
  | some parent =>
      if parent.child = none then some (set_child_link heap parent_node new_node)
      else if parent.sibling = none then some (set_sibling_link heap parent_node new_node)
      else
        match walk_siblings heap heap.length none parent.sibling with
        | some (some last_child) => some (set_sibling_link heap last_child new_node)
        | _ => none

/-- The node `set_child` fills in before it is attached. -/
def new_child (index : CInt) (data : NodeData) : HierNode :=
  { zeroed with
    index := index
    data := { id := data.id, reg := data.reg, name := data.name } }

def set_child (s : State) (parentIndex index : CInt) (data : NodeData) :
    Option (State × Option Ptr) :=
  if check_node_index s.g_hiertree parentIndex ≠ true then some (s, none)
  else
    match get_node_by_index s parentIndex with
    | none => none
    | some none => some (s, none)
    | some (some parent_node) =>
        let new_node := s.heap.length
        let tree :=
          { s.g_hiertree with
            nodeIndexs := s.g_hiertree.nodeIndexs ++ [index]
            num := s.g_hiertree.num + 1 }
        match attach (s.heap ++ [new_child index data]) parent_node new_node with
        | none => none
        | some heap => some ({ heap := heap, g_hiertree := tree }, some new_node)

/-- The node `set_root` fills in: its `reg` stays zero. -/
def new_root (data : NodeData) : HierNode :=
  { zeroed with
    index := 0
    child := none
    sibling := none
    data := { zeroed.data with id := data.id, name := data.name } }

def set_root (s : State) (data : NodeData) : State × Option Ptr :=
  let new_node := s.heap.length
  ({ heap := s.heap ++ [new_root data]
     g_hiertree :=
      { s.g_hiertree with
        nodeIndexs := s.g_hiertree.nodeIndexs ++ [0]
        num := s.g_hiertree.num + 1
        root := some new_node } }, some new_node)

def hiertree_init : State :=
  { heap := [], g_hiertree := { num := 0, nodeIndexs := [], rootIndex := 0, root := none } }

/-! ### Printing -/

/-- The nodes in the order in which `traversal` prints their names. -/
def traversal (heap : List HierNode) : Nat → Option Ptr → Option (List Ptr)
  | _, none => some []
  | 0, some _ => none
  | fuel + 1, some node =>
      match heap[node]? with
      | none => none
      | some info =>
          match traversal heap fuel info.child, traversal heap fuel info.sibling with
          | some below, some beside => some (node :: (below ++ beside))
          | _, _ => none

def dump (s : State) : Option (List Ptr) :=
  traversal s.heap s.heap.length s.g_hiertree.root

/-! ### Histories -/

inductive Call where
  | set_root (data : NodeData)
  | set_child (parentIndex index : CInt) (data : NodeData)
  deriving DecidableEq

namespace Call

def isRoot : Call → Bool
  | set_root _ => true
  | set_child .. => false

/-- The index of the node a call makes. -/
def index : Call → CInt
  | set_root _ => 0
  | set_child _ index _ => index

def data : Call → NodeData
  | set_root data => data
  | set_child _ _ data => data

def run (s : State) : Call → Option (State × Option Ptr)
  | set_root data => some (Tree.set_root s data)
  | set_child parentIndex index data => Tree.set_child s parentIndex index data

end Call

/-- Calls in order, each logged with the pointer it returned. -/
def history : State → List Call → Option (State × List (Call × Option Ptr))
  | s, [] => some (s, [])
  | s, c :: calls =>
      match c.run s with
      | none => none
      | some (s', r) =>
          match history s' calls with
          | none => none
          | some (t, log) => some (t, (c, r) :: log)

/-! ### Links between nodes -/

def link : Slot → HierNode → Option Ptr
  | .first, node => node.child
  | .next, node => node.sibling

/-- The node at `p` points to `q` by its child or its sibling field. -/
def Linked (heap : List HierNode) (p q : Ptr) : Prop :=
  ∃ node slot, heap[p]? = some node ∧ link slot node = some q

/-- Reachable from the root through child and sibling. -/
def Reachable (s : State) (p : Ptr) : Prop :=
  ∃ root, s.g_hiertree.root = some root ∧ Relation.ReflTransGen (Linked s.heap) root p

end CFunc.Clibs.Tree
