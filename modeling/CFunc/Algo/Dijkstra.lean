import CFunc.Lib.CInt
import CFunc.Lib.Loop

/-!
`algo/Dijkstra.cpp`: Dijkstra's algorithm over adjacency lists.

Vectors and lists of the source are Lean lists. Reading or writing past a
vector's end, dereferencing the iterator `It` before it is assigned and signed
overflow have no meaning in C++, so the operations that can do so are partial
and a run through them has no result. The outer loop of `Dijkstra` is run on
fuel (`Lib.Loop.run`); `Traverse` spends fuel on its recursion depth.
-/

namespace CFunc.DijkstraCpp

open CFunc.Lib

/-- An entry of an adjacency list: the edge's end node and its weight. -/
structure Node where
  u : Nat
  w : Int
  deriving DecidableEq, Repr

/-- The node before this one on the path, and the path's cost. -/
structure Record where
  pre : Nat
  cost : Int
  deriving DecidableEq, Repr

/-- The globals `main` fills in before it calls `Dijkstra`. -/
structure Input where
  n : Nat
  s : Nat
  Adj : List (List Node)
  deriving DecidableEq, Repr

/-- What a round of `Dijkstra` reads and writes. -/
structure State where
  isUsed : List Bool
  Assi : List Nat
  Path : List Record
  deriving DecidableEq, Repr

/-! ### Initialisation -/

/-- `Path[i].pre = i; Path[i].cost = INT_MAX;` for every node. -/
def initPath (n : Nat) : List Record :=
  (List.range n).map fun i => ⟨i, INT_MAX⟩

/-- The loop body over `Adj[s]` before the first round: it stores the edge's
weight whatever was stored before. -/
def seed (s : Nat) (st : State) (it : Node) : Option State := do
  let Path ← store st.Path it.u ⟨s, it.w⟩
  return { st with Path := Path, Assi := st.Assi ++ [it.u] }

/-- `Dijkstra` up to its `while` loop. -/
def start (g : Input) : Option State := do
  let isUsed ← store (List.replicate g.n false) g.s true
  let adj ← g.Adj[g.s]?
  adj.foldlM (seed g.s) ⟨isUsed, [], initPath g.n⟩

/-! ### One round -/

/-- One comparison of the selection loop. `best` is `minCost` and `It`, as a
position of `Assi`; `It` is unassigned until a cost below `minCost` is seen. -/
def selectStep (Path : List Record) (best : Int × Option Nat) (it : Nat × Nat) :
    Option (Int × Option Nat) := do
  let r ← Path[it.1]?
  return if best.1 > r.cost then (r.cost, some it.2) else best

/-- The selection loop over `Assi`. -/
def select (Path : List Record) (Assi : List Nat) : Option (Int × Option Nat) :=
  Assi.zipIdx.foldlM (selectStep Path) (INT_MAX, none)

/-- The relaxation loop's body for the edge `it` of the selected node `u`. -/
def relax (u : Nat) (minCost : Int) (st : State) (it : Node) : Option State := do
  let used ← st.isUsed[it.u]?
  if used then return st
  let r ← st.Path[it.u]?
  let Assi := if r.cost = INT_MAX then st.Assi ++ [it.u] else st.Assi
  let cost ← addInt minCost it.w
  if r.cost > cost then
    let Path ← store st.Path it.u ⟨u, cost⟩
    return { st with Path := Path, Assi := Assi }
  else
    return { st with Assi := Assi }

/-- The body of `while (!Assi.empty())`. -/
def round (g : Input) (st : State) : Option State := do
  let (minCost, It) ← select st.Path st.Assi
  let i ← It
  let u ← st.Assi[i]?
  let isUsed ← store st.isUsed u true
  let adj ← g.Adj[u]?
  adj.foldlM (relax u minCost) { st with isUsed := isUsed, Assi := st.Assi.eraseIdx i }

/-! ### The program -/

/-- `Dijkstra()` with `fuel` rounds of its `while` loop. -/
def Dijkstra (fuel : Nat) (g : Input) : Loop.Result State :=
  match start g with
  | none => .fault
  | some st => Loop.run (fun st => !st.Assi.isEmpty) (round g) fuel st

/-- `Traverse(k)`: the node numbers it prints, in order. -/
def Traverse (Path : List Record) : Nat → Nat → Option (List Nat)
  | 0, _ => none
  | fuel + 1, k => do
      let r ← Path[k]?
      if r.pre = k then return [k]
      let before ← Traverse Path fuel r.pre
      return before ++ [k]

/-- A node number read from the file, used as a vector index. -/
def index (x : Int) : Option Nat :=
  if 0 ≤ x then some x.toNat else none

/-- `while (m--) { in >> u >> v >> w; Adj[u].push_back(Node(v, w)); }` -/
def readEdges : Nat → List Int → List (List Node) → Option (List (List Node))
  | 0, _, Adj => some Adj
  | m + 1, u :: v :: w :: rest, Adj => do
      let u ← index u
      let v ← index v
      let row ← Adj[u]?
      readEdges m rest (Adj.set u (row ++ [⟨v, w⟩]))
  | _ + 1, _, _ => none

/-- The part of `main` that reads `data.txt`, given as its numbers. -/
def readInput : List Int → Option Input
  | n :: m :: s :: rest => do
      let n ← index n
      let m ← index m
      let s ← index s
      let Adj ← readEdges m rest (List.replicate n [])
      return ⟨n, s, Adj⟩
  | _ => none

/-- The line `Print` writes for node `i`. -/
def printNode (fuel : Nat) (s : Nat) (Path : List Record) (i : Nat) : Option String := do
  if i = s then return ""
  let r ← Path[i]?
  let line := "From " ++ toString s ++ " to " ++ toString i ++ ": "
  if r.cost = INT_MAX then return line ++ "No path\n\n"
  let nodes ← Traverse Path fuel i
  return line ++ " ".intercalate (nodes.map toString) ++ "\nMinimal Cost: " ++
    toString r.cost ++ "\n\n"

/-- `Print()` -/
def Print (fuel : Nat) (g : Input) (Path : List Record) : Option String := do
  let lines ← (List.range g.n).mapM (printNode fuel g.s Path)
  return "Result:\n" ++ String.join lines

/-- `main` on the numbers of `data.txt`: the state `Dijkstra` leaves. -/
def main (fuel : Nat) (data : List Int) : Loop.Result State :=
  match readInput data with
  | none => .fault
  | some g => Dijkstra fuel g

end CFunc.DijkstraCpp
