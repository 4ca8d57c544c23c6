import CFunc.Lib.CInt
import CFunc.Lib.LabelSetting
import CFunc.Algo.DijkstraInv

/-!
`algo/Dijkstra2.cpp`: Dijkstra's algorithm on a weight matrix.

`INT_MAX` stands for no edge and for no distance. A selection that finds no
candidate keeps `nextVertex = u`, the node selected last, and relaxes its edges
once more; by then there is none into a node outside `S`. The arrays are lists
with checked access, and the sum of a distance and a weight is partial.
-/

namespace CFunc.DijkstraMatrix

open CFunc.Lib CFunc.Lib.Graph

/-! ### The program -/

/-- The arrays the caller passes, the vector `isInS` and the node selected last. -/
structure State where
  distance : List Int
  prevVertex : List Int
  isInS : List Bool
  u : Nat
  deriving DecidableEq, Repr

/-- `map[i][j]` -/
def entry (map : List (List Int)) (i j : Nat) : Option Int := do
  (← map[i]?)[j]?

/-- The body of the initialisation loop. -/
def init (map : List (List Int)) (startVertex : Nat) (st : State) (i : Nat) : Option State := do
  let w ← entry map startVertex i
  let distance ← store st.distance i w
  let prevVertex ← store st.prevVertex i (if w < INT_MAX then startVertex else -1)
  return { st with distance := distance, prevVertex := prevVertex }

/-- `Dijkstra` up to its main loop. -/
def start (map : List (List Int)) (numOfVertex startVertex : Nat)
    (distance prevVertex : List Int) : Option State := do
  let isInS := List.replicate numOfVertex false
  let st ← (List.range numOfVertex).foldlM (init map startVertex)
    ⟨distance, prevVertex, isInS, startVertex⟩
  let prevVertex ← store st.prevVertex startVertex (-1)
  let isInS ← store st.isInS startVertex true
  return { st with prevVertex := prevVertex, isInS := isInS }

/-- One comparison of the selection loop, with `nextVertex` and `tempDistance`. -/
def selectStep (st : State) (best : Nat × Int) (j : Nat) : Option (Nat × Int) := do
  if (← st.isInS[j]?) = false then
    let d ← st.distance[j]?
    if d < best.2 then return (j, d) else return best
  else return best

def select (numOfVertex : Nat) (st : State) : Option (Nat × Int) :=
  (List.range numOfVertex).foldlM (selectStep st) (st.u, INT_MAX)

/-- The body of the update loop. -/
def relax (map : List (List Int)) (st : State) (j : Nat) : Option State := do
  if (← st.isInS[j]?) = false then
    let w ← entry map st.u j
    if w < INT_MAX then
      let temp ← addInt (← st.distance[st.u]?) w
      if temp < (← st.distance[j]?) then
        let distance ← store st.distance j temp
        let prevVertex ← store st.prevVertex j st.u
        return { st with distance := distance, prevVertex := prevVertex }
      else return st
    else return st
  else return st

/-- The body of the main loop. -/
def round (map : List (List Int)) (numOfVertex : Nat) (st : State) : Option State := do
  let (nextVertex, _) ← select numOfVertex st
  let isInS ← store st.isInS nextVertex true
  (List.range numOfVertex).foldlM (relax map) { st with isInS := isInS, u := nextVertex }

/-- The arrays `Dijkstra` leaves. -/
def Dijkstra (map : List (List Int)) (numOfVertex startVertex : Nat)
    (distance prevVertex : List Int) : Option State := do
  let st ← start map numOfVertex startVertex distance prevVertex
  (List.range' 1 (numOfVertex - 1)).foldlM (fun st _ => round map numOfVertex st) st

/-! ### The graph of a matrix -/

/-- The entries below `INT_MAX` among the first `n` rows and columns. -/
def edges (map : List (List Int)) (n : Nat) : List (Edge Nat Int) :=
  (List.range n).flatMap fun i => (List.range n).filterMap fun j =>
    (entry map i j).bind fun w => if w < INT_MAX then some ⟨i, j, w⟩ else none

theorem mem_edges {map : List (List Int)} {n : Nat} {e : Edge Nat Int} :
    e ∈ edges map n ↔
      e.src < n ∧ e.dst < n ∧ entry map e.src e.dst = some e.w ∧ e.w < INT_MAX := by
  simp only [edges, List.mem_flatMap, List.mem_range, List.mem_filterMap, Option.bind_eq_some_iff,
    Option.ite_none_right_eq_some, Option.some.injEq]
  constructor
  · rintro ⟨i, i_lt, j, j_lt, w, at_ij, finite, rfl⟩
    exact ⟨i_lt, j_lt, at_ij, finite⟩
  · rintro ⟨src_lt, dst_lt, at_ij, finite⟩
    exact ⟨e.src, src_lt, e.dst, dst_lt, e.w, at_ij, finite, rfl⟩

/-- What `Dijkstra` is given: rows of `C` ints, at least `n` of them, and weights that are not
negative and sum to less than `INT_MAX`. -/
structure Matrix (map : List (List Int)) (C n s : Nat) : Prop where
  rows : n ≤ map.length
  width : ∀ row ∈ map, row.length = C
  ints : ∀ row ∈ map, ∀ w ∈ row, w ≤ INT_MAX
  le : n ≤ C
  source : s < n
  nonneg : ∀ e ∈ edges map n, 0 ≤ e.w
  total : ((edges map n).map (·.w)).sum < INT_MAX

variable {map : List (List Int)} {C n s : Nat}

theorem Matrix.exists_entry (matrix : Matrix map C n s) {i j : Nat} (i_lt : i < n) (j_lt : j < n) :
    ∃ w, entry map i j = some w ∧ w ≤ INT_MAX := by
  have rows := matrix.rows
  have le := matrix.le
  have inside : i < map.length := by omega
  have row_mem := List.getElem_mem inside
  have wide : j < map[i].length := by
    rw [matrix.width _ row_mem]
    omega
  exact ⟨map[i][j], by simp [entry, inside, wide], matrix.ints _ row_mem _ (List.getElem_mem wide)⟩

theorem edge_mem {i j : Nat} {w : Int} (i_lt : i < n) (j_lt : j < n)
    (at_ij : entry map i j = some w) (finite : w < INT_MAX) : ⟨i, j, w⟩ ∈ edges map n :=
  mem_edges.mpr ⟨i_lt, j_lt, at_ij, finite⟩

/-! ### Reading states -/

/-- `distance[v]`, with no distance past the array. -/
def State.dist (st : State) (v : Nat) : Int := st.distance.getD v INT_MAX

/-- `distance` of the source is not the zero it stands for. -/
def State.label (st : State) (s v : Nat) : Int := if v = s then 0 else st.dist v

def State.Labelled (st : State) (n s v : Nat) : Prop := v = s ∨ v < n ∧ st.dist v < INT_MAX

/-- `prevVertex[v]` as a node. -/
def State.parent (st : State) (v : Nat) : Nat := (st.prevVertex.getD v (-1)).toNat

theorem State.distance_getElem? {st : State} {v : Nat} (inside : v < st.distance.length) :
    st.distance[v]? = some (st.dist v) := by
  simp [State.dist, inside]

/-- The state when the nodes `D` are in `S`, and all edges out of them are relaxed but those of
`skip`. The sums of weights keep the distances below `INT_MAX`. -/
structure Inv (map : List (List Int)) (n s : Nat) (D : List Nat) (skip : Edge Nat Int → Prop)
    (st : State) : Prop where
  distance_len : n ≤ st.distance.length
  prevVertex_len : n ≤ st.prevVertex.length
  used : ∀ v < n, st.isInS[v]? = some (decide (v ∈ D))
  inside : ∀ v ∈ D, v < n
  search : Search (edges map n) s D skip (st.Labelled n s) (st.label s) st.parent
  reached : ∀ v < n, v ≠ s → st.dist v < INT_MAX → 0 ≤ st.prevVertex.getD v (-1)
  unreached : ∀ v < n, v ≠ s → ¬ st.dist v < INT_MAX →
    st.dist v = INT_MAX ∧ st.prevVertex.getD v (-1) = -1
  bounded : ∀ v, st.Labelled n s v →
    0 ≤ st.label s v ∧ st.label s v ≤ DijkstraCpp.spent (edges map n) D
  last : st.u ∈ D

/-! ### Initialisation -/

/-- The entries of the source's row, where the loop has been. -/
structure Filled (map : List (List Int)) (s k : Nat) (before st : State) : Prop where
  distance_len : st.distance.length = before.distance.length
  prevVertex_len : st.prevVertex.length = before.prevVertex.length
  isInS : st.isInS = before.isInS
  u : st.u = before.u
  row : ∀ i < k, ∃ w, entry map s i = some w ∧ st.distance[i]? = some w ∧
    st.prevVertex[i]? = some (if w < INT_MAX then (s : Int) else -1)

theorem init_all (matrix : Matrix map C n s) (st : State) (room : n ≤ st.distance.length)
    (room' : n ≤ st.prevVertex.length) :
    ∃ st', (List.range n).foldlM (init map s) st = some st' ∧ Filled map s n st st' := by
  refine Loop.foldlM_range_inv (fun k st' => Filled map s k st st') ?_
    ⟨rfl, rfl, rfl, rfl, fun i lt => absurd lt (Nat.not_lt_zero i)⟩
  intro k k_lt st' filled
  obtain ⟨w, at_k, _⟩ := matrix.exists_entry matrix.source k_lt
  have inside : k < st'.distance.length := by
    rw [filled.distance_len]
    exact k_lt.trans_le room
  have inside' : k < st'.prevVertex.length := by
    rw [filled.prevVertex_len]
    exact k_lt.trans_le room'
  refine ⟨⟨st'.distance.set k w, st'.prevVertex.set k (if w < INT_MAX then s else -1),
    st'.isInS, st'.u⟩, ?_, ?_⟩
  · simp [init, at_k, store_eq_some _ inside, store_eq_some _ inside']
  · refine ⟨by simp [filled.distance_len], by simp [filled.prevVertex_len], filled.isInS,
      filled.u, ?_⟩
    intro i lt
    by_cases here : i = k
    · subst here
      exact ⟨w, at_k, by simp [inside], by simp [inside']⟩
    · obtain ⟨w', at_i, dist_i, prev_i⟩ := filled.row i (by omega)
      exact ⟨w', at_i, by simp [Ne.symm here, dist_i], by simp [Ne.symm here, prev_i]⟩

/-- The state before the main loop: only the source is in `S`, and its row has been copied. -/
structure Begun (map : List (List Int)) (n s : Nat) (st : State) : Prop where
  distance_len : n ≤ st.distance.length
  prevVertex_len : n ≤ st.prevVertex.length
  used : ∀ v < n, st.isInS[v]? = some (decide (v ∈ [s]))
  u : st.u = s
  row : ∀ v < n, entry map s v = some (st.dist v)
  prev : ∀ v < n, v ≠ s →
    st.prevVertex.getD v (-1) = if st.dist v < INT_MAX then (s : Int) else -1

theorem start_begun (matrix : Matrix map C n s) {distance prevVertex : List Int}
    (room : n ≤ distance.length) (room' : n ≤ prevVertex.length) :
    ∃ st, start map n s distance prevVertex = some st ∧ Begun map n s st := by
  have source := matrix.source
  obtain ⟨st, run, filled⟩ := init_all matrix
    ⟨distance, prevVertex, List.replicate n false, s⟩ room room'
  have distance_len : st.distance.length = distance.length := filled.distance_len
  have prevVertex_len : st.prevVertex.length = prevVertex.length := filled.prevVertex_len
  have inside : s < st.prevVertex.length := by omega
  have inside' : s < st.isInS.length := by
    rw [filled.isInS, List.length_replicate]
    exact source
  have row : ∀ v < n, entry map s v = some (st.dist v) := by
    intro v lt
    obtain ⟨w, at_v, dist_v, _⟩ := filled.row v lt
    rw [at_v, State.dist, List.getD_eq_getElem?_getD, dist_v]
    rfl
  refine ⟨⟨st.distance, st.prevVertex.set s (-1), st.isInS.set s true, st.u⟩, ?_,
    ⟨distance_len ▸ room, ?_, ?_, filled.u, row, ?_⟩⟩
  · simp [start, run, store_eq_some _ inside, store_eq_some _ inside']
  · rw [List.length_set, prevVertex_len]
    exact room'
  · rw [filled.isInS]
    exact DijkstraCpp.start_used n s
  · intro v lt ne
    obtain ⟨w, at_v, _, prev_v⟩ := filled.row v lt
    have eq : w = st.dist v := Option.some.inj (at_v.symm.trans (row v lt))
    rw [List.getD_eq_getElem?_getD, List.getElem?_set_ne (Ne.symm ne), prev_v, eq]
    rfl

theorem State.label_of_ne {st : State} {v : Nat} (ne : v ≠ s) : st.label s v = st.dist v :=
  if_neg ne

theorem State.label_source (st : State) (s : Nat) : st.label s s = 0 := if_pos rfl

theorem Begun.parent {st : State} (begun : Begun map n s st) {v : Nat} (lt : v < n) (ne : v ≠ s)
    (finite : st.dist v < INT_MAX) : st.parent v = s := by
  rw [State.parent, begun.prev v lt ne, if_pos finite]
  rfl

theorem Begun.inv (matrix : Matrix map C n s) {st : State} (begun : Begun map n s st) :
    Inv map n s [s] (fun _ => False) st := by
  have source := matrix.source
  have edge : ∀ v < n, st.dist v < INT_MAX → ⟨s, v, st.dist v⟩ ∈ edges map n := fun v lt finite =>
    edge_mem source lt (begun.row v lt) finite
  constructor
  case distance_len => exact begun.distance_len
  case prevVertex_len => exact begun.prevVertex_len
  case used => exact begun.used
  case inside =>
    intro v mem
    rw [List.mem_singleton.mp mem]
    exact source
  case last =>
    rw [begun.u]
    exact List.mem_singleton_self s
  case reached =>
    intro v lt ne finite
    rw [begun.prev v lt ne, if_pos finite]
    omega
  case unreached =>
    intro v lt ne infinite
    obtain ⟨w, at_v, le⟩ := matrix.exists_entry source lt
    have eq := Option.some.inj (at_v.symm.trans (begun.row v lt))
    exact ⟨by omega, by rw [begun.prev v lt ne, if_neg infinite]⟩
  case bounded =>
    have none_spent : DijkstraCpp.spent (edges map n) [] = 0 := by
      simp [DijkstraCpp.spent]
    intro v label
    by_cases at_s : v = s
    · subst at_s
      rw [State.label_source, ← none_spent]
      exact ⟨le_refl _, DijkstraCpp.spent_mono matrix.nonneg (List.nil_subset _)⟩
    · obtain ⟨lt, finite⟩ := label.resolve_left at_s
      have mem := edge v lt finite
      have paid := DijkstraCpp.spent_snoc matrix.nonneg mem (List.not_mem_nil)
      rw [State.label_of_ne at_s]
      rw [none_spent, zero_add] at paid
      exact ⟨matrix.nonneg _ mem, paid⟩
  case search =>
    refine ⟨List.mem_singleton_self s, State.label_source st s, List.nodup_singleton s,
      ?_, ?_, ?_, ?_⟩
    · intro v mem
      exact .inl (List.mem_singleton.mp mem)
    · intro v label ne
      obtain ⟨lt, finite⟩ := label.resolve_left ne
      rw [begun.parent lt ne finite, State.label_of_ne ne, State.label_source]
      exact ⟨List.mem_singleton_self s, fun mem => absurd (List.mem_singleton.mp mem) ne,
        _, edge v lt finite, rfl, rfl, (zero_add _).symm⟩
    · intro e mem src _
      have nonneg := matrix.nonneg e mem
      obtain ⟨_, dst_lt, at_e, finite⟩ := mem_edges.mp mem
      rw [List.mem_singleton.mp src] at at_e ⊢
      have eq := Option.some.inj (at_e.symm.trans (begun.row _ dst_lt))
      rw [State.label_source, zero_add]
      by_cases at_s : e.dst = s
      · rw [at_s, State.label_source]
        exact ⟨.inl rfl, nonneg⟩
      · rw [State.label_of_ne at_s, eq]
        exact ⟨.inr ⟨dst_lt, eq ▸ finite⟩, le_refl _⟩
    · intro x mem v outside label
      have ne : v ≠ s := fun eq => outside (List.mem_singleton.mpr eq)
      obtain ⟨lt, finite⟩ := label.resolve_left ne
      rw [List.mem_singleton.mp mem, State.label_source, State.label_of_ne ne]
      exact matrix.nonneg _ (edge v lt finite)

/-! ### Selection -/

section Round

variable {D : List Nat} {skip : Edge Nat Int → Prop} {st : State}

/-- What the selection loop has found among the first `k` nodes. -/
structure Selected (D : List Nat) (st : State) (k : Nat) (best : Nat × Int) : Prop where
  least : ∀ j < k, j ∉ D → best.2 ≤ st.dist j
  found : best = (st.u, INT_MAX) ∨
    best.1 < k ∧ best.1 ∉ D ∧ best.2 = st.dist best.1 ∧ best.2 < INT_MAX

theorem Selected.upper {k : Nat} {best : Nat × Int} (selected : Selected D st k best) :
    best.2 ≤ INT_MAX := by
  cases selected.found with
  | inl none => rw [none]
  | inr some => exact some.2.2.2.le

theorem Selected.pass {k : Nat} {best : Nat × Int} (selected : Selected D st k best)
    (passed : k ∈ D ∨ best.2 ≤ st.dist k) : Selected D st (k + 1) best where
  least j lt outside := by
    by_cases here : j = k
    · subst here
      exact passed.resolve_left outside
    · exact selected.least j (by omega) outside
  found := selected.found.imp id fun found => ⟨by omega, found.2⟩

theorem select_all (inv : Inv map n s D skip st) : ∃ best,
    select n st = some best ∧ Selected D st n best := by
  refine Loop.foldlM_range_inv (fun k best => Selected D st k best) ?_
    ⟨fun j lt => absurd lt (Nat.not_lt_zero j), .inl rfl⟩
  intro k k_lt best selected
  have used := inv.used k k_lt
  have dist_k : st.distance[k]? = some (st.dist k) :=
    State.distance_getElem? (k_lt.trans_le inv.distance_len)
  by_cases mem : k ∈ D
  · refine ⟨best, ?_, selected.pass (.inl mem)⟩
    simp [selectStep, used, mem]
  · by_cases smaller : st.dist k < best.2
    · refine ⟨(k, st.dist k), ?_, ?_, .inr ⟨by simp, mem, rfl, ?_⟩⟩
      · simp [selectStep, used, mem, dist_k, smaller]
      · intro j lt outside
        by_cases here : j = k
        · rw [here]
        · exact smaller.le.trans (selected.least j (by omega) outside)
      · exact smaller.trans_le selected.upper
    · refine ⟨best, ?_, selected.pass (.inr (not_lt.mp smaller))⟩
      simp [selectStep, used, mem, dist_k, smaller]

/-! ### Relaxation -/

theorem Inv.distance_lt (inv : Inv map n s D skip st) {v : Nat} (lt : v < n) :
    v < st.distance.length := lt.trans_le inv.distance_len

/-- The update of node `j` after the edge `u → j` was found to be shorter. -/
def State.improve (st : State) (j : Nat) (temp : Int) : State :=
  { st with distance := st.distance.set j temp, prevVertex := st.prevVertex.set j st.u }

theorem State.improve_dist {j : Nat} (inside : j < st.distance.length) (temp : Int) :
    (st.improve j temp).dist = Function.update st.dist j temp := by
  funext v
  by_cases here : v = j
  · subst here
    simp [State.improve, State.dist, inside]
  · rw [Function.update_of_ne here]
    simp [State.improve, State.dist, Ne.symm here]

theorem State.improve_prev {j v : Nat} (ne : v ≠ j) (temp : Int) :
    (st.improve j temp).prevVertex.getD v (-1) = st.prevVertex.getD v (-1) := by
  simp [State.improve, Ne.symm ne]

theorem State.improve_parent {j : Nat} (inside : j < st.prevVertex.length) (temp : Int) :
    (st.improve j temp).parent = Function.update st.parent j st.u := by
  funext v
  by_cases here : v = j
  · subst here
    simp [State.improve, State.parent, inside]
  · rw [Function.update_of_ne here, State.parent, State.improve_prev here, State.parent]

theorem State.improve_label {j : Nat} (inside : j < st.distance.length) (ne : j ≠ s) (temp : Int) :
    (st.improve j temp).label s = Function.update (st.label s) j temp := by
  funext v
  rw [State.label, State.improve_dist inside]
  by_cases at_s : v = s
  · rw [if_pos at_s, at_s, Function.update_of_ne (Ne.symm ne), State.label_source]
  · rw [if_neg at_s]
    by_cases here : v = j
    · rw [here, Function.update_self, Function.update_self]
    · rw [Function.update_of_ne here, Function.update_of_ne here, State.label_of_ne at_s]

theorem State.improve_labelled {j : Nat} (inside : j < st.distance.length) (lt : j < n)
    {temp : Int} (finite : temp < INT_MAX) :
    (st.improve j temp).Labelled n s = fun v => st.Labelled n s v ∨ v = j := by
  funext v
  rw [State.Labelled, State.improve_dist inside, State.Labelled]
  by_cases here : v = j
  · subst here
    rw [Function.update_self]
    simp [lt, finite]
  · rw [Function.update_of_ne here]
    simp [here]

theorem Inv.improve (inv : Inv map n s D skip st) (u_ne : st.u ≠ s)
    (top : ∀ x ∈ D, st.label s x ≤ st.label s st.u) {e : Edge Nat Int} (mem : e ∈ edges map n)
    (src : e.src = st.u) (lt : e.dst < n) (fresh : e.dst ∉ D) (nonneg : 0 ≤ e.w)
    (room : st.dist st.u + e.w ≤ DijkstraCpp.spent (edges map n) D)
    (below : DijkstraCpp.spent (edges map n) D < INT_MAX)
    (smaller : st.dist st.u + e.w < st.dist e.dst) :
    Inv map n s D skip (st.improve e.dst (st.dist st.u + e.w)) := by
  have inside := inv.distance_lt lt
  have dst_ne : e.dst ≠ s := fun eq => fresh (eq ▸ inv.search.source)
  have label_u : st.label s st.u = st.dist st.u := State.label_of_ne u_ne
  have lower := (inv.bounded st.u (inv.search.settled_labelled st.u inv.last)).1
  have finite : st.dist st.u + e.w < INT_MAX := by omega
  have dist_eq := State.improve_dist inside (st.dist st.u + e.w)
  constructor
  case distance_len =>
    simp only [State.improve, List.length_set]
    exact inv.distance_len
  case prevVertex_len =>
    simp only [State.improve, List.length_set]
    exact inv.prevVertex_len
  case used => exact inv.used
  case inside => exact inv.inside
  case last => exact inv.last
  case search =>
    rw [State.improve_labelled inside lt finite, State.improve_label inside dst_ne,
      State.improve_parent (lt.trans_le inv.prevVertex_len), ← label_u]
    apply inv.search.improve inv.last top fresh mem src rfl nonneg
    intro _
    rw [label_u, State.label_of_ne dst_ne]
    exact smaller.le
  case reached =>
    intro v v_lt ne v_finite
    by_cases here : v = e.dst
    · subst here
      simp [State.improve, lt.trans_le inv.prevVertex_len]
    · rw [dist_eq, Function.update_of_ne here] at v_finite
      rw [State.improve_prev here]
      exact inv.reached v v_lt ne v_finite
  case unreached =>
    intro v v_lt ne infinite
    rw [dist_eq] at infinite ⊢
    by_cases here : v = e.dst
    · rw [here, Function.update_self] at infinite
      exact absurd finite infinite
    · rw [Function.update_of_ne here] at infinite ⊢
      rw [State.improve_prev here]
      exact inv.unreached v v_lt ne infinite
  case bounded =>
    intro v label
    rw [State.improve_label inside dst_ne]
    rw [State.improve_labelled inside lt finite] at label
    by_cases here : v = e.dst
    · rw [here, Function.update_self]
      exact ⟨by omega, room⟩
    · rw [Function.update_of_ne here]
      exact inv.bounded v (label.resolve_right here)

/-- The edges out of the selected node are relaxed one by one; `k` of them have been. -/
theorem relax_step (matrix : Matrix map C n s) {k : Nat} (lt : k < n)
    (inv : Inv map n s D (fun e => e.src = st.u ∧ k ≤ e.dst) st) (u_ne : st.u ≠ s)
    (top : ∀ x ∈ D, st.label s x ≤ st.label s st.u)
    (room : ∀ e ∈ edges map n, e.src = st.u →
      st.label s st.u + e.w ≤ DijkstraCpp.spent (edges map n) D) :
    ∃ st', relax map st k = some st' ∧ st'.u = st.u ∧ (∀ x ∈ D, st'.label s x = st.label s x) ∧
      Inv map n s D (fun e => e.src = st.u ∧ k + 1 ≤ e.dst) st' := by
  have used := inv.used k lt
  have weaken : (∀ e ∈ edges map n, e.src = st.u → e.dst = k →
      st.Labelled n s k ∧ st.label s k ≤ st.label s st.u + e.w) →
      Inv map n s D (fun e => e.src = st.u ∧ k + 1 ≤ e.dst) st := by
    intro relaxed
    refine { inv with search := inv.search.weaken ?_ }
    rintro e mem _ ⟨src, ge⟩ not_later
    have dst : e.dst = k := by omega
    rw [src, dst]
    exact relaxed e mem src dst
  by_cases mem : k ∈ D
  · refine ⟨st, by simp [relax, used, mem], rfl, fun x _ => rfl, weaken ?_⟩
    intro e e_mem _ _
    exact ⟨inv.search.settled_labelled k mem,
      (top k mem).trans (le_add_of_nonneg_right (matrix.nonneg e e_mem))⟩
  · have u_lt := inv.inside st.u inv.last
    have u_label := inv.search.settled_labelled st.u inv.last
    have k_ne : k ≠ s := fun eq => mem (eq ▸ inv.search.source)
    have dist_k := State.distance_getElem? (inv.distance_lt lt)
    have dist_u := State.distance_getElem? (inv.distance_lt u_lt)
    have label_u : st.label s st.u = st.dist st.u := State.label_of_ne u_ne
    obtain ⟨w, at_k, _⟩ := matrix.exists_entry u_lt lt
    by_cases finite : w < INT_MAX
    · have edge := edge_mem u_lt lt at_k finite
      have nonneg : 0 ≤ w := matrix.nonneg _ edge
      have paid : st.label s st.u + w ≤ _ := room _ edge rfl
      have total := (DijkstraCpp.spent_le_total matrix.nonneg D).trans_lt matrix.total
      have lower := (inv.bounded st.u u_label).1
      have least : INT_MIN ≤ 0 := by decide
      have sum : addInt (st.dist st.u) w = some (st.dist st.u + w) :=
        addInt_eq_some (by omega) (by omega)
      have unique : ∀ e ∈ edges map n, e.src = st.u → e.dst = k → e.w = w := by
        intro e e_mem src dst
        obtain ⟨_, _, at_e, _⟩ := mem_edges.mp e_mem
        rw [src, dst] at at_e
        exact Option.some.inj (at_e.symm.trans at_k)
      by_cases smaller : st.dist st.u + w < st.dist k
      · have store_d := store_eq_some (st.dist st.u + w) (inv.distance_lt lt)
        have store_p := store_eq_some (st.u : Int) (lt.trans_le inv.prevVertex_len)
        refine ⟨st.improve k (st.dist st.u + w), ?_, rfl, ?_, ?_⟩
        · simp [relax, used, mem, at_k, finite, dist_u, dist_k, sum, smaller, store_d, store_p,
            State.improve]
        · intro x x_mem
          rw [State.improve_label (inv.distance_lt lt) k_ne,
            Function.update_of_ne fun eq : x = k => mem (eq ▸ x_mem)]
        · have finite_sum : st.dist st.u + w < INT_MAX := by omega
          have inv' := inv.improve u_ne top edge rfl lt mem nonneg (label_u ▸ paid) total smaller
          refine { inv' with search := inv'.search.weaken ?_ }
          rintro e e_mem _ ⟨src, ge⟩ not_later
          have dst : e.dst = k := by
            have : ¬ k + 1 ≤ e.dst := fun later => not_later ⟨src, later⟩
            omega
          rw [unique e e_mem src dst, src, dst, State.improve_label (inv.distance_lt lt) k_ne,
            Function.update_self, Function.update_of_ne fun eq : st.u = k => mem (eq ▸ inv.last),
            label_u, State.improve_labelled (inv.distance_lt lt) lt finite_sum]
          exact ⟨.inr rfl, le_refl _⟩
      · refine ⟨st, by simp [relax, used, mem, at_k, finite, dist_u, dist_k, sum, smaller], rfl,
          fun x _ => rfl, weaken ?_⟩
        intro e e_mem src dst
        rw [unique e e_mem src dst, State.label_of_ne k_ne]
        exact ⟨.inr ⟨lt, by omega⟩, by omega⟩
    · refine ⟨st, by simp [relax, used, mem, at_k, finite], rfl, fun x _ => rfl, weaken ?_⟩
      intro e e_mem src dst
      obtain ⟨_, _, at_e, finite_e⟩ := mem_edges.mp e_mem
      rw [src, dst, at_k] at at_e
      exact absurd (Option.some.inj at_e ▸ finite_e) finite

theorem relax_all (matrix : Matrix map C n s) {st : State}
    (inv : Inv map n s D (fun e => e.src = st.u) st) (u_ne : st.u ≠ s)
    (top : ∀ x ∈ D, st.label s x ≤ st.label s st.u)
    (room : ∀ e ∈ edges map n, e.src = st.u →
      st.label s st.u + e.w ≤ DijkstraCpp.spent (edges map n) D) :
    ∃ st', (List.range n).foldlM (relax map) st = some st' ∧ st'.u = st.u ∧
      (∀ x ∈ D, st'.label s x = st.label s x) ∧
      Inv map n s D (fun e => e.src = st.u ∧ n ≤ e.dst) st' := by
  have fresh : Inv map n s D (fun e => e.src = st.u ∧ 0 ≤ e.dst) st :=
    { inv with
      search := inv.search.weaken fun e _ _ src not_later =>
        absurd (And.intro src (Nat.zero_le e.dst)) not_later }
  refine Loop.foldlM_range_inv (fun k st' => st'.u = st.u ∧
    (∀ x ∈ D, st'.label s x = st.label s x) ∧
      Inv map n s D (fun e => e.src = st.u ∧ k ≤ e.dst) st') ?_ ⟨rfl, fun x _ => rfl, fresh⟩
  rintro k k_lt st₁ ⟨u_eq, labels, inv₁⟩
  have label_u := labels st.u (u_eq ▸ inv₁.last)
  obtain ⟨st₂, step, u_eq', labels', inv₂⟩ := relax_step matrix k_lt
    (u_eq.symm ▸ inv₁) (u_eq.symm ▸ u_ne)
    (by
      intro x mem
      rw [u_eq, label_u, labels x mem]
      exact top x mem)
    (by
      intro e mem src
      rw [u_eq, label_u]
      exact room e mem (src.trans u_eq))
  exact ⟨st₂, step, u_eq'.trans u_eq, fun x mem => (labels' x mem).trans (labels x mem),
    u_eq ▸ inv₂⟩

/-- Relaxing the edges of a settled node once more, when no labelled node is left. -/
theorem relax_again (matrix : Matrix map C n s) (inv : Inv map n s D (fun _ => False) st)
    (complete : ∀ v, st.Labelled n s v → v ∈ D) :
    (List.range n).foldlM (relax map) st = some st := by
  have keep : ∀ k < n, ∀ st₁, st₁ = st → ∃ st₂, relax map st₁ k = some st₂ ∧ st₂ = st := by
    rintro k k_lt _ rfl
    refine ⟨_, ?_, rfl⟩
    have used := inv.used k k_lt
    by_cases mem : k ∈ D
    · simp [relax, used, mem]
    · obtain ⟨w, at_k, _⟩ := matrix.exists_entry (inv.inside _ inv.last) k_lt
      have infinite : ¬ w < INT_MAX := by
        intro finite
        have edge := edge_mem (inv.inside _ inv.last) k_lt at_k finite
        exact mem (complete k (inv.search.relaxed _ edge inv.last id).1)
      simp [relax, used, mem, at_k, infinite]
  obtain ⟨_, run, rfl⟩ := Loop.foldlM_range_inv (fun _ st₁ => st₁ = st) keep rfl
  exact run

/-! ### Rounds -/

/-- The state after `isInS[u] = true` for the selected node. -/
def State.mark (st : State) (u : Nat) : State := { st with isInS := st.isInS.set u true, u := u }

theorem Inv.mark (matrix : Matrix map C n s) (inv : Inv map n s D (fun _ => False) st) {u : Nat}
    (lt : u < n) (fresh : u ∉ D) (finite : st.dist u < INT_MAX)
    (least : ∀ v < n, v ∉ D → st.dist u ≤ st.dist v) :
    Inv map n s (D ++ [u]) (fun e => e.src = u) (st.mark u) where
  distance_len := inv.distance_len
  prevVertex_len := inv.prevVertex_len
  used := DijkstraCpp.used_set inv.used fun v => by
    rw [List.mem_append, List.mem_singleton, or_comm]
  inside v mem := by
    cases List.mem_append.mp mem with
    | inl old => exact inv.inside v old
    | inr new => exact List.mem_singleton.mp new ▸ lt
  search := by
    have u_ne : u ≠ s := fun eq => fresh (eq ▸ inv.search.source)
    apply inv.search.settle fresh (.inr ⟨lt, finite⟩)
    intro v outside label
    have v_ne : v ≠ s := fun eq => outside (eq ▸ inv.search.source)
    rw [State.label_of_ne u_ne, State.label_of_ne v_ne]
    exact least v (label.resolve_left v_ne).1 outside
  reached := inv.reached
  unreached := inv.unreached
  bounded v label := by
    obtain ⟨lower, upper⟩ := inv.bounded v label
    exact ⟨lower, upper.trans (DijkstraCpp.spent_mono matrix.nonneg (List.subset_append_left _ _))⟩
  last := List.mem_append_right _ (List.mem_singleton_self u)

/-- A round settles a node, or finds none left to settle and changes nothing. -/
theorem round_step (matrix : Matrix map C n s) (inv : Inv map n s D (fun _ => False) st) :
    ∃ D' st', round map n st = some st' ∧ Inv map n s D' (fun _ => False) st' ∧
      ((∃ u ∉ D, st.Labelled n s u ∧ D' = D ++ [u]) ∨
        (D' = D ∧ ∀ v, st'.Labelled n s v → v ∈ D')) := by
  obtain ⟨best, run, selected⟩ := select_all inv
  cases selected.found with
  | inl none =>
      have complete : ∀ v, st.Labelled n s v → v ∈ D := by
        intro v label
        by_contra outside
        have ne : v ≠ s := fun eq => outside (eq ▸ inv.search.source)
        obtain ⟨lt, finite⟩ := label.resolve_left ne
        have least := selected.least v lt outside
        rw [none] at least
        exact absurd finite (not_lt.mpr least)
      have used := inv.used st.u (inv.inside st.u inv.last)
      have inside := (List.getElem?_eq_some_iff.mp used).1
      have marked : st.isInS.set st.u true = st.isInS := by
        rw [decide_eq_true inv.last] at used
        apply List.ext_getElem?
        intro i
        by_cases here : st.u = i
        · subst here
          rw [List.getElem?_set_self inside, used]
        · rw [List.getElem?_set_ne here]
      refine ⟨D, st, ?_, inv, .inr ⟨rfl, complete⟩⟩
      have again := relax_again matrix inv complete
      simp only [round, run, none, store_eq_some _ inside, marked, Option.bind_eq_bind,
        Option.bind_some]
      exact again
  | inr some =>
      obtain ⟨u, d⟩ := best
      obtain ⟨lt, fresh, eq, finite⟩ := some
      simp only at lt fresh eq finite
      subst eq
      have u_ne : u ≠ s := fun eq => fresh (eq ▸ inv.search.source)
      have inv₁ := inv.mark matrix lt fresh finite fun v v_lt outside =>
        selected.least v v_lt outside
      have inside : u < st.isInS.length := (List.getElem?_eq_some_iff.mp (inv.used u lt)).1
      have top : ∀ x ∈ D ++ [u], (st.mark u).label s x ≤ (st.mark u).label s u := by
        intro x mem
        cases List.mem_append.mp mem with
        | inl old => exact inv.search.ordered x old u fresh (.inr ⟨lt, finite⟩)
        | inr new => rw [List.mem_singleton.mp new]
      have room : ∀ e ∈ edges map n, e.src = u →
          (st.mark u).label s u + e.w ≤ DijkstraCpp.spent (edges map n) (D ++ [u]) := by
        intro e mem src
        have upper := (inv.bounded u (.inr ⟨lt, finite⟩)).2
        have paid := DijkstraCpp.spent_snoc matrix.nonneg mem (src ▸ fresh)
        rw [src] at paid
        exact (add_le_add_left upper e.w).trans paid
      obtain ⟨st', relaxed, _, _, inv'⟩ := relax_all matrix inv₁ u_ne top room
      refine ⟨D ++ [u], st', ?_, { inv' with search := inv'.search.weaken ?_ },
        .inl ⟨u, fresh, .inr ⟨lt, finite⟩, rfl⟩⟩
      · simp only [round, run, store_eq_some _ inside, Option.bind_eq_bind, Option.bind_some]
        exact relaxed
      · rintro e mem _ ⟨_, ge⟩ _
        have dst_lt := (mem_edges.mp mem).2.1
        omega

/-- After `k` rounds, `k + 1` nodes are settled or none is left to settle. -/
theorem rounds (matrix : Matrix map C n s) (begun : Inv map n s [s] (fun _ => False) st)
    (counter : List Nat) : ∃ st', counter.foldlM (fun st _ => round map n st) st = some st' ∧
      ∃ D, Inv map n s D (fun _ => False) st' ∧
        (counter.length + 1 ≤ D.length ∨ ∀ v, st'.Labelled n s v → v ∈ D) := by
  refine Loop.foldlM_inv (fun done st' => ∃ D, Inv map n s D (fun _ => False) st' ∧
    (done.length + 1 ≤ D.length ∨ ∀ v, st'.Labelled n s v → v ∈ D)) ?_
    ⟨[s], begun, .inl (Nat.le_refl 1)⟩
  rintro done i _ st₁ ⟨D, inv, progress⟩
  obtain ⟨D', st₂, step, inv', cases⟩ := round_step matrix inv
  refine ⟨st₂, step, D', inv', ?_⟩
  cases cases with
  | inl settled =>
      obtain ⟨u, fresh, label, rfl⟩ := settled
      cases progress with
      | inl enough =>
          left
          rw [List.length_append, List.length_append]
          exact Nat.succ_le_succ enough
      | inr complete => exact absurd (complete u label) fresh
  | inr complete => exact .inr complete.2

end Round

/-! ### The whole program -/

theorem Inv.length_le {D : List Nat} {skip : Edge Nat Int → Prop} {st : State}
    (inv : Inv map n s D skip st) : D.length ≤ n := by
  have sub : D ⊆ List.range n := fun v mem => List.mem_range.mpr (inv.inside v mem)
  simpa using (inv.search.distinct.subperm sub).length_le

theorem Dijkstra_settled (matrix : Matrix map C n s) {distance prevVertex : List Int}
    (room : n ≤ distance.length) (room' : n ≤ prevVertex.length) :
    ∃ D st, Dijkstra map n s distance prevVertex = some st ∧
      Inv map n s D (fun _ => False) st ∧ ∀ v, st.Labelled n s v → v ∈ D := by
  have source := matrix.source
  obtain ⟨st₀, start_eq, begun⟩ := start_begun matrix room room'
  obtain ⟨st, run, D, inv, progress⟩ := rounds matrix (begun.inv matrix) (List.range' 1 (n - 1))
  rw [List.length_range'] at progress
  refine ⟨D, st, by simp [Dijkstra, start_eq, run], inv, ?_⟩
  cases progress with
  | inr complete => exact complete
  | inl enough =>
      have sub : D ⊆ List.range n := fun v mem => List.mem_range.mpr (inv.inside v mem)
      have all := (inv.search.distinct.subperm sub).perm_of_length_le
        (by rw [List.length_range]; omega)
      intro v label
      have lt : v < n := by
        cases label with
        | inl at_s => exact at_s ▸ source
        | inr inside => exact inside.1
      exact all.mem_iff.mpr (List.mem_range.mpr lt)

/-- `Dijkstra` on a matrix finds the shortest walks from the source, and `prevVertex` spells
them. -/
theorem Dijkstra_correct (map : List (List Int)) (C n s : Nat) (matrix : Matrix map C n s)
    (distance prevVertex : List Int) (room : n ≤ distance.length) (room' : n ≤ prevVertex.length) :
    ∃ st, Dijkstra map n s distance prevVertex = some st ∧ ∀ v < n, v ≠ s →
      (st.distance[v]? = some INT_MAX ↔ ¬ ∃ nodes c, Walk (edges map n) s v nodes c) ∧
      (st.prevVertex[v]? = some (-1) ↔ ¬ ∃ nodes c, Walk (edges map n) s v nodes c) ∧
      ((∃ nodes c, Walk (edges map n) s v nodes c) → ∃ d nodes,
        st.distance[v]? = some d ∧ IsLeast {c | ∃ nodes, Walk (edges map n) s v nodes c} d ∧
        st.prevVertex[v]? = some (st.parent v : Int) ∧
        ancestry (fun x => decide (x = s)) st.parent n v = some nodes ∧
        Walk (edges map n) s v nodes d) := by
  obtain ⟨D, st, run, inv, complete⟩ := Dijkstra_settled matrix room room'
  have settled := inv.search.settled complete
  refine ⟨st, run, fun v lt ne => ?_⟩
  have dist_v := State.distance_getElem? (inv.distance_lt lt)
  have inside : v < st.prevVertex.length := lt.trans_le inv.prevVertex_len
  have prev_v : st.prevVertex[v]? = some (st.prevVertex.getD v (-1)) := by simp [inside]
  rw [dist_v, prev_v, Option.some.injEq, Option.some.injEq, ← settled.mem_iff v]
  by_cases finite : st.dist v < INT_MAX
  · have mem := complete v (.inr ⟨lt, finite⟩)
    have nonneg := inv.reached v lt ne finite
    refine ⟨iff_of_false (by omega) (not_not.mpr mem),
      iff_of_false (by omega) (not_not.mpr mem), ?_⟩
    intro _
    have least := settled.isLeast mem
    obtain ⟨nodes, found, walk, _⟩ := settled.ancestry_walk (fun x => decide (x = s)) (by simp)
      (by simp) (D.idxOf v + 1) v mem (Nat.lt_succ_self _)
    rw [State.label_of_ne ne] at least walk
    have parent_eq : (st.parent v : Int) = st.prevVertex.getD v (-1) := Int.toNat_of_nonneg nonneg
    refine ⟨st.dist v, nodes, rfl, least, by rw [parent_eq], found n ?_, walk⟩
    exact (List.idxOf_lt_length_of_mem mem).trans_le inv.length_le
  · obtain ⟨dist_eq, prev_eq⟩ := inv.unreached v lt ne finite
    have outside : v ∉ D := by
      intro mem
      exact finite ((inv.search.settled_labelled v mem).resolve_left ne).2
    exact ⟨iff_of_true dist_eq outside, iff_of_true prev_eq outside, fun mem => absurd mem outside⟩

/-- Two nodes out of reach, and a zero weight. -/
def sampleMap : List (List Int) :=
  [[0, 4, 1, INT_MAX, INT_MAX], [INT_MAX, 0, INT_MAX, INT_MAX, INT_MAX],
    [INT_MAX, 0, 0, INT_MAX, INT_MAX], [2, INT_MAX, INT_MAX, 0, 3],
    [INT_MAX, INT_MAX, INT_MAX, INT_MAX, 0]]

theorem sampleMatrix : Matrix sampleMap 5 5 0 where
  rows := by decide
  width := by decide
  ints := by decide
  le := by decide
  source := by decide
  nonneg := by decide
  total := by decide

theorem Dijkstra_correct_sample :
    ∃ st, Dijkstra sampleMap 5 0 [9, 9, 9, 9, 9] [9, 9, 9, 9, 9] = some st ∧ ∀ v < 5, v ≠ 0 →
      (st.distance[v]? = some INT_MAX ↔ ¬ ∃ nodes c, Walk (edges sampleMap 5) 0 v nodes c) ∧
      (st.prevVertex[v]? = some (-1) ↔ ¬ ∃ nodes c, Walk (edges sampleMap 5) 0 v nodes c) ∧
      ((∃ nodes c, Walk (edges sampleMap 5) 0 v nodes c) → ∃ d nodes,
        st.distance[v]? = some d ∧ IsLeast {c | ∃ nodes, Walk (edges sampleMap 5) 0 v nodes c} d ∧
        st.prevVertex[v]? = some (st.parent v : Int) ∧
        ancestry (fun x => decide (x = 0)) st.parent 5 v = some nodes ∧
        Walk (edges sampleMap 5) 0 v nodes d) :=
  Dijkstra_correct sampleMap 5 5 0 sampleMatrix [9, 9, 9, 9, 9] [9, 9, 9, 9, 9] (by decide)
    (by decide)

example : (Dijkstra sampleMap 5 0 [9, 9, 9, 9, 9] [9, 9, 9, 9, 9]).map
    (fun st => (st.distance, st.prevVertex)) =
    some ([0, 1, 1, INT_MAX, INT_MAX], [-1, 2, 0, -1, -1]) := by decide +kernel

end CFunc.DijkstraMatrix
