import CFunc.Algo.DijkstraInv

/-!
`Dijkstra.cpp` from the numbers of `data.txt` to the printed paths.

`start_inv` is the only place where parallel edges out of the source matter:
`seed` stores every edge it meets (`Stored`), so the invariant starts out right
only when the source has at most one edge to each node. `main_shortest_paths` is the
result for the whole program.
-/

namespace CFunc.DijkstraCpp

open CFunc.Lib CFunc.Lib.Graph

/-! ### Reading `data.txt` -/

/-- The numbers of a `data.txt` that describes the graph. -/
def dataFile (n s : Nat) (E : List (Edge Nat Int)) : List Int :=
  n :: E.length :: s :: E.flatMap fun e => [(e.src : Int), (e.dst : Int), e.w]

/-- The edges out of `u`, as `main` stores them. -/
def rowOf (E : List (Edge Nat Int)) (u : Nat) : List Node :=
  (E.filter (·.src = u)).map fun e => ⟨e.dst, e.w⟩

theorem index_natCast (k : Nat) : index (k : Int) = some k := by
  simp [index]

theorem readEdges_render (n : Nat) (E : List (Edge Nat Int)) (nodes : ∀ e ∈ E, e.src < n)
    (done : List (Edge Nat Int)) :
    readEdges E.length (E.flatMap fun e => [(e.src : Int), (e.dst : Int), e.w])
        ((List.range n).map (rowOf done)) =
      some ((List.range n).map (rowOf (done ++ E))) := by
  induction E generalizing done with
  | nil => simp [readEdges]
  | cons e E ih =>
      have src_lt := nodes e List.mem_cons_self
      have pushed : ((List.range n).map (rowOf done)).set e.src
            (rowOf done e.src ++ [⟨e.dst, e.w⟩]) =
          (List.range n).map (rowOf (done ++ [e])) := by
        apply List.ext_getElem (by simp)
        intro v hv _
        by_cases same : e.src = v
        · subst same
          simp [rowOf]
        · simp [rowOf, same]
      simp only [List.length_cons, List.flatMap_cons, List.cons_append, List.nil_append, readEdges,
        index_natCast, Option.bind_eq_bind, Option.bind_some, List.getElem?_map,
        List.getElem?_range src_lt, Option.map_some, pushed]
      rw [ih (fun x hx => nodes x (List.mem_cons_of_mem _ hx))]
      simp

/-- Reading the file of a graph fills `Adj` with its rows. -/
theorem readInput_dataFile (n s : Nat) (E : List (Edge Nat Int)) (nodes : ∀ e ∈ E, e.src < n) :
    readInput (dataFile n s E) = some ⟨n, s, (List.range n).map (rowOf E)⟩ := by
  have empty : List.replicate n ([] : List Node) = (List.range n).map (rowOf []) := by
    apply List.ext_getElem <;> simp [rowOf]
  simp only [readInput, dataFile, index_natCast, Option.bind_eq_bind, Option.bind_some, empty,
    readEdges_render n E nodes [], List.nil_append]
  rfl

/-- What `main` reads is the graph. -/
theorem holds_rowOf {n s : Nat} {E : List (Edge Nat Int)} (source : s < n)
    (nodes : ∀ e ∈ E, e.src < n ∧ e.dst < n) (nonneg : ∀ e ∈ E, 0 ≤ e.w)
    (total : (E.map (·.w)).sum < INT_MAX) :
    Input.Holds ⟨n, s, (List.range n).map (rowOf E)⟩ E where
  source := source
  nodes := nodes
  nonneg := nonneg
  total := total
  row := by
    intro u u_lt
    have at_u : (List.range n)[u]? = some u := List.getElem?_range u_lt
    simp [at_u, rowOf]

/-- `main` on the file of a graph is the loop from the state before the first round. -/
theorem main_dataFile {n s : Nat} {E : List (Edge Nat Int)} {st : State} (fuel : Nat)
    (nodes : ∀ e ∈ E, e.src < n)
    (start_eq : start ⟨n, s, (List.range n).map (rowOf E)⟩ = some st) :
    main fuel (dataFile n s E) = Loop.run (fun st => !st.Assi.isEmpty)
      (round ⟨n, s, (List.range n).map (rowOf E)⟩) fuel st := by
  simp only [main, readInput_dataFile n s E nodes, Dijkstra, start_eq]

/-! ### The state before the first round -/

/-- The state after `seed` has run over the edges `P` of the source. -/
structure Seeded (g : Input) (P : List (Edge Nat Int)) (st : State) : Prop where
  path_len : st.Path.length = g.n
  assi : st.Assi = P.map (·.dst)
  touched : ∀ e ∈ P, st.record e.dst = ⟨g.s, e.w⟩
  untouched : ∀ v, v ∉ P.map (·.dst) → st.record v = ⟨v, INT_MAX⟩

/-- The state after `seed` has run over the edges `P` of the source, parallel ones included: the
last edge to a node counts. -/
structure Stored (g : Input) (P : List (Edge Nat Int)) (st : State) : Prop where
  path_len : st.Path.length = g.n
  assi : st.Assi = P.map (·.dst)
  record : ∀ v, st.record v =
    (((P.filter (·.dst = v)).getLast?).map fun e => ⟨g.s, e.w⟩).getD ⟨v, INT_MAX⟩

/-- The candidates are where the edges lead. -/
theorem Stored.mem_assi {g : Input} {P : List (Edge Nat Int)} {st : State} (stored : Stored g P st)
    {v : Nat} : v ∈ st.Assi ↔ ∃ e ∈ P, e.dst = v := by
  rw [stored.assi, List.mem_map]

theorem stored_all {g : Input} {L : List (Edge Nat Int)} (inside : ∀ e ∈ L, e.dst < g.n)
    {st : State} (stored : Stored g [] st) :
    ∃ st', (L.map fun e => Node.mk e.dst e.w).foldlM (seed g.s) st = some st' ∧
      st'.isUsed = st.isUsed ∧ Stored g L st' := by
  rw [List.foldlM_map]
  refine Loop.foldlM_inv (fun P st' => st'.isUsed = st.isUsed ∧ Stored g P st') ?_ ⟨rfl, stored⟩
  rintro P e mem st₁ ⟨used, stored₁⟩
  have in_path : e.dst < st₁.Path.length := by
    rw [stored₁.path_len]
    exact inside e mem
  refine ⟨⟨st₁.isUsed, st₁.Assi ++ [e.dst], st₁.Path.set e.dst ⟨g.s, e.w⟩⟩, ?_, used, ?_⟩
  · simp only [seed, store_eq_some _ in_path]
    rfl
  · constructor
    case path_len => rw [List.length_set, stored₁.path_len]
    case assi => rw [stored₁.assi, List.map_append, List.map_singleton]
    case record =>
      intro v
      rw [List.filter_append]
      by_cases same : e.dst = v
      · subst same
        simp [State.record, in_path]
      · have kept := stored₁.record v
        simp only [State.record, List.getD_eq_getElem?_getD] at kept ⊢
        simp [same, kept]

/-- The state before the first round. -/
theorem start_stored {g : Input} {E : List (Edge Nat Int)} (source : g.s < g.n)
    (nodes : ∀ e ∈ E, e.dst < g.n) (row : g.Adj[g.s]? = some (rowOf E g.s)) :
    ∃ st, start g = some st ∧ st.isUsed = (List.replicate g.n false).set g.s true ∧
      Stored g (E.filter (·.src = g.s)) st := by
  have blank : Stored g [] ⟨(List.replicate g.n false).set g.s true, [], initPath g.n⟩ := by
    constructor
    case path_len => simp [initPath]
    case assi => rfl
    case record =>
      intro v
      by_cases inside : v < g.n <;> simp [State.record, initPath, inside]
  obtain ⟨st, run_eq, used, stored⟩ := stored_all (L := E.filter (·.src = g.s))
    (fun e mem => nodes e (List.mem_filter.mp mem).1) blank
  refine ⟨st, ?_, used, stored⟩
  simp only [start, store, List.length_replicate, source, if_true, row]
  exact run_eq

/-- Without parallel edges every edge is the last one. -/
theorem Stored.seeded {g : Input} {P : List (Edge Nat Int)} {st : State} (stored : Stored g P st)
    (single : (P.map (·.dst)).Nodup) : Seeded g P st where
  path_len := stored.path_len
  assi := stored.assi
  touched := by
    intro e mem
    have inside : e ∈ P.filter (·.dst = e.dst) := List.mem_filter.mpr ⟨mem, decide_eq_true rfl⟩
    have last := List.getLast?_eq_getLast_of_ne_nil (List.ne_nil_of_mem inside)
    have parts := List.mem_filter.mp (List.getLast_mem (List.ne_nil_of_mem inside))
    have same := List.inj_on_of_nodup_map single parts.1 mem (of_decide_eq_true parts.2)
    rw [stored.record, last, same]
    rfl
  untouched := by
    intro v out
    have none_there : P.filter (·.dst = v) = [] := by
      rw [List.filter_eq_nil_iff]
      intro e mem dst
      exact out (List.mem_map.mpr ⟨e, mem, of_decide_eq_true dst⟩)
    rw [stored.record, none_there]
    rfl

section Seeded

variable {g : Input} {E : List (Edge Nat Int)} {st : State}

theorem Seeded.record_edge (seeded : Seeded g (E.filter (·.src = g.s)) st) {e : Edge Nat Int}
    (e_mem : e ∈ E) (e_src : e.src = g.s) : st.record e.dst = ⟨g.s, e.w⟩ :=
  seeded.touched e (by simp [e_mem, e_src])

/-- A node with a cost is the end of an edge from the source. -/
theorem Seeded.exists_edge (seeded : Seeded g (E.filter (·.src = g.s)) st) {v : Nat}
    (finite : (st.record v).cost ≠ INT_MAX) :
    ∃ e ∈ E, e.src = g.s ∧ e.dst = v ∧ st.record v = ⟨g.s, e.w⟩ := by
  have mem : v ∈ (E.filter (·.src = g.s)).map (·.dst) := by
    by_contra out
    exact finite (by rw [seeded.untouched v out])
  obtain ⟨e, he, rfl⟩ := List.mem_map.mp mem
  have parts := List.mem_filter.mp he
  exact ⟨e, parts.1, by simpa using parts.2, rfl, seeded.touched e he⟩

/-- With at most one edge from the source to each node, the invariant holds
with the source as the only selected node. -/
theorem Seeded.inv (seeded : Seeded g (E.filter (·.src = g.s)) st) (holds : g.Holds E)
    (single : ((E.filter (·.src = g.s)).map (·.dst)).Nodup)
    (used : st.isUsed = (List.replicate g.n false).set g.s true) :
    Inv g E (fun _ => False) [g.s] st := by
  have label_s : st.label g.s g.s = 0 := by simp [State.label]
  constructor
  case path_len => exact seeded.path_len
  case used => exact used ▸ start_used g.n g.s
  case distinct => exact List.nodup_singleton _
  case inside => simpa using holds.source
  case source => simp
  case assi_nodup => rw [seeded.assi]; simpa using single
  case assi =>
    intro v v_ne
    rw [seeded.assi]
    constructor
    · intro mem
      obtain ⟨e, he, rfl⟩ := List.mem_map.mp mem
      have parts : e ∈ E ∧ e.src = g.s := by simpa using he
      refine ⟨(holds.nodes e parts.1).2, by simpa using v_ne, ?_⟩
      rw [seeded.record_edge parts.1 parts.2]
      exact (holds.weight_lt parts.1).ne
    · rintro ⟨_, _, finite⟩
      obtain ⟨e, he, src, rfl, _⟩ := seeded.exists_edge finite
      exact List.mem_map.mpr ⟨e, by simp [he, src], rfl⟩
  case loop =>
    intro mem
    rw [seeded.assi] at mem
    obtain ⟨e, he, dst⟩ := List.mem_map.mp mem
    have parts : e ∈ E ∧ e.src = g.s := by simpa using he
    refine ⟨e, parts.1, parts.2, dst, ?_⟩
    rw [← dst, seeded.record_edge parts.1 parts.2]
  case source_pre =>
    by_cases finite : (st.record g.s).cost = INT_MAX
    · by_cases mem : g.s ∈ ((E.filter (·.src = g.s)).map (·.dst))
      · obtain ⟨e, he, dst⟩ := List.mem_map.mp mem
        have parts : e ∈ E ∧ e.src = g.s := by simpa using he
        rw [← dst, seeded.record_edge parts.1 parts.2, dst]
      · rw [seeded.untouched g.s (by simpa using mem)]
    · obtain ⟨e, _, _, _, record_eq⟩ := seeded.exists_edge finite
      rw [record_eq]
  case touched => simp
  case attained =>
    intro v v_ne finite
    obtain ⟨e, he, src, dst, record_eq⟩ := seeded.exists_edge finite
    rw [record_eq]
    refine ⟨by simp, ?_, e, he, src, dst, ?_⟩
    · intro hv
      exact absurd (List.mem_singleton.mp hv) v_ne
    · rw [label_s, Inv.label_of_ne v_ne, record_eq, zero_add]
  case relaxed =>
    intro e he e_src _
    have src := List.mem_singleton.mp e_src
    have nonneg := holds.nonneg e he
    rw [src, label_s, zero_add, seeded.record_edge he src]
    refine ⟨?_, fun _ => (holds.weight_lt he).ne⟩
    unfold State.label
    split
    · exact nonneg
    · rw [seeded.record_edge he src]
  case bounded =>
    intro v v_ne finite
    obtain ⟨e, he, src, dst, record_eq⟩ := seeded.exists_edge finite
    rw [record_eq]
    refine ⟨holds.nonneg e he, ?_⟩
    have := spent_snoc holds.nonneg (D := []) he (by simp)
    simpa [spent, src] using this
  case ordered =>
    intro x hx v hv
    rw [List.mem_singleton.mp hx, label_s, Inv.label_of_ne (by simpa using hv)]
    by_cases finite : (st.record v).cost = INT_MAX
    · rw [finite]; simp [INT_MAX]
    · obtain ⟨e, he, _, _, record_eq⟩ := seeded.exists_edge finite
      rw [record_eq]
      exact holds.nonneg e he

end Seeded

theorem start_inv {g : Input} {E : List (Edge Nat Int)} (holds : g.Holds E)
    (single : ((E.filter (·.src = g.s)).map (·.dst)).Nodup) :
    ∃ st, start g = some st ∧ Inv g E (fun _ => False) [g.s] st := by
  obtain ⟨st, run_eq, used, stored⟩ := start_stored holds.source
    (fun e mem => (holds.nodes e mem).2) (holds.row g.s holds.source)
  exact ⟨st, run_eq, Seeded.inv (stored.seeded single) holds single used⟩

/-! ### The result -/

/-- With no candidate left, the used nodes form a settled set: their costs are
the distances from the source. -/
theorem Inv.settled {g : Input} {E : List (Edge Nat Int)} {D : List Nat} {st : State}
    (holds : g.Holds E) (inv : Inv g E (fun _ => False) D st) (empty : st.Assi = []) :
    Settled E g.s (· ∈ D) (st.label g.s) (fun v => (st.record v).pre) D.idxOf where
  source := inv.source
  source_zero := by simp [State.label]
  closed := by
    intro e he src_mem
    obtain ⟨relaxed, finite⟩ := inv.relaxed e he src_mem id
    refine ⟨?_, relaxed⟩
    by_contra dst_new
    have dst_ne : e.dst ≠ g.s := fun h => dst_new (h ▸ inv.source)
    have := (inv.assi e.dst dst_ne).mpr ⟨(holds.nodes e he).2, dst_new, finite dst_ne⟩
    simp [empty] at this
  attained := by
    intro v v_mem v_ne
    obtain ⟨pre_in, before, e, he, src, dst, label⟩ :=
      inv.attained v v_ne (inv.touched v v_mem v_ne)
    exact ⟨pre_in, before v_mem, e, he, src, dst, label⟩

/-- `Traverse` follows the parents of the records. -/
theorem traverse_eq_ancestry {g : Input} {E : List (Edge Nat Int)} {D : List Nat} {st : State}
    (inv : Inv g E (fun _ => False) D st) :
    ∀ (fuel v : Nat), v ∈ D → Traverse st.Path fuel v =
      ancestry (fun v => decide ((st.record v).pre = v)) (fun v => (st.record v).pre) fuel v := by
  intro fuel
  induction fuel with
  | zero => intro v _; rfl
  | succ fuel ih =>
      intro v v_mem
      have in_path : v < st.Path.length := by rw [inv.path_len]; exact inv.inside v v_mem
      have pre_mem : (st.record v).pre ∈ D := by
        by_cases at_s : v = g.s
        · rw [at_s, inv.source_pre]; exact inv.source
        · exact (inv.attained v at_s (inv.touched v v_mem at_s)).1
      by_cases root : (st.record v).pre = v
      · simp [Traverse, ancestry, State.path_getElem? in_path, root]
      · simp only [Traverse, ancestry, State.path_getElem? in_path, root, Option.bind_eq_bind,
          Option.bind_some, if_false, decide_false, Bool.false_eq_true, ih _ pre_mem]
        cases ancestry (fun v => decide ((st.record v).pre = v)) (fun v => (st.record v).pre) fuel
          (st.record v).pre <;> rfl

/-- `Dijkstra.cpp`, from its input file to its answers. For a graph whose
weights are non-negative and sum to less than `INT_MAX` and in which the source
has at most one edge to each node, `Dijkstra()` finishes within `n` rounds, and
for every node but the source: the cost is `INT_MAX` exactly when no walk from
the source ends there; otherwise it is the least weight of such a walk, and
`Traverse` prints, without printing a node twice, a walk of that weight. -/
theorem main_shortest_paths (n s : Nat) (E : List (Edge Nat Int)) (source : s < n)
    (nodes : ∀ e ∈ E, e.src < n ∧ e.dst < n) (nonneg : ∀ e ∈ E, 0 ≤ e.w)
    (total : (E.map (·.w)).sum < INT_MAX)
    (single : ((E.filter (·.src = s)).map (·.dst)).Nodup) :
    ∃ st, (∀ fuel, n ≤ fuel → main fuel (dataFile n s E) = .done st) ∧
      ∀ v < n, v ≠ s → ∃ r, st.Path[v]? = some r ∧
        (r.cost = INT_MAX ↔ ¬ ∃ visited c, Walk E s v visited c) ∧
        ((∃ visited c, Walk E s v visited c) →
          IsLeast {c | ∃ visited, Walk E s v visited c} r.cost ∧
          ∃ printed, (∀ fuel, n < fuel → Traverse st.Path fuel v = some printed) ∧
            Walk E s v printed r.cost ∧ printed.Nodup) := by
  set g : Input := ⟨n, s, (List.range n).map (rowOf E)⟩
  have holds : g.Holds E := holds_rowOf source nodes nonneg total
  obtain ⟨st₀, start_eq, inv₀⟩ := start_inv holds single
  have measure_le : roundsLeft g [s] st₀ ≤ n := by
    have bound : roundsLeft g [s] st₀ ≤ n - 1 + 1 := by
      refine Nat.add_le_add_left ?_ (n - 1)
      split
      · exact le_rfl
      · exact Nat.zero_le _
    omega
  obtain ⟨D, st, run_eq, inv, stop⟩ := Loop.run_total
    (fun st : State => !st.Assi.isEmpty) (round g)
    (fun D st => Inv g E (fun _ => False) D st) (roundsLeft g)
    (fun D st inv go => round_step holds inv (by simpa using go)) n [s] st₀ inv₀ measure_le
  have empty : st.Assi = [] := by simpa using stop
  have settled := inv.settled holds empty
  refine ⟨st, ?_, ?_⟩
  · intro fuel enough
    rw [main_dataFile fuel (fun e he => (nodes e he).1) start_eq]
    exact Loop.run_mono run_eq enough
  intro v v_lt v_ne
  have in_path : v < st.Path.length := by rw [inv.path_len]; exact v_lt
  refine ⟨st.record v, State.path_getElem? in_path, ?_, ?_⟩
  · rw [← settled.mem_iff]
    constructor
    · intro infinite v_mem
      exact inv.touched v v_mem v_ne infinite
    · intro v_new
      by_contra finite
      have := (inv.assi v v_ne).mpr ⟨v_lt, v_new, finite⟩
      simp [empty] at this
  · intro reachable
    have v_mem := (settled.mem_iff v).mpr reachable
    have label : st.label s v = (st.record v).cost := Inv.label_of_ne v_ne
    rw [← label]
    refine ⟨settled.isLeast v_mem, ?_⟩
    have stop_only : ∀ x, x ∈ D → x ≠ s → decide ((st.record x).pre = x) = false := by
      intro x x_mem x_ne
      have := (settled.attained x x_mem x_ne).2.1
      exact decide_eq_false fun h => by rw [h] at this; omega
    have rank_lt : D.idxOf v < n := (List.idxOf_lt_length_of_mem v_mem).trans_le inv.length_le
    obtain ⟨printed, printed_eq, walk, distinct, _⟩ := settled.ancestry_walk
      (fun x => decide ((st.record x).pre = x)) (by simpa using inv.source_pre) stop_only (n + 1) v
      v_mem (by omega)
    refine ⟨printed, ?_, walk, distinct⟩
    intro fuel enough
    rw [traverse_eq_ancestry inv fuel v v_mem]
    exact printed_eq fuel (by omega)

/-- A graph with a self-loop at the source, parallel edges, a zero-weight cycle
and a node, 3, that the source does not reach. -/
def sampleEdges : List (Edge Nat Int) :=
  [⟨0, 0, 7⟩, ⟨0, 1, 5⟩, ⟨0, 2, 1⟩, ⟨2, 1, 0⟩, ⟨1, 2, 0⟩, ⟨2, 1, 9⟩]

theorem main_shortest_paths_sample :
    ∃ st, (∀ fuel, 4 ≤ fuel → main fuel (dataFile 4 0 sampleEdges) = .done st) ∧
      ∀ v < 4, v ≠ 0 → ∃ r, st.Path[v]? = some r ∧
        (r.cost = INT_MAX ↔ ¬ ∃ visited c, Walk sampleEdges 0 v visited c) ∧
        ((∃ visited c, Walk sampleEdges 0 v visited c) →
          IsLeast {c | ∃ visited, Walk sampleEdges 0 v visited c} r.cost ∧
          ∃ printed, (∀ fuel, 4 < fuel → Traverse st.Path fuel v = some printed) ∧
            Walk sampleEdges 0 v printed r.cost ∧ printed.Nodup) :=
  main_shortest_paths 4 0 sampleEdges (by decide) (by decide) (by decide) (by decide) (by decide)

end CFunc.DijkstraCpp
