import CFunc.Algo.DijkstraMain
import CFunc.Lib.SeededWalk

/-!
`Dijkstra` on every multigraph.

The pass over `Adj[s]` leaves each node the weight of the last edge to it, and
`Assi` a candidate for every edge: the source, where it has a self-loop, and a
node more than once, where it has parallel edges. So what the search finds are
the least weights of walks from these seeds, in which the source can only come
first (`main_seeded`). `Search` is its invariant; a candidate that was selected
before is relaxed once more, without effect.
-/

namespace CFunc.DijkstraCpp

open CFunc.Lib CFunc.Lib.Graph

/-- The weight of the last edge from `s` to `v`. -/
def lastOut (E : List (Edge Nat Int)) (s v : Nat) : Option Int :=
  (((E.filter (·.src = s)).filter (·.dst = v)).getLast?).map (·.w)

/-- The cost of node `v`. -/
def State.cost (st : State) (v : Nat) : Int := (st.record v).cost

/-- The weights of walks from the seeds. -/
abbrev FromSeeds (E : List (Edge Nat Int)) (s : Nat) : Nat → Int → Prop :=
  SeededWalk E s fun v c => lastOut E s v = some c

/-- The invariant of the `while` loop when the nodes of `D`, in order, have been selected for the
first time, and the edges out of them but those of `skip` have been relaxed. -/
structure Search (g : Input) (E : List (Edge Nat Int)) (skip : Edge Nat Int → Prop) (D : List Nat)
    (st : State) : Prop where
  path_len : st.Path.length = g.n
  used : ∀ v < g.n, st.isUsed[v]? = some (decide (v ∈ g.s :: D))
  inside : ∀ v, st.cost v ≠ INT_MAX → v < g.n
  candidate : ∀ v ∈ st.Assi, st.cost v ≠ INT_MAX
  waiting : ∀ v, st.cost v ≠ INT_MAX → v ∉ D → v ∈ st.Assi
  touched : ∀ v ∈ D, st.cost v ≠ INT_MAX
  source : st.cost g.s = (lastOut E g.s g.s).getD INT_MAX
  seeds : ∀ v c, lastOut E g.s v = some c → st.cost v ≤ c
  attained : ∀ v, st.cost v ≠ INT_MAX → FromSeeds E g.s v (st.cost v)
  relaxed : ∀ e ∈ E, e.src ∈ D → ¬ skip e → e.dst ≠ g.s → st.cost e.dst ≤ st.cost e.src + e.w
  bounded : ∀ v, st.cost v ≠ INT_MAX → 0 ≤ st.cost v ∧ st.cost v ≤ spent E (g.s :: D)
  room : ∀ e ∈ E, e.src ∈ D → e.dst ≠ g.s → st.cost e.src + e.w ≤ spent E (g.s :: D)
  ordered : ∀ x ∈ D, ∀ v, v ∉ D ∨ v ∈ st.Assi → st.cost x ≤ st.cost v

section Facts

variable {E : List (Edge Nat Int)} {s v : Nat} {c : Int}

theorem exists_of_lastOut (last : lastOut E s v = some c) :
    ∃ e ∈ E, e.src = s ∧ e.dst = v ∧ e.w = c := by
  rw [lastOut, Option.map_eq_some_iff] at last
  obtain ⟨e, last, rfl⟩ := last
  have mem := List.mem_of_getLast? last
  simp only [List.mem_filter, decide_eq_true_eq] at mem
  exact ⟨e, mem.1.1, mem.1.2, mem.2, rfl⟩

theorem lastOut_ne_none {e : Edge Nat Int} (mem : e ∈ E) (src : e.src = s) (dst : e.dst = v) :
    ∃ c, lastOut E s v = some c := by
  have inside : e ∈ (E.filter (·.src = s)).filter (·.dst = v) := by
    simp only [List.mem_filter, decide_eq_true_eq]
    exact ⟨⟨mem, src⟩, dst⟩
  have last := List.getLast?_eq_getLast_of_ne_nil (List.ne_nil_of_mem inside)
  exact ⟨_, by rw [lastOut, last, Option.map_some]⟩

/-- A weight of a walk from the seeds is one of a walk from the source. -/
theorem walk_of_fromSeeds (seeded : FromSeeds E s v c) : ∃ nodes, Walk E s v nodes c :=
  seeded.walk fun _ _ => exists_of_lastOut

end Facts

/-! ### The pass over `Adj[s]` -/

section Start

variable {g : Input} {E : List (Edge Nat Int)} {st : State}

theorem Stored.cost_eq (stored : Stored g (E.filter (·.src = g.s)) st) (v : Nat) :
    st.cost v = (lastOut E g.s v).getD INT_MAX := by
  rw [State.cost, stored.record, lastOut]
  cases ((E.filter (·.src = g.s)).filter (·.dst = v)).getLast? <;> rfl

/-- A node with a cost has the last edge from the source. -/
theorem Stored.last (stored : Stored g (E.filter (·.src = g.s)) st) {v : Nat}
    (finite : st.cost v ≠ INT_MAX) : lastOut E g.s v = some (st.cost v) := by
  rw [stored.cost_eq] at finite ⊢
  cases last : lastOut E g.s v with
  | none =>
      rw [last] at finite
      exact absurd rfl finite
  | some c => rfl

/-- The invariant holds before the first round. -/
theorem Stored.search (stored : Stored g (E.filter (·.src = g.s)) st) (holds : g.Holds E)
    (used : st.isUsed = (List.replicate g.n false).set g.s true) :
    Search g E (fun _ => False) [] st := by
  have finite {e : Edge Nat Int} (mem : e ∈ E) (src : e.src = g.s) : st.cost e.dst ≠ INT_MAX := by
    obtain ⟨c, last⟩ := lastOut_ne_none mem src rfl
    obtain ⟨e', mem', -, -, weight⟩ := exists_of_lastOut last
    rw [stored.cost_eq, last, Option.getD_some, ← weight]
    exact (holds.weight_lt mem').ne
  constructor
  case path_len => exact stored.path_len
  case used => exact used ▸ start_used g.n g.s
  case inside =>
    intro v touched
    obtain ⟨e, mem, -, dst, -⟩ := exists_of_lastOut (stored.last touched)
    rw [← dst]
    exact (holds.nodes e mem).2
  case candidate =>
    intro v mem
    obtain ⟨e, out, rfl⟩ := stored.mem_assi.mp mem
    have parts := List.mem_filter.mp out
    exact finite parts.1 (of_decide_eq_true parts.2)
  case waiting =>
    intro v touched _
    obtain ⟨e, mem, src, dst, -⟩ := exists_of_lastOut (stored.last touched)
    exact stored.mem_assi.mpr ⟨e, List.mem_filter.mpr ⟨mem, decide_eq_true src⟩, dst⟩
  case touched => exact fun v mem => absurd mem List.not_mem_nil
  case source => exact stored.cost_eq g.s
  case seeds =>
    intro v c last
    rw [stored.cost_eq, last, Option.getD_some]
  case attained => exact fun v touched => .start (stored.last touched)
  case relaxed => exact fun e _ src => absurd src List.not_mem_nil
  case bounded =>
    intro v touched
    obtain ⟨e, mem, src, -, weight⟩ := exists_of_lastOut (stored.last touched)
    have spent_le := spent_snoc holds.nonneg (D := []) mem List.not_mem_nil
    rw [List.nil_append, src] at spent_le
    have none_spent : spent E [] = 0 := by simp [spent]
    rw [← weight]
    exact ⟨holds.nonneg e mem, by omega⟩
  case room => exact fun e _ src => absurd src List.not_mem_nil
  case ordered => exact fun x mem => absurd mem List.not_mem_nil

theorem start_search (holds : g.Holds E) :
    ∃ st, start g = some st ∧ st.Assi = (E.filter (·.src = g.s)).map (·.dst) ∧
      Search g E (fun _ => False) [] st := by
  obtain ⟨st, run_eq, used, stored⟩ := start_stored holds.source
    (fun e mem => (holds.nodes e mem).2) (holds.row g.s holds.source)
  exact ⟨st, run_eq, stored.assi, stored.search holds used⟩

end Start

/-! ### One round -/

section Round

variable {g : Input} {E : List (Edge Nat Int)} {skip : Edge Nat Int → Prop} {D : List Nat}
  {st : State}

/-- The candidates come before the nodes without a cost. -/
theorem Search.cost_lt (holds : g.Holds E) (search : Search g E skip D st) {v : Nat}
    (touched : st.cost v ≠ INT_MAX) : st.cost v < INT_MAX :=
  (search.bounded v touched).2.trans_lt ((spent_le_total holds.nonneg _).trans_lt holds.total)

theorem mem_eraseIdx_of_ne {xs : List Nat} {i u x : Nat} (at_i : xs[i]? = some u) (mem : x ∈ xs)
    (ne : x ≠ u) : x ∈ xs.eraseIdx i := by
  obtain ⟨j, at_j⟩ := List.mem_iff_getElem?.mp mem
  refine List.mem_eraseIdx_iff_getElem?.mpr ⟨j, fun same => ?_, at_j⟩
  rw [same, at_i] at at_j
  exact ne (Option.some.inj at_j).symm

/-- A self-loop that the source is selected with and an edge out of the source weigh no more
than all edges out of it. -/
theorem Search.source_room (holds : g.Holds E) (search : Search g E skip D st)
    (touched : st.cost g.s ≠ INT_MAX) {e : Edge Nat Int} (mem : e ∈ E) (src : e.src = g.s)
    (ne : e.dst ≠ g.s) (more : List Nat) :
    st.cost g.s + e.w ≤ spent E (g.s :: more) := by
  have source := search.source
  cases last : lastOut E g.s g.s with
  | none =>
      rw [last] at source
      exact absurd source touched
  | some c =>
      obtain ⟨l, l_mem, l_src, l_dst, rfl⟩ := exists_of_lastOut last
      rw [last, Option.getD_some] at source
      have other : l ≠ e := fun same => ne (same ▸ l_dst)
      rw [source]
      exact add_le_spent holds.nonneg l_mem mem (by rw [l_src]; exact List.mem_cons_self)
        (by rw [src]; exact List.mem_cons_self) other

/-- A selected candidate: the edges out of it are to be relaxed, perhaps once more. -/
theorem Search.mark (holds : g.Holds E) (search : Search g E (fun _ => False) D st) {i u : Nat}
    (at_i : st.Assi[i]? = some u) (least : ∀ x ∈ st.Assi, st.cost u ≤ st.cost x) :
    Search g E (fun e => e.src = u) (u :: D) (st.mark i u) := by
  have u_mem : u ∈ st.Assi := List.mem_of_getElem? at_i
  have u_touched := search.candidate u u_mem
  have u_lt := search.inside u u_touched
  have more (x : Nat) (mem : x ∈ g.s :: D) : x ∈ g.s :: u :: D := by
    simp only [List.mem_cons] at mem ⊢
    tauto
  have kept {x : Nat} (mem : x ∈ (st.mark i u).Assi) : x ∈ st.Assi := List.mem_of_mem_eraseIdx mem
  constructor
  case path_len => exact search.path_len
  case used =>
    apply used_set search.used
    intro v
    simp only [List.mem_cons]
    exact or_left_comm
  case inside => exact search.inside
  case candidate => exact fun v mem => search.candidate v (kept mem)
  case waiting =>
    intro v touched new
    rw [List.mem_cons, not_or] at new
    exact mem_eraseIdx_of_ne at_i (search.waiting v touched new.2) new.1
  case touched =>
    intro v mem
    rcases List.mem_cons.mp mem with rfl | old
    · exact u_touched
    · exact search.touched v old
  case source => exact search.source
  case seeds => exact search.seeds
  case attained => exact search.attained
  case relaxed =>
    intro e e_mem src not_skip ne
    rcases List.mem_cons.mp src with here | old
    · exact absurd here not_skip
    · exact search.relaxed e e_mem old id ne
  case bounded =>
    intro v touched
    obtain ⟨lower, upper⟩ := search.bounded v touched
    exact ⟨lower, upper.trans (spent_mono holds.nonneg more)⟩
  case room =>
    intro e e_mem src ne
    by_cases old : e.src ∈ D
    · exact (search.room e e_mem old ne).trans (spent_mono holds.nonneg more)
    · obtain rfl : e.src = u := (List.mem_cons.mp src).resolve_right old
      by_cases at_s : e.src = g.s
      · have bound := search.source_room holds (at_s ▸ u_touched) e_mem at_s ne (e.src :: D)
        rwa [← at_s] at bound ⊢
      · have new : e.src ∉ g.s :: D := by
          rw [List.mem_cons, not_or]
          exact ⟨at_s, old⟩
        have paid := spent_snoc holds.nonneg e_mem new
        have within : spent E (g.s :: D ++ [e.src]) ≤ spent E (g.s :: e.src :: D) := by
          apply spent_mono holds.nonneg
          intro x mem
          simp only [List.mem_append, List.mem_cons, List.not_mem_nil, or_false] at mem ⊢
          tauto
        have upper := (search.bounded e.src u_touched).2
        calc st.cost e.src + e.w ≤ spent E (g.s :: D) + e.w := by omega
          _ ≤ spent E (g.s :: e.src :: D) := paid.trans within
  case ordered =>
    intro x x_mem v v_mem
    have out : v ∉ D ∨ v ∈ st.Assi :=
      v_mem.imp (fun new old => new (List.mem_cons_of_mem _ old)) kept
    rcases List.mem_cons.mp x_mem with rfl | old
    · by_cases touched : st.cost v = INT_MAX
      · have below := search.cost_lt holds u_touched
        show st.cost x ≤ st.cost v
        omega
      · exact least v (out.elim (search.waiting v touched) id)
    · exact search.ordered x old v out

/-! ### Relaxing one edge -/

theorem State.improve_cost {v : Nat} (in_path : v < st.Path.length) (u : Nat) (c : Int) (x : Nat) :
    (st.improve u v c).cost x = if x = v then c else st.cost x := by
  rw [State.cost, State.improve_record in_path]
  split <;> rfl

/-- What keeps the loop going: the candidates and the nodes that are still to become one. -/
def pending (st : State) : Nat :=
  st.Assi.length + st.Path.countP fun r => decide (r.cost = INT_MAX)

theorem pending_mark {i u : Nat} (at_i : st.Assi[i]? = some u) :
    pending (st.mark i u) < pending st := by
  have lt := (List.getElem?_eq_some_iff.mp at_i).1
  rw [pending, pending, State.mark, List.length_eraseIdx_of_lt lt]
  dsimp only
  omega

theorem pending_improve {v : Nat} (in_path : v < st.Path.length) (u : Nat) {c : Int}
    (finite : c ≠ INT_MAX) : pending (st.improve u v c) = pending st := by
  have record : st.record v = st.Path[v] := by
    rw [State.record, List.getD_eq_getElem?_getD, List.getElem?_eq_getElem in_path,
      Option.getD_some]
  rw [pending, pending, State.improve]
  dsimp only
  rw [List.countP_set in_path, record]
  by_cases untouched : st.Path[v].cost = INT_MAX
  · have counted : 0 < st.Path.countP fun r => decide (r.cost = INT_MAX) :=
      List.countP_pos_iff.mpr ⟨_, List.getElem_mem in_path, decide_eq_true untouched⟩
    simp [untouched, finite]
    omega
  · simp [untouched, finite]

/-- Once `e` is relaxed it is no longer among the edges still to be relaxed. -/
theorem Search.done {u : Nat} {P : List (Edge Nat Int)}
    (search : Search g E (fun e => e.src = u ∧ e ∉ P) D st) {e : Edge Nat Int}
    (relaxed : e.dst ≠ g.s → st.cost e.dst ≤ st.cost e.src + e.w) :
    Search g E (fun e' => e'.src = u ∧ e' ∉ P ++ [e]) D st := by
  refine { search with relaxed := fun e' mem src not_skip => ?_ }
  by_cases same : e' = e
  · exact same ▸ relaxed
  · refine search.relaxed e' mem src fun skip => not_skip ⟨skip.1, fun done => ?_⟩
    exact (List.mem_append.mp done).elim skip.2 fun last => same (List.mem_singleton.mp last)

/-- Improving an unused node over an edge out of a selected one. -/
theorem Search.improve (holds : g.Holds E) (search : Search g E skip D st) {e : Edge Nat Int}
    (mem : e ∈ E) (src : e.src ∈ D) (unused : e.dst ∉ g.s :: D)
    (top : ∀ x ∈ D, st.cost x ≤ st.cost e.src)
    (less : st.cost e.src + e.w < st.cost e.dst) :
    Search g E skip D (st.improve e.src e.dst (st.cost e.src + e.w)) := by
  have dst_lt := (holds.nodes e mem).2
  have in_path : e.dst < st.Path.length := by rwa [search.path_len]
  obtain ⟨dst_ne, dst_new⟩ : e.dst ≠ g.s ∧ e.dst ∉ D := by rwa [List.mem_cons, not_or] at unused
  have src_touched := search.touched e.src src
  have src_cost := search.bounded e.src src_touched
  have nonneg := holds.nonneg e mem
  have fits := search.room e mem src dst_ne
  have below := (spent_le_total holds.nonneg (g.s :: D)).trans_lt holds.total
  generalize cost_eq : st.cost e.src + e.w = c at *
  have c_finite : c ≠ INT_MAX := by omega
  have here : (st.improve e.src e.dst c).cost e.dst = c := by
    rw [State.improve_cost in_path, if_pos rfl]
  have other {x : Nat} (ne : x ≠ e.dst) : (st.improve e.src e.dst c).cost x = st.cost x := by
    rw [State.improve_cost in_path, if_neg ne]
  have selected {x : Nat} (x_mem : x ∈ D) : x ≠ e.dst := fun same => dst_new (same ▸ x_mem)
  have le (x : Nat) : (st.improve e.src e.dst c).cost x ≤ st.cost x := by
    by_cases same : x = e.dst
    · rw [same, here]
      exact less.le
    · exact (other same).le
  have candidate : e.dst ∈ (st.improve e.src e.dst c).Assi :=
    State.mem_improve_self fun touched => search.waiting e.dst touched dst_new
  constructor
  case path_len => rw [State.improve, List.length_set, search.path_len]
  case used => exact search.used
  case inside =>
    intro v touched
    by_cases same : v = e.dst
    · rw [same]
      exact dst_lt
    · rw [other same] at touched
      exact search.inside v touched
  case candidate =>
    intro v v_mem
    by_cases same : v = e.dst
    · rw [same, here]
      exact c_finite
    · rw [other same]
      exact search.candidate v ((State.mem_improve_of_ne same).mp v_mem)
  case waiting =>
    intro v touched new
    by_cases same : v = e.dst
    · rw [same]
      exact candidate
    · rw [other same] at touched
      exact (State.mem_improve_of_ne same).mpr (search.waiting v touched new)
  case touched =>
    intro v v_mem
    rw [other (selected v_mem)]
    exact search.touched v v_mem
  case source =>
    rw [other dst_ne.symm]
    exact search.source
  case seeds => exact fun v w last => (le v).trans (search.seeds v w last)
  case attained =>
    intro v touched
    by_cases same : v = e.dst
    · rw [same, here, ← cost_eq]
      exact (search.attained e.src src_touched).snoc mem dst_ne
    · rw [other same] at touched ⊢
      exact search.attained v touched
  case relaxed =>
    intro e' e'_mem e'_src not_skip ne
    rw [other (selected e'_src)]
    exact (le e'.dst).trans (search.relaxed e' e'_mem e'_src not_skip ne)
  case bounded =>
    intro v touched
    by_cases same : v = e.dst
    · rw [same, here]
      exact ⟨by omega, fits⟩
    · rw [other same] at touched ⊢
      exact search.bounded v touched
  case room =>
    intro e' e'_mem e'_src ne
    rw [other (selected e'_src)]
    exact search.room e' e'_mem e'_src ne
  case ordered =>
    intro x x_mem v v_mem
    rw [other (selected x_mem)]
    by_cases same : v = e.dst
    · rw [same, here]
      have below := top x x_mem
      omega
    · rw [other same]
      exact search.ordered x x_mem v (v_mem.imp_right (State.mem_improve_of_ne same).mp)

/-- Relaxing an edge of a selected node keeps the invariant, the costs of selected nodes and
what is pending. -/
theorem Search.relax (holds : g.Holds E) {u : Nat} {P : List (Edge Nat Int)}
    (search : Search g E (fun e => e.src = u ∧ e ∉ P) D st) (u_mem : u ∈ D)
    (top : ∀ x ∈ D, st.cost x ≤ st.cost u) {e : Edge Nat Int} (mem : e ∈ E) (src : e.src = u) :
    ∃ st', relax u (st.cost u) st ⟨e.dst, e.w⟩ = some st' ∧
      Search g E (fun e' => e'.src = u ∧ e' ∉ P ++ [e]) D st' ∧
      (∀ x ∈ D, st'.cost x = st.cost x) ∧ pending st' = pending st := by
  subst src
  have dst_lt := (holds.nodes e mem).2
  have in_path : e.dst < st.Path.length := by rwa [search.path_len]
  have nonneg := holds.nonneg e mem
  have src_cost := (search.bounded e.src (search.touched e.src u_mem)).1
  have below := (spent_le_total holds.nonneg (g.s :: D)).trans_lt holds.total
  have fits (unused : e.dst ∉ g.s :: D) : st.cost e.src + e.w < INT_MAX :=
    (search.room e mem u_mem fun at_s => unused (at_s ▸ List.mem_cons_self)).trans_lt below
  have step := relax_eq_of_used e.src (st.cost e.src) ⟨e.dst, e.w⟩ (search.used e.dst dst_lt)
    in_path (add_nonneg src_cost nonneg) fun unused => fits (of_decide_eq_false unused)
  refine ⟨_, step, ?_⟩
  split
  · rename_i keep
    refine ⟨search.done fun ne => ?_, fun x _ => rfl, rfl⟩
    rcases keep with used | small
    · rcases List.mem_cons.mp (of_decide_eq_true used) with at_s | selected
      · exact absurd at_s ne
      · have before := top e.dst selected
        omega
    · exact small
  · rename_i change
    obtain ⟨unused, less⟩ := not_or.mp change
    have unused : e.dst ∉ g.s :: D := fun used => unused (decide_eq_true used)
    have less : st.cost e.src + e.w < st.cost e.dst := Int.not_le.mp less
    have other {x : Nat} (x_mem : x ∈ D) :
        (st.improve e.src e.dst (st.cost e.src + e.w)).cost x = st.cost x := by
      have ne : x ≠ e.dst := fun same => unused (same ▸ List.mem_cons_of_mem _ x_mem)
      rw [State.improve_cost in_path, if_neg ne]
    refine ⟨(search.improve holds mem u_mem unused top less).done fun _ => ?_,
      fun x x_mem => other x_mem, pending_improve in_path e.src (fits unused).ne⟩
    rw [other u_mem, State.improve_cost in_path, if_pos rfl]

/-- Relaxing the edges out of a selected node, one after the other. -/
theorem Search.relax_all (holds : g.Holds E) {u : Nat}
    (search : Search g E (fun e => e.src = u) D st)
    (u_mem : u ∈ D) (top : ∀ x ∈ D, st.cost x ≤ st.cost u) :
    ∃ st', (rowOf E u).foldlM (DijkstraCpp.relax u (st.cost u)) st = some st' ∧
      Search g E (fun _ => False) D st' ∧ pending st' = pending st := by
  have fresh : Search g E (fun e => e.src = u ∧ e ∉ ([] : List (Edge Nat Int))) D st :=
    { search with
      relaxed := fun e mem src not_skip =>
        search.relaxed e mem src fun here => not_skip ⟨here, List.not_mem_nil⟩ }
  have keep : ∀ P, ∀ e ∈ E.filter (·.src = u), ∀ st₁,
      (Search g E (fun e => e.src = u ∧ e ∉ P) D st₁ ∧
        (∀ x ∈ D, st₁.cost x = st.cost x) ∧ pending st₁ = pending st) →
      ∃ st₂, DijkstraCpp.relax u (st.cost u) st₁ ⟨e.dst, e.w⟩ = some st₂ ∧
        Search g E (fun e' => e'.src = u ∧ e' ∉ P ++ [e]) D st₂ ∧
        (∀ x ∈ D, st₂.cost x = st.cost x) ∧ pending st₂ = pending st := by
    rintro P e out st₁ ⟨search₁, same₁, pending₁⟩
    obtain ⟨mem, src⟩ := List.mem_filter.mp out
    have top₁ (x : Nat) (x_mem : x ∈ D) : st₁.cost x ≤ st₁.cost u := by
      rw [same₁ x x_mem, same₁ u u_mem]
      exact top x x_mem
    obtain ⟨st₂, step, search₂, same₂, pending₂⟩ :=
      Search.relax holds search₁ u_mem top₁ mem (of_decide_eq_true src)
    rw [same₁ u u_mem] at step
    exact ⟨st₂, step, search₂, fun x x_mem => (same₂ x x_mem).trans (same₁ x x_mem),
      pending₂.trans pending₁⟩
  obtain ⟨st', run_eq, search', -, pending'⟩ := Loop.foldlM_inv _ keep ⟨fresh, fun _ _ => rfl, rfl⟩
  refine ⟨st', by rw [rowOf, List.foldlM_map, run_eq], { search' with relaxed := ?_ }, pending'⟩
  intro e mem src _
  exact search'.relaxed e mem src fun skip =>
    skip.2 (List.mem_filter.mpr ⟨mem, decide_eq_true skip.1⟩)

/-! ### Rounds -/

/-- One round of the `while` loop has a meaning, keeps the invariant and leaves less pending. -/
theorem round_search (holds : g.Holds E) (search : Search g E (fun _ => False) D st)
    (go : st.Assi ≠ []) :
    ∃ D' st', round g st = some st' ∧ Search g E (fun _ => False) D' st' ∧
      pending st' < pending st := by
  have lt {x : Nat} (mem : x ∈ st.Assi) : x < g.n := search.inside x (search.candidate x mem)
  obtain ⟨x, x_mem⟩ := List.exists_mem_of_ne_nil _ go
  obtain ⟨i, u, at_i, select_eq, least⟩ := select_eq_some st
    (fun x mem => by rw [search.path_len]; exact lt mem) x_mem
    (search.cost_lt holds (search.candidate x x_mem))
  have u_mem : u ∈ st.Assi := List.mem_of_getElem? at_i
  have u_len : u < st.isUsed.length :=
    (List.getElem?_eq_some_iff.mp (search.used u (lt u_mem))).1
  have round_eq : round g st =
      (rowOf E u).foldlM (DijkstraCpp.relax u (st.cost u)) (st.mark i u) := by
    simp [round, select_eq, at_i, store_eq_some _ u_len, holds.row u (lt u_mem), State.mark,
      State.cost, rowOf]
  have marked := search.mark holds at_i least
  have top (x : Nat) (mem : x ∈ u :: D) : (st.mark i u).cost x ≤ (st.mark i u).cost u := by
    rcases List.mem_cons.mp mem with rfl | old
    · exact le_rfl
    · exact search.ordered x old u (.inr u_mem)
  obtain ⟨st', run_eq, search', pending_eq⟩ := marked.relax_all holds List.mem_cons_self top
  refine ⟨u :: D, st', round_eq.trans run_eq, search', ?_⟩
  rw [pending_eq]
  exact pending_mark at_i

/-- With no candidate left the costs are final. -/
theorem Search.labelled (holds : g.Holds E) (search : Search g E (fun _ => False) D st)
    (empty : st.Assi = []) :
    Labelled E g.s (fun v c => lastOut E g.s v = some c) (fun v => st.cost v ≠ INT_MAX)
      st.cost := by
  have below := (spent_le_total holds.nonneg (g.s :: D)).trans_lt holds.total
  constructor
  case seeds =>
    intro v c last
    have le := search.seeds v c last
    obtain ⟨e, mem, -, -, rfl⟩ := exists_of_lastOut last
    exact ⟨(le.trans_lt (holds.weight_lt mem)).ne, le⟩
  case closed =>
    intro e mem touched ne
    have selected : e.src ∈ D := by
      by_contra new
      have candidate := search.waiting e.src touched new
      rw [empty] at candidate
      cases candidate
    have le := search.relaxed e mem selected id ne
    have fits := (search.room e mem selected ne).trans_lt below
    exact ⟨(le.trans_lt fits).ne, le⟩
  case attained => exact search.attained

end Round

/-! ### The result -/

/-- What `main` computes for any multigraph: within as many rounds as there are nodes and edges
the search ends, and the costs are the least weights of walks from the seeds. -/
theorem main_seeded (n s : Nat) (E : List (Edge Nat Int)) (source : s < n)
    (nodes : ∀ e ∈ E, e.src < n ∧ e.dst < n) (nonneg : ∀ e ∈ E, 0 ≤ e.w)
    (total : (E.map (·.w)).sum < INT_MAX) :
    ∃ st, (∀ fuel, n + E.length ≤ fuel → main fuel (dataFile n s E) = .done st) ∧
      st.Path.length = n ∧
      Labelled E s (fun v c => lastOut E s v = some c) (fun v => st.cost v ≠ INT_MAX) st.cost := by
  set g : Input := ⟨n, s, (List.range n).map (rowOf E)⟩
  have holds : g.Holds E := holds_rowOf source nodes nonneg total
  obtain ⟨st₀, start_eq, assi, search₀⟩ := start_search holds
  have enough : pending st₀ ≤ n + E.length := by
    have candidates : st₀.Assi.length ≤ E.length := by
      rw [assi, List.length_map]
      exact List.length_filter_le _ _
    have records : (st₀.Path.countP fun r => decide (r.cost = INT_MAX)) ≤ n :=
      List.countP_le_length.trans search₀.path_len.le
    rw [pending]
    omega
  obtain ⟨D, st, run_eq, search, stop⟩ := Loop.run_total
    (fun st : State => !st.Assi.isEmpty) (round g)
    (fun D st => Search g E (fun _ => False) D st) (fun _ => pending)
    (fun D st search go => round_search holds search (by simpa using go)) (n + E.length) [] st₀
    search₀ enough
  have empty : st.Assi = [] := by simpa using stop
  refine ⟨st, ?_, search.path_len, search.labelled holds empty⟩
  intro fuel le
  rw [main_dataFile fuel (fun e mem => (nodes e mem).1) start_eq]
  exact Loop.run_mono run_eq le

end CFunc.DijkstraCpp
