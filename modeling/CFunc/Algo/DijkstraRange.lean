import CFunc.Algo.DijkstraSeeds

/-!
`Dijkstra` on weights of any size.

With no bound on the sums of weights a round can go wrong in two ways: every
candidate may cost `INT_MAX`, and then `It` is dereferenced unassigned, or
`minCost + it->w` may overflow. `main_safe_iff` says for which graphs neither
happens in any round: every node the search reaches is nearer than `INT_MAX`,
and the sum fits on every edge whose end is selected after its start. Among
nodes of one distance the order of `Assi` decides which is selected first; that
part of the condition is about the state before a round.

`Progress` is the invariant. Unlike `Search` it says nothing about the total
weight, so it counts on no later round: a cost may be the sentinel although
the node is a candidate.
-/

namespace CFunc.DijkstraCpp

open CFunc.Lib CFunc.Lib.Graph

/-! ### The condition -/

/-- `c` is the least weight of a walk from the seeds to `v`. -/
def Nearest (E : List (Edge Nat Int)) (s v : Nat) (c : Int) : Prop :=
  IsLeast {c | FromSeeds E s v c} c

/-- The distances fit below the sentinel, and so do the sums along the edges that lead away from
the source. -/
structure InRange (E : List (Edge Nat Int)) (s : Nat) : Prop where
  nodes : ∀ v c, Nearest E s v c → c < INT_MAX
  sums : ∀ e ∈ E, e.dst ≠ s → ∀ c c', Nearest E s e.src c → Nearest E s e.dst c' → c < c' →
    c + e.w ≤ INT_MAX

/-- `u`, at position `i` of `Assi`, is the first candidate of least cost. -/
structure State.First (st : State) (i u : Nat) : Prop where
  at_i : st.Assi[i]? = some u
  least : ∀ x ∈ st.Assi, st.cost u ≤ st.cost x
  before : ∀ j x, j < i → st.Assi[j]? = some x → st.cost u < st.cost x

/-- The state `st` comes up before a round. -/
def Before (g : Input) (st : State) : Prop :=
  ∃ st₀, start g = some st₀ ∧ Loop.Reached (fun st => !st.Assi.isEmpty) (round g) st₀ st

/-- In a state before a round, the edges from the first candidate to unused nodes at the same
distance have sums in range. -/
def TiesInRange (g : Input) (E : List (Edge Nat Int)) (st : State) : Prop :=
  ∀ i u, st.First i u → ∀ e ∈ E, e.src = u → e.dst ≠ u → st.isUsed[e.dst]? = some false →
    Nearest E g.s e.dst (st.cost u) → st.cost u + e.w ≤ INT_MAX

/-! ### The invariant -/

/-- What `main` reads for the edge list `E`; the weights are any non-negative `int`s. -/
structure Input.Reads (g : Input) (E : List (Edge Nat Int)) : Prop where
  source : g.s < g.n
  nodes : ∀ e ∈ E, e.src < g.n ∧ e.dst < g.n
  weights : ∀ e ∈ E, 0 ≤ e.w ∧ e.w ≤ INT_MAX
  row : ∀ u < g.n, g.Adj[u]? = some (rowOf E u)

/-- An edge out of the selected nodes `D` once it is relaxed. Its sum was computed unless the end
had been selected before the start. -/
structure State.Relaxed (st : State) (D : List Nat) (e : Edge Nat Int) : Prop where
  le : st.cost e.dst ≤ st.cost e.src + e.w
  known : e.dst ∈ D ∨ e.dst ∈ st.Assi
  fits : e.dst ∉ D ∨ st.cost e.src < st.cost e.dst → st.cost e.src + e.w ≤ INT_MAX

/-- The invariant of the `while` loop when the nodes of `D` have been selected and the edges out
of them but those of `skip` have been relaxed. -/
structure Progress (g : Input) (E : List (Edge Nat Int)) (skip : Edge Nat Int → Prop)
    (D : List Nat) (st : State) : Prop where
  path_len : st.Path.length = g.n
  used : ∀ v < g.n, st.isUsed[v]? = some (decide (v ∈ g.s :: D))
  range : ∀ v, 0 ≤ st.cost v ∧ st.cost v ≤ INT_MAX
  candidate : ∀ v ∈ st.Assi, v < g.n ∧ ∃ c, FromSeeds E g.s v c
  waiting : ∀ v, st.cost v ≠ INT_MAX → v ∉ D → v ∈ st.Assi
  selected : ∀ v ∈ D, st.cost v < INT_MAX
  seeds : ∀ v c, lastOut E g.s v = some c → st.cost v ≤ c ∧ (v ∈ D ∨ v ∈ st.Assi)
  attained : ∀ v, st.cost v ≠ INT_MAX → FromSeeds E g.s v (st.cost v)
  relaxed : ∀ e ∈ E, e.src ∈ D → ¬ skip e → e.dst ≠ g.s → st.Relaxed D e
  ordered : ∀ x ∈ D, ∀ v, v ∉ D ∨ v ∈ st.Assi → st.cost x ≤ st.cost v

section Walks

variable {g : Input} {E : List (Edge Nat Int)} {D : List Nat} {st : State} {i u v : Nat} {c : Int}

theorem FromSeeds.nonneg (weights : ∀ e ∈ E, 0 ≤ e.w) {s : Nat} (walk : FromSeeds E s v c) :
    0 ≤ c := by
  refine SeededWalk.nonneg weights (fun v c last => ?_) walk
  obtain ⟨e, mem, -, -, rfl⟩ := exists_of_lastOut last
  exact weights e mem

/-- A node that is reached has a nearest walk. -/
theorem FromSeeds.exists_nearest (weights : ∀ e ∈ E, 0 ≤ e.w) {s : Nat}
    (walk : FromSeeds E s v c) : ∃ c', Nearest E s v c' := by
  obtain ⟨c', attained, least⟩ := Int.exists_least_of_bdd (P := fun c => FromSeeds E s v c)
    ⟨0, fun _ walk => FromSeeds.nonneg weights walk⟩ ⟨c, walk⟩
  exact ⟨c', attained, least⟩

theorem Progress.frontier (reads : g.Reads E) (progress : Progress g E (fun _ => False) D st)
    (walk : FromSeeds E g.s v c) :
    (v ∈ D → st.cost v ≤ c) ∧ (v ∉ D → ∃ x, x ∉ D ∧ x ∈ st.Assi ∧ st.cost x ≤ c) := by
  refine SeededWalk.frontier (fun e mem => (reads.weights e mem).1) progress.seeds ?_ ?_ walk
  · intro e mem src ne
    have relaxed := progress.relaxed e mem src id ne
    exact ⟨relaxed.le, relaxed.known⟩
  · exact fun x v selected new => progress.ordered x selected v (.inl new)

/-- No walk to an unselected node is lighter than the first candidate. -/
theorem Progress.first_le (reads : g.Reads E) (progress : Progress g E (fun _ => False) D st)
    (first : st.First i u) (new : v ∉ D) (walk : FromSeeds E g.s v c) : st.cost u ≤ c := by
  obtain ⟨x, -, waits, le⟩ := (progress.frontier reads walk).2 new
  exact (first.least x waits).trans le

/-- The cost of the first candidate is final. -/
theorem Progress.first_nearest (reads : g.Reads E)
    (progress : Progress g E (fun _ => False) D st) (first : st.First i u)
    (finite : st.cost u < INT_MAX) : Nearest E g.s u (st.cost u) := by
  refine ⟨progress.attained u finite.ne, fun c walk => ?_⟩
  by_cases old : u ∈ D
  · exact (progress.frontier reads walk).1 old
  · exact progress.first_le reads first old walk

end Walks

/-! ### The pass over `Adj[s]` -/

theorem Stored.progress {g : Input} {E : List (Edge Nat Int)} {st : State}
    (stored : Stored g (E.filter (·.src = g.s)) st) (reads : g.Reads E)
    (used : st.isUsed = (List.replicate g.n false).set g.s true) :
    Progress g E (fun _ => False) [] st := by
  have candidate {e : Edge Nat Int} (mem : e ∈ E) (src : e.src = g.s) : e.dst ∈ st.Assi :=
    stored.mem_assi.mpr ⟨e, List.mem_filter.mpr ⟨mem, decide_eq_true src⟩, rfl⟩
  constructor
  case path_len => exact stored.path_len
  case used => exact used ▸ start_used g.n g.s
  case range =>
    intro v
    rw [stored.cost_eq]
    cases last : lastOut E g.s v with
    | none => exact ⟨by decide, le_rfl⟩
    | some c =>
        obtain ⟨e, mem, -, -, rfl⟩ := exists_of_lastOut last
        exact reads.weights e mem
  case candidate =>
    intro v mem
    obtain ⟨e, out, rfl⟩ := stored.mem_assi.mp mem
    have parts := List.mem_filter.mp out
    obtain ⟨c, last⟩ := lastOut_ne_none parts.1 (of_decide_eq_true parts.2) rfl
    exact ⟨(reads.nodes e parts.1).2, c, .start last⟩
  case waiting =>
    intro v touched _
    obtain ⟨e, mem, src, rfl, -⟩ := exists_of_lastOut (stored.last touched)
    exact candidate mem src
  case selected => exact fun v mem => absurd mem List.not_mem_nil
  case seeds =>
    intro v c last
    obtain ⟨e, mem, src, rfl, -⟩ := exists_of_lastOut last
    rw [stored.cost_eq, last, Option.getD_some]
    exact ⟨le_rfl, .inr (candidate mem src)⟩
  case attained => exact fun v touched => .start (stored.last touched)
  case relaxed => exact fun e _ src => absurd src List.not_mem_nil
  case ordered => exact fun x mem => absurd mem List.not_mem_nil

theorem start_progress {g : Input} {E : List (Edge Nat Int)} (reads : g.Reads E) :
    ∃ st, start g = some st ∧ Progress g E (fun _ => False) [] st := by
  obtain ⟨st, run_eq, used, stored⟩ := start_stored reads.source
    (fun e mem => (reads.nodes e mem).2) (reads.row g.s reads.source)
  exact ⟨st, run_eq, stored.progress reads used⟩

/-! ### Selection -/

section Selection

variable {st : State} {i j u v : Nat}

theorem State.First.unique (first : st.First i u) (other : st.First j v) : i = j ∧ u = v := by
  have same_i : i = j := by
    rcases lt_trichotomy i j with lt | same | lt
    · have less := other.before i u lt first.at_i
      exact absurd (first.least v (List.mem_of_getElem? other.at_i)) (not_le.mpr less)
    · exact same
    · have less := first.before j v lt other.at_i
      exact absurd (other.least u (List.mem_of_getElem? first.at_i)) (not_le.mpr less)
  subst same_i
  exact ⟨rfl, Option.some.inj (first.at_i.symm.trans other.at_i)⟩

/-- The selection loop leaves `It` unassigned or at the first candidate of least cost, which is
then below `INT_MAX`. -/
theorem select_first (inside : ∀ x ∈ st.Assi, x < st.Path.length) :
    (select st.Path st.Assi = some (INT_MAX, none) ∧ ∀ x ∈ st.Assi, INT_MAX ≤ st.cost x) ∨
      ∃ i u, select st.Path st.Assi = some (st.cost u, some i) ∧ st.First i u ∧
        st.cost u < INT_MAX := by
  obtain ⟨out, run_eq, _, lower, found⟩ := select_scan st st.Assi inside 0 (INT_MAX, none)
  rcases found with rfl | ⟨i, u, at_i, rfl, below, before⟩
  · exact .inl ⟨run_eq, lower⟩
  · rw [Nat.zero_add] at run_eq
    exact .inr ⟨i, u, run_eq, ⟨at_i, lower, before⟩, below⟩

end Selection

section Round

variable {g : Input} {E : List (Edge Nat Int)} {skip : Edge Nat Int → Prop} {D : List Nat}
  {st : State} {i u : Nat}

theorem Progress.inside (progress : Progress g E skip D st) (x : Nat) (mem : x ∈ st.Assi) :
    x < st.Path.length := by
  rw [progress.path_len]
  exact (progress.candidate x mem).1

/-- A round with a candidate below `INT_MAX` relaxes the edges out of the first one. -/
theorem round_eq (reads : g.Reads E) (progress : Progress g E skip D st)
    (select_eq : select st.Path st.Assi = some (st.cost u, some i))
    (at_i : st.Assi[i]? = some u) :
    round g st = (rowOf E u).foldlM (relax u (st.cost u)) (st.mark i u) := by
  have u_lt := (progress.candidate u (List.mem_of_getElem? at_i)).1
  have u_len : u < st.isUsed.length :=
    (List.getElem?_eq_some_iff.mp (progress.used u u_lt)).1
  simp [round, select_eq, at_i, store_eq_some _ u_len, reads.row u u_lt, State.mark]

theorem Progress.mark (progress : Progress g E (fun _ => False) D st) (first : st.First i u)
    (finite : st.cost u < INT_MAX) : Progress g E (fun e => e.src = u) (u :: D) (st.mark i u) := by
  have u_mem : u ∈ st.Assi := List.mem_of_getElem? first.at_i
  have kept {x : Nat} (mem : x ∈ (st.mark i u).Assi) : x ∈ st.Assi := List.mem_of_mem_eraseIdx mem
  have known {x : Nat} (old : x ∈ D ∨ x ∈ st.Assi) : x ∈ u :: D ∨ x ∈ (st.mark i u).Assi := by
    by_cases same : x = u
    · exact .inl (same ▸ List.mem_cons_self)
    · exact old.imp (List.mem_cons_of_mem _) fun mem => mem_eraseIdx_of_ne first.at_i mem same
  constructor
  case path_len => exact progress.path_len
  case used =>
    apply used_set progress.used
    intro v
    simp only [List.mem_cons]
    exact or_left_comm
  case range => exact progress.range
  case candidate => exact fun v mem => progress.candidate v (kept mem)
  case waiting =>
    intro v touched new
    rw [List.mem_cons, not_or] at new
    exact mem_eraseIdx_of_ne first.at_i (progress.waiting v touched new.2) new.1
  case selected =>
    intro v mem
    cases List.mem_cons.mp mem with
    | inl same => exact same ▸ finite
    | inr old => exact progress.selected v old
  case seeds =>
    intro v c last
    obtain ⟨le, old⟩ := progress.seeds v c last
    exact ⟨le, known old⟩
  case attained => exact progress.attained
  case relaxed =>
    intro e mem src not_skip ne
    have old := (List.mem_cons.mp src).resolve_left not_skip
    have relaxed := progress.relaxed e mem old id ne
    refine ⟨relaxed.le, known relaxed.known, fun late => relaxed.fits ?_⟩
    exact late.imp_left fun new mem => new (List.mem_cons_of_mem _ mem)
  case ordered =>
    intro x x_mem v v_mem
    have out : v ∉ D ∨ v ∈ st.Assi :=
      v_mem.imp (fun new old => new (List.mem_cons_of_mem _ old)) kept
    cases List.mem_cons.mp x_mem with
    | inl same =>
        subst same
        show st.cost x ≤ st.cost v
        by_cases touched : st.cost v = INT_MAX
        · rw [touched]
          exact finite.le
        · exact first.least v (out.elim (progress.waiting v touched) id)
    | inr old => exact progress.ordered x old v out

/-! ### Relaxing one edge -/

/-- The state after the relaxation of an unused node. -/
def State.offer (st : State) (u v : Nat) (c : Int) : State :=
  { st with
    Path := if c < (st.record v).cost then st.Path.set v ⟨u, c⟩ else st.Path
    Assi := if (st.record v).cost = INT_MAX then st.Assi ++ [v] else st.Assi }

section Offer

variable {v x : Nat} {c : Int}

theorem State.offer_cost (in_path : v < st.Path.length) (x : Nat) :
    (st.offer u v c).cost x = if x = v then min (st.cost v) c else st.cost x := by
  by_cases less : c < st.cost v
  · have path : (st.offer u v c).cost x = (st.improve u v c).cost x := by
      rw [State.offer, if_pos (show c < (st.record v).cost from less)]
      rfl
    rw [path, State.improve_cost in_path, min_eq_right less.le]
  · have path : (st.offer u v c).cost x = st.cost x := by
      rw [State.offer, if_neg (show ¬ c < (st.record v).cost from less)]
      rfl
    rw [path, min_eq_left (not_lt.mp less)]
    split
    · rename_i same
      rw [same]
    · rfl

theorem State.offer_cost_self (in_path : v < st.Path.length) :
    (st.offer u v c).cost v = min (st.cost v) c := by
  rw [State.offer_cost in_path, if_pos rfl]

theorem State.offer_cost_of_ne (in_path : v < st.Path.length) (ne : x ≠ v) :
    (st.offer u v c).cost x = st.cost x := by
  rw [State.offer_cost in_path, if_neg ne]

theorem State.offer_cost_le (in_path : v < st.Path.length) (x : Nat) :
    (st.offer u v c).cost x ≤ st.cost x := by
  rw [State.offer_cost in_path]
  split
  · rename_i same
    rw [same]
    exact min_le_left _ _
  · exact le_rfl

/-- The candidates change as they do where the relaxation improves the node. -/
theorem State.mem_offer_self (waiting : st.cost v ≠ INT_MAX → v ∈ st.Assi) :
    v ∈ (st.offer u v c).Assi :=
  State.mem_improve_self (u := u) (c := c) waiting

theorem State.mem_offer (mem : x ∈ st.Assi) : x ∈ (st.offer u v c).Assi := by
  simp only [State.offer]
  split
  · exact List.mem_append_left _ mem
  · exact mem

theorem State.mem_offer_of_ne (ne : x ≠ v) : x ∈ (st.offer u v c).Assi ↔ x ∈ st.Assi :=
  State.mem_improve_of_ne (u := u) (c := c) ne

/-- A relaxation of an unused node has a meaning exactly when its sum fits. -/
theorem relax_unused {m : Int} {it : Node} (unused : st.isUsed[it.u]? = some false)
    (in_path : it.u < st.Path.length) (lower : 0 ≤ m + it.w) :
    relax u m st it =
      if m + it.w ≤ INT_MAX then some (st.offer u it.u (m + it.w)) else none := by
  have above : INT_MIN ≤ m + it.w := le_trans (by decide) lower
  by_cases fits : m + it.w ≤ INT_MAX
  · simp only [relax, unused, State.path_getElem? in_path, addInt_eq_some above fits, fits,
      store_eq_some _ in_path, State.offer, Option.bind_eq_bind, Option.bind_some,
      Bool.false_eq_true, if_false, if_true, gt_iff_lt]
    by_cases less : m + it.w < (st.record it.u).cost
    · simp only [less, if_true]
      rfl
    · simp only [less, if_false]
      rfl
  · simp [relax, unused, State.path_getElem? in_path, addInt, fits]

end Offer

/-- Once `e` is relaxed it is no longer among the edges still to be relaxed. -/
theorem Progress.done {P : List (Edge Nat Int)}
    (progress : Progress g E (fun e => e.src = u ∧ e ∉ P) D st) {e : Edge Nat Int}
    (relaxed : e.dst ≠ g.s → st.Relaxed D e) :
    Progress g E (fun e' => e'.src = u ∧ e' ∉ P ++ [e]) D st := by
  refine { progress with relaxed := fun e' mem src not_skip => ?_ }
  by_cases same : e' = e
  · exact same ▸ relaxed
  · refine progress.relaxed e' mem src fun skip => not_skip ⟨skip.1, fun done => ?_⟩
    exact (List.mem_append.mp done).elim skip.2 fun last => same (List.mem_singleton.mp last)

/-- An edge stays relaxed while its start keeps its cost and its end is not made worse. -/
theorem State.Relaxed.grow {st' : State} {e : Edge Nat Int} (relaxed : st.Relaxed D e)
    (src : st'.cost e.src = st.cost e.src) (le : st'.cost e.dst ≤ st.cost e.dst)
    (grows : e.dst ∈ st.Assi → e.dst ∈ st'.Assi) : st'.Relaxed D e := by
  constructor
  case le =>
    rw [src]
    exact le.trans relaxed.le
  case known => exact relaxed.known.imp_right grows
  case fits =>
    rw [src]
    exact fun late => relaxed.fits (late.imp_right fun less => less.trans_le le)

/-- Relaxing an unused node over an edge out of a selected one keeps the invariant. -/
theorem Progress.offer (reads : g.Reads E) (progress : Progress g E skip D st)
    {e : Edge Nat Int} (mem : e ∈ E) (src : e.src ∈ D) (unused : e.dst ∉ g.s :: D)
    (top : ∀ x ∈ D, st.cost x ≤ st.cost e.src) :
    Progress g E skip D (st.offer e.src e.dst (st.cost e.src + e.w)) := by
  have dst_lt := (reads.nodes e mem).2
  have in_path : e.dst < st.Path.length := by rwa [progress.path_len]
  obtain ⟨dst_ne, dst_new⟩ : e.dst ≠ g.s ∧ e.dst ∉ D := by rwa [List.mem_cons, not_or] at unused
  have nonneg := (reads.weights e mem).1
  have walk : FromSeeds E g.s e.dst (st.cost e.src + e.w) :=
    (progress.attained e.src (progress.selected e.src src).ne).snoc mem dst_ne
  have selected {x : Nat} (x_mem : x ∈ D) : x ≠ e.dst := fun same => dst_new (same ▸ x_mem)
  set st' := st.offer e.src e.dst (st.cost e.src + e.w) with st'_eq
  have here : st'.cost e.dst = min (st.cost e.dst) (st.cost e.src + e.w) :=
    State.offer_cost_self in_path
  have other {x : Nat} (ne : x ≠ e.dst) : st'.cost x = st.cost x :=
    State.offer_cost_of_ne in_path ne
  have le (x : Nat) : st'.cost x ≤ st.cost x := State.offer_cost_le in_path x
  have grows {x : Nat} (old : x ∈ st.Assi) : x ∈ st'.Assi := State.mem_offer old
  constructor
  case path_len =>
    rw [st'_eq, State.offer, ← progress.path_len]
    dsimp only
    split
    · exact List.length_set
    · rfl
  case used => exact progress.used
  case range =>
    intro v
    refine ⟨?_, (le v).trans (progress.range v).2⟩
    by_cases same : v = e.dst
    · rw [same, here]
      exact le_min (progress.range e.dst).1 (add_nonneg (progress.range e.src).1 nonneg)
    · rw [other same]
      exact (progress.range v).1
  case candidate =>
    intro v v_mem
    by_cases same : v = e.dst
    · rw [same]
      exact ⟨dst_lt, _, walk⟩
    · exact progress.candidate v ((State.mem_offer_of_ne same).mp v_mem)
  case waiting =>
    intro v touched new
    by_cases same : v = e.dst
    · rw [same]
      exact State.mem_offer_self fun touched => progress.waiting e.dst touched dst_new
    · rw [other same] at touched
      exact grows (progress.waiting v touched new)
  case selected => exact fun v v_mem => (le v).trans_lt (progress.selected v v_mem)
  case seeds =>
    intro v w last
    obtain ⟨below, known⟩ := progress.seeds v w last
    exact ⟨(le v).trans below, known.imp_right grows⟩
  case attained =>
    intro v touched
    by_cases same : v = e.dst
    · rw [same, here] at touched ⊢
      cases min_choice (st.cost e.dst) (st.cost e.src + e.w) with
      | inl old =>
          rw [old] at touched ⊢
          exact progress.attained e.dst touched
      | inr new =>
          rw [new]
          exact walk
    · rw [other same] at touched ⊢
      exact progress.attained v touched
  case relaxed =>
    intro e' e'_mem e'_src not_skip ne
    have relaxed := progress.relaxed e' e'_mem e'_src not_skip ne
    exact relaxed.grow (other (selected e'_src)) (le e'.dst) grows
  case ordered =>
    intro x x_mem v v_mem
    rw [other (selected x_mem)]
    by_cases same : v = e.dst
    · rw [same, here]
      apply le_min (progress.ordered x x_mem e.dst (.inl dst_new))
      exact (top x x_mem).trans (le_add_of_nonneg_right nonneg)
    · rw [other same]
      exact progress.ordered x x_mem v (v_mem.imp_right (State.mem_offer_of_ne same).mp)

/-! ### Termination -/

/-- What a round uses up: the unused nodes and, once they stay, the candidates that are used. -/
def remaining (st : State) : Nat × Nat :=
  (st.isUsed.count false, st.Assi.countP fun v => st.isUsed.getD v false)

theorem remaining_mark {used : Bool} (used_eq : st.isUsed[u]? = some used)
    (at_i : st.Assi[i]? = some u) :
    Prod.Lex (· < ·) (· < ·) (remaining (st.mark i u)) (remaining st) := by
  obtain ⟨in_used, at_u⟩ := List.getElem?_eq_some_iff.mp used_eq
  cases used with
  | false =>
      refine .left _ _ ?_
      show (st.isUsed.set u true).count false < st.isUsed.count false
      have counted : 0 < st.isUsed.count false :=
        List.count_pos_iff.mpr (at_u ▸ List.getElem_mem in_used)
      rw [List.count_set in_used, at_u]
      exact Nat.sub_lt counted Nat.one_pos
  | true =>
      have same : st.isUsed.set u true = st.isUsed := by
        rw [← at_u]
        exact List.set_getElem_self in_used
      obtain ⟨in_assi, at_i⟩ := List.getElem?_eq_some_iff.mp at_i
      have perm := List.getElem_cons_eraseIdx_perm in_assi
      rw [remaining, remaining, State.mark]
      dsimp only
      rw [same]
      refine .right _ ?_
      rw [← perm.countP_eq, List.countP_cons_of_pos]
      · exact Nat.lt_succ_self _
      · rw [at_i, List.getD_eq_getElem?_getD, used_eq]
        rfl

theorem remaining_offer {v : Nat} {c : Int} (unused : st.isUsed[v]? = some false) :
    remaining (st.offer u v c) = remaining st := by
  simp only [remaining, State.offer, Prod.mk.injEq, true_and]
  split
  · simp [List.countP_append, unused]
  · rfl

/-! ### Relaxing all edges of a node -/

/-- Relaxing an edge of a selected node, when its sum fits or its end is used. -/
theorem Progress.relax (reads : g.Reads E) {P : List (Edge Nat Int)}
    (progress : Progress g E (fun e => e.src = u ∧ e ∉ P) D st) {e : Edge Nat Int} (mem : e ∈ E)
    (src : e.src = u) (u_mem : u ∈ D) (top : ∀ x ∈ D, st.cost x ≤ st.cost u)
    (fits : e.dst ∉ g.s :: D → st.cost u + e.w ≤ INT_MAX) :
    ∃ st', relax u (st.cost u) st ⟨e.dst, e.w⟩ = some st' ∧
      Progress g E (fun e' => e'.src = u ∧ e' ∉ P ++ [e]) D st' ∧
      (∀ x ∈ D, st'.cost x = st.cost x) ∧ remaining st' = remaining st := by
  subst src
  have dst_lt := (reads.nodes e mem).2
  have in_path : e.dst < st.Path.length := by rwa [progress.path_len]
  have used := progress.used e.dst dst_lt
  have nonneg := (reads.weights e mem).1
  by_cases old : e.dst ∈ g.s :: D
  · rw [decide_eq_true old] at used
    refine ⟨st, ?_, progress.done fun ne => ?_, fun _ _ => rfl, rfl⟩
    · simp only [DijkstraCpp.relax, used, Option.bind_eq_bind, Option.bind_some, if_true]
      rfl
    · have selected := (List.mem_cons.mp old).resolve_left ne
      have below := top e.dst selected
      constructor
      case le => exact below.trans (le_add_of_nonneg_right nonneg)
      case known => exact .inl selected
      case fits =>
        exact fun late => absurd late (not_or.mpr ⟨not_not.mpr selected, not_lt.mpr below⟩)
  · rw [decide_eq_false old] at used
    have sum := fits old
    have lower : 0 ≤ st.cost e.src + e.w := add_nonneg (progress.range e.src).1 nonneg
    have other (x : Nat) (x_mem : x ∈ D) :
        (st.offer e.src e.dst (st.cost e.src + e.w)).cost x = st.cost x :=
      State.offer_cost_of_ne in_path fun same => old (same ▸ List.mem_cons_of_mem _ x_mem)
    have offered := progress.offer reads mem u_mem old top
    refine ⟨_, (relax_unused used in_path lower).trans (if_pos sum), offered.done fun _ => ?_,
      other, remaining_offer used⟩
    constructor
    case le =>
      rw [other e.src u_mem, State.offer_cost_self in_path]
      exact min_le_right _ _
    case known =>
      have new : e.dst ∉ D := fun mem => old (List.mem_cons_of_mem _ mem)
      exact .inr (State.mem_offer_self fun touched => progress.waiting e.dst touched new)
    case fits =>
      rw [other e.src u_mem]
      exact fun _ => sum

/-- Relaxing the edges out of a selected node, one after the other. -/
theorem Progress.relax_all (reads : g.Reads E) (progress : Progress g E (fun e => e.src = u) D st)
    (u_mem : u ∈ D) (top : ∀ x ∈ D, st.cost x ≤ st.cost u)
    (fits : ∀ e ∈ E, e.src = u → e.dst ∉ g.s :: D → st.cost u + e.w ≤ INT_MAX) :
    ∃ st', (rowOf E u).foldlM (DijkstraCpp.relax u (st.cost u)) st = some st' ∧
      Progress g E (fun _ => False) D st' ∧ remaining st' = remaining st := by
  have fresh : Progress g E (fun e => e.src = u ∧ e ∉ ([] : List (Edge Nat Int))) D st :=
    { progress with
      relaxed := fun e mem src not_skip =>
        progress.relaxed e mem src fun here => not_skip ⟨here, List.not_mem_nil⟩ }
  have keep : ∀ P, ∀ e ∈ E.filter (·.src = u), ∀ st₁,
      (Progress g E (fun e => e.src = u ∧ e ∉ P) D st₁ ∧
        (∀ x ∈ D, st₁.cost x = st.cost x) ∧ remaining st₁ = remaining st) →
      ∃ st₂, DijkstraCpp.relax u (st.cost u) st₁ ⟨e.dst, e.w⟩ = some st₂ ∧
        Progress g E (fun e' => e'.src = u ∧ e' ∉ P ++ [e]) D st₂ ∧
        (∀ x ∈ D, st₂.cost x = st.cost x) ∧ remaining st₂ = remaining st := by
    rintro P e out st₁ ⟨progress₁, same₁, remaining₁⟩
    obtain ⟨mem, src⟩ := List.mem_filter.mp out
    have top₁ (x : Nat) (x_mem : x ∈ D) : st₁.cost x ≤ st₁.cost u := by
      rw [same₁ x x_mem, same₁ u u_mem]
      exact top x x_mem
    have fits₁ := fits e mem (of_decide_eq_true src)
    rw [← same₁ u u_mem] at fits₁ ⊢
    obtain ⟨st₂, step, progress₂, same₂, remaining₂⟩ :=
      Progress.relax reads progress₁ mem (of_decide_eq_true src) u_mem top₁ fits₁
    exact ⟨st₂, step, progress₂, fun x x_mem => (same₂ x x_mem).trans (same₁ x x_mem),
      remaining₂.trans remaining₁⟩
  obtain ⟨st', run_eq, progress', -, remaining'⟩ :=
    Loop.foldlM_inv _ keep ⟨fresh, fun _ _ => rfl, rfl⟩
  refine ⟨st', by rw [rowOf, List.foldlM_map, run_eq], { progress' with relaxed := ?_ },
    remaining'⟩
  intro e mem src _
  exact progress'.relaxed e mem src fun skip =>
    skip.2 (List.mem_filter.mpr ⟨mem, decide_eq_true skip.1⟩)

theorem addInt_le {a b c : Int} (add : addInt a b = some c) : a + b ≤ INT_MAX := by
  unfold addInt at add
  split at add
  · rename_i fits
    exact fits.2
  · cases add

/-- A relaxation leaves the used nodes; if it has a meaning, the sum to an unused node fits. -/
theorem relax_sum {m : Int} {it : Node} {st' : State}
    (step : DijkstraCpp.relax u m st it = some st') :
    st'.isUsed = st.isUsed ∧ (st.isUsed[it.u]? = some false → m + it.w ≤ INT_MAX) := by
  simp only [DijkstraCpp.relax, Option.bind_eq_bind, Option.bind_eq_some_iff] at step
  obtain ⟨used, used_eq, rest⟩ := step
  cases used with
  | true =>
      cases rest
      exact ⟨rfl, fun unused => by rw [used_eq] at unused; cases unused⟩
  | false =>
      simp only [Bool.false_eq_true, if_false, Option.bind_eq_some_iff] at rest
      obtain ⟨r, -, cost, add, rest⟩ := rest
      refine ⟨?_, fun _ => addInt_le add⟩
      split at rest
      · rw [Option.bind_eq_some_iff] at rest
        obtain ⟨Path, -, rest⟩ := rest
        cases rest
        rfl
      · cases rest
        rfl

/-- When a row of edges has been relaxed, the sums to its unused nodes fitted. -/
theorem relax_all_sum {m : Int} {L : List Node} {st' : State}
    (run_eq : L.foldlM (DijkstraCpp.relax u m) st = some st') :
    ∀ it ∈ L, st.isUsed[it.u]? = some false → m + it.w ≤ INT_MAX := by
  induction L generalizing st with
  | nil => exact fun it mem => absurd mem List.not_mem_nil
  | cons first L ih =>
      rw [List.foldlM_cons, Option.bind_eq_bind, Option.bind_eq_some_iff] at run_eq
      obtain ⟨st₁, step, run_eq⟩ := run_eq
      obtain ⟨same, sum⟩ := relax_sum step
      intro it mem unused
      cases List.mem_cons.mp mem with
      | inl here =>
          subst here
          exact sum unused
      | inr later => exact ih run_eq it later (same.symm ▸ unused)

/-! ### Rounds -/

/-- A round with a candidate below `INT_MAX` and sums that fit has a meaning and keeps the
invariant. -/
theorem round_of_first (reads : g.Reads E) (progress : Progress g E (fun _ => False) D st)
    (select_eq : select st.Path st.Assi = some (st.cost u, some i)) (first : st.First i u)
    (finite : st.cost u < INT_MAX)
    (fits : ∀ e ∈ E, e.src = u → e.dst ∉ g.s :: u :: D → st.cost u + e.w ≤ INT_MAX) :
    ∃ st', round g st = some st' ∧ Progress g E (fun _ => False) (u :: D) st' ∧
      Prod.Lex (· < ·) (· < ·) (remaining st') (remaining st) := by
  have u_mem : u ∈ st.Assi := List.mem_of_getElem? first.at_i
  have marked := progress.mark first finite
  have top (x : Nat) (mem : x ∈ u :: D) : (st.mark i u).cost x ≤ st.cost u := by
    cases List.mem_cons.mp mem with
    | inl same => exact same ▸ le_rfl
    | inr old => exact progress.ordered x old u (.inr u_mem)
  obtain ⟨st', run_eq, progress', same⟩ := marked.relax_all reads List.mem_cons_self top fits
  refine ⟨st', (round_eq reads progress select_eq first.at_i).trans run_eq, progress', ?_⟩
  rw [same]
  exact remaining_mark (progress.used u (progress.candidate u u_mem).1) first.at_i

/-- A round that has a meaning found a candidate below `INT_MAX`, and its sums fitted. -/
theorem first_of_round (reads : g.Reads E) (progress : Progress g E (fun _ => False) D st)
    {st' : State} (step : round g st = some st') :
    ∃ i u, select st.Path st.Assi = some (st.cost u, some i) ∧ st.First i u ∧
      st.cost u < INT_MAX ∧
      ∀ e ∈ E, e.src = u → e.dst ∉ g.s :: u :: D → st.cost u + e.w ≤ INT_MAX := by
  cases select_first progress.inside with
  | inl unassigned =>
      simp only [round, unassigned.1, Option.bind_eq_bind, Option.bind_some, Option.bind_none]
        at step
      cases step
  | inr assigned =>
      obtain ⟨i, u, select_eq, first, finite⟩ := assigned
      refine ⟨i, u, select_eq, first, finite, fun e mem src unused => ?_⟩
      rw [round_eq reads progress select_eq first.at_i] at step
      have in_row : (⟨e.dst, e.w⟩ : Node) ∈ rowOf E u :=
        List.mem_map.mpr ⟨e, List.mem_filter.mpr ⟨mem, decide_eq_true src⟩, rfl⟩
      refine relax_all_sum step _ in_row ?_
      have marked := (progress.mark first finite).used e.dst (reads.nodes e mem).2
      rwa [decide_eq_false unused] at marked

end Round

/-! ### The result -/

section Result

variable {g : Input} {E : List (Edge Nat Int)} {D : List Nat} {st : State}

/-- A round that has a meaning keeps the invariant and uses something up. -/
theorem round_progress (reads : g.Reads E) (progress : Progress g E (fun _ => False) D st)
    {st' : State} (step : round g st = some st') :
    ∃ D', Progress g E (fun _ => False) D' st' ∧
      Prod.Lex (· < ·) (· < ·) (remaining st') (remaining st) := by
  obtain ⟨i, u, select_eq, first, finite, fits⟩ := first_of_round reads progress step
  obtain ⟨st₁, step₁, progress₁, smaller⟩ :=
    round_of_first reads progress select_eq first finite fits
  rw [step, Option.some.injEq] at step₁
  subst step₁
  exact ⟨u :: D, progress₁, smaller⟩

theorem Before.progress (reads : g.Reads E) (before : Before g st) :
    ∃ D, Progress g E (fun _ => False) D st := by
  obtain ⟨st₀, start_eq, reached⟩ := before
  obtain ⟨st₁, start_eq₁, progress₁⟩ := start_progress reads
  rw [start_eq, Option.some.injEq] at start_eq₁
  subst start_eq₁
  refine reached.inv (fun st => ∃ D, Progress g E (fun _ => False) D st) ⟨[], progress₁⟩ ?_
  rintro t t' ⟨D, progress⟩ _ step
  obtain ⟨D', progress', -⟩ := round_progress reads progress step
  exact ⟨D', progress'⟩

/-- A round that has a meaning meets the condition on ties. -/
theorem tiesInRange_of_round (reads : g.Reads E) (progress : Progress g E (fun _ => False) D st)
    {st' : State} (step : round g st = some st') : TiesInRange g E st := by
  intro i u first e mem src ne unused _
  obtain ⟨j, v, -, first', -, fits⟩ := first_of_round reads progress step
  obtain ⟨-, rfl⟩ := first.unique first'
  apply fits e mem src
  rw [progress.used e.dst (reads.nodes e mem).2, Option.some.injEq, decide_eq_false_iff_not]
    at unused
  simp only [List.mem_cons, not_or] at unused ⊢
  exact ⟨unused.1, ne, unused.2⟩

/-- Under the condition a round has a meaning. -/
theorem round_ne_none (reads : g.Reads E) (progress : Progress g E (fun _ => False) D st)
    (go : st.Assi ≠ []) (inRange : InRange E g.s) (ties : TiesInRange g E st) :
    round g st ≠ none := by
  have weights (e : Edge Nat Int) (mem : e ∈ E) : 0 ≤ e.w := (reads.weights e mem).1
  have finite : ∃ x ∈ st.Assi, st.cost x < INT_MAX := by
    obtain ⟨x, mem⟩ := List.exists_mem_of_ne_nil _ go
    by_cases old : x ∈ D
    · exact ⟨x, mem, progress.selected x old⟩
    · obtain ⟨c, walk⟩ := (progress.candidate x mem).2
      obtain ⟨c', nearest⟩ := FromSeeds.exists_nearest weights walk
      obtain ⟨y, -, waits, le⟩ := (progress.frontier reads nearest.1).2 old
      exact ⟨y, waits, le.trans_lt (inRange.nodes x c' nearest)⟩
  cases select_first progress.inside with
  | inl unassigned =>
      obtain ⟨x, mem, below⟩ := finite
      exact absurd below (not_lt.mpr (unassigned.2 x mem))
  | inr assigned =>
      obtain ⟨i, u, select_eq, first, below⟩ := assigned
      have near_u := progress.first_nearest reads first below
      have fits : ∀ e ∈ E, e.src = u → e.dst ∉ g.s :: u :: D → st.cost u + e.w ≤ INT_MAX := by
        intro e mem src new
        simp only [List.mem_cons, not_or] at new
        obtain ⟨ne_s, ne_u, dst_new⟩ := new
        subst src
        obtain ⟨c, near_dst⟩ := FromSeeds.exists_nearest weights (near_u.1.snoc mem ne_s)
        -- Either the end is further than the start, or it is a tie.
        cases (progress.first_le reads first dst_new near_dst.1).lt_or_eq with
        | inl further => exact inRange.sums e mem ne_s _ c near_u near_dst further
        | inr tie =>
            have used := progress.used e.dst (reads.nodes e mem).2
            rw [decide_eq_false (by simp only [List.mem_cons, not_or]; exact ⟨ne_s, dst_new⟩)]
              at used
            exact ties i e.src first e mem rfl ne_u used (tie ▸ near_dst)
      obtain ⟨st', step, -⟩ := round_of_first reads progress select_eq first below fits
      rw [step]
      exact Option.some_ne_none st'

/-- When the loop has ended, the distances are known to be in range. -/
theorem Progress.inRange (reads : g.Reads E) (progress : Progress g E (fun _ => False) D st)
    (empty : st.Assi = []) : InRange E g.s := by
  have settled {v : Nat} {c : Int} (near : Nearest E g.s v c) : v ∈ D ∧ st.cost v = c := by
    have bounds := progress.frontier reads near.1
    by_cases mem : v ∈ D
    · have attained := progress.attained v (progress.selected v mem).ne
      exact ⟨mem, le_antisymm (bounds.1 mem) (near.2 attained)⟩
    · obtain ⟨x, -, waits, -⟩ := bounds.2 mem
      rw [empty] at waits
      cases waits
  constructor
  case nodes =>
    intro v c near
    obtain ⟨mem, rfl⟩ := settled near
    exact progress.selected v mem
  case sums =>
    intro e mem ne c c' near near' further
    obtain ⟨src_mem, rfl⟩ := settled near
    obtain ⟨-, rfl⟩ := settled near'
    exact (progress.relaxed e mem src_mem id ne).fits (.inr further)

/-- The loop comes to a state in which it ends, or whose round has no meaning. -/
theorem exists_last_round (reads : g.Reads E) :
    ∃ st, Before g st ∧ (st.Assi = [] ∨ round g st = none) := by
  obtain ⟨st₀, start_eq, progress₀⟩ := start_progress reads
  have wf : WellFounded (Prod.Lex (· < ·) (· < ·) : Nat × Nat → Nat × Nat → Prop) :=
    WellFounded.prod_lex wellFounded_lt wellFounded_lt
  obtain ⟨st, reached, last⟩ := Loop.exists_last wf
    (fun st => ∃ D, Progress g E (fun _ => False) D st) remaining
    (fun st st' inv (_ : (!st.Assi.isEmpty) = true) (step : round g st = some st') => by
      obtain ⟨D, progress⟩ := inv
      obtain ⟨D', progress', smaller⟩ := round_progress reads progress step
      exact ⟨⟨D', progress'⟩, smaller⟩) ⟨[], progress₀⟩
  exact ⟨st, ⟨st₀, start_eq, reached⟩, last.imp_left fun stop => by simpa using stop⟩

/-- The rounds have a meaning up to the end of the loop exactly under the condition. -/
theorem rounds_iff (reads : g.Reads E) :
    (∀ st, Before g st → st.Assi ≠ [] → round g st ≠ none) ↔
      InRange E g.s ∧ ∀ st, Before g st → TiesInRange g E st := by
  constructor
  · intro meant
    constructor
    · obtain ⟨st, before, last⟩ := exists_last_round reads
      have empty : st.Assi = [] := by
        by_contra go
        exact meant st before go (last.resolve_left go)
      obtain ⟨D, progress⟩ := before.progress reads
      exact progress.inRange reads empty
    · intro st before i u first
      obtain ⟨D, progress⟩ := before.progress reads
      have go : st.Assi ≠ [] := List.ne_nil_of_mem (List.mem_of_getElem? first.at_i)
      cases step : round g st with
      | none => exact absurd step (meant st before go)
      | some st' => exact tiesInRange_of_round reads progress step i u first
  · rintro ⟨inRange, ties⟩ st before go
    obtain ⟨D, progress⟩ := before.progress reads
    exact round_ne_none reads progress go inRange (ties st before)

end Result

/-- `Dijkstra` on any graph with valid node numbers and non-negative `int` weights. Nothing else
being undefined there, the program has a meaning in every round just when each round assigns `It`
and no sum `minCost + it->w` overflows. That is so exactly when the distances and the sums along
edges that lead away from the source are in range, and, before each round, the sums to unused
nodes at the distance of the node the round selects. -/
theorem main_safe_iff (n s : Nat) (E : List (Edge Nat Int)) (source : s < n)
    (nodes : ∀ e ∈ E, e.src < n ∧ e.dst < n) (weights : ∀ e ∈ E, 0 ≤ e.w ∧ e.w ≤ INT_MAX) :
    (∀ fuel, main fuel (dataFile n s E) ≠ .fault) ↔
      InRange E s ∧ ∀ st, Before ⟨n, s, (List.range n).map (rowOf E)⟩ st →
        TiesInRange ⟨n, s, (List.range n).map (rowOf E)⟩ E st := by
  set g : Input := ⟨n, s, (List.range n).map (rowOf E)⟩
  have reads : g.Reads E :=
    { source := source
      nodes := nodes
      weights := weights
      row := fun u u_lt => by
        rw [List.getElem?_map, List.getElem?_range u_lt, Option.map_some] }
  obtain ⟨st₀, start_eq, -⟩ := start_progress reads
  have runs (fuel : Nat) := main_dataFile fuel (fun e mem => (nodes e mem).1) start_eq
  simp only [runs]
  rw [Loop.run_ne_fault_iff]
  refine Iff.trans ?_ (rounds_iff reads)
  constructor
  · rintro meant st ⟨st₁, start_eq₁, reached⟩ go
    rw [start_eq, Option.some.injEq] at start_eq₁
    subst start_eq₁
    exact meant st reached (by simpa using go)
  · intro meant st reached go
    exact meant st ⟨st₀, start_eq, reached⟩ (by simpa using go)

theorem main_safe_iff_path :
    (∀ fuel, main fuel (dataFile 3 0 [⟨0, 1, 2147483000⟩, ⟨1, 2, 647⟩]) ≠ .fault) ↔
      InRange [⟨0, 1, 2147483000⟩, ⟨1, 2, 647⟩] 0 ∧
        ∀ st, Before ⟨3, 0, (List.range 3).map (rowOf [⟨0, 1, 2147483000⟩, ⟨1, 2, 647⟩])⟩ st →
          TiesInRange ⟨3, 0, (List.range 3).map (rowOf [⟨0, 1, 2147483000⟩, ⟨1, 2, 647⟩])⟩
            [⟨0, 1, 2147483000⟩, ⟨1, 2, 647⟩] st :=
  main_safe_iff 3 0 [⟨0, 1, 2147483000⟩, ⟨1, 2, 647⟩] (by decide) (by decide) (by decide)

/-- An edge of weight `INT_MAX` out of the source makes the sentinel the only cost. -/
theorem not_main_safe : ¬ ∀ (n s : Nat) (E : List (Edge Nat Int)), s < n →
    (∀ e ∈ E, e.src < n ∧ e.dst < n) → (∀ e ∈ E, 0 ≤ e.w ∧ e.w ≤ INT_MAX) →
      ∀ fuel, main fuel (dataFile n s E) ≠ .fault := by
  intro safe
  refine safe 2 0 [⟨0, 1, 2147483647⟩] (by decide) (by decide) (by decide) 1 ?_
  decide

/-- A sum that overflows in the second round. -/
example : main 2 (dataFile 3 0 [⟨0, 1, 2147483647 - 1⟩, ⟨1, 2, 2⟩]) = .fault := by decide

end CFunc.DijkstraCpp
