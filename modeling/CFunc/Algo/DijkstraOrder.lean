import CFunc.Algo.DijkstraSeeds
import Mathlib.Data.List.Sort

/-!
`Dijkstra.cpp` and the order of the lines of `data.txt`.

Only the seeds depend on the order: for each node the last edge from the
source. The heaviest edges come last in the ascending order and the lightest in
the descending one, so the answer is the same in every order if and only if it
is the same in these two (`order_free_iff`).
-/

namespace CFunc.DijkstraCpp

open CFunc.Lib CFunc.Lib.Graph

/-- The edges that are left when of parallel edges out of `s` only the heaviest are kept. -/
def heaviest (s : Nat) (E : List (Edge Nat Int)) : List (Edge Nat Int) :=
  E.filter fun e =>
    decide (e.src ≠ s ∨ ∀ e' ∈ E, e'.src = s → e'.dst = e.dst → e'.w ≤ e.w)

/-- The source has a self-loop and no self-loop with a weight, or its lighter parallel edges
make no way shorter. -/
def OrderFree (s : Nat) (E : List (Edge Nat Int)) : Prop :=
  ((∃ l ∈ E, l.src = s ∧ l.dst = s) ∧ ∀ l ∈ E, l.src = s → l.dst = s → l.w = 0) ∨
    ∀ e ∈ E, e.src = s → e.dst ≠ s →
      ∃ visited, ∃ c ≤ e.w, Walk (heaviest s E) s e.dst visited c

/-- Both lists of edges come to an end in `main`, with the same costs but for the source's. -/
def SameCosts (n s : Nat) (E E' : List (Edge Nat Int)) : Prop :=
  ∃ rounds st st', (∀ fuel, rounds ≤ fuel → main fuel (dataFile n s E) = .done st ∧
      main fuel (dataFile n s E') = .done st') ∧
    ∀ v < n, v ≠ s → ∃ r r', st.Path[v]? = some r ∧ st'.Path[v]? = some r' ∧ r.cost = r'.cost

section Facts

variable {E E' : List (Edge Nat Int)} {s v : Nat} {c : Int}

theorem mem_heaviest {e : Edge Nat Int} : e ∈ heaviest s E ↔
    e ∈ E ∧ (e.src = s → ∀ e' ∈ E, e'.src = s → e'.dst = e.dst → e'.w ≤ e.w) := by
  rw [heaviest, List.mem_filter, decide_eq_true_iff, ← imp_iff_not_or]

theorem heaviest_sub {e : Edge Nat Int} (mem : e ∈ heaviest s E) : e ∈ E := (mem_heaviest.mp mem).1

/-- Only which edges there are matters. -/
theorem OrderFree.perm (perm : E'.Perm E) (free : OrderFree s E) : OrderFree s E' := by
  have same (e : Edge Nat Int) : e ∈ heaviest s E → e ∈ heaviest s E' := by
    rw [mem_heaviest, mem_heaviest]
    rintro ⟨mem, top⟩
    exact ⟨perm.mem_iff.mpr mem, fun src e' mem' => top src e' (perm.mem_iff.mp mem')⟩
  rcases free with ⟨⟨l, mem, loop⟩, zero⟩ | out
  · exact .inl ⟨⟨l, perm.mem_iff.mpr mem, loop⟩, fun l mem => zero l (perm.mem_iff.mp mem)⟩
  · refine .inr fun e mem src ne => ?_
    obtain ⟨visited, c, le, walk⟩ := out e (perm.mem_iff.mp mem) src ne
    exact ⟨visited, c, le, walk.mono same⟩

/-! ### The condition is enough -/

/-- The last edge to a node is no heavier than a heaviest one. -/
theorem fromSeeds_of_heaviest {e : Edge Nat Int} (mem : e ∈ heaviest s E) (src : e.src = s) :
    ∃ c ≤ e.w, FromSeeds E s e.dst c := by
  obtain ⟨inside, top⟩ := mem_heaviest.mp mem
  obtain ⟨c, last⟩ := lastOut_ne_none inside src rfl
  obtain ⟨e', mem', src', dst', weight⟩ := exists_of_lastOut last
  exact ⟨c, weight ▸ top src e' mem' src' dst', .start last⟩

theorem OrderFree.out (free : OrderFree s E) (nonneg : ∀ e ∈ E, 0 ≤ e.w) {e : Edge Nat Int}
    (mem : e ∈ E) (src : e.src = s) (ne : e.dst ≠ s) : ∃ c ≤ e.w, FromSeeds E s e.dst c := by
  rcases free with ⟨⟨l, l_mem, l_src, l_dst⟩, zero⟩ | out
  · obtain ⟨c, last⟩ := lastOut_ne_none l_mem l_src l_dst
    obtain ⟨l', l'_mem, l'_src, l'_dst, weight⟩ := exists_of_lastOut last
    have at_source : FromSeeds E s e.src c := by
      rw [src]
      exact .start last
    rw [← weight, zero l' l'_mem l'_src l'_dst] at at_source
    exact ⟨0 + e.w, (zero_add e.w).le, at_source.snoc mem ne⟩
  · obtain ⟨visited, c, le, walk⟩ := out e mem src ne
    obtain ⟨c', le', seeded⟩ := (walk.exists_seeded (fun e mem => nonneg e (heaviest_sub mem))
      (fun e => heaviest_sub) fun e mem src _ => fromSeeds_of_heaviest mem src).2 ne
    exact ⟨c', le'.trans le, seeded⟩

/-- The least weights from the seeds are the distances from the source. -/
theorem OrderFree.distance {S : Nat → Prop} {d : Nat → Int} (free : OrderFree s E)
    (nonneg : ∀ e ∈ E, 0 ≤ e.w)
    (labelled : Labelled E s (fun v c => lastOut E s v = some c) S d) (ne : v ≠ s) :
    (S v ↔ ∃ visited c, Walk E s v visited c) ∧
      (S v → IsLeast {c | ∃ visited, Walk E s v visited c} (d v)) := by
  have lighter {visited : List Nat} {c : Int} (walk : Walk E s v visited c) :
      ∃ c' ≤ c, FromSeeds E s v c' :=
    (walk.exists_seeded nonneg (fun _ => id) fun e mem src ne => free.out nonneg mem src ne).2 ne
  constructor
  · rw [labelled.mem_iff]
    constructor
    · rintro ⟨c, seeded⟩
      obtain ⟨visited, walk⟩ := walk_of_fromSeeds seeded
      exact ⟨visited, c, walk⟩
    · rintro ⟨visited, c, walk⟩
      obtain ⟨c', -, seeded⟩ := lighter walk
      exact ⟨c', seeded⟩
  · intro inside
    obtain ⟨seeded, least⟩ := labelled.isLeast inside
    refine ⟨walk_of_fromSeeds seeded, ?_⟩
    rintro c ⟨visited, walk⟩
    obtain ⟨c', le, seeded⟩ := lighter walk
    exact (least seeded).trans le

/-! ### The condition is needed -/

/-- In a sorted list the last edge compares with every other one to the same node. -/
theorem lastOut_sorted {R : Edge Nat Int → Edge Nat Int → Prop} [Std.Refl R]
    (sorted : E.Pairwise R) (last : lastOut E s v = some c) {e : Edge Nat Int} (mem : e ∈ E)
    (src : e.src = s) (dst : e.dst = v) : ∃ e', R e e' ∧ e'.w = c := by
  rw [lastOut, Option.map_eq_some_iff] at last
  obtain ⟨e', last, weight⟩ := last
  have inside : e ∈ (E.filter (·.src = s)).filter (·.dst = v) := by
    simp only [List.mem_filter, decide_eq_true_eq]
    exact ⟨⟨mem, src⟩, dst⟩
  have compared := ((sorted.filter _).filter _).rel_getLast inside
  rw [List.getLast?_eq_getLast_of_ne_nil (List.ne_nil_of_mem inside)] at last
  cases last
  exact ⟨_, compared, weight⟩

/-- The order of the weights. -/
def Lighter (a b : Edge Nat Int) : Prop := a.w ≤ b.w

instance : DecidableRel Lighter := fun a b => inferInstanceAs (Decidable (a.w ≤ b.w))

instance : Std.Refl Lighter := ⟨fun e => le_refl e.w⟩

instance : Std.Refl (Function.swap Lighter) := ⟨fun e => le_refl e.w⟩

/-- Heaviest last. -/
def ascending (E : List (Edge Nat Int)) : List (Edge Nat Int) := E.insertionSort Lighter

/-- Lightest last. -/
def descending (E : List (Edge Nat Int)) : List (Edge Nat Int) := (ascending E).reverse

theorem ascending_perm (E : List (Edge Nat Int)) : (ascending E).Perm E :=
  List.perm_insertionSort Lighter E

theorem descending_perm (E : List (Edge Nat Int)) : (descending E).Perm E :=
  (List.reverse_perm _).trans (ascending_perm E)

theorem ascending_sorted (E : List (Edge Nat Int)) : (ascending E).Pairwise Lighter := by
  have total : Std.Total Lighter := ⟨fun a b => le_total a.w b.w⟩
  have trans : IsTrans _ Lighter :=
    ⟨fun a b _ first second => le_trans (show a.w ≤ b.w from first) second⟩
  exact List.pairwise_insertionSort Lighter E

theorem descending_sorted (E : List (Edge Nat Int)) :
    (descending E).Pairwise (Function.swap Lighter) :=
  List.pairwise_reverse.mpr (ascending_sorted E)

/-- With the heaviest edges last, a walk from the seeds that weighs no more than `bound` is no
lighter than one over heaviest edges: this is so of the edges out of the source lighter than
`bound`, which such a walk takes where it starts with a self-loop. -/
theorem heaviest_of_fromSeeds (nonneg : ∀ e ∈ E, 0 ≤ e.w)
    (weighted : ∀ c, lastOut (ascending E) s s = some c → 0 < c) (bound : Int)
    (shorter : ∀ e ∈ E, e.src = s → e.dst ≠ s → e.w < bound →
      ∃ visited, ∃ c ≤ e.w, Walk (heaviest s E) s e.dst visited c)
    (seeded : FromSeeds (ascending E) s v c) (le : c ≤ bound) (ne : v ≠ s) :
    ∃ visited, ∃ c' ≤ c, Walk (heaviest s E) s v visited c' := by
  induction seeded with
  | @start v c last =>
      obtain ⟨e, mem, src, dst, weight⟩ := exists_of_lastOut last
      have top : e ∈ heaviest s E := by
        refine mem_heaviest.mpr ⟨(ascending_perm E).mem_iff.mp mem, fun _ e' mem' src' dst' => ?_⟩
        obtain ⟨e'', lighter, weight'⟩ := lastOut_sorted (ascending_sorted E) last
          ((ascending_perm E).mem_iff.mpr mem') src' (dst'.trans dst)
        have compared : e'.w ≤ e''.w := lighter
        omega
      have walk := Walk.snoc (.nil : Walk (heaviest s E) e.src e.src [e.src] 0) top
      rw [src, dst, zero_add, weight] at walk
      exact ⟨_, c, le_rfl, walk⟩
  | @snoc c e before mem dst_ne ih =>
      have mem' := (ascending_perm E).mem_iff.mp mem
      have lower := nonneg e mem'
      by_cases at_source : e.src = s
      · have positive : 0 < c := by
          rw [at_source] at before
          cases before with
          | start last => exact weighted c last
          | snoc _ _ back => exact absurd rfl back
        obtain ⟨visited, c', lighter, walk⟩ := shorter e mem' at_source ne (by omega)
        exact ⟨visited, c', by omega, walk⟩
      · obtain ⟨visited, c', lighter, walk⟩ := ih (by omega) at_source
        have top : e ∈ heaviest s E :=
          mem_heaviest.mpr ⟨mem', fun src => absurd src at_source⟩
        exact ⟨_, c' + e.w, by omega, walk.snoc top⟩

/-- Where the edges out of the source cost no more than they weigh with the heaviest edges last,
the condition holds. -/
theorem orderFree_of_ascending (nonneg : ∀ e ∈ E, 0 ≤ e.w)
    (out : ∀ e ∈ E, e.src = s → e.dst ≠ s → ∃ c ≤ e.w, FromSeeds (ascending E) s e.dst c) :
    OrderFree s E := by
  by_cases free : (∃ l ∈ E, l.src = s ∧ l.dst = s) ∧ ∀ l ∈ E, l.src = s → l.dst = s → l.w = 0
  · exact .inl free
  · have weighted (c : Int) (last : lastOut (ascending E) s s = some c) : 0 < c := by
      obtain ⟨l, l_mem, l_src, l_dst, weight⟩ := exists_of_lastOut last
      have l_mem := (ascending_perm E).mem_iff.mp l_mem
      have lower := nonneg l l_mem
      by_contra zero
      refine free ⟨⟨l, l_mem, l_src, l_dst⟩, fun l' l'_mem l'_src l'_dst => ?_⟩
      obtain ⟨l'', lighter, weight'⟩ := lastOut_sorted (ascending_sorted E) last
        ((ascending_perm E).mem_iff.mpr l'_mem) l'_src l'_dst
      have compared : l'.w ≤ l''.w := lighter
      have lower' := nonneg l' l'_mem
      omega
    -- by the weight of the edge: a walk that starts with a self-loop takes a lighter one
    have bounded (k : Nat) : ∀ e ∈ E, e.w.toNat = k → e.src = s → e.dst ≠ s →
        ∃ visited, ∃ c ≤ e.w, Walk (heaviest s E) s e.dst visited c := by
      induction k using Nat.strong_induction_on with
      | _ k ih =>
          intro e mem weight src ne
          have lower := nonneg e mem
          obtain ⟨c, le, seeded⟩ := out e mem src ne
          obtain ⟨visited, c', le', walk⟩ := heaviest_of_fromSeeds nonneg weighted e.w
            (fun e' mem' src' ne' lighter =>
              ih e'.w.toNat (by have := nonneg e' mem'; omega) e' mem' rfl src' ne') seeded le ne
          exact ⟨visited, c', le'.trans le, walk⟩
    exact .inr fun e mem src ne => bounded e.w.toNat e mem rfl src ne

end Facts

/-! ### The result -/

section Result

variable {n s : Nat} {E : List (Edge Nat Int)}

/-- `main` on any order of the edges. -/
theorem main_order {E' : List (Edge Nat Int)} (source : s < n)
    (nodes : ∀ e ∈ E, e.src < n ∧ e.dst < n) (nonneg : ∀ e ∈ E, 0 ≤ e.w)
    (total : (E.map (·.w)).sum < INT_MAX) (perm : E'.Perm E) :
    ∃ st, (∀ fuel, n + E.length ≤ fuel → main fuel (dataFile n s E') = .done st) ∧
      st.Path.length = n ∧
      Labelled E' s (fun v c => lastOut E' s v = some c) (fun v => st.cost v ≠ INT_MAX)
        st.cost := by
  rw [← perm.length_eq]
  refine main_seeded n s E' source (fun e mem => nodes e (perm.mem_iff.mp mem))
    (fun e mem => nonneg e (perm.mem_iff.mp mem)) ?_
  rw [(perm.map _).sum_eq]
  exact total

theorem State.cost_of_getElem? {st : State} {v : Nat} {r : Record} (at_v : st.Path[v]? = some r) :
    st.cost v = r.cost := by
  rw [State.cost, State.record, List.getD_eq_getElem?_getD, at_v, Option.getD_some]

/-- Under the condition two orders give the same costs. -/
theorem OrderFree.sameCosts {E' : List (Edge Nat Int)} (free : OrderFree s E) (source : s < n)
    (nodes : ∀ e ∈ E, e.src < n ∧ e.dst < n) (nonneg : ∀ e ∈ E, 0 ≤ e.w)
    (total : (E.map (·.w)).sum < INT_MAX) (perm : E'.Perm E) : SameCosts n s E E' := by
  obtain ⟨st, run, len, labelled⟩ := main_order source nodes nonneg total (List.Perm.refl E)
  obtain ⟨st', run', len', labelled'⟩ := main_order source nodes nonneg total perm
  refine ⟨n + E.length, st, st', fun fuel le => ⟨run fuel le, run' fuel le⟩, fun v lt ne => ?_⟩
  have walks (visited : List Nat) (c : Int) : Walk E' s v visited c ↔ Walk E s v visited c :=
    ⟨Walk.mono fun _ => perm.mem_iff.mp, Walk.mono fun _ => perm.mem_iff.mpr⟩
  obtain ⟨reached, least⟩ := free.distance nonneg labelled ne
  obtain ⟨reached', least'⟩ := (free.perm perm).distance
    (fun e mem => nonneg e (perm.mem_iff.mp mem)) labelled' ne
  simp only [walks] at reached' least'
  have same : st.cost v = st'.cost v := by
    by_cases touched : st.cost v = INT_MAX
    · have untouched : ¬ st'.cost v ≠ INT_MAX := fun touched' =>
        reached.mpr (reached'.mp touched') touched
      rw [touched, not_not.mp untouched]
    · exact (least touched).unique (least' (reached'.mpr (reached.mp touched)))
  exact ⟨_, _, State.path_getElem? (by omega), State.path_getElem? (by omega), same⟩

/-- The costs do not depend on the order of the edges if and only if the graph is `OrderFree`. -/
theorem order_free_iff (n s : Nat) (E : List (Edge Nat Int)) (source : s < n)
    (nodes : ∀ e ∈ E, e.src < n ∧ e.dst < n) (nonneg : ∀ e ∈ E, 0 ≤ e.w)
    (total : (E.map (·.w)).sum < INT_MAX) :
    (∀ E', E'.Perm E → SameCosts n s E E') ↔ OrderFree s E := by
  constructor
  · intro same
    apply orderFree_of_ascending nonneg
    intro e mem src ne
    obtain ⟨up, run_up, -, labelled_up⟩ := main_order source nodes nonneg total (ascending_perm E)
    obtain ⟨down, run_down, -, labelled_down⟩ :=
      main_order source nodes nonneg total (descending_perm E)
    -- both orders cost what the given one does
    obtain ⟨k, first, up', runs_up, costs_up⟩ := same _ (ascending_perm E)
    obtain ⟨k', first', down', runs_down, costs_down⟩ := same _ (descending_perm E)
    have late : n + E.length ≤ n + E.length + k + k' := by omega
    have runs_up := runs_up (n + E.length + k + k') (by omega)
    have runs_down := runs_down (n + E.length + k + k') (by omega)
    rw [run_up _ late] at runs_up
    rw [run_down _ late, runs_up.1] at runs_down
    cases runs_up.2
    cases runs_down.1
    cases runs_down.2
    obtain ⟨r, r_up, at_first, at_up, cost_up⟩ := costs_up e.dst (nodes e mem).2 ne
    obtain ⟨r', r_down, at_first', at_down, cost_down⟩ := costs_down e.dst (nodes e mem).2 ne
    have same_cost : up.cost e.dst = down.cost e.dst := by
      rw [at_first] at at_first'
      cases at_first'
      rw [State.cost_of_getElem? at_up, State.cost_of_getElem? at_down, ← cost_up, cost_down]
    have mem_down := (descending_perm E).mem_iff.mpr mem
    obtain ⟨c, last⟩ := lastOut_ne_none mem_down src rfl
    obtain ⟨e', lighter, weight⟩ := lastOut_sorted (descending_sorted E) last mem_down src rfl
    have compared : e'.w ≤ e.w := lighter
    obtain ⟨touched, le⟩ := labelled_down.seeds _ _ last
    rw [← same_cost] at touched le
    exact ⟨up.cost e.dst, by omega, labelled_up.attained e.dst touched⟩
  · intro free E' perm
    exact free.sameCosts source nodes nonneg total perm

/-- Parallel edges to node 2 that are no shorter than the way over node 1. -/
def detour : List (Edge Nat Int) := [⟨0, 1, 1⟩, ⟨1, 2, 1⟩, ⟨0, 2, 2⟩, ⟨0, 2, 5⟩]

theorem order_free_iff_sample :
    (∀ E', E'.Perm detour → SameCosts 3 0 detour E') ↔ OrderFree 0 detour :=
  order_free_iff 3 0 detour (by decide) (by decide) (by decide) (by decide)

/-- Of two parallel edges the last one counts. -/
theorem parallel_not_sameCosts :
    ¬ ∀ (n s : Nat) (E E' : List (Edge Nat Int)), s < n → (∀ e ∈ E, e.src < n ∧ e.dst < n) →
      (∀ e ∈ E, 0 ≤ e.w) → (E.map (·.w)).sum < INT_MAX → E'.Perm E → SameCosts n s E E' := by
  intro always
  obtain ⟨k, st, st', runs, costs⟩ := always 2 0 [⟨0, 1, 1⟩, ⟨0, 1, 2⟩] [⟨0, 1, 2⟩, ⟨0, 1, 1⟩]
    (by decide) (by decide) (by decide) (by decide) (by decide)
  have two : main (k + 2) (dataFile 2 0 [⟨0, 1, 1⟩, ⟨0, 1, 2⟩]) =
      .done ⟨[true, true], [], [⟨0, INT_MAX⟩, ⟨0, 2⟩]⟩ := by cases k <;> rfl
  have one : main (k + 2) (dataFile 2 0 [⟨0, 1, 2⟩, ⟨0, 1, 1⟩]) =
      .done ⟨[true, true], [], [⟨0, INT_MAX⟩, ⟨0, 1⟩]⟩ := by cases k <;> rfl
  have both := runs (k + 2) (by omega)
  rw [two, one] at both
  cases both.1
  cases both.2
  obtain ⟨r, r', at_two, at_one, same⟩ := costs 1 (by decide) (by decide)
  cases at_two
  cases at_one
  exact absurd same (by decide)

end Result

end CFunc.DijkstraCpp
