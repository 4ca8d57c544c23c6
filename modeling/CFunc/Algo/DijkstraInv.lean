import CFunc.Algo.Dijkstra
import CFunc.Lib.Graph
import Mathlib

/-!
The loop invariant of `Dijkstra` and its preservation by one round.

`Inv g E D skip st` describes the state `st` when the nodes of `D`, in order,
have been selected: `D` holds the used nodes, `Assi` holds each touched unused
node once, and every edge out of `D` except those of `skip` has been relaxed.
Costs of touched nodes stay at or below the total weight of the edges leaving
`D`; this keeps every sum of the relaxation below `INT_MAX`, so a touched node
is never mistaken for an untouched one.
-/

namespace CFunc.DijkstraCpp

open CFunc.Lib.Graph (Edge)

/-! ### Reading states -/

/-- The record of node `v`, the initial one outside the vector. -/
def State.record (st : State) (v : Nat) : Record := st.Path.getD v ⟨v, INT_MAX⟩

/-- The distance of `v` from `s` as the state has it: `Path[s].cost` plays no
part in it, since a self-loop may have been stored there. -/
def State.label (st : State) (s v : Nat) : Int := if v = s then 0 else (st.record v).cost

theorem State.path_getElem? {st : State} {v : Nat} (inside : v < st.Path.length) :
    st.Path[v]? = some (st.record v) := by
  simp [State.record, inside]

/-- The weight of the edges that leave `D`. -/
def spent (E : List (Edge Nat Int)) (D : List Nat) : Int :=
  ((E.filter fun e => e.src ∈ D).map (·.w)).sum

/-- What `main` reads for the edge list `E`: row `u` holds the edges out of `u`
in the order of `E`. -/
structure Input.Holds (g : Input) (E : List (Edge Nat Int)) : Prop where
  source : g.s < g.n
  nodes : ∀ e ∈ E, e.src < g.n ∧ e.dst < g.n
  nonneg : ∀ e ∈ E, 0 ≤ e.w
  total : (E.map (·.w)).sum < INT_MAX
  row : ∀ u < g.n, g.Adj[u]? = some ((E.filter (·.src = u)).map fun e => ⟨e.dst, e.w⟩)

/-- The invariant of the `while` loop; see the head of the module. -/
structure Inv (g : Input) (E : List (Edge Nat Int)) (skip : Edge Nat Int → Prop)
    (D : List Nat) (st : State) : Prop where
  path_len : st.Path.length = g.n
  used : ∀ v < g.n, st.isUsed[v]? = some (decide (v ∈ D))
  distinct : D.Nodup
  inside : ∀ v ∈ D, v < g.n
  source : g.s ∈ D
  assi_nodup : st.Assi.Nodup
  assi : ∀ v, v ≠ g.s →
    (v ∈ st.Assi ↔ v < g.n ∧ v ∉ D ∧ (st.record v).cost ≠ INT_MAX)
  loop : g.s ∈ st.Assi → ∃ e ∈ E, e.src = g.s ∧ e.dst = g.s ∧ e.w = (st.record g.s).cost
  source_pre : (st.record g.s).pre = g.s
  touched : ∀ v ∈ D, v ≠ g.s → (st.record v).cost ≠ INT_MAX
  attained : ∀ v, v ≠ g.s → (st.record v).cost ≠ INT_MAX →
    (st.record v).pre ∈ D ∧ (v ∈ D → D.idxOf (st.record v).pre < D.idxOf v) ∧
      ∃ e ∈ E, e.src = (st.record v).pre ∧ e.dst = v ∧
        st.label g.s v = st.label g.s (st.record v).pre + e.w
  relaxed : ∀ e ∈ E, e.src ∈ D → ¬ skip e →
    st.label g.s e.dst ≤ st.label g.s e.src + e.w ∧
      (e.dst ≠ g.s → (st.record e.dst).cost ≠ INT_MAX)
  bounded : ∀ v, v ≠ g.s → (st.record v).cost ≠ INT_MAX →
    0 ≤ (st.record v).cost ∧ (st.record v).cost ≤ spent E D
  ordered : ∀ x ∈ D, ∀ v, v ∉ D → st.label g.s x ≤ st.label g.s v

/-! ### Sums of weights -/

theorem sum_filter_add_le {E : List (Edge Nat Int)} (nonneg : ∀ e ∈ E, 0 ≤ e.w)
    (p q : Edge Nat Int → Bool) (imp : ∀ e, p e = true → q e = true) {a : Edge Nat Int}
    (mem : a ∈ E) (out : p a = false) (new : q a = true) :
    ((E.filter p).map (·.w)).sum + a.w ≤ ((E.filter q).map (·.w)).sum := by
  have mono : ∀ E : List (Edge Nat Int), (∀ e ∈ E, 0 ≤ e.w) →
      ((E.filter p).map (·.w)).sum ≤ ((E.filter q).map (·.w)).sum := by
    intro E
    induction E with
    | nil => simp
    | cons e E ih =>
        intro nonneg
        have rest := ih fun e he => nonneg e (List.mem_cons_of_mem _ he)
        have here := nonneg e List.mem_cons_self
        cases hp : p e <;> cases hq : q e <;> simp_all
        omega
  induction E with
  | nil => simp at mem
  | cons e E ih =>
      have nonneg' : ∀ e ∈ E, 0 ≤ e.w := fun e he => nonneg e (List.mem_cons_of_mem _ he)
      have here := nonneg e List.mem_cons_self
      rcases List.mem_cons.mp mem with rfl | later
      · have := mono E nonneg'
        simp only [List.filter_cons_of_neg (by simp [out] : ¬ p a = true),
          List.filter_cons_of_pos new, List.map_cons, List.sum_cons]
        omega
      · have := ih nonneg' later
        cases hp : p e <;> cases hq : q e <;> simp_all
        · omega
        · omega

theorem spent_mono {E : List (Edge Nat Int)} (nonneg : ∀ e ∈ E, 0 ≤ e.w) {D D' : List Nat}
    (sub : ∀ v ∈ D, v ∈ D') : spent E D ≤ spent E D' := by
  refine List.Sublist.sum_le_sum
    (List.Sublist.map _ (List.monotone_filter_right E fun e he => ?_)) fun x hx => ?_
  · simpa using sub e.src (by simpa using he)
  · obtain ⟨e, he, rfl⟩ := List.mem_map.mp hx
    exact nonneg e (List.mem_filter.mp he).1

theorem spent_le_total {E : List (Edge Nat Int)} (nonneg : ∀ e ∈ E, 0 ≤ e.w) (D : List Nat) :
    spent E D ≤ (E.map (·.w)).sum := by
  unfold spent
  exact List.Sublist.sum_le_sum (List.filter_sublist.map _) (by simpa using nonneg)

theorem Input.Holds.weight_lt {g : Input} {E : List (Edge Nat Int)} (holds : g.Holds E)
    {e : Edge Nat Int} (e_mem : e ∈ E) : e.w < INT_MAX := by
  have weights : ∀ w ∈ E.map (·.w), 0 ≤ w := by simpa using holds.nonneg
  exact (List.single_le_sum weights e.w (List.mem_map_of_mem e_mem)).trans_lt holds.total

/-- Selecting `u` pays for the edges out of `u`. -/
theorem spent_snoc {E : List (Edge Nat Int)} (nonneg : ∀ e ∈ E, 0 ≤ e.w) {D : List Nat}
    {e : Edge Nat Int} (mem : e ∈ E) (new : e.src ∉ D) :
    spent E D + e.w ≤ spent E (D ++ [e.src]) := by
  refine sum_filter_add_le nonneg _ _ ?_ mem (by simp [new]) (by simp)
  intro e he
  simp only [List.mem_append, decide_eq_true_eq] at he ⊢
  exact Or.inl he

/-- Two different edges leaving `D` together weigh no more than all of them. -/
theorem add_le_spent {E : List (Edge Nat Int)} (nonneg : ∀ e ∈ E, 0 ≤ e.w) {D : List Nat}
    {a b : Edge Nat Int} (ha : a ∈ E) (hb : b ∈ E) (haD : a.src ∈ D) (hbD : b.src ∈ D)
    (ne : a ≠ b) : a.w + b.w ≤ spent E D := by
  have first : a.w ≤ ((E.filter fun e => decide (e = a)).map (·.w)).sum := by
    refine List.single_le_sum (fun x hx => ?_) _ ?_
    · obtain ⟨e, he, rfl⟩ := List.mem_map.mp hx
      exact nonneg e (List.mem_filter.mp he).1
    · exact List.mem_map.mpr ⟨a, List.mem_filter.mpr ⟨ha, by simp⟩, rfl⟩
  have second := sum_filter_add_le nonneg (fun e => decide (e = a))
    (fun e => decide (e.src ∈ D)) (by simp_all) hb (by simp [Ne.symm ne]) (by simp [hbD])
  unfold spent
  omega

/-! ### Selection -/

/-- The selection loop from a partial scan: the result is at most what was found before and every
scanned cost, and it was either found before or at the first scanned position of its cost. -/
theorem select_scan (st : State) (xs : List Nat) (inside : ∀ x ∈ xs, x < st.Path.length)
    (k : Nat) (best : Int × Option Nat) :
    ∃ out, (xs.zipIdx k).foldlM (selectStep st.Path) best = some out ∧ out.1 ≤ best.1 ∧
      (∀ x ∈ xs, out.1 ≤ (st.record x).cost) ∧
      (out = best ∨ ∃ i u, xs[i]? = some u ∧ out = ((st.record u).cost, some (k + i)) ∧
        (st.record u).cost < best.1 ∧
        ∀ j x, j < i → xs[j]? = some x → (st.record u).cost < (st.record x).cost) := by
  induction xs generalizing k best with
  | nil => exact ⟨best, rfl, le_rfl, by simp, .inl rfl⟩
  | cons x xs ih =>
      have inside_x := inside x List.mem_cons_self
      have inside_xs : ∀ y ∈ xs, y < st.Path.length :=
        fun y hy => inside y (List.mem_cons_of_mem _ hy)
      obtain ⟨out, run_eq, upper, lower, found⟩ := ih inside_xs (k + 1)
        (if best.1 > (st.record x).cost then ((st.record x).cost, some k) else best)
      have better : (if best.1 > (st.record x).cost then ((st.record x).cost, some k)
          else best).1 ≤ best.1 ∧ (if best.1 > (st.record x).cost then
            ((st.record x).cost, some k) else best).1 ≤ (st.record x).cost := by
        split <;> constructor <;> omega
      refine ⟨out, ?_, upper.trans better.1, ?_, ?_⟩
      · simpa [selectStep, State.path_getElem? inside_x] using run_eq
      · intro y hy
        rcases List.mem_cons.mp hy with rfl | hy
        · exact upper.trans better.2
        · exact lower y hy
      · rcases found with here | ⟨i, u, at_i, out_eq, below, before⟩
        · split at here
          · rename_i less
            refine .inr ⟨0, x, rfl, here, less, ?_⟩
            exact fun j _ before => absurd before (Nat.not_lt_zero j)
          · exact .inl here
        · refine .inr ⟨i + 1, u, at_i, ?_, below.trans_le better.1, ?_⟩
          · rw [out_eq, Nat.add_right_comm, Nat.add_assoc]
          · intro j y lt at_j
            cases j with
            | zero =>
                cases at_j
                exact below.trans_le better.2
            | succ j => exact before j y (Nat.lt_of_succ_lt_succ lt) at_j

/-- With a candidate whose cost is below `INT_MAX` the selection loop assigns `It` a position
holding a candidate of least cost. -/
theorem select_eq_some (st : State) (inside : ∀ x ∈ st.Assi, x < st.Path.length) {x : Nat}
    (mem : x ∈ st.Assi) (finite : (st.record x).cost < INT_MAX) :
    ∃ i u, st.Assi[i]? = some u ∧
      select st.Path st.Assi = some ((st.record u).cost, some i) ∧
      ∀ x ∈ st.Assi, (st.record u).cost ≤ (st.record x).cost := by
  obtain ⟨out, run_eq, _, lower, found⟩ := select_scan st st.Assi inside 0 (INT_MAX, none)
  rcases found with rfl | ⟨i, u, at_i, rfl, -, -⟩
  · exact absurd finite (not_lt.mpr (lower x mem))
  · exact ⟨i, u, at_i, by simpa [select] using run_eq, lower⟩

/-! ### Marking the selected node -/

theorem mem_eraseIdx_iff {xs : List Nat} (nodup : xs.Nodup) {i u : Nat} (at_i : xs[i]? = some u)
    (x : Nat) : x ∈ xs.eraseIdx i ↔ x ≠ u ∧ x ∈ xs := by
  obtain ⟨inside, rfl⟩ := List.getElem?_eq_some_iff.mp at_i
  rw [← nodup.erase_getElem i inside]
  exact nodup.mem_erase_iff

/-- `isUsed[u] = true`, when `isUsed` says which nodes are in `D`. -/
theorem used_set {n u : Nat} {D D' : List Nat} {isUsed : List Bool}
    (used : ∀ v < n, isUsed[v]? = some (decide (v ∈ D))) (mem : ∀ v, v ∈ D' ↔ v = u ∨ v ∈ D) :
    ∀ v < n, (isUsed.set u true)[v]? = some (decide (v ∈ D')) := by
  intro v v_lt
  have before := used v v_lt
  by_cases same : v = u
  · subst same
    have inside := (List.getElem?_eq_some_iff.mp before).1
    rw [List.getElem?_set_self inside, decide_eq_true ((mem v).mpr (.inl rfl))]
  · rw [List.getElem?_set_ne (Ne.symm same), before]
    simp only [mem, same, false_or]

/-- `isUsed` before the first round. -/
theorem start_used (n s : Nat) :
    ∀ v < n, ((List.replicate n false).set s true)[v]? = some (decide (v ∈ [s])) := by
  refine used_set (D := []) (fun v v_lt => ?_) fun v => by simp
  rw [List.getElem?_replicate_of_lt v_lt]
  rfl

/-- The state after `Assi.erase(It); isUsed[u] = true;`. -/
def State.mark (st : State) (i u : Nat) : State :=
  { st with isUsed := st.isUsed.set u true, Assi := st.Assi.eraseIdx i }

@[simp] theorem State.mark_record (st : State) (i u v : Nat) :
    (st.mark i u).record v = st.record v := rfl

@[simp] theorem State.mark_label (st : State) (i u s v : Nat) :
    (st.mark i u).label s v = st.label s v := rfl

section Round

variable {g : Input} {E : List (Edge Nat Int)} {skip : Edge Nat Int → Prop} {D : List Nat}
  {st : State}

theorem Inv.label_of_ne {v s : Nat} (ne : v ≠ s) : st.label s v = (st.record v).cost := by
  simp [State.label, ne]

/-- A selected node other than the source becomes final: it is appended to `D`,
and the edges out of it are the ones still to be relaxed. -/
theorem Inv.mark (holds : g.Holds E) (inv : Inv g E (fun _ => False) D st) {i u : Nat}
    (at_i : st.Assi[i]? = some u) (ne : u ≠ g.s)
    (least : ∀ x ∈ st.Assi, (st.record u).cost ≤ (st.record x).cost) :
    Inv g E (fun e => e.src = u) (D ++ [u]) (st.mark i u) := by
  have mem : u ∈ st.Assi := List.mem_of_getElem? at_i
  obtain ⟨u_lt, u_new, u_touched⟩ := (inv.assi u ne).mp mem
  constructor
  case path_len => exact inv.path_len
  case used => exact used_set inv.used fun v => by simp [or_comm]
  case distinct => exact inv.distinct.append (List.nodup_singleton u) (by simpa using u_new)
  case inside =>
    intro v hv
    rcases List.mem_append.mp hv with old | new
    · exact inv.inside v old
    · rw [List.mem_singleton.mp new]; exact u_lt
  case source => simp [inv.source]
  case assi_nodup => exact inv.assi_nodup.eraseIdx i
  case assi =>
    intro v v_ne
    have := inv.assi v v_ne
    simp only [State.mark, mem_eraseIdx_iff inv.assi_nodup at_i, List.mem_append,
      List.mem_singleton, this]
    tauto
  case loop =>
    intro mem_s
    exact inv.loop ((mem_eraseIdx_iff inv.assi_nodup at_i g.s).mp mem_s).2
  case source_pre => exact inv.source_pre
  case touched =>
    intro v hv v_ne
    rcases List.mem_append.mp hv with old | new
    · exact inv.touched v old v_ne
    · rw [List.mem_singleton.mp new]; exact u_touched
  case attained =>
    intro v v_ne v_touched
    obtain ⟨pre_in, before, e, e_mem, e_src, e_dst, e_label⟩ := inv.attained v v_ne v_touched
    refine ⟨by simp [pre_in], ?_, e, e_mem, e_src, e_dst, e_label⟩
    intro hv
    rw [State.mark_record, List.idxOf_append_of_mem pre_in]
    by_cases old : v ∈ D
    · rw [List.idxOf_append_of_mem old]
      exact before old
    · rw [List.idxOf_append_of_notMem old]
      exact (List.idxOf_lt_length_of_mem pre_in).trans_le (Nat.le_add_right _ _)
  case relaxed =>
    intro e e_mem e_src not_skip
    rcases List.mem_append.mp e_src with old | new
    · exact inv.relaxed e e_mem old id
    · exact absurd (List.mem_singleton.mp new) not_skip
  case bounded =>
    intro v v_ne v_touched
    obtain ⟨lower, upper⟩ := inv.bounded v v_ne v_touched
    exact ⟨lower, upper.trans (spent_mono holds.nonneg (by simp +contextual))⟩
  case ordered =>
    intro x hx v hv
    simp only [List.mem_append, List.mem_singleton, not_or] at hv
    rcases List.mem_append.mp hx with old | new
    · exact inv.ordered x old v hv.1
    · have v_ne : v ≠ g.s := fun h => hv.1 (h ▸ inv.source)
      rw [List.mem_singleton.mp new, State.mark_label, State.mark_label, Inv.label_of_ne ne,
        Inv.label_of_ne v_ne]
      by_cases v_touched : (st.record v).cost = INT_MAX
      · have := (inv.bounded u ne u_touched).2
        have := spent_le_total holds.nonneg D
        have := holds.total
        omega
      · by_cases v_lt : v < g.n
        · exact least v ((inv.assi v v_ne).mpr ⟨v_lt, hv.1, v_touched⟩)
        · refine absurd ?_ v_touched
          simp [State.record, inv.path_len, v_lt]

/-- When the self-loop's entry of the source is selected, no node becomes
final and every edge out of the source stays relaxed. -/
theorem Inv.mark_source (inv : Inv g E (fun _ => False) D st) {i : Nat}
    (at_i : st.Assi[i]? = some g.s) : Inv g E (fun _ => False) D (st.mark i g.s) where
  path_len := inv.path_len
  used := by
    apply used_set inv.used
    intro v
    constructor
    · exact .inr
    · rintro (rfl | mem)
      · exact inv.source
      · exact mem
  distinct := inv.distinct
  inside := inv.inside
  source := inv.source
  assi_nodup := inv.assi_nodup.eraseIdx i
  assi := by
    intro v v_ne
    simp only [State.mark, mem_eraseIdx_iff inv.assi_nodup at_i, inv.assi v v_ne]
    simp only [ne_eq, v_ne, not_false_eq_true, true_and]
    rfl
  loop := by
    intro mem_s
    exact absurd rfl ((mem_eraseIdx_iff inv.assi_nodup at_i g.s).mp mem_s).1
  source_pre := inv.source_pre
  touched := inv.touched
  attained := inv.attained
  relaxed := inv.relaxed
  bounded := inv.bounded
  ordered := inv.ordered

/-! ### Relaxing one edge -/

/-- The state after an improving relaxation of `v` over an edge out of `u`. -/
def State.improve (st : State) (u v : Nat) (cost : Int) : State :=
  { st with
    Path := st.Path.set v ⟨u, cost⟩
    Assi := if (st.record v).cost = INT_MAX then st.Assi ++ [v] else st.Assi }

theorem State.improve_record {v : Nat} (inside : v < st.Path.length) (u : Nat) (cost : Int)
    (x : Nat) : (st.improve u v cost).record x = if x = v then ⟨u, cost⟩ else st.record x := by
  by_cases same : x = v
  · subst same
    simp [State.improve, State.record, inside]
  · simp [State.improve, State.record, same, Ne.symm same, List.getD_eq_getElem?_getD]

/-- A relaxation skips a used end node, keeps a cost that is no larger than the
new one and stores the new one otherwise. -/
theorem relax_eq_of_used {used : Bool} (u : Nat) (m : Int) (it : Node)
    (used_eq : st.isUsed[it.u]? = some used) (in_path : it.u < st.Path.length)
    (lower : 0 ≤ m + it.w) (upper : used = false → m + it.w < INT_MAX) :
    relax u m st it = some (if used = true ∨ (st.record it.u).cost ≤ m + it.w then st
      else st.improve u it.u (m + it.w)) := by
  cases used with
  | true => simp [relax, used_eq]
  | false =>
      have below := upper rfl
      have add : addInt m it.w = some (m + it.w) :=
        addInt_eq_some (by simp [INT_MIN]; omega) below.le
      by_cases keep : (st.record it.u).cost ≤ m + it.w
      · have finite : (st.record it.u).cost ≠ INT_MAX := by omega
        simp [relax, used_eq, State.path_getElem? in_path, add, keep, finite, Int.not_lt.mpr keep]
      · simp [relax, used_eq, State.path_getElem? in_path, add, keep, Int.not_le.mp keep,
          State.improve, store_eq_some _ in_path]

theorem relax_eq (inv : Inv g E skip D st) (u : Nat) (m : Int) (it : Node) (inside : it.u < g.n)
    (lower : 0 ≤ m + it.w) (upper : it.u ∉ D → m + it.w < INT_MAX) :
    relax u m st it = some (if it.u ∈ D ∨ (st.record it.u).cost ≤ m + it.w then st
      else st.improve u it.u (m + it.w)) := by
  have in_path : it.u < st.Path.length := by rw [inv.path_len]; exact inside
  rw [relax_eq_of_used u m it (inv.used it.u inside) in_path lower fun unused =>
    upper (of_decide_eq_false unused)]
  simp only [decide_eq_true_eq]

/-- Once `e` is relaxed it is no longer among the edges still to be relaxed. -/
theorem Inv.done {u : Nat} {P : List (Edge Nat Int)}
    (inv : Inv g E (fun e => e.src = u ∧ e ∉ P) D st) {e : Edge Nat Int}
    (relaxed : st.label g.s e.dst ≤ st.label g.s e.src + e.w ∧
      (e.dst ≠ g.s → (st.record e.dst).cost ≠ INT_MAX)) :
    Inv g E (fun e' => e'.src = u ∧ e' ∉ P ++ [e]) D st := by
  refine { inv with relaxed := fun e' e'_mem e'_src not_skip => ?_ }
  by_cases same : e' = e
  · exact same ▸ relaxed
  · exact inv.relaxed e' e'_mem e'_src fun skip => not_skip ⟨skip.1, by simp [skip.2, same]⟩

section Improve

variable {u v : Nat} {c : Int}

/-- Nothing but the node improved changes. -/
theorem State.improve_record_of_ne (in_path : v < st.Path.length) {x : Nat} (ne : x ≠ v) :
    (st.improve u v c).record x = st.record x := by
  rw [State.improve_record in_path, if_neg ne]

theorem State.mem_improve_of_ne {x : Nat} (ne : x ≠ v) :
    x ∈ (st.improve u v c).Assi ↔ x ∈ st.Assi := by
  simp only [State.improve]
  split
  · simp [ne]
  · rfl

theorem State.mem_improve_self (waiting : (st.record v).cost ≠ INT_MAX → v ∈ st.Assi) :
    v ∈ (st.improve u v c).Assi := by
  simp only [State.improve]
  split
  · exact List.mem_append_right _ List.mem_cons_self
  · rename_i touched
    exact waiting touched

theorem State.improve_label_of_ne (in_path : v < st.Path.length) {s x : Nat} (ne : x ≠ v) :
    (st.improve u v c).label s x = st.label s x := by
  simp only [State.label, State.improve_record_of_ne in_path ne]

theorem State.improve_label_le (in_path : v < st.Path.length) (less : c < (st.record v).cost)
    (s x : Nat) : (st.improve u v c).label s x ≤ st.label s x := by
  unfold State.label
  split
  · exact le_rfl
  · rw [State.improve_record in_path]
    split
    · rename_i same
      rw [same]
      exact less.le
    · exact le_rfl

/-- Improving a node outside `D` over an edge out of the last selected node
keeps the invariant. -/
theorem Inv.improve (inv : Inv g E skip D st) (u_mem : u ∈ D) (u_ne : u ≠ g.s)
    (top : ∀ x ∈ D, st.label g.s x ≤ st.label g.s u) {e : Edge Nat Int} (e_mem : e ∈ E)
    (e_src : e.src = u) (dst_lt : e.dst < g.n) (dst_new : e.dst ∉ D)
    (e_nonneg : 0 ≤ e.w) (fits : (st.record u).cost + e.w ≤ spent E D)
    (spent_lt : spent E D < INT_MAX)
    (less : (st.record u).cost + e.w < (st.record e.dst).cost) :
    Inv g E skip D (st.improve u e.dst ((st.record u).cost + e.w)) := by
  have in_path : e.dst < st.Path.length := by rw [inv.path_len]; exact dst_lt
  have dst_ne : e.dst ≠ g.s := fun h => dst_new (h ▸ inv.source)
  have u_cost := (inv.bounded u u_ne (inv.touched u u_mem u_ne)).1
  set c := (st.record u).cost + e.w with c_def
  have c_lt : c < INT_MAX := by omega
  have other : ∀ x ∈ D, x ≠ e.dst := fun x hx h => dst_new (h ▸ hx)
  have record_dst : (st.improve u e.dst c).record e.dst = ⟨u, c⟩ := by
    rw [State.improve_record in_path, if_pos rfl]
  have label_dst : (st.improve u e.dst c).label g.s e.dst = c := by
    rw [Inv.label_of_ne dst_ne, record_dst]
  constructor
  case path_len => simp [State.improve, inv.path_len]
  case used => exact inv.used
  case distinct => exact inv.distinct
  case inside => exact inv.inside
  case source => exact inv.source
  case assi_nodup =>
    simp only [State.improve]
    split
    · rename_i untouched
      refine inv.assi_nodup.append (List.nodup_singleton _) ?_
      intro x hx hd
      rw [List.mem_singleton.mp hd] at hx
      exact ((inv.assi e.dst dst_ne).mp hx).2.2 untouched
    · exact inv.assi_nodup
  case assi =>
    intro v v_ne
    by_cases same : v = e.dst
    · subst same
      rw [record_dst]
      refine iff_of_true ?_ ⟨dst_lt, dst_new, c_lt.ne⟩
      apply State.mem_improve_self
      exact fun touched => (inv.assi e.dst v_ne).mpr ⟨dst_lt, dst_new, touched⟩
    · rw [State.mem_improve_of_ne same, State.improve_record_of_ne in_path same]
      exact inv.assi v v_ne
  case loop =>
    intro mem_s
    rw [State.improve_record_of_ne in_path dst_ne.symm]
    exact inv.loop ((State.mem_improve_of_ne dst_ne.symm).mp mem_s)
  case source_pre =>
    rw [State.improve_record_of_ne in_path dst_ne.symm]
    exact inv.source_pre
  case touched =>
    intro v hv v_ne
    rw [State.improve_record_of_ne in_path (other v hv)]
    exact inv.touched v hv v_ne
  case attained =>
    intro v v_ne v_touched
    by_cases same : v = e.dst
    · subst same
      rw [record_dst]
      refine ⟨u_mem, fun h => absurd h dst_new, e, e_mem, e_src, rfl, ?_⟩
      rw [label_dst, State.improve_label_of_ne in_path (other u u_mem), Inv.label_of_ne u_ne]
    · rw [State.improve_record_of_ne in_path same] at v_touched ⊢
      obtain ⟨pre_in, before, e', e'_mem, src, dst, lab⟩ := inv.attained v v_ne v_touched
      refine ⟨pre_in, before, e', e'_mem, src, dst, ?_⟩
      rw [State.improve_label_of_ne in_path (other _ pre_in), ← lab,
        State.improve_label_of_ne in_path same]
  case relaxed =>
    intro e' e'_mem e'_src not_skip
    obtain ⟨small, finite⟩ := inv.relaxed e' e'_mem e'_src not_skip
    rw [State.improve_label_of_ne in_path (other _ e'_src)]
    refine ⟨(State.improve_label_le in_path less _ _).trans small, fun ne => ?_⟩
    by_cases same : e'.dst = e.dst
    · rw [same, record_dst]
      exact c_lt.ne
    · rw [State.improve_record_of_ne in_path same]
      exact finite ne
  case bounded =>
    intro v v_ne v_touched
    by_cases same : v = e.dst
    · subst same
      rw [record_dst]
      exact ⟨show 0 ≤ c by omega, fits⟩
    · rw [State.improve_record_of_ne in_path same] at v_touched ⊢
      exact inv.bounded v v_ne v_touched
  case ordered =>
    intro x hx v hv
    rw [State.improve_label_of_ne in_path (other x hx)]
    by_cases same : v = e.dst
    · subst same
      rw [label_dst]
      refine (top x hx).trans ?_
      rw [Inv.label_of_ne u_ne]
      omega
    · rw [State.improve_label_of_ne in_path same]
      exact inv.ordered x hx v hv

end Improve

/-- Relaxing an edge `e` of the last selected node `u` keeps the invariant and
removes `e` from the edges still to be relaxed; records of final nodes stay as
they are. -/
theorem Inv.relax (holds : g.Holds E) {u : Nat} {P : List (Edge Nat Int)}
    (inv : Inv g E (fun e => e.src = u ∧ e ∉ P) D st) (u_mem : u ∈ D) (u_ne : u ≠ g.s)
    (top : ∀ x ∈ D, st.label g.s x ≤ st.label g.s u)
    (room : ∀ e ∈ E, e.src = u → (st.record u).cost + e.w ≤ spent E D)
    {e : Edge Nat Int} (e_mem : e ∈ E) (e_src : e.src = u) :
    ∃ st', relax u (st.record u).cost st ⟨e.dst, e.w⟩ = some st' ∧
      Inv g E (fun e' => e'.src = u ∧ e' ∉ P ++ [e]) D st' ∧
      ∀ x ∈ D, st'.record x = st.record x ∧ (x ∈ st'.Assi → x ∈ st.Assi) := by
  have dst_lt := (holds.nodes e e_mem).2
  have e_nonneg := holds.nonneg e e_mem
  have spent_lt := (spent_le_total holds.nonneg D).trans_lt holds.total
  have fits := room e e_mem e_src
  have u_cost := (inv.bounded u u_ne (inv.touched u u_mem u_ne)).1
  have step := relax_eq inv u (st.record u).cost ⟨e.dst, e.w⟩ dst_lt
    (show 0 ≤ (st.record u).cost + e.w by omega)
    (fun _ => show (st.record u).cost + e.w < INT_MAX by omega)
  dsimp only at step
  refine ⟨_, step, ?_⟩
  split
  · -- The state stays: the edge was relaxed already, as far as labels go.
    rename_i keep
    refine ⟨inv.done ?_, fun x _ => ⟨rfl, id⟩⟩
    rw [e_src, Inv.label_of_ne u_ne]
    rcases keep with used | small
    · have below := top e.dst used
      rw [Inv.label_of_ne u_ne] at below
      exact ⟨by omega, inv.touched e.dst used⟩
    · by_cases dst_s : e.dst = g.s
      · refine ⟨?_, fun ne => absurd dst_s ne⟩
        simp [State.label, dst_s]
        omega
      · rw [Inv.label_of_ne dst_s]
        exact ⟨small, fun _ => by omega⟩
  · rename_i change
    push Not at change
    obtain ⟨dst_new, less⟩ := change
    have in_path : e.dst < st.Path.length := by rw [inv.path_len]; exact dst_lt
    have other : ∀ x ∈ D, x ≠ e.dst := fun x hx h => dst_new (h ▸ hx)
    have dst_ne := (other _ inv.source).symm
    refine ⟨Inv.done (inv.improve u_mem u_ne top e_mem e_src dst_lt dst_new e_nonneg fits spent_lt
      less) ?_, fun x hx => ⟨State.improve_record_of_ne in_path (other x hx),
        (State.mem_improve_of_ne (other x hx)).mp⟩⟩
    rw [Inv.label_of_ne dst_ne, State.improve_record in_path, if_pos rfl, e_src,
      State.improve_label_of_ne in_path (other u u_mem), Inv.label_of_ne u_ne]
    exact ⟨le_rfl, fun _ => by dsimp only; omega⟩

/-- Relaxing the edges `L` of the last selected node, one after the other. -/
theorem Inv.relax_all (holds : g.Holds E) {u : Nat} (inv : Inv g E (fun e => e.src = u) D st)
    (u_mem : u ∈ D) (u_ne : u ≠ g.s) (top : ∀ x ∈ D, st.label g.s x ≤ (st.record u).cost)
    (room : ∀ e ∈ E, e.src = u → (st.record u).cost + e.w ≤ spent E D) {L : List (Edge Nat Int)}
    (edges : ∀ e ∈ L, e ∈ E ∧ e.src = u) :
    ∃ st', (L.map fun e => Node.mk e.dst e.w).foldlM (DijkstraCpp.relax u (st.record u).cost) st =
        some st' ∧
      Inv g E (fun e => e.src = u ∧ e ∉ L) D st' ∧
      ∀ x ∈ D, st'.record x = st.record x ∧ (x ∈ st'.Assi → x ∈ st.Assi) := by
  rw [List.foldlM_map]
  refine Lib.Loop.foldlM_inv (fun P st' => Inv g E (fun e => e.src = u ∧ e ∉ P) D st' ∧
    ∀ x ∈ D, st'.record x = st.record x ∧ (x ∈ st'.Assi → x ∈ st.Assi)) ?_
    ⟨by simpa using inv, fun x _ => ⟨rfl, id⟩⟩
  rintro P e mem st₁ ⟨inv₁, same₁⟩
  obtain ⟨e_mem, e_src⟩ := edges e mem
  have record_u := (same₁ u u_mem).1
  have top₁ : ∀ x ∈ D, st₁.label g.s x ≤ st₁.label g.s u := by
    intro x hx
    have below := top x hx
    rw [Inv.label_of_ne u_ne, record_u]
    unfold State.label at below ⊢
    rwa [(same₁ x hx).1]
  rw [← record_u] at room ⊢
  obtain ⟨st₂, step, inv₂, same₂⟩ := Inv.relax holds inv₁ u_mem u_ne top₁ room e_mem e_src
  refine ⟨st₂, step, inv₂, fun x hx => ?_⟩
  exact ⟨(same₂ x hx).1.trans (same₁ x hx).1, fun h => (same₁ x hx).2 ((same₂ x hx).2 h)⟩

/-- Relaxing an edge of the source once more changes nothing. -/
theorem Inv.relax_source (holds : g.Holds E) (inv : Inv g E (fun _ => False) D st)
    {l : Edge Nat Int}
    (l_mem : l ∈ E) (l_src : l.src = g.s) (l_dst : l.dst = g.s) {e : Edge Nat Int} (e_mem : e ∈ E)
    (e_src : e.src = g.s) : DijkstraCpp.relax g.s l.w st ⟨e.dst, e.w⟩ = some st := by
  have l_nonneg := holds.nonneg l l_mem
  have e_nonneg := holds.nonneg e e_mem
  have step := relax_eq inv g.s l.w ⟨e.dst, e.w⟩ (holds.nodes e e_mem).2
    (show 0 ≤ l.w + e.w by omega) (by
      intro dst_new
      have ne : l ≠ e := fun h => dst_new (by rw [← h, l_dst]; exact inv.source)
      have := add_le_spent holds.nonneg l_mem e_mem (by rw [l_src]; exact inv.source)
        (by rw [e_src]; exact inv.source) ne
      exact this.trans_lt ((spent_le_total holds.nonneg D).trans_lt holds.total))
  rw [step, if_pos]
  by_cases used : e.dst ∈ D
  · exact .inl used
  · have dst_ne : e.dst ≠ g.s := fun h => used (h ▸ inv.source)
    have := (inv.relaxed e e_mem (by rw [e_src]; exact inv.source) id).1
    rw [Inv.label_of_ne dst_ne, e_src] at this
    simp only [State.label, if_true] at this
    exact .inr (by dsimp only; omega)

theorem Inv.relax_source_all (holds : g.Holds E) (inv : Inv g E (fun _ => False) D st)
    {l : Edge Nat Int} (l_mem : l ∈ E) (l_src : l.src = g.s) (l_dst : l.dst = g.s)
    {L : List (Edge Nat Int)} (edges : ∀ e ∈ L, e ∈ E ∧ e.src = g.s) :
    (L.map fun e => Node.mk e.dst e.w).foldlM (DijkstraCpp.relax g.s l.w) st = some st := by
  rw [List.foldlM_map]
  have keep : ∀ P : List (Edge Nat Int), ∀ e ∈ L, ∀ st₁, st₁ = st →
      ∃ st₂, DijkstraCpp.relax g.s l.w st₁ ⟨e.dst, e.w⟩ = some st₂ ∧ st₂ = st := by
    rintro P e mem _ rfl
    obtain ⟨e_mem, e_src⟩ := edges e mem
    exact ⟨_, inv.relax_source holds l_mem l_src l_dst e_mem e_src, rfl⟩
  obtain ⟨_, run_eq, rfl⟩ := Lib.Loop.foldlM_inv (fun _ st' => st' = st) keep rfl
  exact run_eq

/-! ### Rounds -/

/-- The candidates are nodes. -/
theorem Inv.assi_lt (holds : g.Holds E) (inv : Inv g E skip D st) {x : Nat}
    (candidate : x ∈ st.Assi) : x < g.n := by
  by_cases at_s : x = g.s
  · rw [at_s]; exact holds.source
  · exact ((inv.assi x at_s).mp candidate).1

/-- The candidates have a cost. -/
theorem Inv.assi_cost_lt (holds : g.Holds E) (inv : Inv g E skip D st) {x : Nat}
    (candidate : x ∈ st.Assi) : (st.record x).cost < INT_MAX := by
  by_cases at_s : x = g.s
  · subst at_s
    obtain ⟨e, e_mem, _, _, e_cost⟩ := inv.loop candidate
    exact e_cost ▸ holds.weight_lt e_mem
  · have spent_lt := (spent_le_total holds.nonneg D).trans_lt holds.total
    exact (inv.bounded x at_s ((inv.assi x at_s).mp candidate).2.2).2.trans_lt spent_lt

theorem Inv.length_le (inv : Inv g E skip D st) : D.length ≤ g.n := by
  have sub : D ⊆ List.range g.n := fun v hv => List.mem_range.mpr (inv.inside v hv)
  simpa using (inv.distinct.subperm sub).length_le

/-- Rounds left: one for each node not yet selected, and one for the entry a
self-loop of the source leaves in `Assi`. -/
def roundsLeft (g : Input) (D : List Nat) (st : State) : Nat :=
  g.n - D.length + if g.s ∈ st.Assi then 1 else 0

/-- One round of the `while` loop has a meaning, keeps the invariant and
decreases the rounds left. -/
theorem round_step (holds : g.Holds E) (inv : Inv g E (fun _ => False) D st)
    (go : st.Assi ≠ []) :
    ∃ D' st', round g st = some st' ∧ Inv g E (fun _ => False) D' st' ∧
      roundsLeft g D' st' < roundsLeft g D st := by
  obtain ⟨x, x_mem⟩ := List.exists_mem_of_ne_nil _ go
  obtain ⟨i, u, at_i, select_eq, least⟩ := select_eq_some st
    (fun x hx => by rw [inv.path_len]; exact inv.assi_lt holds hx) x_mem
    (inv.assi_cost_lt holds x_mem)
  have u_mem : u ∈ st.Assi := List.mem_of_getElem? at_i
  have u_lt := inv.assi_lt holds u_mem
  have u_len : u < st.isUsed.length := (List.getElem?_eq_some_iff.mp (inv.used u u_lt)).1
  have round_eq : round g st = ((E.filter (·.src = u)).map fun e => Node.mk e.dst e.w).foldlM
      (DijkstraCpp.relax u (st.record u).cost) (st.mark i u) := by
    simp [round, select_eq, at_i, store_eq_some _ u_len, holds.row u u_lt, State.mark]
  by_cases u_ne : u = g.s
  · subst u_ne
    obtain ⟨l, l_mem, l_src, l_dst, l_cost⟩ := inv.loop u_mem
    have inv₁ := inv.mark_source at_i
    refine ⟨D, st.mark i g.s, ?_, inv₁, ?_⟩
    · rw [round_eq, ← l_cost]
      exact inv₁.relax_source_all holds l_mem l_src l_dst fun e he => by simpa using he
    · have gone : g.s ∉ (st.mark i g.s).Assi :=
        fun h => ((mem_eraseIdx_iff inv.assi_nodup at_i g.s).mp h).1 rfl
      simp [roundsLeft, gone, u_mem]
  · obtain ⟨_, u_new, u_touched⟩ := (inv.assi u u_ne).mp u_mem
    have inv₁ := inv.mark holds at_i u_ne least
    have room : ∀ e ∈ E, e.src = u → (st.record u).cost + e.w ≤ spent E (D ++ [u]) := by
      intro e e_mem e_src
      subst e_src
      have := (inv.bounded _ u_ne u_touched).2
      have := spent_snoc holds.nonneg e_mem u_new
      omega
    have top : ∀ x ∈ D ++ [u], (st.mark i u).label g.s x ≤ (st.record u).cost := by
      intro x hx
      rcases List.mem_append.mp hx with old | new
      · have := inv.ordered x old u u_new
        rwa [Inv.label_of_ne u_ne] at this
      · rw [List.mem_singleton.mp new, State.mark_label, Inv.label_of_ne u_ne]
    obtain ⟨st', run_eq, inv', kept⟩ := inv₁.relax_all holds (by simp) u_ne top room
      (L := E.filter (·.src = u)) fun e he => by simpa using he
    refine ⟨D ++ [u], st', round_eq.trans run_eq, { inv' with relaxed := ?_ }, ?_⟩
    · intro e e_mem e_src _
      exact inv'.relaxed e e_mem e_src fun skip => skip.2 (by simp [e_mem, skip.1])
    · have bound := inv'.length_le
      have kept_s : g.s ∈ st'.Assi → g.s ∈ st.Assi := fun h =>
        ((mem_eraseIdx_iff inv.assi_nodup at_i g.s).mp
          ((kept g.s (by simp [inv.source])).2 h)).2
      simp only [List.length_append, List.length_singleton] at bound
      simp only [roundsLeft, List.length_append, List.length_singleton]
      split <;> split <;> first | omega | tauto

end Round

end CFunc.DijkstraCpp
