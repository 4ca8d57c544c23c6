import CFunc.Clibs.TreeInv

/-!
Histories of the node hierarchy.

What every history keeps is that no node is lost or made twice. What it does
not keep is the shape it is told to build: `set_child` puts the second child of
a node behind the siblings of that node, so the children of a node can be read
off its links exactly when no node was given a second child.
-/

namespace CFunc.Clibs.Tree

open CFunc.Lib.LinkedTree

/-! ### Reachable nodes -/

theorem Rep.mem_of_reachable {heap : List HierNode} {p : Ptr} {t : BinaryTree Ptr}
    (rep : Rep link heap (some p) t) (nodup : (preorder t).Nodup) {q : Ptr}
    (reach : Relation.ReflTransGen (Linked heap) p q) : q ∈ preorder t := by
  have entry : ∀ {q u}, Rep link heap (some q) u → q ∈ preorder u := by
    rintro q u (_ | _)
    simp [preorder]
  induction reach with
  | refl => exact entry rep
  | @tail b q _ linked ih =>
      obtain ⟨node, l, r, read, below, beside, _, sub, sub'⟩ := rep.at_address nodup ih
      obtain ⟨node', slot, read', points⟩ := linked
      obtain rfl := Option.some.inj (read.symm.trans read')
      cases slot with
      | first => exact sub (entry (points ▸ below))
      | next => exact sub' (entry (points ▸ beside))

theorem Rep.reachable_of_mem {heap : List HierNode} {p : Option Ptr} {t : BinaryTree Ptr}
    (rep : Rep link heap p t) {q : Ptr} (member : q ∈ preorder t) :
    ∃ root, p = some root ∧ Relation.ReflTransGen (Linked heap) root q := by
  induction rep with
  | nil => simp [preorder] at member
  | @node a node l r read below beside below_ih beside_ih =>
      refine ⟨a, rfl, ?_⟩
      simp only [preorder, List.mem_cons, List.mem_append] at member
      rcases member with rfl | member | member
      · exact .refl
      · obtain ⟨root, points, reach⟩ := below_ih member
        exact .head ⟨node, .first, read, points⟩ reach
      · obtain ⟨root, points, reach⟩ := beside_ih member
        exact .head ⟨node, .next, read, points⟩ reach

/-- Following links leads to ever smaller subtrees. -/
theorem Rep.smaller_of_linked {heap : List HierNode} {p q : Ptr} {t : BinaryTree Ptr}
    (rep : Rep link heap (some p) t) (linked : Relation.TransGen (Linked heap) p q) :
    ∃ u, Rep link heap (some q) u ∧ u.numNodes < t.numNodes := by
  have one : ∀ {p q t}, Rep link heap (some p) t → Linked heap p q →
      ∃ u, Rep link heap (some q) u ∧ u.numNodes < t.numNodes := by
    rintro p q t (_ | ⟨read, below, beside⟩) ⟨node, slot, read', points⟩
    obtain rfl := Option.some.inj (read.symm.trans read')
    cases slot with
    | first => exact ⟨_, points ▸ below, by simp only [BinaryTree.numNodes]; omega⟩
    | next => exact ⟨_, points ▸ beside, by simp only [BinaryTree.numNodes]; omega⟩
  induction linked with
  | single linked => exact one rep linked
  | tail _ linked ih =>
      obtain ⟨u, rep_u, less⟩ := ih
      obtain ⟨v, rep_v, less'⟩ := one rep_u linked
      exact ⟨v, rep_v, less'.trans less⟩

namespace Inv

variable {s : State}

/-- The preorder of the represented tree lists the reachable nodes, and these
are all the nodes ever allocated. -/
theorem exists_visits (inv : Inv s) :
    ∃ visits, dump s = some visits ∧ visits.Perm (List.range s.heap.length) ∧
      ∀ p, p ∈ visits ↔ Reachable s p := by
  obtain ⟨t, rep, perm⟩ := inv.shape
  have nodup : (preorder t).Nodup := perm.nodup_iff.mpr List.nodup_range
  refine ⟨preorder t, traversal_eq rep (rep.numNodes_le nodup), perm, fun p => ⟨?_, ?_⟩⟩
  · exact Rep.reachable_of_mem rep
  · rintro ⟨root, root_eq, reach⟩
    exact Rep.mem_of_reachable (root_eq ▸ rep) nodup reach

theorem acyclic (inv : Inv s) (p : Ptr) : ¬ Relation.TransGen (Linked s.heap) p p := by
  intro cycle
  obtain ⟨q, ⟨node, _, read, _⟩, _⟩ := Relation.TransGen.head'_iff.mp cycle
  obtain ⟨t, rep, perm⟩ := inv.shape
  have inside : p ∈ preorder t :=
    perm.mem_iff.mpr (List.mem_range.mpr (List.getElem?_eq_some_iff.mp read).1)
  obtain ⟨node', l, r, read', below, beside, _⟩ :=
    rep.at_address (perm.nodup_iff.mpr List.nodup_range) inside
  have here : Rep link s.heap (some p) (.node p l r) := .node read' below beside
  obtain ⟨u, rep_u, less⟩ := Rep.smaller_of_linked here cycle
  rw [rep_u.unique here] at less
  exact lt_irrefl _ less

/-- `num` cannot wrap: the vector holds distinct 32-bit values other than `-1`. -/
theorem num_eq (inv : Inv s) : s.g_hiertree.num.toNat = s.g_hiertree.nodeIndexs.length := by
  rw [inv.num, BitVec.toNat_ofNat, Nat.mod_eq_of_lt]
  have nodup : (-1 :: s.g_hiertree.nodeIndexs).Nodup := List.nodup_cons.mpr ⟨inv.proper, inv.nodup⟩
  have values := nodup.map (f := BitVec.toNat) fun _ _ => BitVec.eq_of_toNat_eq
  have bounded : (-1 :: s.g_hiertree.nodeIndexs).map BitVec.toNat ⊆ List.range (2 ^ 32) := by
    intro n member
    obtain ⟨i, _, rfl⟩ := List.mem_map.mp member
    exact List.mem_range.mpr i.isLt
  have := (List.subperm_of_subset values bounded).length_le
  simp only [List.map_cons, List.length_cons, List.length_map, List.length_range] at this
  omega

end Inv

/-! ### One call, and a history of calls -/

/-- What one call keeps, whichever call it is: it returns, and either it made
no node and changed nothing, or it made the next node of the heap. -/
theorem Call.run_cases {s : State} (inv : Inv s) {c : Call}
    (fresh : c.index ∉ s.g_hiertree.nodeIndexs) (proper : c.index ≠ -1) :
    ∃ s' r, c.run s = some (s', r) ∧ Inv s' ∧
      ((r = none ∧ s' = s) ∨
        ∃ new : HierNode, r = some s.heap.length ∧
          s'.g_hiertree.nodeIndexs = s.g_hiertree.nodeIndexs ++ [c.index] ∧
          s'.heap.map content = s.heap.map content ++ [content new] ∧
          new.index = c.index ∧ new.data.id = c.data.id ∧ new.data.name = c.data.name) := by
  cases c with
  | set_root data =>
      obtain ⟨empty, returned, inv', indices, _⟩ := set_root_spec inv data fresh
      refine ⟨_, _, rfl, inv', .inr ⟨new_root data, returned, indices, ?_, rfl, rfl, rfl⟩⟩
      simp
  | set_child parentIndex index data =>
      rcases set_child_cases inv parentIndex data fresh proper with
        ⟨_, refused⟩ | ⟨s', _, _, _, _, made, inv', indices, _, _, att⟩
      · exact ⟨s, none, refused, inv, .inl ⟨rfl, rfl⟩⟩
      · exact ⟨s', _, made, inv',
          .inr ⟨new_child index data, rfl, indices, att.contents, rfl, rfl, rfl⟩⟩

/-- The last call of a history runs where the calls before it have led. -/
theorem history_concat (s : State) (calls : List Call) (c : Call) :
    history s (calls ++ [c]) = (history s calls).bind fun before =>
      (c.run before.1).map fun last => (last.1, before.2 ++ [(c, last.2)]) := by
  induction calls generalizing s with
  | nil =>
      rw [List.nil_append, history, history, Option.bind_some]
      cases c.run s <;> rfl
  | cons d calls ih =>
      rw [List.cons_append, history, history]
      cases d.run s with
      | none => rfl
      | some next =>
          simp only [ih]
          cases history next.1 calls with
          | none => rfl
          | some before =>
              rw [Option.bind_some]
              cases last : c.run before.1 <;> simp [last]

theorem history_append {s t : State} {calls : List Call} {log : List (Call × Option Ptr)}
    (ran : history s calls = some (t, log)) {c : Call} {u : State} {r : Option Ptr}
    (step : c.run t = some (u, r)) : history s (calls ++ [c]) = some (u, log ++ [(c, r)]) := by
  rw [history_concat, ran, Option.bind_some, step, Option.map_some]

/-- The log and the state agree: the vector lists the indices of the calls that
returned a node, and each such node still holds what its call gave it. -/
structure Logged (s : State) (log : List (Call × Option Ptr)) : Prop where
  inserted : s.g_hiertree.nodeIndexs = (log.filter (·.2.isSome)).map (·.1.index)
  kept : ∀ c p, (c, some p) ∈ log → ∃ node, s.heap[p]? = some node ∧ node.index = c.index ∧
    node.data.id = c.data.id ∧ node.data.name = c.data.name

theorem Logged.mem_calls {s : State} {log : List (Call × Option Ptr)} (logged : Logged s log)
    {i : CInt} (member : i ∈ s.g_hiertree.nodeIndexs) :
    i ∈ (log.map Prod.fst).map Call.index := by
  rw [logged.inserted] at member
  obtain ⟨entry, stored, rfl⟩ := List.mem_map.mp member
  exact List.mem_map_of_mem (List.mem_map_of_mem (List.mem_filter.mp stored).1)

theorem Logged.step {s s' : State} {log : List (Call × Option Ptr)} (logged : Logged s log)
    {c : Call} {r : Option Ptr}
    (outcome : (r = none ∧ s' = s) ∨
      ∃ new : HierNode, r = some s.heap.length ∧
        s'.g_hiertree.nodeIndexs = s.g_hiertree.nodeIndexs ++ [c.index] ∧
        s'.heap.map content = s.heap.map content ++ [content new] ∧
        new.index = c.index ∧ new.data.id = c.data.id ∧ new.data.name = c.data.name) :
    Logged s' (log ++ [(c, r)]) := by
  rcases outcome with ⟨rfl, rfl⟩ | ⟨new, rfl, indices, contents, index_eq, id_eq, name_eq⟩
  · refine ⟨by simp [logged.inserted], fun d p member => ?_⟩
    exact logged.kept d p (by simpa using member)
  · refine ⟨by simp [indices, logged.inserted], fun d p member => ?_⟩
    have content_at : ∀ q, (s'.heap[q]?).map content =
        (s.heap.map content ++ [content new])[q]? := fun q => by
      rw [← contents, List.getElem?_map]
    rcases List.mem_append.mp member with earlier | last
    · obtain ⟨node, read, rest⟩ := logged.kept d p earlier
      have same := content_at p
      rw [List.getElem?_append_left (by simpa using (List.getElem?_eq_some_iff.mp read).1),
        List.getElem?_map, read] at same
      obtain ⟨node', read', eq⟩ := Option.map_eq_some_iff.mp same
      simp only [content, Prod.mk.injEq] at eq
      exact ⟨node', read', by rw [eq.1, eq.2]; exact rest⟩
    · obtain ⟨rfl, rfl⟩ : d = c ∧ p = s.heap.length := by simpa using last
      have same := content_at s.heap.length
      rw [List.getElem?_append_right (by simp)] at same
      simp only [List.length_map, Nat.sub_self, List.getElem?_cons_zero] at same
      obtain ⟨node', read', eq⟩ := Option.map_eq_some_iff.mp same
      simp only [content, Prod.mk.injEq] at eq
      exact ⟨node', read', by rw [eq.1, eq.2]; exact ⟨index_eq, id_eq, name_eq⟩⟩

/-- The induction over a history whose calls carry distinct indices: it runs to
its end, and a property of state and log that every call keeps holds there. -/
theorem history_inv (P : State → List (Call × Option Ptr) → Prop) (start : P hiertree_init [])
    (step : ∀ s log c s' r, Inv s → Logged s log → P s log →
      c.index ∉ s.g_hiertree.nodeIndexs → c.index ≠ -1 → c.run s = some (s', r) →
      P s' (log ++ [(c, r)]))
    (calls : List Call) (distinct : (calls.map Call.index).Nodup)
    (proper : -1 ∉ calls.map Call.index) :
    ∃ s log, history hiertree_init calls = some (s, log) ∧ Inv s ∧ Logged s log ∧
      log.map Prod.fst = calls ∧ P s log := by
  induction calls using List.reverseRecOn with
  | nil => exact ⟨_, _, rfl, inv_hiertree_init, ⟨rfl, by simp⟩, rfl, start⟩
  | append_singleton calls c ih =>
      rw [List.map_append, List.map_singleton] at distinct proper
      obtain ⟨distinct', _, apart⟩ := List.nodup_append.mp distinct
      obtain ⟨proper', proper_c⟩ := not_or.mp (mt List.mem_append.mpr proper)
      obtain ⟨s, log, ran, inv, logged, calls_eq, holds⟩ := ih distinct' proper'
      have fresh : c.index ∉ s.g_hiertree.nodeIndexs := by
        intro member
        have earlier := logged.mem_calls member
        rw [calls_eq] at earlier
        exact apart _ earlier _ (List.mem_singleton_self _) rfl
      have not_null : c.index ≠ -1 := fun same => proper_c (by simp [same])
      obtain ⟨s', r, ran', inv', outcome⟩ := Call.run_cases inv fresh not_null
      exact ⟨s', _, history_append ran ran', inv', logged.step outcome, by simp [calls_eq],
        step s log c s' r inv logged holds fresh not_null ran'⟩

/-! ### No node is lost or made twice -/

/-- The indices the `set_child` calls of a history are given. -/
def newIndexes (calls : List Call) : List CInt :=
  calls.filterMap fun c => if c.isRoot then none else some c.index

/-- The records of the hierarchy agree after the calls of `log`. -/
structure Consistent (s : State) (log : List (Call × Option Ptr)) : Prop where
  num_eq : s.g_hiertree.num.toNat = s.g_hiertree.nodeIndexs.length
  reachable_count : {p | Reachable s p}.ncard = s.g_hiertree.nodeIndexs.length
  acyclic : ∀ p, ¬ Relation.TransGen (Linked s.heap) p p
  traversal_once : ∃ visits, dump s = some visits ∧ visits.Nodup ∧
    ∀ p, p ∈ visits ↔ Reachable s p
  inserted : s.g_hiertree.nodeIndexs = (log.filter (·.2.isSome)).map (·.1.index)
  lookup : ∀ c p, (c, some p) ∈ log → get_node_by_index s c.index = some (some p) ∧
    ∃ node, s.heap[p]? = some node ∧ node.index = c.index ∧ node.data.id = c.data.id ∧
      node.data.name = c.data.name

theorem Inv.consistent {s : State} {log : List (Call × Option Ptr)} (inv : Inv s)
    (logged : Logged s log) : Consistent s log := by
  obtain ⟨visits, printed, perm, reach⟩ := inv.exists_visits
  have nodup : visits.Nodup := perm.nodup_iff.mpr List.nodup_range
  refine ⟨inv.num_eq, ?_, inv.acyclic, ⟨visits, printed, nodup, reach⟩, logged.inserted, ?_⟩
  · have as_set : {p | Reachable s p} = (visits.toFinset : Set Ptr) := by
      ext p
      simp [reach p]
    rw [as_set, Set.ncard_coe_finset, List.toFinset_card_of_nodup nodup, perm.length_eq,
      List.length_range, inv.indices, List.length_map]
  · intro c p member
    obtain ⟨node, read, index_eq, rest⟩ := logged.kept c p member
    exact ⟨index_eq ▸ inv.get_node_by_index_eq read, node, read, index_eq, rest⟩

theorem mem_map_index {calls : List Call} {i : CInt} (member : i ∈ calls.map Call.index)
    (child : i ∉ newIndexes calls) : ∃ c ∈ calls, c.isRoot = true ∧ i = 0 := by
  obtain ⟨c, stored, rfl⟩ := List.mem_map.mp member
  cases c with
  | set_root data => exact ⟨_, stored, rfl, rfl⟩
  | set_child parentIndex index data =>
      exact absurd (List.mem_filterMap.mpr ⟨_, stored, by simp [Call.isRoot]⟩) child

/-- At most one `set_root`, and fresh indices other than its 0, give distinct indices. -/
theorem nodup_map_index {calls : List Call} (one_root : calls.countP Call.isRoot ≤ 1)
    (distinct : (newIndexes calls).Nodup) (nonzero : 0 ∉ newIndexes calls) :
    (calls.map Call.index).Nodup := by
  induction calls with
  | nil => simp
  | cons c calls ih =>
      cases c with
      | set_root data =>
          have no_root : ∀ d ∈ calls, d.isRoot = false := by
            simpa [List.countP_cons, Call.isRoot, List.countP_eq_zero] using one_root
          refine List.nodup_cons.mpr ⟨fun member => ?_, ih ?_ distinct nonzero⟩
          · obtain ⟨d, stored, root, _⟩ := mem_map_index member nonzero
            exact absurd root (by simp [no_root d stored])
          · exact (List.countP_eq_zero.mpr fun d stored => by simp [no_root d stored]).trans_le
              (Nat.zero_le 1)
      | set_child parentIndex index data =>
          have tail : newIndexes (.set_child parentIndex index data :: calls) =
              index :: newIndexes calls := by simp [newIndexes, Call.isRoot, Call.index]
          rw [tail] at distinct nonzero
          obtain ⟨fresh, distinct'⟩ := List.nodup_cons.mp distinct
          obtain ⟨not_zero, nonzero'⟩ := not_or.mp (mt List.mem_cons.mpr nonzero)
          refine List.nodup_cons.mpr ⟨fun member => ?_, ih (by
            simpa [List.countP_cons, Call.isRoot] using one_root) distinct' nonzero'⟩
          obtain ⟨_, _, _, zero⟩ := mem_map_index member fresh
          exact not_zero zero.symm

/-- In every history with one `set_root` and distinct new indices the records
agree after every call, and a `set_child` returns `NULL` exactly for an unknown
parent, with the state as it was. -/
theorem hierarchy_consistent (calls : List Call) (one_root : calls.countP Call.isRoot = 1)
    (distinct : (newIndexes calls).Nodup) (nonzero : 0 ∉ newIndexes calls)
    (proper : -1 ∉ newIndexes calls) (before after : List Call) (split : calls = before ++ after) :
    ∃ s log, history hiertree_init before = some (s, log) ∧ log.map Prod.fst = before ∧
      Consistent s log ∧
      ∀ parentIndex index data rest, after = .set_child parentIndex index data :: rest →
        ∃ s' r, set_child s parentIndex index data = some (s', r) ∧
          (r = none ↔ parentIndex ∉ s.g_hiertree.nodeIndexs) ∧ (r = none → s' = s) := by
  have indices := nodup_map_index (le_of_eq one_root) distinct nonzero
  have no_null : -1 ∉ calls.map Call.index := fun member => by
    obtain ⟨_, _, _, zero⟩ := mem_map_index member proper
    exact absurd zero (by decide)
  rw [split, List.map_append] at indices no_null
  obtain ⟨indices', _, apart⟩ := List.nodup_append.mp indices
  obtain ⟨s, log, ran, inv, logged, calls_eq, _⟩ :=
    history_inv (fun _ _ => True) trivial (fun _ _ _ _ _ _ _ _ _ _ _ => trivial) before indices'
      fun member => no_null (List.mem_append_left _ member)
  refine ⟨s, log, ran, calls_eq, inv.consistent logged, ?_⟩
  rintro parentIndex index data rest rfl
  have fresh : index ∉ s.g_hiertree.nodeIndexs := by
    intro member
    have earlier := logged.mem_calls member
    rw [calls_eq] at earlier
    exact apart index earlier index (by simp [Call.index]) rfl
  have not_null : index ≠ -1 := fun same => no_null (by simp [Call.index, same])
  rcases set_child_cases inv parentIndex data fresh not_null with
    ⟨unknown, refused⟩ | ⟨s', p, parent, _, _, made, _, _, read, rfl, _⟩
  · exact ⟨s, none, refused, ⟨fun _ => unknown, fun _ => rfl⟩, fun _ => rfl⟩
  · refine ⟨s', _, made, ⟨nofun, fun unknown => ?_⟩, nofun⟩
    exact absurd (inv.mem_nodeIndexs read) unknown

/-- A root, two children of it, one call with an unknown parent. -/
theorem hierarchy_consistent_sample :
    let data : NodeData := { id := 7, reg := 0, name := .empty }
    let before := [Call.set_root data, .set_child 0 1 data, .set_child 0 2 data]
    ∃ s log, history hiertree_init before = some (s, log) ∧ log.map Prod.fst = before ∧
      Consistent s log ∧
      ∀ parentIndex index data' rest,
        [Call.set_child 9 3 data] = .set_child parentIndex index data' :: rest →
        ∃ s' r, set_child s parentIndex index data' = some (s', r) ∧
          (r = none ↔ parentIndex ∉ s.g_hiertree.nodeIndexs) ∧ (r = none → s' = s) :=
  hierarchy_consistent _ (by decide) (by decide) (by decide) (by decide) _ _ rfl

end CFunc.Clibs.Tree
