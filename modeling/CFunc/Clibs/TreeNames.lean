import CFunc.Clibs.TreeShape

/-!
Looking up a name of the node hierarchy.

`NAME_TO_INDEX` goes through the indices of all nodes in order of insertion and searches the given
node for each. That search follows the sibling of the node it starts from too, so it also finds
nodes that were inserted elsewhere.
-/

namespace CFunc.Clibs.Tree

open CFunc.Lib.LinkedTree Relation

/-! ### The lookup -/

/-- The loop of `NAME_TO_INDEX` over the indices that are left. -/
def name_loop (heap : List HierNode) (parent_node : Option Ptr) (name : List Byte) :
    List CInt → Option CInt
  | [] => some (-1)
  | index :: nodeIndexs =>
      match _get_node_by_index heap index heap.length parent_node with
      | none => none
      | some none => name_loop heap parent_node name nodeIndexs
      | some (some node) =>
          match heap[node]? with
          | none => none
          | some info =>
              if info.data.name.chars = name then some index
              else name_loop heap parent_node name nodeIndexs

/-- `name` is the C string that is passed. -/
def NAME_TO_INDEX (s : State) (parent_node : Option Ptr) (name : List Byte) : Option CInt :=
  name_loop s.heap parent_node name s.g_hiertree.nodeIndexs

/-! ### What it is for -/

/-- A `set_child` call with the index of `p` made the node `q`. -/
def Inserted (s : State) (log : List (Call × Option Ptr)) (p q : Ptr) : Prop :=
  ∃ parent index data, s.heap[p]? = some parent ∧
    (Call.set_child parent.index index data, some q) ∈ log

/-- `q` is `p`, or was inserted below it. -/
def Below (s : State) (log : List (Call × Option Ptr)) : Ptr → Ptr → Prop :=
  ReflTransGen (Inserted s log)

def Carries (s : State) (name : List Byte) (q : Ptr) : Prop :=
  ∃ node, s.heap[q]? = some node ∧ node.data.name.chars = name

/-- A node with the name that can be found by its index. -/
def Findable (s : State) (name : List Byte) (q : Ptr) : Prop :=
  ∃ node, s.heap[q]? = some node ∧ node.data.name.chars = name ∧ node.index ≠ -1

/-- A findable node with the name that the links from `p` lead to. -/
def Seen (s : State) (p : Ptr) (name : List Byte) (q : Ptr) : Prop :=
  ReflTransGen (Linked s.heap) p q ∧ Findable s name q

/-- The lookup returns the index of a node with the name at or below `p`, and `-1` exactly when
there is none. -/
def Scoped (s : State) (log : List (Call × Option Ptr)) (p : Ptr) (name : List Byte) : Prop :=
  ∃ i, NAME_TO_INDEX s (some p) name = some i ∧
    (i ≠ -1 → ∃ q node, s.heap[q]? = some node ∧ node.index = i ∧
      node.data.name.chars = name ∧ Below s log p q) ∧
    (i = -1 ↔ ¬ ∃ q, Below s log p q ∧ Carries s name q)

/-! ### What the search sees -/

section Search

variable {s : State} {p q : Ptr} {node : HierNode} {name : List Byte}

theorem _get_node_by_index_null {heap : List HierNode} {fuel : Nat} {node : Option Ptr} :
    _get_node_by_index heap (-1) fuel node = some none := by
  rw [_get_node_by_index.eq_def]
  exact if_pos rfl

theorem Findable.carries (findable : Findable s name q) : Carries s name q := by
  obtain ⟨node, read, named, -⟩ := findable
  exact ⟨node, read, named⟩

/-- From a node of the hierarchy the search visits what the links lead to. -/
theorem Grown.visits (grown : Grown s) (read : s.heap[p]? = some node) :
    ∃ t, Rep link s.heap (some p) t ∧ t.numNodes ≤ s.heap.length ∧
      ∀ q, q ∈ preorder t ↔ ReflTransGen (Linked s.heap) p q := by
  obtain ⟨t, rep, perm⟩ := grown.shape
  have inside : p ∈ preorder t :=
    perm.mem_iff.mpr (List.mem_range.mpr (List.getElem?_eq_some_iff.mp read).1)
  obtain ⟨_, l, r, read', below, beside, nodup, -⟩ :=
    rep.at_address (perm.nodup_iff.mpr List.nodup_range) inside
  have here : Rep link s.heap (some p) (.node p l r) := .node read' below beside
  refine ⟨_, here, here.numNodes_le nodup, fun q => ⟨fun member => ?_, ?_⟩⟩
  · obtain ⟨root, root_eq, reach⟩ := Rep.reachable_of_mem here member
    obtain rfl := Option.some.inj root_eq
    exact reach
  · exact Rep.mem_of_reachable here nodup

/-- The search for a node's index finds the node if the links lead there. -/
theorem Grown.search_found (grown : Grown s) {start : HierNode} (from_p : s.heap[p]? = some start)
    (read : s.heap[q]? = some node) (proper : node.index ≠ -1)
    (reach : ReflTransGen (Linked s.heap) p q) :
    _get_node_by_index s.heap node.index s.heap.length (some p) = some (some q) := by
  obtain ⟨t, rep, small, visits⟩ := grown.visits from_p
  rw [_get_node_by_index_eq proper rep small,
    grown.find_index read ((visits q).mpr reach)]

theorem Grown.search_missing (grown : Grown s) {start : HierNode}
    (from_p : s.heap[p]? = some start) (read : s.heap[q]? = some node)
    (unreached : ¬ ReflTransGen (Linked s.heap) p q) :
    _get_node_by_index s.heap node.index s.heap.length (some p) = some none := by
  by_cases proper : node.index = -1
  · rw [proper]
    exact _get_node_by_index_null
  · obtain ⟨t, rep, small, visits⟩ := grown.visits from_p
    rw [_get_node_by_index_eq proper rep small]
    cases found : (preorder t).find? (hasIndex s.heap node.index) with
    | none => rfl
    | some q' =>
        have test := List.find?_some found
        simp only [hasIndex, Option.any_eq_true, decide_eq_true_eq] at test
        obtain ⟨node', read', same⟩ := test
        obtain rfl := grown.index_inj read' read same
        exact absurd ((visits q').mp (List.mem_of_find?_eq_some found)) unreached

/-- One round of the loop, on a node the lookup is after. -/
theorem Grown.loop_seen (grown : Grown s) {start : HierNode} (from_p : s.heap[p]? = some start)
    (read : s.heap[q]? = some node) (seen : Seen s p name q) (later : List CInt) :
    name_loop s.heap (some p) name (node.index :: later) = some node.index := by
  obtain ⟨reach, node', read', named, proper⟩ := seen
  obtain rfl := Option.some.inj (read.symm.trans read')
  rw [name_loop, grown.search_found from_p read proper reach]
  simp only [read, if_pos named]

/-- One round on any other node. -/
theorem Grown.loop_unseen (grown : Grown s) {start : HierNode} (from_p : s.heap[p]? = some start)
    (read : s.heap[q]? = some node) (unseen : ¬ Seen s p name q) (later : List CInt) :
    name_loop s.heap (some p) name (node.index :: later) =
      name_loop s.heap (some p) name later := by
  by_cases reach : ReflTransGen (Linked s.heap) p q
  · by_cases proper : node.index = -1
    · rw [name_loop, proper, _get_node_by_index_null]
    · have other : node.data.name.chars ≠ name :=
        fun named => unseen ⟨reach, node, read, named, proper⟩
      rw [name_loop, grown.search_found from_p read proper reach]
      simp only [read, if_neg other]
  · rw [name_loop, grown.search_missing from_p read reach]

/-- The loop over the nodes from `k` on returns the index of the first that is seen. -/
theorem Grown.loop_from (grown : Grown s) {start : HierNode} (from_p : s.heap[p]? = some start)
    (name : List Byte) {left k : Nat} (all : k + left = s.heap.length) :
    (name_loop s.heap (some p) name ((s.heap.drop k).map HierNode.index) = some (-1) ∧
      ∀ q, k ≤ q → ¬ Seen s p name q) ∨
    ∃ (q : Ptr) (found : HierNode),
      name_loop s.heap (some p) name ((s.heap.drop k).map HierNode.index) = some found.index ∧
      s.heap[q]? = some found ∧ Seen s p name q ∧ ∀ q', k ≤ q' → q' < q → ¬ Seen s p name q' := by
  induction left generalizing k with
  | zero =>
      left
      have past : s.heap.length ≤ k := all.ge
      rw [List.drop_eq_nil_of_le past]
      refine ⟨rfl, fun q le seen => ?_⟩
      obtain ⟨-, node, read, -⟩ := seen
      have bound := (List.getElem?_eq_some_iff.mp read).1
      omega
  | succ left ih =>
      have bound : k < s.heap.length := by omega
      have read : s.heap[k]? = some s.heap[k] := List.getElem?_eq_getElem bound
      rw [List.drop_eq_getElem_cons bound, List.map_cons]
      by_cases seen : Seen s p name k
      · right
        refine ⟨k, s.heap[k], grown.loop_seen from_p read seen _, read, seen, fun q' le lt => ?_⟩
        exact absurd lt le.not_gt
      · rw [grown.loop_unseen from_p read seen]
        rcases ih (k := k + 1) (by omega) with ⟨missing, none⟩ | ⟨q, found, rest⟩
        · left
          refine ⟨missing, fun q le => ?_⟩
          rcases le.eq_or_lt with rfl | lt
          · exact seen
          · exact none q lt
        · right
          obtain ⟨returned, read_q, seen_q, first⟩ := rest
          refine ⟨q, found, returned, read_q, seen_q, fun q' le lt => ?_⟩
          rcases le.eq_or_lt with rfl | later
          · exact seen
          · exact first q' later lt

/-- The lookup returns the index of the node inserted first among those it sees. -/
theorem Grown.lookup (grown : Grown s) (read : s.heap[p]? = some node) (name : List Byte) :
    (NAME_TO_INDEX s (some p) name = some (-1) ∧ ∀ q, ¬ Seen s p name q) ∨
    ∃ (q : Ptr) (found : HierNode), NAME_TO_INDEX s (some p) name = some found.index ∧
      s.heap[q]? = some found ∧ Seen s p name q ∧ ∀ q' < q, ¬ Seen s p name q' := by
  rw [NAME_TO_INDEX, grown.indices]
  rcases grown.loop_from read name (Nat.zero_add _) with ⟨missing, none⟩ | ⟨q, found, rest⟩
  · exact .inl ⟨missing, fun q => none q q.zero_le⟩
  · obtain ⟨returned, read_q, seen_q, first⟩ := rest
    exact .inr ⟨q, found, returned, read_q, seen_q, fun q' => first q' q'.zero_le⟩

end Search

/-! ### Where insertions are linked -/

section Placed

variable {s s' : State} {log : List (Call × Option Ptr)} {p q : Ptr}

/-- Every node that was inserted is linked from the node it was inserted under. -/
structure Placed (s : State) (log : List (Call × Option Ptr)) : Prop where
  grown : Grown s
  known : ∀ parentIndex index data q, (Call.set_child parentIndex index data, some q) ∈ log →
    parentIndex ∈ s.g_hiertree.nodeIndexs
  linked : ∀ p q, Inserted s log p q → ReflTransGen (Linked s.heap) p q

theorem Placed.below (placed : Placed s log) (below : Below s log p q) :
    ReflTransGen (Linked s.heap) p q := by
  induction below with
  | refl => exact .refl
  | tail _ inserted ih => exact ih.trans (placed.linked _ _ inserted)

theorem reach_of_mem_chain {heap : List HierNode} {fuel : Nat} {start : Option Ptr}
    (member : q ∈ chain link heap fuel start) :
    ∃ first, start = some first ∧ ReflTransGen (Linked heap) first q := by
  induction fuel generalizing start with
  | zero => cases member
  | succ fuel ih =>
      cases start with
      | none => cases member
      | some first =>
          refine ⟨first, rfl, ?_⟩
          cases read : heap[first]? with
          | none => simp [chain, read] at member
          | some node =>
              simp only [chain, read, List.mem_cons] at member
              rcases member with rfl | later
              · exact .refl
              · obtain ⟨second, points, reach⟩ := ih later
                exact .head ⟨node, .next, read, points⟩ reach

section Attach

variable {heap heap' : List HierNode} {new : HierNode} {parent_node holder : Ptr} {slot : Slot}

/-- Links that are there stay. -/
theorem Attached.linked_kept (att : Attached heap heap' new parent_node holder slot)
    (linked : Linked heap p q) : Linked heap' p q := by
  obtain ⟨node, s, read, points⟩ := linked
  obtain ⟨node', read', -⟩ := att.index_kept read
  refine ⟨node', s, read', ?_⟩
  rcases att.old_or_new read' with ⟨rfl, -, -⟩ | ⟨node₀, read₀, -, links⟩
  · exact absurd (List.getElem?_eq_some_iff.mp read).1 (lt_irrefl _)
  · obtain rfl := Option.some.inj (read.symm.trans read₀)
    rcases links s with same | ⟨-, -, empty, -⟩
    · exact same.trans points
    · rw [empty] at points
      cases points

theorem Attached.reach_kept (att : Attached heap heap' new parent_node holder slot)
    (reach : ReflTransGen (Linked heap) p q) : ReflTransGen (Linked heap') p q :=
  ReflTransGen.mono (fun _ _ => att.linked_kept) p q reach

/-- The new node is linked from the parent it was given. -/
theorem Attached.reach_new (att : Attached heap heap' new parent_node holder slot) :
    ReflTransGen (Linked heap') parent_node heap.length := by
  obtain ⟨parent, parent', -, read', place⟩ := att.place
  rcases place with ⟨-, rfl, rfl⟩ | ⟨-, -, -, on_chain⟩
  · obtain ⟨_, node', -, read_holder, -, linked, -⟩ := att.graft.holder
    exact .single ⟨node', .first, read_holder, linked⟩
  · obtain ⟨first, points, reach⟩ := reach_of_mem_chain on_chain
    exact .head ⟨parent', .next, read', points⟩ reach

end Attach

theorem Placed.step_refused (placed : Placed s log) (c : Call) : Placed s (log ++ [(c, none)]) := by
  constructor
  case grown => exact placed.grown
  case known =>
    intro parentIndex index data q member
    apply placed.known parentIndex index data q
    simpa using member
  case linked =>
    rintro p q ⟨parent, index, data, read, member⟩
    apply placed.linked p q
    exact ⟨parent, index, data, read, by simpa using member⟩

theorem Placed.step_made (placed : Placed s log) {parentIndex index : CInt} {data : NodeData}
    {parent_node holder : Ptr} {parent : HierNode} {slot : Slot}
    (fresh : index ∉ s.g_hiertree.nodeIndexs) (grown : Grown s')
    (indices : s'.g_hiertree.nodeIndexs = s.g_hiertree.nodeIndexs ++ [index])
    (read : s.heap[parent_node]? = some parent) (named : parent.index = parentIndex)
    (att : Attached s.heap s'.heap (new_child index data) parent_node holder slot) :
    Placed s' (log ++ [(.set_child parentIndex index data, some s.heap.length)]) := by
  have known {parentIndex' index' : CInt} {data' : NodeData} {q : Ptr}
      (member : (Call.set_child parentIndex' index' data', some q) ∈
        log ++ [(.set_child parentIndex index data, some s.heap.length)]) :
      parentIndex' ∈ s.g_hiertree.nodeIndexs := by
    rcases List.mem_append.mp member with old | last
    · exact placed.known _ _ _ _ old
    · cases List.mem_singleton.mp last
      exact named ▸ placed.grown.mem_nodeIndexs read
  constructor
  case grown => exact grown
  case known =>
    intro parentIndex' index' data' q member
    rw [indices]
    exact List.mem_append_left _ (known member)
  case linked =>
    rintro p q ⟨node', index', data', read', member⟩
    rcases att.old_or_new read' with ⟨-, index_eq, -⟩ | ⟨node, read_n, index_eq, -⟩
    · -- no node was inserted below the new one yet
      have already := known member
      rw [index_eq] at already
      exact absurd already fresh
    · rw [index_eq] at member
      rcases List.mem_append.mp member with old | last
      · exact att.reach_kept (placed.linked p q ⟨node, index', data', read_n, old⟩)
      · obtain ⟨call_eq, rfl⟩ : _ ∧ q = s.heap.length := by simpa using List.mem_singleton.mp last
        obtain rfl := placed.grown.index_inj read read_n (named.trans call_eq.1.symm)
        exact att.reach_new

end Placed

/-! ### Histories -/

section Histories

variable {s t : State} {calls : List Call} {log : List (Call × Option Ptr)} {c : Call}

/-- The last call of a history. -/
theorem history_snoc (ran : history s (calls ++ [c]) = some (t, log)) :
    ∃ s' before r, history s calls = some (s', before) ∧ c.run s' = some (t, r) ∧
      log = before ++ [(c, r)] := by
  rw [history_concat] at ran
  obtain ⟨⟨s', before⟩, ran', step⟩ := Option.bind_eq_some_iff.mp ran
  obtain ⟨⟨u, r⟩, last, same⟩ := Option.map_eq_some_iff.mp step
  obtain ⟨rfl, rfl⟩ := Prod.mk.inj same
  exact ⟨s', before, r, ran', last, rfl⟩

/-- One call of a history, whose indices stay distinct. -/
theorem Placed.step (placed : Placed s log) {r : Option Ptr} (step : c.run s = some (t, r))
    (distinct : t.g_hiertree.nodeIndexs.Nodup) : Placed t (log ++ [(c, r)]) := by
  cases c with
  | set_root data =>
      obtain ⟨rfl, rfl⟩ : (set_root s data).1 = t ∧ (set_root s data).2 = r := by
        simpa [Call.run, Prod.ext_iff] using step
      have fresh : 0 ∉ s.g_hiertree.nodeIndexs := by
        intro member
        exact (List.nodup_append.mp distinct).2.2 0 member 0 (List.mem_singleton_self 0) rfl
      obtain ⟨empty, heap, grown⟩ := placed.grown.set_root_spec data fresh
      -- before the root no call made a node
      have none_before {parentIndex index : CInt} {data' : NodeData} {q : Ptr}
          (member : (Call.set_child parentIndex index data', some q) ∈
            log ++ [(.set_root data, (set_root s data).2)]) : False := by
        have old : (Call.set_child parentIndex index data', some q) ∈ log := by simpa using member
        have already := placed.known _ _ _ _ old
        rw [placed.grown.indices, empty] at already
        cases already
      constructor
      case grown => exact grown
      case known =>
        intro _ _ _ _ member
        exact (none_before member).elim
      case linked =>
        rintro p q ⟨_, _, _, -, member⟩
        exact (none_before member).elim
  | set_child parentIndex index data =>
      rcases placed.grown.set_child_cases parentIndex index data with
        ⟨-, refused⟩ | ⟨t', parent_node, parent, holder, slot, made, grown, indices, -, rest⟩
      · cases Option.some.inj (refused.symm.trans step)
        exact placed.step_refused _
      · cases Option.some.inj (made.symm.trans step)
        obtain ⟨read, named, att⟩ := rest
        have fresh : index ∉ s.g_hiertree.nodeIndexs := by
          intro member
          rw [indices] at distinct
          exact (List.nodup_append.mp distinct).2.2 index member index
            (List.mem_singleton_self index) rfl
        exact placed.step_made fresh (grown fresh) indices read named att

/-- A call only adds to the vector of indices. -/
theorem Call.run_indices {r : Option Ptr} (step : c.run s = some (t, r)) :
    s.g_hiertree.nodeIndexs <+: t.g_hiertree.nodeIndexs := by
  cases c with
  | set_root data =>
      cases Option.some.inj step
      exact List.prefix_append _ _
  | set_child parentIndex index data =>
      simp only [Call.run, Tree.set_child] at step
      split at step
      · cases Option.some.inj step
        exact List.prefix_refl _
      · split at step
        case h_1 => cases step
        case h_2 =>
          cases Option.some.inj step
          exact List.prefix_refl _
        case h_3 =>
          split at step
          · cases step
          · cases Option.some.inj step
            exact List.prefix_append _ _

theorem placed_of_history (ran : history hiertree_init calls = some (s, log))
    (distinct : s.g_hiertree.nodeIndexs.Nodup) : Placed s log := by
  induction calls using List.reverseRecOn generalizing s log with
  | nil =>
      cases Option.some.inj ran
      exact ⟨grown_hiertree_init, nofun, fun p q ⟨_, _, _, _, member⟩ => nomatch member⟩
  | append_singleton calls c ih =>
      obtain ⟨s', before, r, ran', step, rfl⟩ := history_snoc ran
      have distinct' := distinct.sublist (Call.run_indices step).sublist
      exact (ih ran' distinct').step step distinct

/-- The lookup from `p` is scoped if and only if the first node with the name that the links lead to
was inserted at or below `p`, and `-1` is not the only index there that has the name. -/
theorem NAME_TO_INDEX_scoped_iff (ran : history hiertree_init calls = some (s, log))
    (distinct : s.g_hiertree.nodeIndexs.Nodup) {p : Ptr} (allocated : p < s.heap.length)
    (name : List Byte) :
    Scoped s log p name ↔
      (∀ q, Seen s p name q → ∃ q' ≤ q, Below s log p q' ∧ Findable s name q') ∧
      (∀ q, Below s log p q → Carries s name q → ∃ q', Below s log p q' ∧ Findable s name q') := by
  have placed := placed_of_history ran distinct
  have read : s.heap[p]? = some s.heap[p] := List.getElem?_eq_getElem allocated
  have seen {q : Ptr} (below : Below s log p q) (findable : Findable s name q) :
      Seen s p name q := ⟨placed.below below, findable⟩
  rcases placed.grown.lookup read name with
    ⟨missing, none⟩ | ⟨q₀, found, returned, read₀, seen₀, first⟩
  · -- nothing is seen from `p`
    rw [Scoped, missing]
    constructor
    · rintro ⟨i, same, -, empty⟩
      obtain rfl := Option.some.inj same
      refine ⟨fun q seen_q => absurd seen_q (none q), fun q below carries => ?_⟩
      exact absurd ⟨q, below, carries⟩ (empty.mp rfl)
    · rintro ⟨-, company⟩
      refine ⟨-1, rfl, fun proper => absurd rfl proper, fun _ => ?_, fun _ => rfl⟩
      rintro ⟨q, below, carries⟩
      obtain ⟨q', below', findable⟩ := company q below carries
      exact none q' (seen below' findable)
  · obtain ⟨-, node, read', named, proper⟩ := id seen₀
    obtain rfl := Option.some.inj (read₀.symm.trans read')
    rw [Scoped, returned]
    constructor
    · rintro ⟨i, same, inside, -⟩
      obtain rfl := Option.some.inj same
      obtain ⟨q, node, read_q, index_eq, -, below⟩ := inside proper
      obtain rfl := placed.grown.index_inj read_q read₀ index_eq
      constructor
      · intro q' seen'
        exact ⟨q, Nat.le_of_not_lt fun lt => first q' lt seen', below, seen₀.2⟩
      · intro _ _ _
        exact ⟨q, below, seen₀.2⟩
    · rintro ⟨first_below, -⟩
      obtain ⟨q, le, below, findable⟩ := first_below q₀ seen₀
      obtain rfl : q = q₀ := by
        apply le.antisymm
        by_contra lt
        exact first q (Nat.lt_of_not_le lt) (seen below findable)
      refine ⟨found.index, rfl, fun _ => ⟨q, found, read₀, rfl, named, below⟩, ?_⟩
      apply iff_of_false proper
      rw [not_not]
      exact ⟨q, below, findable.carries⟩

end Histories

/-! ### A name found beside the parent -/

/-- The name `"a"`. -/
def nameA : CName := ⟨[0x61], by decide, by decide⟩

def plainData : NodeData := { id := 7, reg := 0, name := .empty }

def namedData : NodeData := { id := 8, reg := 0, name := nameA }

/-- A root with a child. -/
def oneChild : List Call := [.set_root plainData, .set_child 0 1 namedData]

theorem NAME_TO_INDEX_scoped_iff_sample :
    ∃ s log, history hiertree_init oneChild = some (s, log) ∧
      (Scoped s log 0 [0x61] ↔
        (∀ q, Seen s 0 [0x61] q → ∃ q' ≤ q, Below s log 0 q' ∧ Findable s [0x61] q') ∧
        (∀ q, Below s log 0 q → Carries s [0x61] q →
          ∃ q', Below s log 0 q' ∧ Findable s [0x61] q')) := by
  have ran : history hiertree_init oneChild = some (_, _) := rfl
  exact ⟨_, _, ran, NAME_TO_INDEX_scoped_iff ran (by decide) (by decide) _⟩

/-- A root with three children. -/
def threeChildren : List Call :=
  [.set_root plainData, .set_child 0 1 plainData, .set_child 0 2 plainData,
    .set_child 0 3 namedData]

/-- The second child hangs beside the root, and the third beside the second. -/
def besideRoot : State where
  heap :=
    [{ new_root plainData with child := some 1, sibling := some 2 }, new_child 1 plainData,
      { new_child 2 plainData with sibling := some 3 }, new_child 3 namedData]
  g_hiertree := { num := 4, nodeIndexs := [0, 1, 2, 3], rootIndex := 0, root := some 0 }

/-- All four calls made a node. -/
def threeLog : List (Call × Option Ptr) := threeChildren.zip [some 0, some 1, some 2, some 3]

theorem threeChildren_run : history hiertree_init threeChildren = some (besideRoot, threeLog) := by
  decide

/-- The lookup from the second child finds the third. -/
theorem sibling_found :
    ¬ ∀ (calls : List Call) (s : State) (log : List (Call × Option Ptr)) (p : Ptr)
      (name : List Byte), history hiertree_init calls = some (s, log) →
      s.g_hiertree.nodeIndexs.Nodup → p < s.heap.length → Scoped s log p name := by
  intro always
  obtain ⟨i, returned, inside, -⟩ :=
    always _ _ _ 2 [0x61] threeChildren_run (by decide) (by decide)
  have third : NAME_TO_INDEX besideRoot (some 2) [0x61] = some 3 := by decide
  obtain rfl := Option.some.inj (returned.symm.trans third)
  obtain ⟨q, node, read, index_eq, -, below⟩ := inside (by decide)
  rcases below.cases_head with rfl | ⟨q', ⟨parent, index, data, read', member⟩, -⟩
  · cases Option.some.inj read
    exact absurd index_eq (by decide)
  · -- no call names the second child as parent
    cases Option.some.inj read'
    simp [threeLog, threeChildren, new_child] at member

end CFunc.Clibs.Tree
