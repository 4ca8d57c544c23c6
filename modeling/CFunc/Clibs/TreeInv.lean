import CFunc.Clibs.Tree
import Mathlib.Data.Set.Card

/-!
What the operations of the node hierarchy keep.

The heap represents a binary tree whose addresses are all the nodes ever
allocated, so searching and printing are walks over its preorder, and a new
node is a leaf hung on an empty link.
-/

namespace CFunc.Clibs.Tree

open CFunc.Lib.LinkedTree

@[simp] theorem link_first (node : HierNode) : link .first node = node.child := rfl

@[simp] theorem link_next (node : HierNode) : link .next node = node.sibling := rfl

/-! ### The recursions as walks over the represented tree -/

/-- The test `_get_node_by_index` makes at a node. -/
def hasIndex (heap : List HierNode) (index : CInt) (p : Ptr) : Bool :=
  (heap[p]?).any fun node => node.index = index

theorem _get_node_by_index_eq {heap : List HierNode} {index : CInt} (proper : index ≠ -1)
    {p : Option Ptr} {t : BinaryTree Ptr} (rep : Rep link heap p t) {fuel : Nat}
    (enough : t.numNodes ≤ fuel) :
    _get_node_by_index heap index fuel p = some ((preorder t).find? (hasIndex heap index)) := by
  induction rep generalizing fuel with
  | nil => cases fuel <;> simp [_get_node_by_index, preorder]
  | @node a c l r read below beside below_ih beside_ih =>
      simp only [BinaryTree.numNodes] at enough
      obtain ⟨fuel, rfl⟩ : ∃ k, fuel = k + 1 := ⟨fuel - 1, by omega⟩
      have down := below_ih (show l.numNodes ≤ fuel by omega)
      have along := beside_ih (show r.numNodes ≤ fuel by omega)
      simp only [link_first, link_next] at down along
      rw [_get_node_by_index, if_neg proper]
      by_cases same : c.index = index
      · simp [read, same, preorder, hasIndex]
      · simp only [↓reduceIte, read, same, down, along, preorder, List.find?_cons, hasIndex,
          Option.any_some, decide_false, List.find?_append]
        cases (preorder l).find? (hasIndex heap index) <;> rfl

theorem traversal_eq {heap : List HierNode} {p : Option Ptr} {t : BinaryTree Ptr}
    (rep : Rep link heap p t) {fuel : Nat} (enough : t.numNodes ≤ fuel) :
    traversal heap fuel p = some (preorder t) := by
  induction rep generalizing fuel with
  | nil => cases fuel <;> rfl
  | @node a c l r read below beside below_ih beside_ih =>
      simp only [BinaryTree.numNodes] at enough
      obtain ⟨fuel, rfl⟩ : ∃ k, fuel = k + 1 := ⟨fuel - 1, by omega⟩
      have down := below_ih (show l.numNodes ≤ fuel by omega)
      have along := beside_ih (show r.numNodes ≤ fuel by omega)
      simp only [link_first, link_next] at down along
      simp [traversal, read, down, along, preorder]

/-- The sibling walk stops at the end of the chain. -/
theorem walk_siblings_eq {heap : List HierNode} {p : Option Ptr} {t : BinaryTree Ptr}
    (rep : Rep link heap p t) {fuel : Nat} (enough : t.numNodes ≤ fuel) (last_child : Option Ptr) :
    (p = none ∧ walk_siblings heap fuel last_child p = some last_child) ∨
    ∃ last node, walk_siblings heap fuel last_child p = some (some last) ∧ last ∈ spine t ∧
      heap[last]? = some node ∧ node.sibling = none := by
  induction rep generalizing fuel last_child with
  | nil => exact .inl ⟨rfl, by cases fuel <;> rfl⟩
  | @node a c l r read below beside _ beside_ih =>
      simp only [BinaryTree.numNodes] at enough
      obtain ⟨fuel, rfl⟩ : ∃ k, fuel = k + 1 := ⟨fuel - 1, by omega⟩
      right
      rcases beside_ih (show r.numNodes ≤ fuel by omega) (some a) with
        ⟨stop, walk⟩ | ⟨last, node, walk, member, found, free⟩
      · exact ⟨a, c, by simpa [walk_siblings, read] using walk, by simp [spine], read, stop⟩
      · exact ⟨last, node, by simpa [walk_siblings, read] using walk, by simp [spine, member],
          found, free⟩

/-! ### Attaching a fresh node -/

/-- What a node holds beside its links. -/
def content (node : HierNode) : CInt × NodeData := (node.index, node.data)

theorem map_content_modify (heap : List HierNode) (p : Ptr) {f : HierNode → HierNode}
    (same : ∀ node, content (f node) = content node) :
    (heap.modify p f).map content = heap.map content := by
  apply List.ext_getElem?
  intro i
  simp only [List.getElem?_map, List.getElem?_modify]
  split <;> simp [Function.comp_def, same]

theorem grafted_modify {heap : List HierNode} {p : Ptr} {node new : HierNode} {s : Slot}
    {f : HierNode → HierNode} (read : heap[p]? = some node) (free : link s node = none)
    (linked : link s (f node) = some heap.length)
    (others : ∀ s', s' ≠ s → link s' (f node) = link s' node) (fresh : ∀ s', link s' new = none) :
    Grafted link heap ((heap ++ [new]).modify p f) p s := by
  have bound := (List.getElem?_eq_some_iff.mp read).1
  have kept : ∀ b, b < heap.length → (heap ++ [new])[b]? = heap[b]? :=
    fun b lt => List.getElem?_append_left lt
  refine ⟨bound, ⟨node, f node, read, ?_, free, linked, others⟩, ⟨new, ?_, fresh⟩, ?_⟩
  · simp [kept p bound, read]
  · simp [Nat.ne_of_lt bound]
  · intro b lt other
    simp [kept b lt, Ne.symm other]

/-- The place `attach` chooses: below a childless parent, else at the end of
the siblings of the parent itself. -/
structure Attached (heap heap' : List HierNode) (new : HierNode) (parent_node : Ptr)
    (holder : Ptr) (slot : Slot) : Prop where
  graft : Grafted link heap heap' holder slot
  contents : heap'.map content = heap.map content ++ [content new]
  place : ∃ parent parent', heap[parent_node]? = some parent ∧
    heap'[parent_node]? = some parent' ∧
    ((parent.child = none ∧ holder = parent_node ∧ slot = .first) ∨
      (parent.child ≠ none ∧ slot = .next ∧ parent'.child = parent.child ∧
        heap.length ∈ chain link heap' heap'.length parent'.sibling))

theorem Attached.length_eq {heap heap' : List HierNode} {new : HierNode} {parent_node holder : Ptr}
    {slot : Slot} (att : Attached heap heap' new parent_node holder slot) :
    heap'.length = heap.length + 1 := by
  simpa using congrArg List.length att.contents

section Placement

variable {heap : List HierNode} {parent_node : Ptr} {parent new : HierNode}

theorem contents_modify (q : Ptr) {f : HierNode → HierNode}
    (same : ∀ node, content (f node) = content node) :
    ((heap ++ [new]).modify q f).map content = heap.map content ++ [content new] := by
  rw [map_content_modify _ _ same]
  simp

theorem attached_child (read : heap[parent_node]? = some parent) (no_child : parent.child = none)
    (fresh : ∀ s, link s new = none) :
    Attached heap (set_child_link (heap ++ [new]) parent_node heap.length) new parent_node
      parent_node .first := by
  have graft : Grafted link heap (set_child_link (heap ++ [new]) parent_node heap.length)
      parent_node .first :=
    grafted_modify read no_child rfl (fun s' other => by cases s' <;> trivial) fresh
  obtain ⟨_, parent', _, read', _⟩ := graft.holder
  exact ⟨graft, contents_modify _ fun _ => rfl, parent, parent', read, read',
    .inl ⟨no_child, rfl, rfl⟩⟩

theorem attached_sibling (read : heap[parent_node]? = some parent)
    (has_child : parent.child ≠ none) (no_sibling : parent.sibling = none)
    (fresh : ∀ s, link s new = none) :
    Attached heap (set_sibling_link (heap ++ [new]) parent_node heap.length) new parent_node
      parent_node .next := by
  have graft : Grafted link heap (set_sibling_link (heap ++ [new]) parent_node heap.length)
      parent_node .next :=
    grafted_modify read no_sibling rfl (fun s' other => by cases s' <;> trivial) fresh
  obtain ⟨_, parent', read₀, read', _, linked, others⟩ := graft.holder
  obtain rfl := Option.some.inj (read.symm.trans read₀)
  obtain ⟨n, found, _⟩ := graft.fresh
  refine ⟨graft, contents_modify _ fun _ => rfl, parent, parent', read, read',
    .inr ⟨has_child, rfl, others .first (by decide), ?_⟩⟩
  rw [link_next] at linked
  simp [set_sibling_link, linked, chain] at found ⊢

theorem attached_last (read : heap[parent_node]? = some parent) (has_child : parent.child ≠ none)
    {last : Ptr} {node : HierNode} (found : heap[last]? = some node)
    (free : node.sibling = none) (other : last ≠ parent_node)
    (on_chain : last ∈ chain link heap heap.length parent.sibling)
    (fresh : ∀ s, link s new = none) :
    Attached heap (set_sibling_link (heap ++ [new]) last heap.length) new parent_node
      last .next := by
  have graft : Grafted link heap (set_sibling_link (heap ++ [new]) last heap.length) last .next :=
    grafted_modify found free rfl (fun s' other => by cases s' <;> trivial) fresh
  have bound := (List.getElem?_eq_some_iff.mp read).1
  have read' := (graft.rest parent_node bound (Ne.symm other)).trans read
  refine ⟨graft, contents_modify _ fun _ => rfl, parent, parent, read, read',
    .inr ⟨has_child, rfl, rfl, ?_⟩⟩
  simpa [set_sibling_link] using graft.mem_chain on_chain

end Placement

/-- In a heap that represents a tree `attach` returns, by one of its three branches. -/
theorem attach_spec {heap : List HierNode} {p : Option Ptr} {t : BinaryTree Ptr}
    (rep : Rep link heap p t) (nodup : (preorder t).Nodup) {parent_node : Ptr}
    (member : parent_node ∈ preorder t) (new : HierNode) (fresh : ∀ s, link s new = none) :
    ∃ heap' holder slot, attach (heap ++ [new]) parent_node heap.length = some heap' ∧
      holder ∈ preorder t ∧ Attached heap heap' new parent_node holder slot := by
  obtain ⟨parent, l, r, read, below, beside, apart, _, sub⟩ := rep.at_address nodup member
  rw [link_next] at beside
  have read_new : (heap ++ [new])[parent_node]? = some parent :=
    (List.getElem?_append_left (List.getElem?_eq_some_iff.mp read).1).trans read
  simp only [attach, read_new]
  by_cases no_child : parent.child = none
  · rw [if_pos no_child]
    exact ⟨_, parent_node, .first, rfl, member, attached_child read no_child fresh⟩
  · rw [if_neg no_child]
    by_cases no_sibling : parent.sibling = none
    · rw [if_pos no_sibling]
      exact ⟨_, parent_node, .next, rfl, member,
        attached_sibling read no_child no_sibling fresh⟩
    · rw [if_neg no_sibling]
      have small : r.numNodes ≤ heap.length :=
        beside.numNodes_le (List.nodup_append.mp (List.nodup_cons.mp apart).2).2.1
      have beside_new : Rep link (heap ++ [new]) parent.sibling r :=
        beside.frame fun a inside => List.getElem?_append_left (beside.lt_length a inside)
      have fits : r.numNodes ≤ (heap ++ [new]).length := by simp; omega
      rcases walk_siblings_eq beside_new fits none with
        ⟨stop, _⟩ | ⟨last, node, walk, end_of, found, free⟩
      · exact absurd stop no_sibling
      · rw [walk]
        have inside := spine_subset_preorder r end_of
        rw [List.getElem?_append_left (beside.lt_length last inside)] at found
        have other : last ≠ parent_node := by
          rintro rfl
          exact (List.nodup_cons.mp apart).1 (List.mem_append_right _ inside)
        have on_chain : last ∈ chain link heap heap.length parent.sibling := by
          rw [beside.chain_eq_spine small]
          exact end_of
        exact ⟨_, last, .next, rfl, sub inside,
          attached_last read no_child found free other on_chain fresh⟩

/-! ### The invariant of the hierarchy -/

/-- The linked nodes are all the nodes allocated, and the vector holds their distinct indices in
order of allocation. A node may have the index `-1`, under which it is never found. -/
structure Grown (s : State) : Prop where
  shape : ∃ t, Rep link s.heap s.g_hiertree.root t ∧
    (preorder t).Perm (List.range s.heap.length)
  indices : s.g_hiertree.nodeIndexs = s.heap.map HierNode.index
  nodup : s.g_hiertree.nodeIndexs.Nodup
  rooted : s.heap ≠ [] → 0 ∈ s.g_hiertree.nodeIndexs

theorem grown_hiertree_init : Grown hiertree_init where
  shape := ⟨.nil, .nil, .refl _⟩
  indices := rfl
  nodup := List.nodup_nil
  rooted := fun some => absurd rfl some

theorem check_node_index_eq_true {tree : HierTree} {index : CInt} :
    check_node_index tree index = true ↔ index ≠ -1 ∧ index ∈ tree.nodeIndexs := by
  unfold check_node_index
  split <;> simp_all

namespace Grown

variable {s : State}

theorem mem_nodeIndexs (grown : Grown s) {p : Ptr} {node : HierNode}
    (read : s.heap[p]? = some node) : node.index ∈ s.g_hiertree.nodeIndexs := by
  rw [grown.indices]
  exact List.mem_map_of_mem (List.mem_of_getElem? read)

/-- The index of a node is its own. -/
theorem index_inj (grown : Grown s) {p q : Ptr} {node node' : HierNode}
    (read : s.heap[p]? = some node) (read' : s.heap[q]? = some node')
    (same : node.index = node'.index) : p = q := by
  have nodup := grown.indices ▸ grown.nodup
  refine (List.nodup_iff_injective_get.mp nodup).eq_iff (a := ⟨p, ?_⟩) (b := ⟨q, ?_⟩) |>.mp ?_ |>
    congrArg Fin.val
  · simpa using (List.getElem?_eq_some_iff.mp read).1
  · simpa using (List.getElem?_eq_some_iff.mp read').1
  · simp [(List.getElem?_eq_some_iff.mp read).2, (List.getElem?_eq_some_iff.mp read').2, same]

/-- In any list of nodes the search for the index of one of them finds that node. -/
theorem find_index (grown : Grown s) {visits : List Ptr} {p : Ptr} {node : HierNode}
    (read : s.heap[p]? = some node) (member : p ∈ visits) :
    visits.find? (hasIndex s.heap node.index) = some p := by
  cases found : visits.find? (hasIndex s.heap node.index) with
  | none =>
      have missing := List.find?_eq_none.mp found p member
      simp [hasIndex, read] at missing
  | some q =>
      have test := List.find?_some found
      simp only [hasIndex, Option.any_eq_true, decide_eq_true_eq] at test
      obtain ⟨node', read', same⟩ := test
      rw [grown.index_inj read' read same]

/-- Every node is found under its own index, if that is not `-1`. -/
theorem get_node_by_index_eq (grown : Grown s) {p : Ptr} {node : HierNode}
    (read : s.heap[p]? = some node) (proper : node.index ≠ -1) :
    get_node_by_index s node.index = some (some p) := by
  obtain ⟨t, rep, perm⟩ := grown.shape
  have member := grown.mem_nodeIndexs read
  have small : t.numNodes ≤ s.heap.length := rep.numNodes_le (perm.nodup_iff.mpr List.nodup_range)
  have inside : p ∈ preorder t :=
    perm.mem_iff.mpr (List.mem_range.mpr (List.getElem?_eq_some_iff.mp read).1)
  rw [get_node_by_index, if_neg (not_not.mpr (check_node_index_eq_true.mpr ⟨proper, member⟩)),
    _get_node_by_index_eq proper rep small, grown.find_index read inside]

theorem exists_of_mem (grown : Grown s) {index : CInt}
    (member : index ∈ s.g_hiertree.nodeIndexs) :
    ∃ (p : Ptr) (node : HierNode), s.heap[p]? = some node ∧ node.index = index := by
  rw [grown.indices] at member
  obtain ⟨node, stored, rfl⟩ := List.mem_map.mp member
  obtain ⟨p, bound, read⟩ := List.getElem_of_mem stored
  exact ⟨p, node, List.getElem?_eq_some_iff.mpr ⟨bound, read⟩, rfl⟩

/-- A fresh node linked into the hierarchy, and recorded in the vector. -/
theorem grow (grown : Grown s) {heap' : List HierNode} {tree' : HierTree} (new : HierNode)
    (shape : ∃ t, Rep link heap' tree'.root t ∧ (preorder t).Perm (List.range heap'.length))
    (contents : heap'.map content = s.heap.map content ++ [content new])
    (indices : tree'.nodeIndexs = s.g_hiertree.nodeIndexs ++ [new.index])
    (fresh : new.index ∉ s.g_hiertree.nodeIndexs)
    (rooted : 0 ∈ tree'.nodeIndexs) : Grown { heap := heap', g_hiertree := tree' } where
  shape := shape
  indices := by
    have first := congrArg (List.map Prod.fst) contents
    simp only [List.map_map, List.map_append, List.map_cons, List.map_nil] at first
    rw [indices, grown.indices]
    exact first.symm
  nodup := by
    rw [indices, List.nodup_append]
    refine ⟨grown.nodup, List.nodup_singleton _, ?_⟩
    rintro a member b here rfl
    rw [List.mem_singleton.mp here] at member
    exact fresh member
  rooted := fun _ => rooted

/-- All that `set_child` can do: it refuses an unknown parent and changes nothing, or it attaches
one node to the hierarchy, and a fresh index keeps the records in step. -/
theorem set_child_cases (grown : Grown s) (parentIndex index : CInt) (data : NodeData) :
    ((parentIndex = -1 ∨ parentIndex ∉ s.g_hiertree.nodeIndexs) ∧
      set_child s parentIndex index data = some (s, none)) ∨
    ∃ s' parent_node parent holder slot,
      set_child s parentIndex index data = some (s', some s.heap.length) ∧
      (index ∉ s.g_hiertree.nodeIndexs → Grown s') ∧
      s'.g_hiertree.nodeIndexs = s.g_hiertree.nodeIndexs ++ [index] ∧
      s'.g_hiertree.num = s.g_hiertree.num + 1 ∧
      s.heap[parent_node]? = some parent ∧ parent.index = parentIndex ∧
      Attached s.heap s'.heap (new_child index data) parent_node holder slot := by
  by_cases known : check_node_index s.g_hiertree parentIndex = true
  · right
    obtain ⟨not_null, member⟩ := check_node_index_eq_true.mp known
    obtain ⟨parent_node, parent, read, rfl⟩ := grown.exists_of_mem member
    have found := grown.get_node_by_index_eq read not_null
    obtain ⟨t, rep, perm⟩ := grown.shape
    have nodup : (preorder t).Nodup := perm.nodup_iff.mpr List.nodup_range
    have inside : parent_node ∈ preorder t :=
      perm.mem_iff.mpr (List.mem_range.mpr (List.getElem?_eq_some_iff.mp read).1)
    obtain ⟨heap', holder, slot, attached, held, att⟩ :=
      attach_spec rep nodup inside (new_child index data) (fun s => by cases s <;> rfl)
    let tree : HierTree :=
      { s.g_hiertree with
        nodeIndexs := s.g_hiertree.nodeIndexs ++ [index]
        num := s.g_hiertree.num + 1 }
    refine ⟨⟨heap', tree⟩, parent_node, parent, holder, slot, ?_, fun fresh => ?_, rfl, rfl, read,
      rfl, att⟩
    · rw [set_child, if_neg (not_not.mpr known), found]
      simp only [attached]
      rfl
    · refine grown.grow (new_child index data) ?_ att.contents rfl fresh
        (List.mem_append_left _ (grown.rooted fun empty => by simp [empty] at read))
      obtain ⟨t', rep', perm'⟩ := att.graft.rep rep nodup held
      refine ⟨t', rep', ?_⟩
      rw [att.length_eq, List.range_succ]
      exact (perm'.trans (perm.cons _)).trans (List.perm_append_singleton _ _).symm
  · left
    refine ⟨?_, if_pos known⟩
    rwa [check_node_index_eq_true, not_and_or, not_not] at known

theorem set_root_spec (grown : Grown s) (data : NodeData) (fresh : 0 ∉ s.g_hiertree.nodeIndexs) :
    s.heap = [] ∧ (set_root s data).1.heap = [new_root data] ∧ Grown (set_root s data).1 := by
  have empty : s.heap = [] := by
    by_contra some
    exact fresh (grown.rooted some)
  have heap : (set_root s data).1.heap = [new_root data] := by simp [set_root, empty]
  refine ⟨empty, heap, ?_⟩
  refine grown.grow (new_root data) ⟨.node 0 .nil .nil, ?_, ?_⟩ (by simp) rfl fresh
    (List.mem_append_right _ (by simp))
  · simp only [empty, List.length_nil]
    exact .node rfl .nil .nil
  · simp [preorder, empty]

end Grown

/-- The three records of the nodes agree: the linked nodes are all the nodes
allocated, the vector holds their indices in order of allocation, and `num`
counts them. -/
structure Inv (s : State) : Prop where
  shape : ∃ t, Rep link s.heap s.g_hiertree.root t ∧
    (preorder t).Perm (List.range s.heap.length)
  indices : s.g_hiertree.nodeIndexs = s.heap.map HierNode.index
  nodup : s.g_hiertree.nodeIndexs.Nodup
  proper : -1 ∉ s.g_hiertree.nodeIndexs
  rooted : s.heap ≠ [] → 0 ∈ s.g_hiertree.nodeIndexs
  num : s.g_hiertree.num = BitVec.ofNat 32 s.g_hiertree.nodeIndexs.length

theorem Inv.grown {s : State} (inv : Inv s) : Grown s :=
  ⟨inv.shape, inv.indices, inv.nodup, inv.rooted⟩

theorem Grown.inv {s : State} (grown : Grown s) (proper : -1 ∉ s.g_hiertree.nodeIndexs)
    (num : s.g_hiertree.num = BitVec.ofNat 32 s.g_hiertree.nodeIndexs.length) : Inv s :=
  ⟨grown.shape, grown.indices, grown.nodup, proper, grown.rooted, num⟩

theorem inv_hiertree_init : Inv hiertree_init :=
  grown_hiertree_init.inv (by simp [hiertree_init]) rfl

namespace Inv

variable {s : State}

theorem mem_nodeIndexs (inv : Inv s) {p : Ptr} {node : HierNode}
    (read : s.heap[p]? = some node) : node.index ∈ s.g_hiertree.nodeIndexs :=
  inv.grown.mem_nodeIndexs read

/-- The index of a node is its own. -/
theorem index_inj (inv : Inv s) {p q : Ptr} {node node' : HierNode}
    (read : s.heap[p]? = some node) (read' : s.heap[q]? = some node')
    (same : node.index = node'.index) : p = q :=
  inv.grown.index_inj read read' same

/-- Every node is found under its own index. -/
theorem get_node_by_index_eq (inv : Inv s) {p : Ptr} {node : HierNode}
    (read : s.heap[p]? = some node) : get_node_by_index s node.index = some (some p) := by
  apply inv.grown.get_node_by_index_eq read
  intro same
  exact inv.proper (same ▸ inv.mem_nodeIndexs read)

theorem get_node_by_index_of_mem (inv : Inv s) {index : CInt}
    (member : index ∈ s.g_hiertree.nodeIndexs) :
    ∃ p node, s.heap[p]? = some node ∧ node.index = index ∧
      get_node_by_index s index = some (some p) := by
  obtain ⟨p, node, read, rfl⟩ := inv.grown.exists_of_mem member
  exact ⟨p, node, read, rfl, inv.get_node_by_index_eq read⟩

end Inv

/-! ### Steps -/

/-- A fresh node recorded in the vector and in `num`. -/
theorem Inv.grow {s s' : State} (inv : Inv s) {index : CInt} (grown : Grown s')
    (indices : s'.g_hiertree.nodeIndexs = s.g_hiertree.nodeIndexs ++ [index])
    (num : s'.g_hiertree.num = s.g_hiertree.num + 1) (proper : index ≠ -1) : Inv s' := by
  apply grown.inv
  · rw [indices]
    simpa using ⟨inv.proper, proper.symm⟩
  · rw [num, inv.num, indices, List.length_append, List.length_singleton, BitVec.ofNat_add]
    rfl

/-- All that `set_child` can do: it refuses an unknown parent and changes
nothing, or it attaches one fresh node to the hierarchy. -/
theorem set_child_cases {s : State} (inv : Inv s) (parentIndex : CInt) {index : CInt}
    (data : NodeData) (fresh : index ∉ s.g_hiertree.nodeIndexs) (proper : index ≠ -1) :
    (parentIndex ∉ s.g_hiertree.nodeIndexs ∧ set_child s parentIndex index data = some (s, none)) ∨
    ∃ s' parent_node parent holder slot,
      set_child s parentIndex index data = some (s', some s.heap.length) ∧ Inv s' ∧
      s'.g_hiertree.nodeIndexs = s.g_hiertree.nodeIndexs ++ [index] ∧
      s.heap[parent_node]? = some parent ∧ parent.index = parentIndex ∧
      Attached s.heap s'.heap (new_child index data) parent_node holder slot := by
  rcases inv.grown.set_child_cases parentIndex index data with
    ⟨unknown | unknown, refused⟩ |
    ⟨s', parent_node, parent, holder, slot, made, grown, indices, num, read, named, att⟩
  · exact .inl ⟨unknown ▸ inv.proper, refused⟩
  · exact .inl ⟨unknown, refused⟩
  · right
    exact ⟨s', parent_node, parent, holder, slot, made, inv.grow (grown fresh) indices num proper,
      indices, read, named, att⟩

theorem set_root_spec {s : State} (inv : Inv s) (data : NodeData)
    (fresh : 0 ∉ s.g_hiertree.nodeIndexs) :
    s.heap = [] ∧ (set_root s data).2 = some s.heap.length ∧ Inv (set_root s data).1 ∧
      (set_root s data).1.g_hiertree.nodeIndexs = s.g_hiertree.nodeIndexs ++ [0] ∧
      (set_root s data).1.heap = [new_root data] := by
  obtain ⟨empty, heap, grown⟩ := inv.grown.set_root_spec data fresh
  exact ⟨empty, rfl, inv.grow grown rfl rfl (by decide), rfl, heap⟩

end CFunc.Clibs.Tree
