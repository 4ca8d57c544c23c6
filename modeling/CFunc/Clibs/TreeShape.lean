import CFunc.Clibs.TreeHistory

/-!
The shape `set_child` builds.

The first child of a node hangs on its `child` field. A second one should hang
behind the first, but `set_child` walks the siblings of the parent, so it ends
up beside the parent.
-/

namespace CFunc.Clibs.Tree

open CFunc.Lib.LinkedTree

/-- The parents the `set_child` calls of a history name. -/
def parentIndexes (calls : List Call) : List CInt :=
  calls.filterMap fun
    | .set_root _ => none
    | .set_child parentIndex _ _ => some parentIndex

/-- The indices inserted under a parent, in order of insertion. -/
def insertedUnder (calls : List Call) (parent : CInt) : List CInt :=
  calls.filterMap fun
    | .set_root _ => none
    | .set_child parentIndex index _ => if parentIndex = parent then some index else none

/-- The indices along `node->child`, `node->child->sibling`, and so on. -/
def childIndexes (heap : List HierNode) (node : HierNode) : List (Option CInt) :=
  (chain link heap heap.length node.child).map fun p => (heap[p]?).map HierNode.index

/-- Every node has the children it was told to have. -/
def ChainsAsTold (s : State) (calls : List Call) : Prop :=
  ∀ (p : Ptr) (node : HierNode), s.heap[p]? = some node →
    childIndexes s.heap node = (insertedUnder calls node.index).map some

def Succeeded (log : List (Call × Option Ptr)) : Prop :=
  ∀ entry ∈ log, entry.2 ≠ none

instance (log : List (Call × Option Ptr)) : Decidable (Succeeded log) :=
  inferInstanceAs (Decidable (∀ entry ∈ log, entry.2 ≠ none))

theorem insertedUnder_append (calls : List Call) (parentIndex index : CInt) (data : NodeData)
    (parent : CInt) : insertedUnder (calls ++ [.set_child parentIndex index data]) parent =
      insertedUnder calls parent ++ if parentIndex = parent then [index] else [] := by
  by_cases same : parentIndex = parent <;> simp [insertedUnder, List.filterMap_append, same]

theorem length_insertedUnder (calls : List Call) (parent : CInt) :
    (insertedUnder calls parent).length = (parentIndexes calls).count parent := by
  induction calls with
  | nil => rfl
  | cons c calls ih =>
      cases c with
      | set_root data => exact ih
      | set_child parentIndex index data =>
          by_cases same : parentIndex = parent
          · subst same
            simpa [insertedUnder, parentIndexes] using ih
          · simpa [insertedUnder, parentIndexes, same] using ih

theorem insertedUnder_eq_nil {calls : List Call} {parent : CInt}
    (none : parent ∉ parentIndexes calls) : insertedUnder calls parent = [] :=
  List.length_eq_zero_iff.mp
    ((length_insertedUnder calls parent).trans (List.count_eq_zero_of_not_mem none))

/-! ### What one insertion does to the nodes -/

theorem Attached.old_or_new {heap heap' : List HierNode} {new : HierNode}
    {parent_node holder : Ptr} {slot : Slot} (att : Attached heap heap' new parent_node holder slot)
    {p : Ptr} {node' : HierNode} (read' : heap'[p]? = some node') :
    (p = heap.length ∧ node'.index = new.index ∧ ∀ s, link s node' = none) ∨
    ∃ node, heap[p]? = some node ∧ node'.index = node.index ∧
      ∀ s, link s node' = link s node ∨
        (p = holder ∧ s = slot ∧ link s node = none ∧ link s node' = some heap.length) := by
  have content_at := congrArg (·[p]?) att.contents
  simp only [List.getElem?_map, read', Option.map_some] at content_at
  have bound := att.length_eq ▸ (List.getElem?_eq_some_iff.mp read').1
  rcases Nat.lt_succ_iff_lt_or_eq.mp bound with old | rfl
  · right
    rw [List.getElem?_append_left (by simpa using old), List.getElem?_map] at content_at
    obtain ⟨node, read, same⟩ := Option.map_eq_some_iff.mp content_at.symm
    refine ⟨node, read, (congrArg Prod.fst same).symm, fun s => ?_⟩
    by_cases here : p = holder
    · subst here
      obtain ⟨c, c', read_c, read_c', empty, linked, others⟩ := att.graft.holder
      obtain rfl := Option.some.inj (read.symm.trans read_c)
      obtain rfl := Option.some.inj (read'.symm.trans read_c')
      by_cases slot_eq : s = slot
      · exact .inr ⟨rfl, slot_eq, slot_eq ▸ empty, slot_eq ▸ linked⟩
      · exact .inl (others s slot_eq)
    · have kept := (att.graft.rest p old here).trans read
      exact .inl (congrArg (link s) (Option.some.inj (read'.symm.trans kept)))
  · left
    obtain ⟨n, read_n, free⟩ := att.graft.fresh
    obtain rfl := Option.some.inj (read'.symm.trans read_n)
    rw [List.getElem?_append_right (by simp)] at content_at
    simp only [List.length_map, Nat.sub_self, List.getElem?_cons_zero, Option.some.injEq]
      at content_at
    exact ⟨rfl, congrArg Prod.fst content_at, free⟩

theorem Attached.read_new {heap heap' : List HierNode} {new : HierNode}
    {parent_node holder : Ptr} {slot : Slot}
    (att : Attached heap heap' new parent_node holder slot) :
    ∃ node, heap'[heap.length]? = some node ∧ node.index = new.index := by
  obtain ⟨node, read, _⟩ := att.graft.fresh
  rcases att.old_or_new read with ⟨_, same, _⟩ | ⟨node', read', _⟩
  · exact ⟨node, read, same⟩
  · simp at read'

/-- The index of a stored node outlives an insertion. -/
theorem Attached.index_kept {heap heap' : List HierNode} {new : HierNode}
    {parent_node holder : Ptr} {slot : Slot}
    (att : Attached heap heap' new parent_node holder slot) {p : Ptr} {node : HierNode}
    (read : heap[p]? = some node) : ∃ node', heap'[p]? = some node' ∧ node'.index = node.index := by
  have content_at := congrArg (·[p]?) att.contents
  have bound := (List.getElem?_eq_some_iff.mp read).1
  simp only [List.getElem?_map] at content_at
  rw [List.getElem?_append_left (by simpa using bound), List.getElem?_map, read] at content_at
  obtain ⟨node', read', same⟩ := Option.map_eq_some_iff.mp content_at
  exact ⟨node', read', congrArg Prod.fst same⟩

/-! ### Where the children of a history end up -/

/-- A node without children was given none, and all children but the first are
among the siblings of their parent. -/
structure Told (s : State) (calls : List Call) : Prop where
  known : ∀ i ∈ parentIndexes calls, i ∈ s.g_hiertree.nodeIndexs
  childless : ∀ (p : Ptr) (node : HierNode), s.heap[p]? = some node →
    (node.child = none ↔ insertedUnder calls node.index = [])
  later : ∀ (p : Ptr) (node : HierNode), s.heap[p]? = some node →
    ∀ j ∈ (insertedUnder calls node.index).tail,
    ∃ (q : Ptr) (other : HierNode) (fuel : Nat), s.heap[q]? = some other ∧ other.index = j ∧
      q ∈ chain link s.heap fuel node.sibling

/-- No node has a sibling, and a child is the only one its parent was given. -/
structure Single (s : State) (calls : List Call) : Prop where
  no_sibling : ∀ (p : Ptr) (node : HierNode), s.heap[p]? = some node → node.sibling = none
  only_child : ∀ (p : Ptr) (node : HierNode) (q : Ptr), s.heap[p]? = some node →
    node.child = some q →
    ∃ child : HierNode, s.heap[q]? = some child ∧ insertedUnder calls node.index = [child.index]

section Step

variable {s s' : State} {calls : List Call} {parentIndex index : CInt} {data : NodeData}
  {parent_node holder : Ptr} {parent : HierNode} {slot : Slot}

theorem Told.fresh_empty (told : Told s calls) (fresh : index ∉ s.g_hiertree.nodeIndexs) :
    insertedUnder calls index = [] :=
  insertedUnder_eq_nil fun member => fresh (told.known index member)

theorem Told.fresh_parent (told : Told s calls) (inv : Inv s)
    (fresh : index ∉ s.g_hiertree.nodeIndexs) (read : s.heap[parent_node]? = some parent)
    (named : parent.index = parentIndex) :
    insertedUnder (calls ++ [.set_child parentIndex index data]) index = [] := by
  have other : parentIndex ≠ index := by
    rintro rfl
    exact fresh (named ▸ inv.mem_nodeIndexs read)
  rw [insertedUnder_append, told.fresh_empty fresh, if_neg other, List.append_nil]

theorem Told.step_childless (told : Told s calls) (inv : Inv s)
    (fresh : index ∉ s.g_hiertree.nodeIndexs) (read : s.heap[parent_node]? = some parent)
    (named : parent.index = parentIndex)
    (att : Attached s.heap s'.heap (new_child index data) parent_node holder slot)
    {p : Ptr} {node' : HierNode} (read_p : s'.heap[p]? = some node') : node'.child = none ↔
      insertedUnder (calls ++ [.set_child parentIndex index data]) node'.index = [] := by
  obtain ⟨_, parent', read₀, read', place⟩ := att.place
  obtain rfl := Option.some.inj (read.symm.trans read₀)
  rcases att.old_or_new read_p with ⟨_, index_eq, free⟩ | ⟨node, read_n, index_eq, links⟩
  · have no_child : node'.child = none := free .first
    rw [index_eq]
    exact iff_of_true no_child (told.fresh_parent inv fresh read named)
  · rw [index_eq, insertedUnder_append]
    by_cases here : parentIndex = node.index
    · -- the parent has a child now, whichever branch attached the node
      obtain rfl := inv.index_inj read read_n (named.trans here)
      obtain rfl := Option.some.inj (read.symm.trans read_n)
      obtain rfl := Option.some.inj (read'.symm.trans read_p)
      have has_child : parent'.child ≠ none := by
        rcases place with ⟨_, rfl, rfl⟩ | ⟨has_child, _, same, _⟩
        · obtain ⟨_, _, _, read_h, _, linked, _⟩ := att.graft.holder
          obtain rfl := Option.some.inj (read'.symm.trans read_h)
          rw [link_first] at linked
          simp [linked]
        · rwa [same]
      simp [here, has_child]
    · rw [if_neg here, List.append_nil, ← told.childless p node read_n]
      rcases links .first with same | ⟨rfl, rfl, _⟩
      · rw [link_first, link_first] at same
        rw [same]
      · rcases place with ⟨_, rfl, _⟩ | ⟨_, slot_eq, _⟩
        · obtain rfl := Option.some.inj (read.symm.trans read_n)
          exact absurd named.symm here
        · exact absurd slot_eq (by decide)

/-- A node found among the siblings of an old node stays there. -/
theorem Told.later_kept (told : Told s calls)
    (att : Attached s.heap s'.heap (new_child index data) parent_node holder slot)
    {p : Ptr} {node node' : HierNode} (read_n : s.heap[p]? = some node)
    (links : ∀ s₁, link s₁ node' = link s₁ node ∨
      (p = holder ∧ s₁ = slot ∧ link s₁ node = none ∧ link s₁ node' = some s.heap.length))
    {j : CInt} (member : j ∈ (insertedUnder calls node.index).tail) :
    ∃ (q : Ptr) (other : HierNode) (fuel : Nat), s'.heap[q]? = some other ∧ other.index = j ∧
      q ∈ chain link s'.heap fuel node'.sibling := by
  obtain ⟨q, other, fuel, read_q, index_q, on_chain⟩ := told.later p node read_n j member
  obtain ⟨other', read_q', same⟩ := att.index_kept read_q
  refine ⟨q, other', fuel, read_q', same.trans index_q, ?_⟩
  rcases links .next with same | ⟨_, _, empty, _⟩
  · rw [link_next, link_next] at same
    rw [same]
    exact (att.graft.chain_prefix fuel _).subset on_chain
  · rw [link_next] at empty
    simp [empty] at on_chain

theorem Told.step_later (told : Told s calls) (inv : Inv s)
    (fresh : index ∉ s.g_hiertree.nodeIndexs) (read : s.heap[parent_node]? = some parent)
    (named : parent.index = parentIndex)
    (att : Attached s.heap s'.heap (new_child index data) parent_node holder slot)
    {p : Ptr} {node' : HierNode} (read_p : s'.heap[p]? = some node') {j : CInt}
    (member : j ∈
      (insertedUnder (calls ++ [.set_child parentIndex index data]) node'.index).tail) :
    ∃ (q : Ptr) (other : HierNode) (fuel : Nat), s'.heap[q]? = some other ∧ other.index = j ∧
      q ∈ chain link s'.heap fuel node'.sibling := by
  obtain ⟨_, parent', read₀, read', place⟩ := att.place
  obtain rfl := Option.some.inj (read.symm.trans read₀)
  rcases att.old_or_new read_p with ⟨_, index_eq, free⟩ | ⟨node, read_n, index_eq, links⟩
  · rw [index_eq, new_child, told.fresh_parent inv fresh read named] at member
    exact absurd member List.not_mem_nil
  · rw [index_eq, insertedUnder_append] at member
    by_cases here : parentIndex = node.index
    · obtain rfl := inv.index_inj read read_n (named.trans here)
      obtain rfl := Option.some.inj (read.symm.trans read_n)
      obtain rfl := Option.some.inj (read'.symm.trans read_p)
      rw [if_pos here] at member
      rcases place with ⟨no_child, _⟩ | ⟨has_child, _, _, on_chain⟩
      · simp [(told.childless _ _ read).mp no_child] at member
      · have some_before : insertedUnder calls parent.index ≠ [] :=
          fun empty => has_child ((told.childless _ _ read).mpr empty)
        rw [List.tail_append_of_ne_nil some_before] at member
        rcases List.mem_append.mp member with before | last
        · exact told.later_kept att read_n links before
        · obtain ⟨node_new, read_new, index_new⟩ := att.read_new
          exact ⟨s.heap.length, node_new, _, read_new,
            index_new.trans (List.mem_singleton.mp last).symm, on_chain⟩
    · rw [if_neg here, List.append_nil] at member
      exact told.later_kept att read_n links member

theorem Told.step (told : Told s calls) (inv : Inv s) (fresh : index ∉ s.g_hiertree.nodeIndexs)
    (indices : s'.g_hiertree.nodeIndexs = s.g_hiertree.nodeIndexs ++ [index])
    (read : s.heap[parent_node]? = some parent) (named : parent.index = parentIndex)
    (att : Attached s.heap s'.heap (new_child index data) parent_node holder slot) :
    Told s' (calls ++ [.set_child parentIndex index data]) where
  known := by
    intro i member
    rw [indices]
    refine List.mem_append_left _ ?_
    simp only [parentIndexes, List.filterMap_append, List.filterMap_cons, List.filterMap_nil,
      List.mem_append, List.mem_singleton] at member
    rcases member with earlier | rfl
    · exact told.known i earlier
    · exact named ▸ inv.mem_nodeIndexs read
  childless := fun _ _ read_p => told.step_childless inv fresh read named att read_p
  later := fun _ _ read_p _ member => told.step_later inv fresh read named att read_p member

theorem Single.step (single : Single s calls) (told : Told s calls)
    (read : s.heap[parent_node]? = some parent) (named : parent.index = parentIndex)
    (first : parentIndex ∉ parentIndexes calls)
    (att : Attached s.heap s'.heap (new_child index data) parent_node holder slot) :
    Single s' (calls ++ [.set_child parentIndex index data]) := by
  obtain ⟨_, parent', read₀, read', place⟩ := att.place
  obtain rfl := Option.some.inj (read.symm.trans read₀)
  have none_before := insertedUnder_eq_nil first
  have no_child : parent.child = none := (told.childless _ _ read).mpr (named ▸ none_before)
  obtain ⟨rfl, rfl⟩ : holder = parent_node ∧ slot = .first := by
    rcases place with ⟨_, rest⟩ | ⟨has_child, _⟩
    · exact rest
    · exact absurd no_child has_child
  refine ⟨?_, ?_⟩
  · intro p node' read_p
    rcases att.old_or_new read_p with ⟨_, _, free⟩ | ⟨node, read_n, _, links⟩
    · exact free .next
    · rcases links .next with same | ⟨_, slot_eq, _⟩
      · exact same.trans (single.no_sibling p node read_n)
      · exact absurd slot_eq (by decide)
  · intro p node' q read_p child_q
    rcases att.old_or_new read_p with ⟨_, _, free⟩ | ⟨node, read_n, index_eq, links⟩
    · exact absurd (child_q.symm.trans (free .first)) nofun
    · rw [insertedUnder_append, index_eq]
      rcases links .first with same | ⟨rfl, _, _, linked⟩
      · obtain ⟨child, read_q, only⟩ := single.only_child p node q read_n (same.symm.trans child_q)
        obtain ⟨child', read_q', kept⟩ := att.index_kept read_q
        have other : parentIndex ≠ node.index := by
          rintro same
          rw [← same, none_before] at only
          exact absurd only nofun
        exact ⟨child', read_q', by rw [if_neg other, List.append_nil, only, kept]⟩
      · obtain rfl := Option.some.inj (read.symm.trans read_n)
        obtain ⟨child, read_q, index_q⟩ := att.read_new
        obtain rfl := Option.some.inj (child_q.symm.trans linked)
        exact ⟨child, read_q, by simp [named, none_before, index_q, new_child]⟩

end Step

theorem told_root {s : State} (data : NodeData) (heap : s.heap = [new_root data]) :
    Told s [.set_root data] ∧ Single s [.set_root data] := by
  have only : ∀ {p : Ptr} {node : HierNode}, s.heap[p]? = some node → node = new_root data := by
    intro p node read
    have member := List.mem_of_getElem? read
    rw [heap] at member
    exact List.mem_singleton.mp member
  refine ⟨⟨by simp [parentIndexes], fun p node read => ?_, by simp [insertedUnder]⟩,
    fun p node read => ?_, fun p node q read child => ?_⟩
  · exact iff_of_true (by rw [only read]; rfl) rfl
  · rw [only read]
    rfl
  · rw [only read] at child
    exact absurd child nofun

/-- What is known of a history all of whose calls returned a node. -/
def ToldSoFar (s : State) (log : List (Call × Option Ptr)) : Prop :=
  Succeeded log → log ≠ [] → Told s (log.map Prod.fst) ∧
    ((parentIndexes (log.map Prod.fst)).Nodup → Single s (log.map Prod.fst))

theorem ToldSoFar.step {s s' : State} {log : List (Call × Option Ptr)} {c : Call} {r : Option Ptr}
    (inv : Inv s) (logged : Logged s log) (so_far : ToldSoFar s log)
    (fresh : c.index ∉ s.g_hiertree.nodeIndexs) (proper : c.index ≠ -1)
    (ran : c.run s = some (s', r)) : ToldSoFar s' (log ++ [(c, r)]) := by
  intro succeeded _
  obtain ⟨before, returned⟩ : Succeeded log ∧ r ≠ none := by
    refine ⟨fun entry member => succeeded entry (List.mem_append_left _ member), ?_⟩
    exact succeeded (c, r) (by simp)
  have all_counted : log.filter (·.2.isSome) = log :=
    List.filter_eq_self.mpr fun entry member => Option.isSome_iff_ne_none.mpr (before entry member)
  have inserted := logged.inserted
  rw [all_counted] at inserted
  cases c with
  | set_root data =>
      obtain ⟨empty, _, _, _, heap⟩ := set_root_spec inv data fresh
      have none_before : log = [] := by
        rw [inv.indices, empty] at inserted
        exact List.map_eq_nil_iff.mp inserted.symm
      obtain ⟨rfl, rfl⟩ : (set_root s data).1 = s' ∧ (set_root s data).2 = r := by
        simpa [Call.run, Prod.ext_iff] using ran
      subst none_before
      obtain ⟨told, single⟩ := told_root data heap
      exact ⟨told, fun _ => single⟩
  | set_child parentIndex index data =>
      rcases set_child_cases inv parentIndex data fresh proper with
        ⟨_, refused⟩ | ⟨t, p, parent, holder, slot, made, _, indices, read, named, att⟩
      · obtain ⟨rfl, rfl⟩ : s = s' ∧ none = r := by
          simpa using (Option.some.inj (refused.symm.trans ran))
        exact absurd rfl returned
      · obtain ⟨rfl, rfl⟩ : t = s' ∧ some s.heap.length = r := by
          simpa using (Option.some.inj (made.symm.trans ran))
        have some_before : log ≠ [] := by
          rintro rfl
          have member := inv.mem_nodeIndexs read
          rw [inserted] at member
          exact absurd member List.not_mem_nil
        obtain ⟨told, single⟩ := so_far before some_before
        rw [List.map_append, List.map_singleton]
        refine ⟨told.step inv fresh indices read named att, fun parents => ?_⟩
        simp only [parentIndexes, List.filterMap_append, List.filterMap_cons, List.filterMap_nil,
          List.nodup_append, List.mem_singleton] at parents
        exact (single parents.1).step told read named
          (fun member => parents.2.2 _ member _ rfl rfl) att

/-! ### When the chains are as told -/

theorem Single.chainsAsTold {s : State} {calls : List Call} (single : Single s calls)
    (told : Told s calls) : ChainsAsTold s calls := by
  intro p node read
  cases child_eq : node.child with
  | none => simp [childIndexes, child_eq, (told.childless p node read).mp child_eq]
  | some q =>
      obtain ⟨child, read_q, only⟩ := single.only_child p node q read child_eq
      have no_sibling := single.no_sibling q child read_q
      obtain ⟨fuel, fuel_eq⟩ : ∃ k, s.heap.length = k + 1 :=
        ⟨s.heap.length - 1, by have := (List.getElem?_eq_some_iff.mp read).1; omega⟩
      simp [childIndexes, child_eq, fuel_eq, chain, read_q, no_sibling, only]

/-- A second child is among the siblings of its parent, so it is not among the children. -/
theorem Told.parents_nodup {s : State} {calls : List Call} (told : Told s calls) (inv : Inv s)
    (as_told : ChainsAsTold s calls) : (parentIndexes calls).Nodup := by
  refine List.nodup_iff_count_le_one.mpr fun parent => ?_
  by_contra many
  rw [← length_insertedUnder, not_le] at many
  have named : parent ∈ parentIndexes calls := by
    refine List.count_pos_iff.mp ?_
    rw [← length_insertedUnder]
    omega
  obtain ⟨p, node, read, rfl, _⟩ := inv.get_node_by_index_of_mem (told.known parent named)
  obtain ⟨j, second⟩ : ∃ j, j ∈ (insertedUnder calls node.index).tail :=
    List.exists_mem_of_length_pos (by rw [List.length_tail]; omega)
  obtain ⟨q, other, fuel, read_q, index_q, beside_q⟩ := told.later p node read j second
  have below_j : some j ∈ childIndexes s.heap node := by
    rw [as_told p node read]
    exact List.mem_map_of_mem (List.mem_of_mem_tail second)
  obtain ⟨q', below_q, index_q'⟩ := List.mem_map.mp below_j
  obtain ⟨other', read_q', same⟩ := Option.map_eq_some_iff.mp index_q'
  obtain rfl := inv.index_inj read_q read_q' (index_q.trans same.symm)
  obtain ⟨t, rep, perm⟩ := inv.shape
  obtain ⟨_, l, r, read₀, below, beside, apart, _⟩ :=
    rep.at_address (perm.nodup_iff.mpr List.nodup_range)
      (perm.mem_iff.mpr (List.mem_range.mpr (List.getElem?_eq_some_iff.mp read).1))
  obtain rfl := Option.some.inj (read.symm.trans read₀)
  rw [link_first] at below
  rw [link_next] at beside
  have in_left := spine_subset_preorder l (below.chain_subset_spine _ below_q)
  have in_right := spine_subset_preorder r (beside.chain_subset_spine _ beside_q)
  exact (List.nodup_append.mp (List.nodup_cons.mp apart).2).2.2 _ in_left _ in_right rfl

/-- The chains spell the tree that was asked for exactly when every parent was
named once: for each history of one `set_root` and successful `set_child` calls. -/
theorem chainsAsTold_iff (root : NodeData) (calls : List Call)
    (children : ∀ c ∈ calls, c.isRoot = false) (distinct : (newIndexes calls).Nodup)
    (nonzero : 0 ∉ newIndexes calls) (proper : -1 ∉ newIndexes calls) :
    ∃ s log, history hiertree_init (.set_root root :: calls) = some (s, log) ∧
      (Succeeded log → (ChainsAsTold s calls ↔ (parentIndexes calls).Nodup)) := by
  have one_root : (Call.set_root root :: calls).countP Call.isRoot ≤ 1 := by
    rw [List.countP_cons, List.countP_eq_zero.mpr fun c member => by simp [children c member]]
    split <;> omega
  have no_null : -1 ∉ (Call.set_root root :: calls).map Call.index := fun member => by
    obtain ⟨_, _, _, zero⟩ := mem_map_index member proper
    exact absurd zero (by decide)
  obtain ⟨s, log, ran, inv, _, calls_eq, so_far⟩ :=
    history_inv ToldSoFar (fun _ some => absurd rfl some)
      (fun _ _ _ _ _ inv logged so_far fresh proper ran =>
        so_far.step inv logged fresh proper ran)
      _ (nodup_map_index one_root distinct nonzero) no_null
  refine ⟨s, log, ran, fun succeeded => ?_⟩
  have some_log : log ≠ [] := by
    rintro rfl
    exact absurd calls_eq nofun
  obtain ⟨told, single⟩ := so_far succeeded some_log
  rw [calls_eq] at told single
  have told' : Told s calls := ⟨told.known, told.childless, told.later⟩
  constructor
  · exact told'.parents_nodup inv
  · intro parents
    obtain ⟨no_sibling, only_child⟩ := single parents
    exact Single.chainsAsTold ⟨no_sibling, only_child⟩ told'

/-- A chain of two generations. -/
theorem chainsAsTold_iff_sample :
    let data : NodeData := { id := 7, reg := 0, name := .empty }
    let calls := [Call.set_child 0 1 data, .set_child 1 2 data]
    ∃ s log, history hiertree_init (.set_root data :: calls) = some (s, log) ∧
      (Succeeded log → (ChainsAsTold s calls ↔ (parentIndexes calls).Nodup)) :=
  chainsAsTold_iff _ _ (by decide) (by decide) (by decide) (by decide)

/-- Two children of the root: both calls succeed, and the second child is not
found behind the first. -/
theorem second_child_misplaced :
    let data : NodeData := { id := 7, reg := 0, name := .empty }
    let calls := [Call.set_child 0 1 data, .set_child 0 2 data]
    ∃ s log, history hiertree_init (.set_root data :: calls) = some (s, log) ∧
      Succeeded log ∧ (newIndexes calls).Nodup ∧ 0 ∉ newIndexes calls ∧ -1 ∉ newIndexes calls ∧
      ¬ ChainsAsTold s calls := by
  refine ⟨_, _, rfl, by decide, by decide, by decide, by decide, fun as_told => ?_⟩
  exact absurd (as_told 0 _ rfl) (by decide)

end CFunc.Clibs.Tree
