import CFunc.Lib.Graph
import Mathlib.Algebra.Order.Monoid.Defs

/-!
Label-setting search in a weighted directed multigraph.

`Search E s D skip labelled d parent` is a search from `s` under way: the nodes
`D` have been settled in this order, the labelled nodes have a tentative
distance and a parent among the settled, and every edge out of `D` is relaxed
but those of `skip`. A search settles a labelled node of least label, relaxes
the edges out of it, and is over when no labelled node is left outside `D`;
`Search.settled` then gives the certificate of shortest walks.
-/

namespace CFunc.Lib.Graph

variable {V W : Type} [DecidableEq V] [AddCommMonoid W] [LinearOrder W] [IsOrderedAddMonoid W]

structure Search (E : List (Edge V W)) (s : V) (D : List V) (skip : Edge V W → Prop)
    (labelled : V → Prop) (d : V → W) (parent : V → V) : Prop where
  source : s ∈ D
  source_zero : d s = 0
  distinct : D.Nodup
  settled_labelled : ∀ v ∈ D, labelled v
  attained : ∀ v, labelled v → v ≠ s →
    parent v ∈ D ∧ (v ∈ D → D.idxOf (parent v) < D.idxOf v) ∧
      ∃ e ∈ E, e.src = parent v ∧ e.dst = v ∧ d v = d (parent v) + e.w
  relaxed : ∀ e ∈ E, e.src ∈ D → ¬ skip e → labelled e.dst ∧ d e.dst ≤ d e.src + e.w
  ordered : ∀ x ∈ D, ∀ v, v ∉ D → labelled v → d x ≤ d v

namespace Search

variable {E : List (Edge V W)} {s u v : V} {D : List V} {skip skip' : Edge V W → Prop}
  {labelled : V → Prop} {d : V → W} {parent : V → V}

omit [IsOrderedAddMonoid W] in
/-- Edges that were relaxed need not be skipped any longer. -/
theorem weaken (search : Search E s D skip labelled d parent)
    (relaxed : ∀ e ∈ E, e.src ∈ D → skip e → ¬ skip' e →
      labelled e.dst ∧ d e.dst ≤ d e.src + e.w) :
    Search E s D skip' labelled d parent := by
  refine { search with relaxed := ?_ }
  intro e mem src keep
  by_cases waived : skip e
  · exact relaxed e mem src waived keep
  · exact search.relaxed e mem src waived

omit [IsOrderedAddMonoid W] in
/-- A labelled node of least label is settled; the edges out of it are still to be relaxed. -/
theorem settle (search : Search E s D (fun _ => False) labelled d parent) (fresh : u ∉ D)
    (has_label : labelled u) (least : ∀ v, v ∉ D → labelled v → d u ≤ d v) :
    Search E s (D ++ [u]) (fun e => e.src = u) labelled d parent where
  source := List.mem_append_left _ search.source
  source_zero := search.source_zero
  distinct := by
    apply search.distinct.append (List.nodup_singleton u)
    rw [List.disjoint_singleton]
    exact fresh
  settled_labelled v mem := by
    cases List.mem_append.mp mem with
    | inl old => exact search.settled_labelled v old
    | inr new => exact List.mem_singleton.mp new ▸ has_label
  attained v label ne := by
    obtain ⟨parent_mem, before, edge⟩ := search.attained v label ne
    refine ⟨List.mem_append_left _ parent_mem, ?_, edge⟩
    intro _
    rw [List.idxOf_append_of_mem parent_mem]
    by_cases old : v ∈ D
    · rw [List.idxOf_append_of_mem old]
      exact before old
    · rw [List.idxOf_append_of_notMem old]
      exact (List.idxOf_lt_length_of_mem parent_mem).trans_le (Nat.le_add_right _ _)
  relaxed e mem src keep := by
    cases List.mem_append.mp src with
    | inl old => exact search.relaxed e mem old id
    | inr new => exact absurd (List.mem_singleton.mp new) keep
  ordered x mem v outside label := by
    rw [List.mem_append, not_or] at outside
    cases List.mem_append.mp mem with
    | inl old => exact search.ordered x old v outside.1 label
    | inr new => exact List.mem_singleton.mp new ▸ least v outside.1 label

/-- An edge `u → v` gives the unsettled node `v` its first or a smaller label. -/
theorem improve (search : Search E s D skip labelled d parent) (settled : u ∈ D)
    (top : ∀ x ∈ D, d x ≤ d u) (fresh : v ∉ D) {e : Edge V W} (mem : e ∈ E) (src : e.src = u)
    (dst : e.dst = v) (nonneg : 0 ≤ e.w) (smaller : labelled v → d u + e.w ≤ d v) :
    Search E s D skip (fun x => labelled x ∨ x = v) (Function.update d v (d u + e.w))
      (Function.update parent v u) := by
  have other : ∀ x ∈ D, x ≠ v := fun x mem eq => fresh (eq ▸ mem)
  have same : ∀ x ∈ D, Function.update d v (d u + e.w) x = d x := fun x mem =>
    Function.update_of_ne (other x mem) _ _
  refine ⟨search.source, (same s search.source).trans search.source_zero, search.distinct,
    fun x mem => .inl (search.settled_labelled x mem), ?attained, ?relaxed, ?ordered⟩
  case attained =>
    intro x label ne
    by_cases at_v : x = v
    · subst at_v
      rw [Function.update_self, Function.update_self, same u settled]
      exact ⟨settled, fun old => absurd old fresh, e, mem, src, dst, rfl⟩
    · have had := label.resolve_right at_v
      obtain ⟨parent_mem, before, e', mem', src', dst', eq⟩ := search.attained x had ne
      rw [Function.update_of_ne at_v, Function.update_of_ne at_v, same _ parent_mem]
      exact ⟨parent_mem, before, e', mem', src', dst', eq⟩
  case relaxed =>
    intro e' mem' src' keep
    obtain ⟨label, le⟩ := search.relaxed e' mem' src' keep
    rw [same _ src']
    refine ⟨.inl label, ?_⟩
    by_cases at_v : e'.dst = v
    · rw [at_v] at label le ⊢
      rw [Function.update_self]
      exact (smaller label).trans le
    · rw [Function.update_of_ne at_v]
      exact le
  case ordered =>
    intro x mem' y outside label
    rw [same x mem']
    by_cases at_v : y = v
    · subst at_v
      rw [Function.update_self]
      exact (top x mem').trans (le_add_of_nonneg_right nonneg)
    · rw [Function.update_of_ne at_v]
      exact search.ordered x mem' y outside (label.resolve_right at_v)

omit [IsOrderedAddMonoid W] in
/-- A search with no labelled node outside `D` has found all shortest walks. -/
theorem settled (search : Search E s D (fun _ => False) labelled d parent)
    (finished : ∀ v, labelled v → v ∈ D) : Settled E s (· ∈ D) d parent (D.idxOf ·) where
  source := search.source
  source_zero := search.source_zero
  closed e mem src := by
    obtain ⟨label, le⟩ := search.relaxed e mem src id
    exact ⟨finished _ label, le⟩
  attained v inside ne := by
    obtain ⟨parent_mem, before, edge⟩ := search.attained v (search.settled_labelled v inside) ne
    exact ⟨parent_mem, before inside, edge⟩

end Search

end CFunc.Lib.Graph
