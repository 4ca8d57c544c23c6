import Mathlib.Algebra.Order.Monoid.Defs
import Mathlib.Order.Bounds.Basic
import Mathlib.Data.List.Nodup

/-!
Walks in a weighted directed multigraph and a certificate for shortest ones.

A graph is its list of edges; parallel edges and self-loops are allowed. A walk
keeps the list of nodes it visits and its total weight. `Settled` is what a
label-setting search leaves behind: a set of nodes closed under edges, labels
that no edge can improve, and a parent for every node but the source along
whose edge the label is attained. From it `Settled.isLeast` and
`Settled.mem_iff` read off minimality and reachability, with no reference to
the search itself.
-/

namespace CFunc.Lib.Graph

variable {V W : Type}

/-- A directed edge with a weight. -/
structure Edge (V W : Type) where
  src : V
  dst : V
  w : W
  deriving DecidableEq, Repr

/-- `Walk E s v nodes c`: the nodes `nodes` run from `s` to `v` along edges of
`E` with total weight `c`. -/
inductive Walk [AddZeroClass W] (E : List (Edge V W)) (s : V) : V → List V → W → Prop where
  | nil : Walk E s s [s] 0
  | snoc {nodes : List V} {c : W} {e : Edge V W} : Walk E s e.src nodes c → e ∈ E →
      Walk E s e.dst (nodes ++ [e.dst]) (c + e.w)

/-- The labels and parents a finished label-setting search leaves: `S` is
closed under edges, no edge improves a label (`closed`), and every node of `S`
but the source attains its label over an edge from its parent, which has a
smaller rank (`attained`). -/
structure Settled [AddZeroClass W] [LE W] (E : List (Edge V W)) (s : V) (S : V → Prop)
    (d : V → W) (parent : V → V) (rank : V → Nat) : Prop where
  source : S s
  source_zero : d s = 0
  closed : ∀ e ∈ E, S e.src → S e.dst ∧ d e.dst ≤ d e.src + e.w
  attained : ∀ v, S v → v ≠ s → S (parent v) ∧ rank (parent v) < rank v ∧
    ∃ e ∈ E, e.src = parent v ∧ e.dst = v ∧ d v = d (parent v) + e.w

/-- The nodes from the root to `v` when parents are followed from `v` until
`stop` holds; `none` when the fuel does not reach the root. -/
def ancestry (stop : V → Bool) (parent : V → V) : Nat → V → Option (List V)
  | 0, _ => none
  | fuel + 1, v =>
      if stop v then some [v] else (ancestry stop parent fuel (parent v)).map (· ++ [v])

section Certificate

variable [AddCommMonoid W] [PartialOrder W] [IsOrderedAddMonoid W]
  {E : List (Edge V W)} {s : V} {S : V → Prop} {d : V → W} {parent : V → V} {rank : V → Nat}

/-- A walk stays inside the settled set and costs at least the label of its
end. -/
theorem Settled.le_of_walk (settled : Settled E s S d parent rank) {v : V} {nodes : List V}
    {c : W} (walk : Walk E s v nodes c) : S v ∧ d v ≤ c := by
  induction walk with
  | nil => exact ⟨settled.source, settled.source_zero.le⟩
  | @snoc nodes c e _ mem ih =>
      obtain ⟨inside, bound⟩ := settled.closed e mem ih.1
      exact ⟨inside, bound.trans (add_le_add_left ih.2 e.w)⟩

omit [IsOrderedAddMonoid W] in
/-- Following parents from a settled node ends at the source and spells a walk
of exactly its label that visits no node twice. -/
theorem Settled.ancestry_walk (settled : Settled E s S d parent rank) (stop : V → Bool)
    (stop_source : stop s = true) (stop_only : ∀ v, S v → v ≠ s → stop v = false) :
    ∀ (k : Nat) (v : V), S v → rank v < k →
      ∃ nodes, (∀ fuel, rank v < fuel → ancestry stop parent fuel v = some nodes) ∧
        Walk E s v nodes (d v) ∧ nodes.Nodup ∧ ∀ x ∈ nodes, rank x ≤ rank v := by
  intro k
  induction k with
  | zero => intro v _ below; omega
  | succ k ih =>
      intro v inside below
      by_cases at_source : v = s
      · subst at_source
        refine ⟨[v], ?_, ?_, by simp, by simp⟩
        · intro fuel enough
          obtain ⟨fuel, rfl⟩ : ∃ f, fuel = f + 1 := ⟨fuel - 1, by omega⟩
          simp [ancestry, stop_source]
        · rw [settled.source_zero]
          exact .nil
      · obtain ⟨parent_in, smaller, e, mem, src, dst, label⟩ :=
          settled.attained v inside at_source
        obtain ⟨nodes, nodes_eq, walk, nodup, ranks⟩ := ih (parent v) parent_in (by omega)
        refine ⟨nodes ++ [v], ?_, ?_, ?_, ?_⟩
        · intro fuel enough
          obtain ⟨fuel, rfl⟩ : ∃ f, fuel = f + 1 := ⟨fuel - 1, by omega⟩
          simp [ancestry, stop_only v inside at_source, nodes_eq fuel (by omega)]
        · rw [label, ← dst]
          exact .snoc (by rw [src, dst]; exact walk) mem
        · refine nodup.append (List.nodup_singleton v) ?_
          intro x hx hv
          have := ranks x hx
          rw [List.mem_singleton.mp hv] at this
          omega
        · intro x hx
          rcases List.mem_append.mp hx with old | new
          · exact (ranks x old).trans smaller.le
          · rw [List.mem_singleton.mp new]

omit [IsOrderedAddMonoid W] in
open Classical in
theorem Settled.exists_walk (settled : Settled E s S d parent rank) (v : V) (inside : S v) :
    ∃ nodes, Walk E s v nodes (d v) := by
  obtain ⟨nodes, _, walk, _⟩ := settled.ancestry_walk (fun x => decide (x = s))
    (by simp) (by simp) (rank v + 1) v inside (by omega)
  exact ⟨nodes, walk⟩

/-- The settled set is exactly what the source reaches. -/
theorem Settled.mem_iff (settled : Settled E s S d parent rank) (v : V) :
    S v ↔ ∃ nodes c, Walk E s v nodes c := by
  constructor
  · intro inside
    obtain ⟨nodes, walk⟩ := settled.exists_walk v inside
    exact ⟨nodes, d v, walk⟩
  · rintro ⟨nodes, c, walk⟩
    exact (settled.le_of_walk walk).1

/-- The label of a settled node is the least weight of a walk to it. -/
theorem Settled.isLeast (settled : Settled E s S d parent rank) {v : V} (inside : S v) :
    IsLeast {c | ∃ nodes, Walk E s v nodes c} (d v) := by
  refine ⟨settled.exists_walk v inside, ?_⟩
  rintro c ⟨nodes, walk⟩
  exact (settled.le_of_walk walk).2

end Certificate

end CFunc.Lib.Graph
