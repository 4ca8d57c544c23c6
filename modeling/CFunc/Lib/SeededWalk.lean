import CFunc.Lib.Graph

/-!
Walks from seeds in a weighted directed multigraph.

A label-setting search that starts from several labelled nodes, the seeds, and
never labels its source again finds the least weights of seeded walks:
`Labelled` is what it leaves behind. Where every seed is an edge out of the
source, a seeded walk is a walk from the source, and the two have the same
least weights once seeded walks are as good as single edges out of the source.
-/

namespace CFunc.Lib.Graph

variable {V W : Type}

/-- `SeededWalk E s seed v c`: from a seed to `v` along edges of `E` that do not end at `s`, with
total weight `c` on top of the seed's. -/
inductive SeededWalk [Add W] (E : List (Edge V W)) (s : V) (seed : V → W → Prop) :
    V → W → Prop where
  | start {v : V} {c : W} : seed v c → SeededWalk E s seed v c
  | snoc {c : W} {e : Edge V W} : SeededWalk E s seed e.src c → e ∈ E → e.dst ≠ s →
      SeededWalk E s seed e.dst (c + e.w)

/-- The labels of a finished search from seeds: the labelled nodes `S` hold the seeds and are
closed under edges that do not end at `s`, and no seed and no such edge improves a label. -/
structure Labelled [Add W] [LE W] (E : List (Edge V W)) (s : V) (seed : V → W → Prop)
    (S : V → Prop) (d : V → W) : Prop where
  seeds : ∀ v c, seed v c → S v ∧ d v ≤ c
  closed : ∀ e ∈ E, S e.src → e.dst ≠ s → S e.dst ∧ d e.dst ≤ d e.src + e.w
  attained : ∀ v, S v → SeededWalk E s seed v (d v)

section Certificate

variable [AddCommMonoid W] [PartialOrder W] [IsOrderedAddMonoid W] {E E' : List (Edge V W)} {s : V}
  {seed : V → W → Prop} {S : V → Prop} {d : V → W} {v : V} {c : W} {nodes : List V}

theorem Labelled.le_of_seeded (labelled : Labelled E s seed S d) (walk : SeededWalk E s seed v c) :
    S v ∧ d v ≤ c := by
  induction walk with
  | start from_seed => exact labelled.seeds _ _ from_seed
  | @snoc c e _ mem ne ih =>
      obtain ⟨inside, bound⟩ := labelled.closed e mem ih.1 ne
      exact ⟨inside, bound.trans (add_le_add_left ih.2 e.w)⟩

/-- The labelled nodes are the ends of seeded walks. -/
theorem Labelled.mem_iff (labelled : Labelled E s seed S d) :
    S v ↔ ∃ c, SeededWalk E s seed v c := by
  constructor
  · intro inside
    exact ⟨d v, labelled.attained v inside⟩
  · rintro ⟨c, walk⟩
    exact (labelled.le_of_seeded walk).1

/-- A label is the least weight of a seeded walk. -/
theorem Labelled.isLeast (labelled : Labelled E s seed S d) (inside : S v) :
    IsLeast {c | SeededWalk E s seed v c} (d v) :=
  ⟨labelled.attained v inside, fun _ walk => (labelled.le_of_seeded walk).2⟩

omit [PartialOrder W] [IsOrderedAddMonoid W] in
/-- Where the seeds are edges out of the source, seeded walks are walks from the source. -/
theorem SeededWalk.walk (seeds : ∀ v c, seed v c → ∃ e ∈ E, e.src = s ∧ e.dst = v ∧ e.w = c)
    (seeded : SeededWalk E s seed v c) : ∃ nodes, Walk E s v nodes c := by
  induction seeded with
  | start from_seed =>
      obtain ⟨e, mem, rfl, rfl, rfl⟩ := seeds _ _ from_seed
      have walk := Walk.snoc (.nil : Walk E e.src e.src [e.src] 0) mem
      rw [zero_add] at walk
      exact ⟨_, walk⟩
  | snoc _ mem _ ih =>
      obtain ⟨nodes, walk⟩ := ih
      exact ⟨_, walk.snoc mem⟩

omit [PartialOrder W] [IsOrderedAddMonoid W] in
/-- A walk stays one among more edges. -/
theorem Walk.mono (sub : ∀ e ∈ E, e ∈ E') (walk : Walk E s v nodes c) : Walk E' s v nodes c := by
  induction walk with
  | nil => exact .nil
  | snoc _ mem ih => exact .snoc ih (sub _ mem)

theorem SeededWalk.nonneg (weights : ∀ e ∈ E, 0 ≤ e.w) (seeds : ∀ v c, seed v c → 0 ≤ c)
    (walk : SeededWalk E s seed v c) : 0 ≤ c := by
  induction walk with
  | start from_seed => exact seeds _ _ from_seed
  | snoc _ mem _ ih => exact add_nonneg ih (weights _ mem)

/-- During a search a walk to a settled node is no lighter than the node's label, and on the way
to any other node there is a frontier node with a label no heavier than the walk. -/
theorem SeededWalk.frontier {D F : V → Prop} (weights : ∀ e ∈ E, 0 ≤ e.w)
    (seeds : ∀ v c, seed v c → d v ≤ c ∧ (D v ∨ F v))
    (relaxed : ∀ e ∈ E, D e.src → e.dst ≠ s → d e.dst ≤ d e.src + e.w ∧ (D e.dst ∨ F e.dst))
    (ordered : ∀ x v, D x → ¬ D v → d x ≤ d v) (walk : SeededWalk E s seed v c) :
    (D v → d v ≤ c) ∧ (¬ D v → ∃ x, ¬ D x ∧ F x ∧ d x ≤ c) := by
  induction walk with
  | start from_seed =>
      obtain ⟨le, out⟩ := seeds _ _ from_seed
      exact ⟨fun _ => le, fun new => ⟨_, new, out.resolve_left new, le⟩⟩
  | @snoc c e _ mem ne ih =>
      by_cases settled : D e.src
      · obtain ⟨le, out⟩ := relaxed e mem settled ne
        have le := le.trans (add_le_add_left (ih.1 settled) e.w)
        exact ⟨fun _ => le, fun new => ⟨_, new, out.resolve_left new, le⟩⟩
      · obtain ⟨x, new, waits, le⟩ := ih.2 settled
        have le := le.trans (le_add_of_nonneg_right (weights e mem))
        exact ⟨fun inside => (ordered e.dst x inside new).trans le, fun _ => ⟨x, new, waits, le⟩⟩

/-- Walks are no lighter than seeded walks, if that is so of the edges out of the source. -/
theorem Walk.exists_seeded (nonneg : ∀ e ∈ E, 0 ≤ e.w) (sub : ∀ e ∈ E, e ∈ E')
    (out : ∀ e ∈ E, e.src = s → e.dst ≠ s → ∃ c ≤ e.w, SeededWalk E' s seed e.dst c)
    (walk : Walk E s v nodes c) :
    0 ≤ c ∧ (v ≠ s → ∃ c' ≤ c, SeededWalk E' s seed v c') := by
  induction walk with
  | nil => exact ⟨le_rfl, fun ne => absurd rfl ne⟩
  | @snoc nodes c e _ mem ih =>
      obtain ⟨lower, seeded⟩ := ih
      refine ⟨add_nonneg lower (nonneg e mem), fun ne => ?_⟩
      by_cases at_s : e.src = s
      · obtain ⟨c', le, walk⟩ := out e mem at_s ne
        exact ⟨c', le.trans (le_add_of_nonneg_left lower), walk⟩
      · obtain ⟨c', le, walk⟩ := seeded at_s
        exact ⟨c' + e.w, add_le_add_left le e.w, walk.snoc (sub e mem) ne⟩

end Certificate

end CFunc.Lib.Graph
