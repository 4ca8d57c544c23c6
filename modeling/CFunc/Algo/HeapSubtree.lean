import CFunc.Algo.HeapSort
import Mathlib.Logic.Relation

/-!
What `max_heapify` does to the subtree of its start.

Only the nodes below `start` have to be in order, and no other node is moved:
the value that sinks stays in the subtree, and so does each that takes its place.
-/

namespace CFunc.HeapSort

open CFunc.Lib CFunc.Lib.Cells
open CFunc.Lib.Exec (Ends)
open Relation (ReflTransGen TransGen)

/-- The nodes of the subtree rooted at `start`. -/
def Subtree (start : Int) : Int → Prop := ReflTransGen Son start

/-- The nodes of the subtree that belong to the heap. -/
def SubtreeUpTo (start last i : Int) : Prop := Subtree start i ∧ i ≤ last

variable {start last dad son p : Int} {s t u : Cells Int} {fuel : Nat}

theorem Subtree.le (nonneg : 0 ≤ start) (node : Subtree start p) : start ≤ p := by
  induction node with
  | refl => exact le_refl start
  | tail _ is_son ih => exact ih.trans (lt_of_son (nonneg.trans ih) is_son).le

/-- A node of the subtree is its root or below it. -/
theorem Subtree.below (node : Subtree start p) (ne : p ≠ start) : TransGen Son start p :=
  (Relation.reflTransGen_iff_eq_or_transGen.mp node).resolve_left ne

theorem not_son_of_subtree (nonneg : 0 ≤ start) (node : Subtree start p) : ¬ Son p start := by
  intro is_son
  have le := node.le nonneg
  have lt := lt_of_son (nonneg.trans le) is_son
  omega

/-- What the loop keeps: the order of the subtree but at `dad`, and its values. -/
structure SinkingIn (start last : Int) (s : Cells Int) (dad : Int) (t : Cells Int) : Prop where
  sifting : Sifting (Subtree start) last dad t
  permuted : Permuted (SubtreeUpTo start last) s t

theorem SinkingIn.sink (sinking : SinkingIn start last s dad t) (nonneg : 0 ≤ start)
    (cells : u.cells = t.cells) (is_son : Son dad son) (le : son ≤ last)
    (largest : ∀ c, Son dad c → c ≤ last → Above t son c) (above : Above t son dad)
    {v : Cells Int} (exchanged : Exchanged son dad u v) : SinkingIn start last s son v := by
  have same := peek_congr cells
  have sifting := sinking.sifting.read cells
  have moved := sifting.move (fun p node => nonneg.trans (Subtree.le nonneg node))
    (fun _ _ node is_son' => node.tail is_son') is_son le
    (fun c is_son' le' => (largest c is_son' le').congr (same son) (same c))
    (above.congr (same son) (same dad)) exchanged
  have from_dad : SubtreeUpTo start last dad := ⟨sifting.node, sifting.upper⟩
  have to_son : SubtreeUpTo start last son := ⟨moved.node, le⟩
  exact ⟨moved, (sinking.permuted.read cells).trans (exchanged.permuted to_son from_dad)⟩

/-- The subtree is in order, its values are the same up to order, and nothing else changed. -/
structure Sifted (start last : Int) (s t : Cells Int) : Prop where
  heap : ∀ p c, Subtree start p → Son p c → c ≤ last → Above t p c
  permuted : Permuted (SubtreeUpTo start last) s t
  outside : ∀ i, ¬ SubtreeUpTo start last i → t.peek i = s.peek i

/-- `max_heapify` puts the subtree of `start` in order where all below `start` is. -/
theorem max_heapify_subtree (nonneg : 0 ≤ start) (le : start ≤ last) (small : last < 2 ^ 29)
    (inside : last < s.cells.length)
    (heap : ∀ p c, TransGen Son start p → Son p c → c ≤ last → Above s p c)
    (enough : last - start < fuel) :
    Ends (max_heapify fuel start last) s fun _ t => Sifted start last s t := by
  have entry : SinkingIn start last s start s := by
    refine ⟨⟨.refl, le, ?_, ?_⟩, Permuted.refl _ s⟩
    · intro p c node ne is_son inside'
      exact heap p c (Subtree.below node ne) is_son inside'
    · intro p c node is_son
      exact absurd is_son (not_son_of_subtree nonneg node)
  apply ends_sift (I := SinkingIn start last s) nonneg (by omega) ?bounds ?step entry enough
  case bounds =>
    intro dad t sinking
    have length := sinking.permuted.length_eq
    exact ⟨nonneg.trans (Subtree.le nonneg sinking.sifting.node), sinking.sifting.upper, by omega⟩
  case step =>
    intro dad t next u sinking round
    cases round with
    | stop cells touches done =>
        have same := peek_congr cells
        have permuted := sinking.permuted.read cells
        have in_order := (sinking.sifting.read cells).heap fun c is_son le' =>
          (done c is_son le').congr (same dad) (same c)
        refine ⟨fun again => absurd again Bool.false_ne_true, fun _ => ?_⟩
        exact ⟨in_order, permuted, fun i => permuted.outside⟩
    | sink cells touches is_son le' largest above exchanged =>
        have moved := sinking.sink nonneg cells is_son le' largest above exchanged
        exact ⟨fun _ => moved, fun leaves => absurd leaves.symm Bool.false_ne_true⟩

/-- Node 3 is above its sons; node 2 is not in the subtree, out of order, and stays so. -/
theorem max_heapify_subtree_one :
    Ends (max_heapify 8 1 8) ⟨[9, 1, 2, 8, 4, 7, 6, 5, 3], []⟩ fun _ t =>
      Sifted 1 8 ⟨[9, 1, 2, 8, 4, 7, 6, 5, 3], []⟩ t := by
  apply max_heapify_subtree (by decide) (by decide) (by decide) (by decide) ?heap (by decide)
  intro p c below is_son le
  obtain ⟨b, is_son', node⟩ := TransGen.head'_iff.mp below
  unfold Son at is_son is_son'
  have after := Subtree.le (by omega) node
  obtain rfl : p = 3 := by omega
  intro x y at_p at_c
  cases at_p
  rcases is_son with rfl | rfl
  · cases at_c
    decide
  · cases at_c
    decide

end CFunc.HeapSort
