import Mathlib.Data.Tree.Basic
import Mathlib.Data.List.Perm.Basic

/-!
Trees stored as cells with two links each.

A cell at address `a` may link to a first cell below it and to a next cell
beside it, so a list of cells and an entry address hold a binary tree when
following the links ends. `Rep` relates the two, and `Rep.graft` is the rule
for the only update a growing tree needs: a fresh cell is hung on an empty link.
-/

namespace CFunc.Lib.LinkedTree

universe u

/-- The two links of a cell. -/
inductive Slot where
  | first
  | next
  deriving DecidableEq, Repr

/-- The values of a tree, each node before its left subtree before its right one. -/
def preorder {β : Type u} : BinaryTree β → List β
  | .nil => []
  | .node b l r => b :: (preorder l ++ preorder r)

@[simp] theorem length_preorder {β : Type u} (t : BinaryTree β) :
    (preorder t).length = t.numNodes := by
  induction t with
  | nil => rfl
  | node b l r left_ih right_ih => simp [preorder, left_ih, right_ih]

/-- The values along the right spine of a tree. -/
def spine {β : Type u} : BinaryTree β → List β
  | .nil => []
  | .node b _ r => b :: spine r

theorem spine_subset_preorder {β : Type u} (t : BinaryTree β) : spine t ⊆ preorder t := by
  induction t with
  | nil => simp [spine]
  | node b l r _ right_ih =>
      intro x member
      rcases List.mem_cons.mp member with here | later
      · simp [preorder, here]
      · simp [preorder, right_ih later]

variable {α : Type u} (link : Slot → α → Option Nat)

/-- From the entry address the links of the cells spell the tree. -/
inductive Rep (cells : List α) : Option Nat → BinaryTree Nat → Prop
  | nil : Rep cells none .nil
  | node {a : Nat} {c : α} {l r : BinaryTree Nat} (read : cells[a]? = some c)
      (below : Rep cells (link .first c) l) (beside : Rep cells (link .next c) r) :
      Rep cells (some a) (.node a l r)

/-- The addresses met by following `next` links, at most `fuel` of them. -/
def chain (cells : List α) : Nat → Option Nat → List Nat
  | 0, _ => []
  | _ + 1, none => []
  | fuel + 1, some a =>
      match cells[a]? with
      | none => []
      | some c => a :: chain cells fuel (link .next c)

variable {link}

@[simp] theorem chain_none {cells : List α} (fuel : Nat) : chain link cells fuel none = [] := by
  cases fuel <;> rfl

namespace Rep

variable {cells : List α} {p : Option Nat} {t : BinaryTree Nat}

theorem unique {t' : BinaryTree Nat} (rep : Rep link cells p t) (rep' : Rep link cells p t') :
    t = t' := by
  induction rep generalizing t' with
  | nil =>
      cases rep'
      rfl
  | node read below beside below_ih beside_ih =>
      cases rep' with
      | node read' below' beside' =>
          obtain rfl := Option.some.inj (read.symm.trans read')
          rw [below_ih below', beside_ih beside']

theorem lt_length (rep : Rep link cells p t) : ∀ a ∈ preorder t, a < cells.length := by
  induction rep with
  | nil => simp [preorder]
  | node read below beside below_ih beside_ih =>
      intro a member
      simp only [preorder, List.mem_cons, List.mem_append] at member
      rcases member with rfl | member | member
      · exact (List.getElem?_eq_some_iff.mp read).1
      · exact below_ih a member
      · exact beside_ih a member

/-- What a representation says about one of its cells: the cell is stored, and
its two links hold subtrees with disjoint addresses. -/
theorem at_address (rep : Rep link cells p t) (nodup : (preorder t).Nodup) {a : Nat}
    (member : a ∈ preorder t) :
    ∃ c l r, cells[a]? = some c ∧ Rep link cells (link .first c) l ∧
      Rep link cells (link .next c) r ∧ (a :: (preorder l ++ preorder r)).Nodup ∧
      preorder l ⊆ preorder t ∧ preorder r ⊆ preorder t := by
  induction rep with
  | nil => simp [preorder] at member
  | @node b c l r read below beside below_ih beside_ih =>
      have parts := nodup
      simp only [preorder, List.nodup_cons, List.nodup_append] at parts
      simp only [preorder, List.mem_cons, List.mem_append] at member
      rcases member with rfl | member | member
      · refine ⟨c, l, r, read, below, beside, nodup, ?_, ?_⟩ <;>
          intro x <;> simp +contextual [preorder]
      · obtain ⟨c', l', r', found, first, next, apart, sub, sub'⟩ := below_ih parts.2.1 member
        refine ⟨c', l', r', found, first, next, apart, ?_, ?_⟩ <;> intro x inside
        · simp [preorder, sub inside]
        · simp [preorder, sub' inside]
      · obtain ⟨c', l', r', found, first, next, apart, sub, sub'⟩ := beside_ih parts.2.2.1 member
        refine ⟨c', l', r', found, first, next, apart, ?_, ?_⟩ <;> intro x inside
        · simp [preorder, sub inside]
        · simp [preorder, sub' inside]

/-- Cells outside a tree may change without touching it. -/
theorem frame {cells' : List α} (rep : Rep link cells p t)
    (same : ∀ a ∈ preorder t, cells'[a]? = cells[a]?) : Rep link cells' p t := by
  induction rep with
  | nil => exact .nil
  | @node a c l r read below beside below_ih beside_ih =>
      refine .node ((same a (by simp [preorder])).trans read) ?_ ?_
      · exact below_ih fun b member => same b (by simp [preorder, member])
      · exact beside_ih fun b member => same b (by simp [preorder, member])

/-- Enough fuel makes the chain from an entry address the right spine of its tree. -/
theorem chain_eq_spine (rep : Rep link cells p t) {fuel : Nat} (enough : t.numNodes ≤ fuel) :
    chain link cells fuel p = spine t := by
  induction rep generalizing fuel with
  | nil => simp [spine]
  | @node a c l r read below beside _ beside_ih =>
      simp only [BinaryTree.numNodes] at enough
      obtain ⟨fuel, rfl⟩ : ∃ k, fuel = k + 1 := ⟨fuel - 1, by omega⟩
      simp [chain, spine, read, beside_ih (show r.numNodes ≤ fuel by omega)]

theorem chain_subset_spine (rep : Rep link cells p t) (fuel : Nat) :
    chain link cells fuel p ⊆ spine t := by
  induction rep generalizing fuel with
  | nil => simp
  | node read below beside _ beside_ih =>
      cases fuel with
      | zero => simp [chain]
      | succ fuel =>
          simp only [chain, read, spine]
          exact List.cons_subset_cons _ (beside_ih fuel)

/-- A tree without repeated addresses is no larger than the list of cells. -/
theorem numNodes_le (rep : Rep link cells p t) (nodup : (preorder t).Nodup) :
    t.numNodes ≤ cells.length := by
  have sub : preorder t ⊆ List.range cells.length :=
    fun a member => List.mem_range.mpr (rep.lt_length a member)
  simpa using (List.subperm_of_subset nodup sub).length_le

end Rep

/-! ### Hanging a fresh cell on an empty link -/

/-- `cells'` is `cells` with one fresh cell at the end, without links of its
own, that the empty link `s` of the cell at `a` now points to. -/
structure Grafted (link : Slot → α → Option Nat) (cells cells' : List α) (a : Nat) (s : Slot) :
    Prop where
  bound : a < cells.length
  holder : ∃ c c', cells[a]? = some c ∧ cells'[a]? = some c' ∧ link s c = none ∧
    link s c' = some cells.length ∧ ∀ s', s' ≠ s → link s' c' = link s' c
  fresh : ∃ n, cells'[cells.length]? = some n ∧ ∀ s', link s' n = none
  rest : ∀ b, b < cells.length → b ≠ a → cells'[b]? = cells[b]?

namespace Grafted

variable {cells cells' : List α} {a : Nat} {s : Slot}

/-- The fresh cell is a tree of one node. -/
theorem leaf (graft : Grafted link cells cells' a s) :
    Rep link cells' (some cells.length) (.node cells.length .nil .nil) := by
  obtain ⟨n, read, free⟩ := graft.fresh
  exact .node read (free .first ▸ .nil) (free .next ▸ .nil)

/-- Away from the changed cell every subtree stays as it was. -/
theorem frame (graft : Grafted link cells cells' a s) {p : Option Nat} {t : BinaryTree Nat}
    (rep : Rep link cells p t) (away : a ∉ preorder t) : Rep link cells' p t :=
  rep.frame fun b member =>
    graft.rest b (rep.lt_length b member) fun same => away (same ▸ member)

/-- A subtree that holds the changed cell gains exactly the fresh node. -/
theorem rep (graft : Grafted link cells cells' a s) {p : Option Nat} {t : BinaryTree Nat}
    (rep : Rep link cells p t) (nodup : (preorder t).Nodup) (member : a ∈ preorder t) :
    ∃ t', Rep link cells' p t' ∧ (preorder t').Perm (cells.length :: preorder t) := by
  induction rep with
  | nil => simp [preorder] at member
  | @node b c l r read below beside below_ih beside_ih =>
      have parts := nodup
      simp only [preorder, List.nodup_cons, List.nodup_append, List.mem_append, not_or] at parts
      simp only [preorder, List.mem_cons, List.mem_append] at member
      by_cases here : a = b
      · subst here
        obtain ⟨c₀, c', read₀, read', empty, linked, others⟩ := graft.holder
        obtain rfl := Option.some.inj (read.symm.trans read₀)
        have below' := graft.frame below parts.1.1
        have beside' := graft.frame beside parts.1.2
        cases s with
        | first =>
            rw [empty] at below
            cases below
            refine ⟨_, .node read' (linked ▸ graft.leaf) (others .next (by decide) ▸ beside'), ?_⟩
            exact List.Perm.swap _ _ _
        | next =>
            rw [empty] at beside
            cases beside
            refine ⟨_, .node read' (others .first (by decide) ▸ below') (linked ▸ graft.leaf), ?_⟩
            simpa [preorder] using
              (List.perm_append_singleton cells.length (preorder l)).cons a |>.trans (.swap _ _ _)
      · have read' : cells'[b]? = some c :=
          (graft.rest b (List.getElem?_eq_some_iff.mp read).1 (Ne.symm here)).trans read
        rcases member with same | member | member
        · exact absurd same here
        · obtain ⟨l', rep', perm⟩ := below_ih parts.2.1 member
          refine ⟨_, .node read' rep' (graft.frame beside fun other =>
            parts.2.2.2 a member a other rfl), ?_⟩
          exact ((perm.append_right (preorder r)).cons b).trans (.swap _ _ _)
        · obtain ⟨r', rep', perm⟩ := beside_ih parts.2.2.1 member
          refine ⟨_, .node read' (graft.frame below fun other =>
            parts.2.2.2 a other a member rfl) rep', ?_⟩
          refine (((perm.append_left (preorder l)).trans List.perm_middle).cons b).trans ?_
          exact .swap _ _ _

/-- Chains only grow, and only at their end. -/
theorem chain_prefix (graft : Grafted link cells cells' a s) (fuel : Nat) (p : Option Nat) :
    chain link cells fuel p <+: chain link cells' fuel p := by
  induction fuel generalizing p with
  | zero => simp [chain]
  | succ fuel ih =>
      cases p with
      | none => simp
      | some b =>
          cases read : cells[b]? with
          | none => simp [chain, read]
          | some c =>
              have bound := (List.getElem?_eq_some_iff.mp read).1
              obtain ⟨c₀, c', read₀, read', empty, linked, others⟩ := graft.holder
              by_cases here : b = a
              · subst here
                obtain rfl := Option.some.inj (read.symm.trans read₀)
                simp only [chain, read, read']
                cases s with
                | first =>
                    rw [others .next (by decide)]
                    exact (List.prefix_cons_inj b).mpr (ih _)
                | next => simp [empty]
              · have kept : cells'[b]? = some c := (graft.rest b bound here).trans read
                simp only [chain, read, kept]
                exact (List.prefix_cons_inj b).mpr (ih _)

/-- A chain that ends at the changed cell, its `next` link filled, ends at the fresh one. -/
theorem mem_chain (graft : Grafted link cells cells' a .next) {fuel : Nat} {p : Option Nat}
    (member : a ∈ chain link cells fuel p) : cells.length ∈ chain link cells' (fuel + 1) p := by
  induction fuel generalizing p with
  | zero => simp [chain] at member
  | succ fuel ih =>
      cases p with
      | none => simp at member
      | some b =>
          cases read : cells[b]? with
          | none => simp [chain, read] at member
          | some c =>
              obtain ⟨c₀, c', read₀, read', empty, linked, others⟩ := graft.holder
              obtain ⟨n, new, free⟩ := graft.fresh
              by_cases here : b = a
              · subst here
                simp [chain, read', linked, new]
              · have bound := (List.getElem?_eq_some_iff.mp read).1
                have kept : cells'[b]? = some c := (graft.rest b bound here).trans read
                simp only [chain, read, List.mem_cons, Ne.symm here, false_or] at member
                rw [chain, kept]
                exact List.mem_cons_of_mem _ (ih member)

end Grafted

end CFunc.Lib.LinkedTree
