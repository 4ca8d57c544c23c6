import Mathlib.Data.List.Lex
import Mathlib.Order.Bounds.Basic

/-!
Longest common subsequences, with ties broken by the lexicographic order.

`Best c xs ys` says that `c` is the greatest of the longest common subsequences
of `xs` and `ys`. It is unique, symmetric and built up along the two lists:
equal heads are kept (`Best.cons_cons`), and with different heads the better of
the two answers that drop one head is the answer (`Best.of_ne`).

The second half relates common subsequences to edit scripts of single
insertions and deletions: a script of `n` edits leaves a common subsequence,
and a common subsequence is a script, so the longest ones are the shortest
scripts (`isLeast_edits`).
-/

namespace CFunc.Lib.Subsequence

open List (Sublist)

variable {α : Type}

/-! ### The preference between common subsequences -/

section Best

variable [LinearOrder α]

/-- `c` is preferred to `c'`: longer, or of the same length and not below it
in the lexicographic order. -/
def Preferred (c c' : List α) : Prop :=
  c'.length < c.length ∨ c'.length = c.length ∧ c' ≤ c

theorem Preferred.refl (c : List α) : Preferred c c := .inr ⟨rfl, le_rfl⟩

theorem Preferred.trans {a b c : List α} (ab : Preferred a b) (bc : Preferred b c) :
    Preferred a c := by
  rcases ab with ab | ⟨ab, ab_le⟩
  · rcases bc with bc | ⟨bc, _⟩
    · exact .inl (bc.trans ab)
    · exact .inl (bc.trans_lt ab)
  · rcases bc with bc | ⟨bc, bc_le⟩
    · exact .inl (bc.trans_eq ab)
    · exact .inr ⟨bc.trans ab, bc_le.trans ab_le⟩

theorem Preferred.antisymm {a b : List α} (ab : Preferred a b) (ba : Preferred b a) : a = b := by
  rcases ab with ab | ⟨ab, ab_le⟩
  · rcases ba with ba | ⟨ba, _⟩ <;> omega
  · rcases ba with ba | ⟨_, ba_le⟩
    · omega
    · exact le_antisymm ba_le ab_le

theorem Preferred.cons {c c' : List α} (h : Preferred c c') (a : α) :
    Preferred (a :: c) (a :: c') := by
  rcases h with shorter | ⟨same, le⟩
  · exact .inl (by simpa using shorter)
  · refine .inr ⟨by simp [same], ?_⟩
    exact List.cons_le_cons a le

/-- `c` is the preferred common subsequence of `xs` and `ys`. -/
structure Best (c xs ys : List α) : Prop where
  left : Sublist c xs
  right : Sublist c ys
  preferred : ∀ c', Sublist c' xs → Sublist c' ys → Preferred c c'

theorem Best.unique {c d xs ys : List α} (hc : Best c xs ys) (hd : Best d xs ys) : c = d :=
  (hc.preferred d hd.left hd.right).antisymm (hd.preferred c hc.left hc.right)

theorem Best.symm {c xs ys : List α} (h : Best c xs ys) : Best c ys xs :=
  ⟨h.right, h.left, fun c' left right => h.preferred c' right left⟩

theorem Best.nil_left (ys : List α) : Best [] [] ys where
  left := .refl []
  right := List.nil_sublist ys
  preferred := by
    intro c' left _
    rw [List.sublist_nil.mp left]
    exact .refl []

theorem Best.nil_right (xs : List α) : Best [] xs [] := (Best.nil_left xs).symm

/-- Every best common subsequence of two lists with equal heads starts with the
head: one that did not would be common to the tails, and so too short. -/
theorem Best.cons_cons {c xs ys : List α} (h : Best c xs ys) (a : α) :
    Best (a :: c) (a :: xs) (a :: ys) where
  left := h.left.cons_cons a
  right := h.right.cons_cons a
  preferred := by
    intro c' left right
    have shorten : ∀ d, Sublist d xs → Sublist d ys → Preferred (a :: c) d := by
      intro d dx dy
      refine .inl ?_
      rcases h.preferred d dx dy with shorter | ⟨same, _⟩
      · simp; omega
      · simp [same]
    rcases List.sublist_cons_iff.mp left with dropx | ⟨d, rfl, dx⟩
    · rcases List.sublist_cons_iff.mp right with dropy | ⟨e, rfl, ey⟩
      · exact shorten c' dropx dropy
      · -- `a :: e` sits inside `xs`, so `e` is common to the tails.
        exact (h.preferred e ((List.sublist_cons_self a e).trans dropx) ey).cons a
    · rcases List.sublist_cons_iff.mp right with dropy | ⟨e, e_eq, ey⟩
      · exact (h.preferred d dx ((List.sublist_cons_self a d).trans dropy)).cons a
      · obtain rfl : d = e := by simpa using e_eq
        exact (h.preferred d dx ey).cons a

/-- With different heads a common subsequence drops one of them, so whichever
of the two answers is preferred to the other is best. -/
theorem Best.of_ne {p q r xs ys : List α} {a b : α} (ne : a ≠ b) (hp : Best p xs (b :: ys))
    (hq : Best q (a :: xs) ys) (choice : r = p ∨ r = q) (over_p : Preferred r p)
    (over_q : Preferred r q) : Best r (a :: xs) (b :: ys) where
  left := by
    rcases choice with rfl | rfl
    · exact hp.left.cons a
    · exact hq.left
  right := by
    rcases choice with rfl | rfl
    · exact hp.right
    · exact hq.right.cons b
  preferred := by
    intro c' left right
    rcases List.sublist_cons_iff.mp left with dropx | ⟨d, rfl, _⟩
    · exact over_p.trans (hp.preferred c' dropx right)
    · rcases List.sublist_cons_iff.mp right with dropy | ⟨e, e_eq, _⟩
      · exact over_q.trans (hq.preferred _ left dropy)
      · exact absurd (List.cons.inj e_eq).1 ne

end Best

/-! ### Insertions and deletions -/

/-- One insertion or one deletion. -/
inductive Edit : List α → List α → Prop where
  | delete (l : List α) (a : α) (r : List α) : Edit (l ++ a :: r) (l ++ r)
  | insert (l : List α) (a : α) (r : List α) : Edit (l ++ r) (l ++ a :: r)

/-- `Edits n xs ys`: `n` edits turn `xs` into `ys`. -/
inductive Edits : Nat → List α → List α → Prop where
  | refl (xs : List α) : Edits 0 xs xs
  | step {n : Nat} {xs ys zs : List α} : Edit xs ys → Edits n ys zs → Edits (n + 1) xs zs

theorem Edits.trans {m n : Nat} {xs ys zs : List α} (first : Edits m xs ys)
    (second : Edits n ys zs) : Edits (m + n) xs zs := by
  induction first with
  | refl => simpa using second
  | @step k _ _ _ edit _ ih =>
      rw [show k + 1 + n = (k + n) + 1 by omega]
      exact .step edit (ih second)

theorem Edit.cons {xs ys : List α} (edit : Edit xs ys) (a : α) : Edit (a :: xs) (a :: ys) := by
  cases edit with
  | delete l b r => exact .delete (a :: l) b r
  | insert l b r => exact .insert (a :: l) b r

theorem Edits.cons {n : Nat} {xs ys : List α} (edits : Edits n xs ys) (a : α) :
    Edits n (a :: xs) (a :: ys) := by
  induction edits with
  | refl xs => exact .refl (a :: xs)
  | step edit _ ih => exact .step (edit.cons a) ih

theorem Edit.symm {xs ys : List α} (edit : Edit xs ys) : Edit ys xs := by
  cases edit with
  | delete l a r => exact .insert l a r
  | insert l a r => exact .delete l a r

theorem Edits.symm {n : Nat} {xs ys : List α} (edits : Edits n xs ys) : Edits n ys xs := by
  induction edits with
  | refl xs => exact .refl xs
  | step edit _ ih => exact ih.trans (.step edit.symm (.refl _))

/-- Deleting what is outside a subsequence. -/
theorem edits_of_sublist {c xs : List α} (sub : Sublist c xs) :
    Edits (xs.length - c.length) xs c := by
  induction sub with
  | slnil => exact .refl []
  | @cons c xs a sub ih =>
      have := sub.length_le
      rw [show (a :: xs).length - c.length = (xs.length - c.length) + 1 by simp; omega]
      exact .step (.delete [] a xs) ih
  | @cons_cons c xs a _ ih => simpa using ih.cons a

/-- An edit shortens a common subsequence with a third list by at most one
character, and by none when it deletes. -/
theorem exists_common_of_edits {n : Nat} {xs ys : List α} (edits : Edits n xs ys) :
    ∃ c, Sublist c xs ∧ Sublist c ys ∧ xs.length + ys.length ≤ n + 2 * c.length := by
  induction edits with
  | refl xs => exact ⟨xs, .refl xs, .refl xs, by omega⟩
  | step edit _ ih =>
      obtain ⟨c, left, right, bound⟩ := ih
      cases edit with
      | delete l a r =>
          refine ⟨c, left.trans ((List.sublist_cons_self a r).append_left l), right, ?_⟩
          simp only [List.length_append, List.length_cons] at bound ⊢
          omega
      | insert l a r =>
          obtain ⟨c₁, c₂, rfl, left₁, left₂⟩ := List.sublist_append_iff.mp left
          rcases List.sublist_cons_iff.mp left₂ with dropped | ⟨d, rfl, kept⟩
          · refine ⟨c₁ ++ c₂, left₁.append dropped, right, ?_⟩
            simp only [List.length_append, List.length_cons] at bound ⊢
            omega
          · refine ⟨c₁ ++ d, left₁.append kept,
              ((List.sublist_cons_self a d).append_left c₁).trans right, ?_⟩
            simp only [List.length_append, List.length_cons] at bound ⊢
            omega

/-- A longest common subsequence gives the least number of edits. -/
theorem isLeast_edits {c xs ys : List α} (left : Sublist c xs) (right : Sublist c ys)
    (longest : ∀ d, Sublist d xs → Sublist d ys → d.length ≤ c.length) :
    IsLeast {n | Edits n xs ys} (xs.length + ys.length - 2 * c.length) := by
  have := left.length_le
  have := right.length_le
  constructor
  · have script := (edits_of_sublist left).trans (edits_of_sublist right).symm
    rwa [show xs.length - c.length + (ys.length - c.length) =
      xs.length + ys.length - 2 * c.length by omega] at script
  · intro n edits
    obtain ⟨d, dx, dy, bound⟩ := exists_common_of_edits edits
    have := longest d dx dy
    omega

end CFunc.Lib.Subsequence
