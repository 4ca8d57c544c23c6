import Mathlib.Data.List.Basic

/-!
What separators cut a list into.

`Pieces sep` holds of a list and the pieces between its separators, the empty
ones included. Every list has them (`exists_pieces`), there is one more than
there are separators, and together with these they give the list back
(`Pieces.interleave_eq`).
-/

namespace CFunc.Lib

variable {α : Type} {sep : α → Bool}

/-- No item is a separator. -/
def Whole (sep : α → Bool) (piece : List α) : Prop := ∀ c ∈ piece, sep c = false

/-- The pieces of a list, in their order. -/
inductive Pieces (sep : α → Bool) : List α → List (List α) → Prop where
  | last {piece : List α} : Whole sep piece → Pieces sep piece [piece]
  | cut {piece later : List α} {d : α} {pieces : List (List α)} :
      Whole sep piece → sep d = true → Pieces sep later pieces →
      Pieces sep (piece ++ d :: later) (piece :: pieces)

/-- One separator after each piece but the last. -/
def interleave : List (List α) → List α → List α
  | [], _ => []
  | piece :: pieces, [] => piece ++ interleave pieces []
  | piece :: pieces, d :: separators => piece ++ d :: interleave pieces separators

theorem Whole.filter_eq_nil {piece : List α} (whole : Whole sep piece) : piece.filter sep = [] := by
  rw [List.filter_eq_nil_iff]
  intro c listed
  rw [whole c listed]
  exact Bool.false_ne_true

/-- A list is whole or is cut at its first separator. -/
theorem whole_or_cut (sep : α → Bool) (items : List α) :
    Whole sep items ∨ ∃ piece d later, Whole sep piece ∧ sep d = true ∧
      items = piece ++ d :: later := by
  induction items with
  | nil => exact .inl fun c listed => absurd listed List.not_mem_nil
  | cons c items ih =>
      cases separates : sep c with
      | true =>
          exact .inr ⟨[], c, items, fun _ listed => absurd listed List.not_mem_nil, separates, rfl⟩
      | false =>
          rcases ih with whole | ⟨piece, d, later, whole, at_d, rfl⟩
          · exact .inl (List.forall_mem_cons.mpr ⟨separates, whole⟩)
          · have longer : Whole sep (c :: piece) := List.forall_mem_cons.mpr ⟨separates, whole⟩
            exact .inr ⟨c :: piece, d, later, longer, at_d, rfl⟩

theorem exists_pieces (sep : α → Bool) (items : List α) : ∃ pieces, Pieces sep items pieces := by
  induction size : items.length using Nat.strongRecOn generalizing items with
  | ind n ih =>
      rcases whole_or_cut sep items with whole | ⟨piece, d, later, whole, at_d, rfl⟩
      · exact ⟨[items], .last whole⟩
      · have shorter : later.length < n := by
          rw [← size, List.length_append, List.length_cons]
          omega
        obtain ⟨pieces, cut⟩ := ih later.length shorter later rfl
        exact ⟨piece :: pieces, .cut whole at_d cut⟩

section Laws

variable {items : List α} {pieces : List (List α)}

theorem Pieces.whole (cut : Pieces sep items pieces) : ∀ piece ∈ pieces, Whole sep piece := by
  induction cut with
  | last whole => exact List.forall_mem_singleton.mpr whole
  | cut whole _ _ ih => exact List.forall_mem_cons.mpr ⟨whole, ih⟩

theorem Pieces.filter_cut {piece later : List α} {d : α} (whole : Whole sep piece)
    (at_d : sep d = true) : (piece ++ d :: later).filter sep = d :: later.filter sep := by
  rw [List.filter_append, whole.filter_eq_nil, List.nil_append, List.filter_cons_of_pos at_d]

theorem Pieces.length_eq (cut : Pieces sep items pieces) :
    pieces.length = items.countP sep + 1 := by
  rw [List.countP_eq_length_filter]
  induction cut with
  | last whole => rw [whole.filter_eq_nil, List.length_singleton, List.length_nil]
  | cut whole at_d _ ih => rw [filter_cut whole at_d, List.length_cons, List.length_cons, ih]

theorem Pieces.interleave_eq (cut : Pieces sep items pieces) :
    interleave pieces (items.filter sep) = items := by
  induction cut with
  | last whole => rw [whole.filter_eq_nil, interleave, interleave, List.append_nil]
  | cut whole at_d _ ih => rw [filter_cut whole at_d, interleave, ih]

end Laws

end CFunc.Lib
