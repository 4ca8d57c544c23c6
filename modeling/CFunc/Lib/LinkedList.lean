import Mathlib.Data.List.Nodup

/-!
Lists stored as cells with one link each.

A cell is found under its address, unless nothing is allocated there. `Chain`
relates the cells met by following links to the list of their addresses and
values. Its rules are those an update in place needs: chains are cut and joined
(`chain_append`), read at a cell (`Chain.cell`), and kept by a change of other
cells (`Chain.congr`).
-/

namespace CFunc.Lib.LinkedList

universe u v w

variable {κ : Type u} {β : Type v} {δ : Type w} (link : β → Option κ) (value : β → δ)

/-- The cells from link `p` on, up to link `e`. -/
def Chain (cells : κ → Option β) : Option κ → List (κ × δ) → Option κ → Prop
  | p, [], e => p = e
  | p, (a, v) :: l, e =>
      p = some a ∧ ∃ c, cells a = some c ∧ value c = v ∧ Chain cells (link c) l e

/-- The address that a list begins with. -/
def first (l : List (κ × δ)) : Option κ := l.head?.map Prod.fst

/-- The address of the last cell. -/
def last (l : List (κ × δ)) : Option κ := l.getLast?.map Prod.fst

@[simp] theorem first_nil : first ([] : List (κ × δ)) = none := rfl

@[simp] theorem first_cons (a : κ) (v : δ) (l : List (κ × δ)) : first ((a, v) :: l) = some a := rfl

@[simp] theorem last_nil : last ([] : List (κ × δ)) = none := rfl

@[simp] theorem last_concat (l : List (κ × δ)) (a : κ) (v : δ) :
    last (l ++ [(a, v)]) = some a := by
  simp [last]

theorem last_append {l more : List (κ × δ)} (some_more : more ≠ []) :
    last (l ++ more) = last more := by
  rw [last, List.getLast?_append_of_ne_nil _ some_more, last]

theorem last_cons {l : List (κ × δ)} (entry : κ × δ) (some_more : l ≠ []) :
    last (entry :: l) = last l :=
  last_append (l := [entry]) some_more

theorem first_eq_none {l : List (κ × δ)} : first l = none ↔ l = [] := by
  simp [first]

/-- A list that ends at an address ends with a cell there. -/
theorem eq_concat_of_last {l : List (κ × δ)} {a : κ} (ends : last l = some a) :
    ∃ init v, l = init ++ [(a, v)] := by
  rcases List.eq_nil_or_concat l with rfl | ⟨init, ⟨b, v⟩, rfl⟩
  · cases ends
  · rw [List.concat_eq_append, last_concat] at ends
    obtain rfl := Option.some.inj ends
    exact ⟨init, v, List.concat_eq_append⟩

theorem eq_nil_of_last {l : List (κ × δ)} (ends : last l = none) : l = [] := by
  rcases List.eq_nil_or_concat l with rfl | ⟨init, ⟨b, v⟩, rfl⟩
  · rfl
  · rw [List.concat_eq_append, last_concat] at ends
    cases ends

variable {link value} {cells cells' : κ → Option β} {p e : Option κ} {l more : List (κ × δ)}

theorem chain_append :
    Chain link value cells p (l ++ more) e ↔
      ∃ q, Chain link value cells p l q ∧ Chain link value cells q more e := by
  induction l generalizing p with
  | nil => simp [Chain]
  | cons entry l ih =>
      constructor
      · rintro ⟨rfl, c, read, datum, rest⟩
        obtain ⟨q, before, after⟩ := ih.mp rest
        exact ⟨q, ⟨rfl, c, read, datum, before⟩, after⟩
      · rintro ⟨q, ⟨rfl, c, read, datum, before⟩, after⟩
        exact ⟨rfl, c, read, datum, ih.mpr ⟨q, before, after⟩⟩

theorem Chain.first_eq (chain : Chain link value cells p l none) : p = first l := by
  cases l with
  | nil => exact chain
  | cons entry l => exact chain.1

/-- Only the cells of a chain matter to it. -/
theorem Chain.congr (chain : Chain link value cells p l e)
    (same : ∀ a ∈ l.map Prod.fst, cells' a = cells a) : Chain link value cells' p l e := by
  induction l generalizing p with
  | nil => exact chain
  | cons entry l ih =>
      obtain ⟨rfl, c, read, datum, rest⟩ := chain
      refine ⟨rfl, c, ?_, datum, ih rest fun a member => same a (List.mem_cons_of_mem _ member)⟩
      rw [same entry.1 (by simp), read]

/-- What is stored at a cell of a chain, whose link leads to the cells after it. -/
theorem Chain.cell {a : κ} {v : δ} (chain : Chain link value cells p (l ++ (a, v) :: more) e) :
    Chain link value cells p l (some a) ∧
      ∃ c, cells a = some c ∧ value c = v ∧ Chain link value cells (link c) more e := by
  obtain ⟨q, before, rfl, c, read, datum, after⟩ := chain_append.mp chain
  exact ⟨before, c, read, datum, after⟩

/-- The cell at the end of a chain, which may be linked to another place. -/
theorem Chain.ends {a : κ} {v : δ} (chain : Chain link value cells p (l ++ [(a, v)]) e) :
    Chain link value cells p l (some a) ∧ ∃ c, cells a = some c ∧ value c = v ∧ link c = e :=
  chain.cell

theorem Chain.concat {a : κ} {c : β} (chain : Chain link value cells p l (some a))
    (read : cells a = some c) : Chain link value cells p (l ++ [(a, value c)]) (link c) :=
  chain_append.mpr ⟨some a, chain, rfl, c, read, rfl, rfl⟩

end CFunc.Lib.LinkedList
