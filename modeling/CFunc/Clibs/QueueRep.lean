import CFunc.Clibs.Queue

/-!
The list a queue represents.

`Rep` is what `enque` and `deque` keep, and what a pass keeps between its
calls. Removing the last element behind another one leaves that one linked to
the element freed.
-/

namespace CFunc.Clibs.QueueH

open CFunc.Lib CFunc.Lib.LinkedList

variable {α : Type}

@[simp] theorem set_self (elems : Ptr → Option (Elem α)) (p : Ptr) (e : Option (Elem α)) :
    set elems p e p = e := if_pos rfl

theorem set_other {elems : Ptr → Option (Elem α)} {p a : Ptr} {e : Option (Elem α)}
    (other : a ≠ p) : set elems p e a = elems a := if_neg other

theorem of_set_ne_none {elems : Ptr → Option (Elem α)} {p a : Ptr} {e : Option (Elem α)}
    (allocated : set elems p e a ≠ none) : a = p ∨ elems a ≠ none := by
  by_cases here : a = p
  · exact .inl here
  · rw [set_other here] at allocated
    exact .inr allocated

/-- The elements from link `p` on, up to link `e`. -/
abbrev Links (elems : Ptr → Option (Elem α)) (p : Option Ptr) (l : List (Ptr × α))
    (e : Option Ptr) : Prop :=
  Chain Elem.next Elem.data elems p l e

/-- The queue's elements are those of the list, with their addresses, and no others are
allocated. -/
structure Rep (q : Queue α) (l : List (Ptr × α)) : Prop where
  chain : Links q.elems q.head l none
  tail : q.tail = last l
  nodup : (l.map Prod.fst).Nodup
  live : ∀ p, q.elems p ≠ none → p ∈ l.map Prod.fst

/-- A link of the queue leads to an element that was freed. -/
def Dangles (q : Queue α) : Prop :=
  ∃ l a, Links q.elems q.head l (some a) ∧ q.elems a = none

theorem alloc_rep : Rep (alloc α) [] where
  chain := rfl
  tail := rfl
  nodup := List.nodup_nil
  live _ some_elem := absurd rfl some_elem

section Steps

variable {q : Queue α} {l kept rest : List (Ptr × α)} {a p : Ptr} {v : α}

/-- A change at an address that is not among the elements of a chain. -/
theorem chain_set {elems : Ptr → Option (Elem α)} {h e : Option Ptr} {new : Option (Elem α)}
    (chain : Links elems h l e) (off : p ∉ l.map Prod.fst) : Links (set elems p new) h l e :=
  chain.congr fun _ member => set_other fun same => off (same ▸ member)

theorem enque_rep (rep : Rep q l) (fresh : q.elems p = none) (v : α) :
    ∃ q', enque q p v = some q' ∧ Rep q' (l ++ [(p, v)]) := by
  have off : p ∉ l.map Prod.fst := by
    intro member
    obtain ⟨⟨_, w⟩, inside, rfl⟩ := List.mem_map.mp member
    obtain ⟨before, after, rfl⟩ := List.append_of_mem inside
    obtain ⟨-, c, read, -⟩ := rep.chain.cell
    rw [read] at fresh
    cases fresh
  have nodup : ((l ++ [(p, v)]).map Prod.fst).Nodup := by
    rw [List.map_append, List.nodup_append]
    refine ⟨rep.nodup, List.nodup_singleton p, ?_⟩
    rintro x member y (_ | ⟨_, ⟨⟩⟩) rfl
    exact off member
  cases ends : q.tail with
  | none =>
      obtain rfl := eq_nil_of_last (rep.tail.symm.trans ends)
      refine ⟨{ head := some p, tail := some p, elems := set q.elems p (some ⟨none, v⟩) },
        by simp [enque, ends], ?_⟩
      constructor
      · exact ⟨rfl, ⟨none, v⟩, set_self _ _ _, rfl, rfl⟩
      · rfl
      · exact nodup
      · intro x allocated
        rcases of_set_ne_none allocated with rfl | old
        · simp
        · exact absurd (rep.live x old) List.not_mem_nil
  | some t =>
      obtain ⟨init, w, rfl⟩ := eq_concat_of_last (rep.tail.symm.trans ends)
      obtain ⟨before, c, read, rfl, -⟩ := rep.chain.ends
      rw [List.map_append, List.mem_append, not_or] at off
      have other : t ≠ p := fun same => off.2 (by simp [same])
      have distinct := rep.nodup
      rw [List.map_append, List.nodup_append] at distinct
      have off_t : t ∉ init.map Prod.fst := fun member => distinct.2.2 t member t (by simp) rfl
      refine ⟨_, by simp [enque, ends, set_other other, read]; rfl, ?_⟩
      constructor
      · -- the last element is linked to the new one
        have new : set (set q.elems p (some ⟨none, v⟩)) t (some { c with next := some p }) p =
            some ⟨none, v⟩ := by
          rw [set_other (Ne.symm other), set_self]
        refine Chain.concat ?_ new
        exact Chain.concat (chain_set (chain_set before off.1) off_t) (set_self _ _ _)
      · exact (last_concat _ _ _).symm
      · exact nodup
      · intro x allocated
        rw [List.map_append, List.mem_append]
        rcases of_set_ne_none allocated with rfl | old
        · exact .inl (by simp)
        · rcases of_set_ne_none old with rfl | older
          · exact .inr (by simp)
          · exact .inl (rep.live x older)

/-- The first element is the last one only where it is alone. -/
theorem last_cons_ne (nodup : (((a, v) :: l).map Prod.fst).Nodup) (more : l ≠ []) :
    last ((a, v) :: l) ≠ some a := by
  intro ends
  obtain ⟨init, w, split⟩ := eq_concat_of_last ends
  cases init with
  | nil => exact more (List.cons.inj split).2
  | cons entry init =>
      obtain ⟨rfl, rfl⟩ := List.cons.inj split
      simp at nodup

theorem deque_rep (rep : Rep q ((a, v) :: l)) :
    ∃ q', deque q = some (v, q') ∧ Rep q' l := by
  obtain ⟨head, c, read, rfl, after⟩ := rep.chain
  have nodup := rep.nodup
  rw [List.map_cons, List.nodup_cons] at nodup
  have live (x : Ptr) (some_elem : set q.elems a none x ≠ none) : x ∈ l.map Prod.fst := by
    have other : x ≠ a := by
      rintro rfl
      exact some_elem (set_self _ _ _)
    rw [set_other other] at some_elem
    exact (List.mem_cons.mp (rep.live x some_elem)).resolve_left other
  by_cases alone : l = []
  · subst alone
    refine ⟨{ head := none, tail := none, elems := set q.elems a none },
      by simp [deque, head, rep.tail, read, last], ?_⟩
    exact ⟨rfl, rfl, List.nodup_nil, live⟩
  · have ends : some a ≠ q.tail := by
      rw [rep.tail]
      exact (last_cons_ne rep.nodup alone).symm
    refine ⟨{ head := c.next, tail := q.tail, elems := set q.elems a none },
      by simp [deque, head, ends, read], ?_⟩
    constructor
    · exact chain_set after nodup.1
    · rw [rep.tail]
      cases l with
      | nil => exact absurd rfl alone
      | cons entry l => rfl
    · exact nodup.2
    · exact live

/-- The addresses before an element are not its own, and neither are those after it. -/
theorem Rep.apart (rep : Rep q (kept ++ (a, v) :: rest)) :
    a ∉ kept.map Prod.fst ∧ a ∉ rest.map Prod.fst ∧ ((kept ++ rest).map Prod.fst).Nodup := by
  have nodup := rep.nodup
  rw [List.map_append, List.map_cons, List.nodup_middle, List.nodup_cons,
    ← List.map_append] at nodup
  have off := nodup.1
  rw [List.map_append, List.mem_append, not_or] at off
  exact ⟨off.1, off.2, nodup.2⟩

theorem mem_of_last {b : Ptr} (ends : last l = some b) : b ∈ l.map Prod.fst := by
  obtain ⟨init, w, rfl⟩ := eq_concat_of_last ends
  simp

theorem Rep.head_ne (rep : Rep q (kept ++ (a, v) :: rest)) (some_kept : kept ≠ []) :
    some a ≠ q.head := by
  obtain ⟨off, -, -⟩ := rep.apart
  obtain ⟨⟨b, w⟩, kept, rfl⟩ := List.exists_cons_of_ne_nil some_kept
  rw [rep.chain.1]
  intro same
  exact off (by simp [Option.some.inj same])

theorem Rep.live_set (rep : Rep q (kept ++ (a, v) :: rest)) {x : Ptr}
    (allocated : q.elems x ≠ none) (other : x ≠ a) : x ∈ (kept ++ rest).map Prod.fst := by
  have member := rep.live x allocated
  rw [List.map_append, List.map_cons, List.mem_append, List.mem_cons] at member
  rw [List.map_append, List.mem_append]
  exact member.imp_right fun later => later.resolve_left other

/-- Removing the only element, the first one or one between others. -/
theorem remove_elem_rep (rep : Rep q (kept ++ (a, v) :: rest)) (whole : kept = [] ∨ rest ≠ []) :
    ∃ q', remove_elem q ⟨some a, last kept⟩ = some (q', ⟨none, last kept⟩) ∧
      Rep q' (kept ++ rest) := by
  obtain ⟨off, off', nodup⟩ := rep.apart
  obtain ⟨before, c, read, rfl, after⟩ := rep.chain.cell
  have live (x : Ptr) {elems : Ptr → Option (Elem α)} (allocated : set elems a none x ≠ none)
      (older : elems x ≠ none → q.elems x ≠ none) : x ∈ (kept ++ rest).map Prod.fst := by
    have other : x ≠ a := by
      rintro rfl
      exact allocated (set_self _ _ _)
    rw [set_other other] at allocated
    exact rep.live_set (older allocated) other
  by_cases none_kept : kept = []
  · subst none_kept
    have head : q.head = some a := before
    have ends := rep.tail
    cases rest with
    | nil =>
        have next : c.next = none := after
        refine ⟨{ head := none, tail := none, elems := set q.elems a none },
          by simp [remove_elem, head, ends, read, next, last], ?_⟩
        exact ⟨rfl, rfl, nodup, fun x allocated => live x allocated id⟩
    | cons entry rest =>
        have not_last : some a ≠ q.tail := by
          rw [ends]
          exact (last_cons_ne rep.nodup (List.cons_ne_nil _ _)).symm
        refine ⟨{ head := c.next, tail := q.tail, elems := set q.elems a none },
          by simp [remove_elem, head, not_last, read], ?_⟩
        exact ⟨chain_set after off', by rw [ends]; rfl, nodup,
          fun x allocated => live x allocated id⟩
  · have some_rest := whole.resolve_left none_kept
    have not_first := rep.head_ne none_kept
    have ends : q.tail = last rest := by
      rw [rep.tail, last, List.getLast?_append_of_ne_nil _ (List.cons_ne_nil _ _)]
      obtain ⟨entry, rest, rfl⟩ := List.exists_cons_of_ne_nil some_rest
      rfl
    have not_last : some a ≠ q.tail := by
      rw [ends]
      exact fun same => off' (mem_of_last same.symm)
    -- the element before is linked to the one after
    obtain ⟨init, ⟨b, w⟩, rfl⟩ := (List.eq_nil_or_concat kept).resolve_left none_kept
    rw [List.concat_eq_append] at *
    obtain ⟨start, d, read_b, rfl, -⟩ := before.ends
    have other : b ≠ a := fun same => off (by simp [same])
    have distinct := nodup
    rw [List.append_assoc, List.map_append, List.singleton_append, List.map_cons,
      List.nodup_middle, List.nodup_cons, ← List.map_append, List.map_append, List.mem_append,
      not_or] at distinct
    refine ⟨{ q with elems := set (set q.elems b (some { d with next := c.next })) a none },
      by simp [remove_elem, not_first, not_last, read, read_b, set_other other.symm], ?_⟩
    constructor
    · have new : set (set q.elems b (some { d with next := c.next })) a none b =
          some { d with next := c.next } := by
        rw [set_other other, set_self]
      refine chain_append.mpr ⟨c.next, Chain.concat ?_ new, ?_⟩
      · exact chain_set (chain_set start distinct.1.1) fun member => off (by simp [member])
      · exact chain_set (chain_set after distinct.1.2) off'
    · rw [ends, last, last, List.getLast?_append_of_ne_nil _ some_rest]
    · exact nodup
    · intro x allocated
      refine live x allocated fun changed => ?_
      rcases of_set_ne_none changed with rfl | old
      · rw [read_b]
        exact Option.some_ne_none d
      · exact old

/-- Removing the last element behind another one, whose link is left as it is. -/
theorem remove_elem_last_eq (rep : Rep q (kept ++ [(a, v)])) (some_kept : kept ≠ []) :
    remove_elem q ⟨some a, last kept⟩ =
      some ({ q with tail := last kept, elems := set q.elems a none }, ⟨none, last kept⟩) := by
  obtain ⟨-, c, read, -, -⟩ := rep.chain.cell
  have not_first := rep.head_ne some_kept
  have is_last : q.tail = some a := rep.tail.trans (last_concat _ _ _)
  simp [remove_elem, not_first, is_last, read]

/-- Removing the last element behind another one. -/
theorem remove_elem_last (rep : Rep q (kept ++ [(a, v)])) (some_kept : kept ≠ []) :
    ∃ q', remove_elem q ⟨some a, last kept⟩ = some (q', ⟨none, last kept⟩) ∧ Dangles q' := by
  obtain ⟨off, -, -⟩ := rep.apart
  obtain ⟨before, -⟩ := rep.chain.cell
  exact ⟨_, remove_elem_last_eq rep some_kept, kept, a, chain_set before off, set_self _ _ _⟩

end Steps

end CFunc.Clibs.QueueH
