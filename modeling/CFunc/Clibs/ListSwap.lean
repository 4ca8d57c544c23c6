import CFunc.Clibs.ListRings
import Mathlib.Logic.Equiv.Basic

/-!
`list_swap` of `clibs/list.h`.

Two nodes change places when every link is renamed by the exchange of the two.
A link into a node, or out of it, is read by `list_swap` after earlier writes
may have changed it, but what is read then is the renamed link already.
-/

namespace CFunc.Clibs.ListH

open CFunc.Lib.LinkedRing

variable {κ : Type} [DecidableEq κ] {h : Heap κ} {R : Lists κ} {node1 node2 : κ}

/-- The node is in a list, as an element or as its head. -/
def Inside (R : Lists κ) (x : κ) : Prop := ∃ a l, R a = some l ∧ x ∈ a :: l

/-- The lists with two nodes exchanged, wherever they are. -/
def swapNodes (R : Lists κ) (node1 node2 : κ) : Lists κ :=
  fun a => (R (Equiv.swap node1 node2 a)).map (List.map (Equiv.swap node1 node2))

/-! ### Links -/

section Links

variable {before1 after1 before2 after2 before node after x y : κ}

/-- The neighbours of a node. -/
structure Around (h : Heap κ) (before node after : κ) : Prop where
  into : h.Link before node
  outof : h.Link node after

omit [DecidableEq κ] in
theorem from_unique {x' : κ} (link : h.Link x y) (link' : h.Link x' y) : x = x' :=
  Option.some.inj (link.2.symm.trans link'.2)

omit [DecidableEq κ] in
theorem to_unique {y' : κ} (link : h.Link x y) (link' : h.Link x y') : y = y' :=
  Option.some.inj (link.1.symm.trans link'.1)

variable (h node1 node2 before1 before2) in
/-- `next` after the first two writes. -/
def crossed : κ → Option κ :=
  Function.update (Function.update h.next before1 (some node2)) before2 (some node1)

variable (h node1 node2 before1 after1 before2 after2) in
/-- The heap after `list_swap`. -/
def swapped : Heap κ where
  next := Function.update (Function.update (crossed h node1 node2 before1 before2)
    node1 (some (Equiv.swap node1 node2 after2))) node2 (some (Equiv.swap node1 node2 after1))
  prev := Function.update (Function.update (Function.update (Function.update h.prev
    node1 (some before2)) node2 (some before1))
    (Equiv.swap node1 node2 after1) (some node2)) (Equiv.swap node1 node2 after2) (some node1)

/-- What the first two writes make of a link is its end renamed. -/
theorem crossed_eq (around1 : Around h before1 node1 after1)
    (around2 : Around h before2 node2 after2) (link : h.Link x y) :
    crossed h node1 node2 before1 before2 x = some (Equiv.swap node1 node2 y) := by
  rw [crossed]
  by_cases into2 : x = before2
  · subst into2
    rw [Function.update_self, to_unique link around2.into, Equiv.swap_apply_right]
  · rw [Function.update_of_ne into2]
    by_cases into1 : x = before1
    · subst into1
      rw [Function.update_self, to_unique link around1.into, Equiv.swap_apply_left]
    · rw [Function.update_of_ne into1, link.1, Equiv.swap_apply_of_ne_of_ne]
      · rintro rfl
        exact into1 (from_unique link around1.into)
      · rintro rfl
        exact into2 (from_unique link around2.into)

theorem list_swap_eq (around1 : Around h before1 node1 after1)
    (around2 : Around h before2 node2 after2) :
    list_swap h node1 node2 =
      some (swapped h node1 node2 before1 after1 before2 after2) := by
  have next1 := crossed_eq around1 around2 around1.outof
  have next2 := crossed_eq around1 around2 around2.outof
  rw [crossed] at next1 next2
  simp [list_swap, setNext, setPrev, around1.into.2, around2.into.2, next1, next2, swapped,
    crossed]

theorem swapped_next (around1 : Around h before1 node1 after1)
    (around2 : Around h before2 node2 after2) (link : h.Link x y) :
    (swapped h node1 node2 before1 after1 before2 after2).next (Equiv.swap node1 node2 x) =
      some (Equiv.swap node1 node2 y) := by
  simp only [swapped]
  by_cases first : x = node1
  · subst first
    rw [Equiv.swap_apply_left, Function.update_self, to_unique link around1.outof]
  · by_cases second : x = node2
    · subst second
      rw [Equiv.swap_apply_right, Function.update_of_ne (Ne.symm first), Function.update_self,
        to_unique link around2.outof]
    · rw [Equiv.swap_apply_of_ne_of_ne first second, Function.update_of_ne second,
        Function.update_of_ne first, crossed_eq around1 around2 link]

theorem swapped_prev (around1 : Around h before1 node1 after1)
    (around2 : Around h before2 node2 after2) (link : h.Link x y) :
    (swapped h node1 node2 before1 after1 before2 after2).prev (Equiv.swap node1 node2 y) =
      some (Equiv.swap node1 node2 x) := by
  simp only [swapped]
  by_cases second : y = after2
  · subst second
    rw [Function.update_self, from_unique link around2.outof, Equiv.swap_apply_right]
  · rw [Function.update_of_ne ((Equiv.swap node1 node2).injective.ne second)]
    by_cases first : y = after1
    · subst first
      rw [Function.update_self, from_unique link around1.outof, Equiv.swap_apply_left]
    · -- neither end of the link is a neighbour read later
      have fixed : Equiv.swap node1 node2 x = x := by
        refine Equiv.swap_apply_of_ne_of_ne ?_ ?_
        · rintro rfl
          exact first (to_unique link around1.outof)
        · rintro rfl
          exact second (to_unique link around2.outof)
      rw [Function.update_of_ne ((Equiv.swap node1 node2).injective.ne first), fixed]
      by_cases here : y = node1
      · subst here
        rw [Equiv.swap_apply_left, Function.update_self, from_unique link around1.into]
      · by_cases there : y = node2
        · subst there
          rw [Equiv.swap_apply_right, Function.update_of_ne (Ne.symm here), Function.update_self,
            from_unique link around2.into]
        · rw [Equiv.swap_apply_of_ne_of_ne here there, Function.update_of_ne there,
            Function.update_of_ne here, link.2]

/-- Every link is renamed. -/
theorem swapped_link (around1 : Around h before1 node1 after1)
    (around2 : Around h before2 node2 after2) (link : h.Link x y) :
    (swapped h node1 node2 before1 after1 before2 after2).Link (Equiv.swap node1 node2 x)
      (Equiv.swap node1 node2 y) :=
  ⟨swapped_next around1 around2 link, swapped_prev around1 around2 link⟩

end Links

/-! ### Lists -/

omit [DecidableEq κ] in
/-- A node of a ring has its neighbours there. -/
theorem Inside.around {x : κ} (rings : Rings h R) (inside : Inside R x) :
    ∃ before after, Around h before x after ∧ Inside R before ∧ Inside R after := by
  obtain ⟨a, l, found, member⟩ := inside
  obtain ⟨r, ring, same⟩ := (rings.ring found).enter member
  obtain ⟨after, after_mem, outof⟩ := ring.next_link
  obtain ⟨before, before_mem, into⟩ := ring.prev_link
  exact ⟨before, after, ⟨into, outof⟩, ⟨a, l, found, (same before).mp before_mem⟩,
    ⟨a, l, found, (same after).mp after_mem⟩⟩

omit [DecidableEq κ] in
/-- A node of no list is neither one of the two nor a neighbour of them. -/
theorem Free.ne_of_inside {x y : κ} (free : Free R x) (inside : Inside R y) : x ≠ y := by
  rintro rfl
  obtain ⟨a, l, found, member⟩ := inside
  exact free a l found member

theorem Inside.swap {x : κ} (inside : Inside R x) (inside1 : Inside R node1)
    (inside2 : Inside R node2) : Inside R (Equiv.swap node1 node2 x) := by
  rw [Equiv.swap_apply_def]
  split
  · exact inside2
  · split
    · exact inside1
    · exact inside

theorem swapNodes_rings {h' : Heap κ} (rings : Rings h R)
    (links : ∀ x y, h.Link x y →
      h'.Link (Equiv.swap node1 node2 x) (Equiv.swap node1 node2 y)) :
    Rings h' (swapNodes R node1 node2) where
  ring {a l} found := by
    obtain ⟨l, listed, rfl⟩ := Option.map_eq_some_iff.mp found
    have ring := (rings.ring listed).map (Equiv.swap node1 node2).injective links
    rwa [Equiv.swap_apply_self] at ring
  apart {a b l r} found found' other := by
    obtain ⟨l, listed, rfl⟩ := Option.map_eq_some_iff.mp found
    obtain ⟨r, listed', rfl⟩ := Option.map_eq_some_iff.mp found'
    intro x x_mem x_mem'
    have back {c : κ} {m : List κ} (member : x ∈ c :: m.map (Equiv.swap node1 node2)) :
        Equiv.swap node1 node2 x ∈ Equiv.swap node1 node2 c :: m := by
      rcases List.mem_cons.mp member with rfl | later
      · exact List.mem_cons_self
      · obtain ⟨y, listed, rfl⟩ := List.mem_map.mp later
        rw [Equiv.swap_apply_self]
        exact List.mem_cons_of_mem _ listed
    exact rings.apart listed listed' ((Equiv.swap node1 node2).injective.ne other) _
      (back x_mem) (back x_mem')

/-- No link of a node outside the lists is written. -/
theorem swapped_keeps {before1 after1 before2 after2 x : κ} (free : Free R x)
    (inside1 : Inside R node1) (inside2 : Inside R node2) (b1 : Inside R before1)
    (a1 : Inside R after1) (b2 : Inside R before2) (a2 : Inside R after2) :
    Keeps h (swapped h node1 node2 before1 after1 before2 after2) x := by
  have off {y : κ} (inside : Inside R y) : x ≠ y := free.ne_of_inside inside
  constructor
  · simp only [swapped, crossed]
    rw [Function.update_of_ne (off inside2), Function.update_of_ne (off inside1),
      Function.update_of_ne (off b2), Function.update_of_ne (off b1)]
  · simp only [swapped]
    rw [Function.update_of_ne (off (a2.swap inside1 inside2)),
      Function.update_of_ne (off (a1.swap inside1 inside2)), Function.update_of_ne (off inside2),
      Function.update_of_ne (off inside1)]

/-- Any two nodes of the rings are exchanged, in the sequences they are in, and no node outside
the rings is touched. -/
theorem list_swap_rings (rings : Rings h R) (inside1 : Inside R node1) (inside2 : Inside R node2) :
    ∃ h', list_swap h node1 node2 = some h' ∧ Rings h' (swapNodes R node1 node2) ∧
      ∀ x, Free R x → Keeps h h' x := by
  obtain ⟨before1, after1, around1, b1, a1⟩ := inside1.around rings
  obtain ⟨before2, after2, around2, b2, a2⟩ := inside2.around rings
  refine ⟨_, list_swap_eq around1 around2, ?_, ?_⟩
  · exact swapNodes_rings rings fun x y link => swapped_link around1 around2 link
  · exact fun x free => swapped_keeps free inside1 inside2 b1 a1 b2 a2

/-- The element of one list takes the place of the head of another. -/
theorem list_swap_sample :
    ∃ h', list_swap twoRings 1 2 = some h' ∧ Rings h' (swapNodes twoLists 1 2) ∧
      ∀ x, Free twoLists x → Keeps twoRings h' x :=
  list_swap_rings twoRings_rings ⟨0, [1], rfl, by decide⟩ ⟨2, [], rfl, by decide⟩

end CFunc.Clibs.ListH
