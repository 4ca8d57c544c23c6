import CFunc.Clibs.List

/-!
The functions of `clibs/list.h` on a heap of rings.

Each is one or two links that change: the list in question is settled by the
rule for its ring, and all others by the frame rule, since no node is in two of
them.
-/

namespace CFunc.Clibs.ListH

open CFunc.Lib.LinkedRing

variable {κ : Type} {h h' : Heap κ} {R : Lists κ} {a b head list entry new n p x : κ}
  {l r : List κ}

/-- The links of a node are the same in both heaps. -/
def Keeps (h h' : Heap κ) (x : κ) : Prop := h'.next x = h.next x ∧ h'.prev x = h.prev x

theorem Keeps.refl (h : Heap κ) (x : κ) : Keeps h h x := ⟨rfl, rfl⟩

theorem Keeps.trans {h'' : Heap κ} (first : Keeps h h' x) (second : Keeps h' h'' x) :
    Keeps h h'' x :=
  ⟨second.1.trans first.1, second.2.trans first.2⟩

/-! ### Lists -/

theorem elems_eq (found : R head = some l) : elems R head = l := by
  rw [elems, found, Option.getD_some]

theorem exists_elems (entered : R head ≠ none) : R head = some (elems R head) := by
  obtain ⟨l, found⟩ := Option.ne_none_iff_exists'.mp entered
  rw [elems_eq found, found]

theorem not_mem_of_elems (found : R a = some l) (off : x ∉ elems R a) : x ∉ l := by
  rwa [elems_eq found] at off

theorem Rings.ne_of_apart (rings : Rings h R) (found : R a = some l) (found' : R b = some r)
    (other : a ≠ b) {y : κ} (x_mem : x ∈ a :: l) (y_mem : y ∈ b :: r) : x ≠ y :=
  fun same => rings.apart found found' other x x_mem (same ▸ y_mem)

/-- Where no link of a list changes, all lists stay. -/
theorem Rings.frame (rings : Rings h R)
    (keeps : ∀ a l, R a = some l → ∀ x ∈ a :: l, Keeps h h' x) : Rings h' R where
  ring {a l} found := (rings.ring found).frame (keeps a l found)
  apart := rings.apart

/-- A list that takes in a free node is apart from the others. -/
theorem Rings.apart_add (rings : Rings h R) (found : R head = some l) (free : Free R new)
    {m : List κ} (elements : ∀ x ∈ head :: m, x = new ∨ x ∈ head :: l) {b : κ} {r : List κ}
    (found' : R b = some r) (other : b ≠ head) : ∀ x ∈ head :: m, x ∉ b :: r := by
  intro x x_mem inside
  rcases elements x x_mem with rfl | old
  · exact free b r found' inside
  · exact rings.apart found found' other.symm x old inside

variable [DecidableEq κ]

theorem setElems_self : setElems R head l head = some l := Function.update_self ..

theorem setElems_other (other : a ≠ head) : setElems R head l a = R a :=
  Function.update_of_ne other ..

/-- One list changes, and the others are left alone. -/
theorem Rings.setElems (rings : Rings h R)
    (keeps : ∀ a l, R a = some l → a ≠ head → ∀ x ∈ a :: l, Keeps h h' x) (ring : Ring h' head l)
    (apart : ∀ b r, R b = some r → b ≠ head → ∀ x ∈ head :: l, x ∉ b :: r) :
    Rings h' (setElems R head l) where
  ring {a r} found := by
    by_cases here : a = head
    · subst here
      rw [setElems_self] at found
      obtain rfl := Option.some.inj found
      exact ring
    · rw [setElems_other here] at found
      exact (rings.ring found).frame (keeps a r found here)
  apart {a b r r'} found found' ne := by
    by_cases here : a = head
    · subst here
      rw [setElems_self] at found
      obtain rfl := Option.some.inj found
      rw [setElems_other ne.symm] at found'
      exact apart b r' found' ne.symm
    · rw [setElems_other here] at found
      by_cases there : b = head
      · subst there
        rw [setElems_self] at found'
        obtain rfl := Option.some.inj found'
        exact fun x x_mem x_mem' => apart a r found here x x_mem' x_mem
      · rw [setElems_other there] at found'
        exact rings.apart found found' ne

/-- What is entered without `list` is another list. -/
theorem forget_found (found : Function.update R list none a = some l) :
    a ≠ list ∧ R a = some l := by
  by_cases here : a = list
  · subst here
    rw [Function.update_self] at found
    cases found
  · rw [Function.update_of_ne here] at found
    exact ⟨here, found⟩

/-- A list that nobody enters any more. -/
theorem Rings.forget (rings : Rings h R) (list : κ) : Rings h (Function.update R list none) where
  ring found := rings.ring (forget_found found).2
  apart found found' ne := rings.apart (forget_found found).2 (forget_found found').2 ne

/-! ### Writes as links -/

theorem add_eq_link : __list_add h new p n = (h.link new n).link p new := rfl

theorem del_eq_link : __list_del h p n = h.link p n := rfl

theorem init_eq_link : INIT_LIST_HEAD h list = h.link list list := rfl

theorem keeps_link (from_other : x ≠ a) (to_other : x ≠ b) : Keeps h (h.link a b) x :=
  ⟨link_next_of_ne from_other, link_prev_of_ne to_other⟩

/-! ### Adding -/

/-- A free node put between two neighbours of a list. -/
theorem Rings.keeps_add (rings : Rings h R) (found : R head = some l) (free : Free R new)
    (p_mem : p ∈ head :: l) (n_mem : n ∈ head :: l) {r : List κ} (found' : R a = some r)
    (other : a ≠ head) (x_mem : x ∈ a :: r) : Keeps h (__list_add h new p n) x := by
  have off : x ≠ new := fun same => free a r found' (same ▸ x_mem)
  rw [add_eq_link]
  refine (keeps_link off ?_).trans (keeps_link ?_ off)
  · exact rings.ne_of_apart found' found other x_mem n_mem
  · exact rings.ne_of_apart found' found other x_mem p_mem

theorem list_add_rings (rings : Rings h R) (found : R head = some l) (free : Free R new) :
    ∃ h', list_add h new head = some h' ∧ Rings h' (setElems R head (new :: l)) ∧
      ∀ a r, R a = some r → a ≠ head → ∀ x ∈ a :: r, Keeps h h' x := by
  have ring := rings.ring found
  obtain ⟨n, next⟩ : ∃ n, h.next head = some n := by
    rw [ring.next_eq]
    exact ⟨_, List.head?_eq_some_head (by simp)⟩
  have keeps (a : κ) (r : List κ) (found' : R a = some r) (other : a ≠ head) (x : κ)
      (x_mem : x ∈ a :: r) : Keeps h (__list_add h new head n) x :=
    rings.keeps_add found free List.mem_cons_self (ring.next_mem next) found' other x_mem
  refine ⟨__list_add h new head n, by simp [list_add, next], ?_, keeps⟩
  refine rings.setElems keeps (ring.insert (free head l found) next) ?_
  refine fun b r found' other => rings.apart_add found free (fun x x_mem => ?_) found' other
  rw [List.mem_cons, List.mem_cons] at x_mem
  rw [List.mem_cons]
  tauto

theorem list_add_tail_rings (rings : Rings h R) (found : R head = some l) (free : Free R new) :
    ∃ h', list_add_tail h new head = some h' ∧ Rings h' (setElems R head (l ++ [new])) ∧
      ∀ a r, R a = some r → a ≠ head → ∀ x ∈ a :: r, Keeps h h' x := by
  have ring := rings.ring found
  obtain ⟨p, prev⟩ : ∃ p, h.prev head = some p := by
    rw [ring.prev_eq]
    exact ⟨_, List.getLast?_eq_some_getLast (List.cons_ne_nil head l)⟩
  have keeps (a : κ) (r : List κ) (found' : R a = some r) (other : a ≠ head) (x : κ)
      (x_mem : x ∈ a :: r) : Keeps h (__list_add h new p head) x :=
    rings.keeps_add found free (ring.prev_mem prev) List.mem_cons_self found' other x_mem
  refine ⟨__list_add h new p head, by simp [list_add_tail, prev], ?_, keeps⟩
  refine rings.setElems keeps (ring.insert_last (free head l found) prev) ?_
  refine fun b r found' other => rings.apart_add found free (fun x x_mem => ?_) found' other
  rw [List.mem_cons, List.mem_append, List.mem_singleton] at x_mem
  rw [List.mem_cons]
  tauto

/-! ### Removing -/

/-- Removing an element leaves all lists but its own as they are. -/
theorem remove_eq (rings : Rings h R) (found : R b = some (l ++ entry :: r)) :
    remove R entry = setElems R b (l ++ r) := by
  have nodup := (rings.ring found).nodup
  funext a
  by_cases here : a = b
  · subst here
    have before : entry ∉ l := by
      rw [← List.cons_append, List.nodup_append] at nodup
      exact fun member =>
        nodup.2.2 entry (List.mem_cons_of_mem a member) entry List.mem_cons_self rfl
    rw [setElems_self, remove, found, Option.map_some, List.erase_append_right _ before,
      List.erase_cons_head]
  · rw [setElems_other here, remove]
    cases found' : R a with
    | none => rfl
    | some m =>
        have off : entry ∉ m := fun member =>
          rings.apart found found' (Ne.symm here) entry (by simp) (List.mem_cons_of_mem a member)
        rw [Option.map_some, List.erase_of_not_mem off]

theorem unlink_rings (rings : Rings h R) (found : R b = some (l ++ entry :: r)) :
    ∃ h', unlink h entry = some h' ∧ Rings h' (remove R entry) ∧ Free (remove R entry) entry ∧
      ∀ a m, R a = some m → a ≠ b → ∀ x ∈ a :: m, Keeps h h' x := by
  have ring := rings.ring found
  have entered : Ring h entry (r ++ b :: l) :=
    (closed_append_comm (l := b :: l) (r := entry :: r)).mp ring
  have around {y : κ} (member : y ∈ entry :: (r ++ b :: l)) : y ∈ b :: (l ++ entry :: r) := by
    rw [← List.cons_append, List.mem_append, or_comm, ← List.mem_append] at member
    exact member
  obtain ⟨n, next⟩ : ∃ n, h.next entry = some n := by
    rw [entered.next_eq]
    exact ⟨_, List.head?_eq_some_head (by simp)⟩
  obtain ⟨p, prev⟩ : ∃ p, h.prev entry = some p := by
    rw [entered.prev_eq]
    exact ⟨_, List.getLast?_eq_some_getLast (List.cons_ne_nil entry _)⟩
  have keeps (a : κ) (m : List κ) (found' : R a = some m) (other : a ≠ b) (x : κ)
      (x_mem : x ∈ a :: m) : Keeps h (__list_del h p n) x := by
    rw [del_eq_link]
    refine keeps_link ?_ ?_
    · exact rings.ne_of_apart found' found other x_mem (around (entered.prev_mem prev))
    · exact rings.ne_of_apart found' found other x_mem (around (entered.next_mem next))
  refine ⟨__list_del h p n, by simp [unlink, next, prev], ?_, ?_, keeps⟩
  · rw [remove_eq rings found]
    refine rings.setElems keeps (ring.delete next prev) fun a m found' other x x_mem => ?_
    refine rings.apart found found' other.symm x ?_
    rw [List.mem_cons, List.mem_append] at x_mem
    rw [List.mem_cons, List.mem_append, List.mem_cons]
    tauto
  · intro a m found'
    rw [remove_eq rings found] at found'
    by_cases here : a = b
    · subst here
      rw [setElems_self] at found'
      obtain rfl := Option.some.inj found'
      have nodup := ring.nodup
      rw [← List.cons_append, List.nodup_middle] at nodup
      exact (List.nodup_cons.mp nodup).1
    · rw [setElems_other here] at found'
      exact rings.apart found found' (Ne.symm here) entry (by simp)

/-- A free node becomes a list of its own. -/
theorem init_rings (rings : Rings h R) (free : Free R list) :
    Rings (INIT_LIST_HEAD h list) (setElems R list []) ∧
      ∀ a r, R a = some r → ∀ x ∈ a :: r, Keeps h (INIT_LIST_HEAD h list) x := by
  have keeps (a : κ) (r : List κ) (found : R a = some r) (x : κ) (x_mem : x ∈ a :: r) :
      Keeps h (INIT_LIST_HEAD h list) x := by
    have off : x ≠ list := fun same => free a r found (same ▸ x_mem)
    rw [init_eq_link]
    exact keeps_link off off
  refine ⟨rings.setElems (fun a r found _ => keeps a r found) ?_ ?_, keeps⟩
  · rw [init_eq_link]
    exact Ring.single link_link
  · intro b r found _ x x_mem
    rw [List.mem_singleton.mp x_mem]
    exact free b r found

/-! ### Splicing -/

theorem list_empty_iff (ring : Ring h list l) : list_empty h list = true ↔ l = [] := by
  rw [list_empty, decide_eq_true_iff, ring.next_eq]
  constructor
  · intro alone
    cases l with
    | nil => rfl
    | cons y l =>
        have same : y = list := Option.some.inj alone
        exact absurd (same ▸ List.mem_cons_self) (List.nodup_cons.mp ring.nodup).1
  · rintro rfl
    rfl

/-- A list spliced into another, which loses its own head. -/
theorem splice_rings (rings : Rings h R) (found : R list = some l) (found' : R head = some r)
    (other : list ≠ head) (some_elem : l ≠ []) :
    ∃ h', __list_splice h list head = some h' ∧
      Rings h' (setElems (Function.update R list none) head (l ++ r)) ∧
      ∀ a m, R a = some m → a ≠ list → a ≠ head → ∀ x ∈ a :: m, Keeps h h' x := by
  have ring := rings.ring found
  have ring' := rings.ring found'
  obtain ⟨first, begins⟩ : ∃ first, l.head? = some first :=
    ⟨_, List.head?_eq_some_head some_elem⟩
  obtain ⟨last, ends⟩ : ∃ last, l.getLast? = some last :=
    ⟨_, List.getLast?_eq_some_getLast some_elem⟩
  obtain ⟨n, next⟩ : ∃ n, h.next head = some n := by
    rw [ring'.next_eq]
    exact ⟨_, List.head?_eq_some_head (by simp)⟩
  have to_first : h.next list = some first := by
    rw [ring.next_eq, List.head?_append, begins]
    rfl
  have to_last : h.prev list = some last := by
    rw [ring.prev_eq, List.getLast?_cons, ends]
    rfl
  have first_mem : first ∈ list :: l := List.mem_cons_of_mem _ (List.mem_of_mem_head? begins)
  have last_mem : last ∈ list :: l := List.mem_cons_of_mem _ (List.mem_of_mem_getLast? ends)
  have keeps (a : κ) (m : List κ) (found_a : R a = some m) (off : a ≠ list) (off' : a ≠ head)
      (x : κ) (x_mem : x ∈ a :: m) : Keeps h ((h.link head first).link last n) x := by
    refine (keeps_link ?_ ?_).trans (keeps_link ?_ ?_)
    · exact rings.ne_of_apart found_a found' off' x_mem List.mem_cons_self
    · exact rings.ne_of_apart found_a found off x_mem first_mem
    · exact rings.ne_of_apart found_a found off x_mem last_mem
    · exact rings.ne_of_apart found_a found' off' x_mem (ring'.next_mem next)
  refine ⟨(h.link head first).link last n, ?_, ?_, keeps⟩
  · simp only [__list_splice, to_first, to_last, next, Option.bind_eq_bind, Option.bind_some]
    rfl
  · refine (rings.forget list).setElems ?_ ?_ ?_
    · intro a m found_a off'
      obtain ⟨off, found_a'⟩ := forget_found found_a
      exact keeps a m found_a' off off'
    · refine ring.splice ring' ?_ begins ends next
      exact fun x x_mem => rings.apart found found' other x (List.mem_cons_of_mem list x_mem)
    · intro a m found_a off' x x_mem
      obtain ⟨off, found_a⟩ := forget_found found_a
      rw [List.mem_cons, List.mem_append] at x_mem
      rcases x_mem with rfl | moved | stayed
      · exact rings.apart found' found_a off'.symm x List.mem_cons_self
      · exact rings.apart found found_a off.symm x (List.mem_cons_of_mem list moved)
      · exact rings.apart found' found_a off'.symm x (List.mem_cons_of_mem head stayed)

/-! ### Calls -/

/-- What a call does to the heap, with the lists it is not about left as they are. -/
def Refines (h : Heap κ) (R : Lists κ) (c : Call κ) : Prop :=
  ∃ h', c.run h = some h' ∧ Rings h' (c.spec R) ∧
    ∀ a l, R a = some l → ¬ c.Concerns R a → ∀ x ∈ a :: l, Keeps h h' x

theorem remove_found (found : R a = some l) (off : entry ∉ l) : remove R entry a = some l := by
  rw [remove, found, Option.map_some, List.erase_of_not_mem off]

theorem remove_entered (entered : R head ≠ none) : remove R entry head ≠ none := by
  rw [remove, Ne, Option.map_eq_none_iff]
  exact entered

/-- What the first half of a removal or a move leaves. -/
theorem exists_unlink (rings : Rings h R) (member : Member R entry) :
    ∃ h', unlink h entry = some h' ∧ Rings h' (remove R entry) ∧ Free (remove R entry) entry ∧
      ∀ a m, R a = some m → entry ∉ m → ∀ x ∈ a :: m, Keeps h h' x := by
  obtain ⟨b, l, found, inside⟩ := member
  obtain ⟨before, after, rfl⟩ := List.append_of_mem inside
  obtain ⟨h', unlinked, rings', free, keeps⟩ := unlink_rings rings found
  refine ⟨h', unlinked, rings', free, fun a m found' off => keeps a m found' ?_⟩
  rintro rfl
  obtain rfl := Option.some.inj (found.symm.trans found')
  exact off inside

/-- A list without the entry is left alone by what leaves it alone after the entry has gone. -/
theorem keeps_unlinked_then {h'' : Heap κ}
    (keeps : ∀ a m, R a = some m → entry ∉ m → ∀ x ∈ a :: m, Keeps h h' x)
    (found : R a = some l) (off : entry ∉ elems R a) (x_mem : x ∈ a :: l)
    (later : remove R entry a = some l → Keeps h' h'' x) : Keeps h h'' x := by
  have off' := not_mem_of_elems found off
  exact (keeps a l found off' x x_mem).trans (later (remove_found found off'))

theorem add_refines (rings : Rings h R) (entered : R head ≠ none) (free : Free R new) :
    Refines h R (.add new head) := by
  obtain ⟨h', run, rings', keeps⟩ := list_add_rings rings (exists_elems entered) free
  exact ⟨h', run, rings', keeps⟩

theorem add_tail_refines (rings : Rings h R) (entered : R head ≠ none) (free : Free R new) :
    Refines h R (.add_tail new head) := by
  obtain ⟨h', run, rings', keeps⟩ := list_add_tail_rings rings (exists_elems entered) free
  exact ⟨h', run, rings', keeps⟩

theorem del_refines (rings : Rings h R) (member : Member R entry) :
    Refines h R (.del entry) := by
  obtain ⟨h', unlinked, rings', free, keeps⟩ := exists_unlink rings member
  have cleared (x : κ) (off : x ≠ entry) :
      Keeps h' (setPrev (setNext h' entry none) entry none) x :=
    ⟨Function.update_of_ne off .., Function.update_of_ne off ..⟩
  refine ⟨setPrev (setNext h' entry none) entry none, ?_, ?_, ?_⟩
  · simp [Call.run, list_del, unlinked]
  · refine rings'.frame fun a l found x x_mem => cleared x ?_
    rintro rfl
    exact free a l found x_mem
  · intro a l found off x x_mem
    refine keeps_unlinked_then keeps found off x_mem fun found' => cleared x ?_
    rintro rfl
    exact free a l found' x_mem

theorem del_init_refines (rings : Rings h R) (member : Member R entry) :
    Refines h R (.del_init entry) := by
  obtain ⟨h', unlinked, rings', free, keeps⟩ := exists_unlink rings member
  obtain ⟨rings'', keeps'⟩ := init_rings rings' free
  refine ⟨INIT_LIST_HEAD h' entry, ?_, rings'', ?_⟩
  · simp [Call.run, list_del_init, unlinked]
  · intro a l found off x x_mem
    exact keeps_unlinked_then keeps found off x_mem fun found' => keeps' a l found' x x_mem

theorem move_refines (rings : Rings h R) (member : Member R list) (entered : R head ≠ none) :
    Refines h R (.move list head) := by
  obtain ⟨h', unlinked, rings', free, keeps⟩ := exists_unlink rings member
  obtain ⟨h'', added, rings'', keeps'⟩ :=
    list_add_rings rings' (exists_elems (remove_entered entered)) free
  refine ⟨h'', ?_, rings'', ?_⟩
  · simp [Call.run, list_move, unlinked, added]
  · intro a l found concerns x x_mem
    obtain ⟨off, other⟩ := not_or.mp concerns
    exact keeps_unlinked_then keeps found off x_mem fun found' => keeps' a l found' other x x_mem

theorem move_tail_refines (rings : Rings h R) (member : Member R list)
    (entered : R head ≠ none) : Refines h R (.move_tail list head) := by
  obtain ⟨h', unlinked, rings', free, keeps⟩ := exists_unlink rings member
  obtain ⟨h'', added, rings'', keeps'⟩ :=
    list_add_tail_rings rings' (exists_elems (remove_entered entered)) free
  refine ⟨h'', ?_, rings'', ?_⟩
  · simp [Call.run, list_move_tail, unlinked, added]
  · intro a l found concerns x x_mem
    obtain ⟨off, other⟩ := not_or.mp concerns
    exact keeps_unlinked_then keeps found off x_mem fun found' => keeps' a l found' other x x_mem

theorem splice_refines (rings : Rings h R) (entered : R list ≠ none) (entered' : R head ≠ none)
    (other : list ≠ head) : Refines h R (.splice list head) := by
  have found := exists_elems entered
  have empty := list_empty_iff (rings.ring found)
  by_cases none_there : elems R list = []
  · refine ⟨h, ?_, ?_, fun a l _ _ x _ => .refl h x⟩
    · simp [Call.run, list_splice, empty.mpr none_there]
    · rw [Call.spec, if_pos none_there]
      exact rings
  · obtain ⟨h', run, rings', keeps⟩ :=
      splice_rings rings found (exists_elems entered') other none_there
    refine ⟨h', ?_, ?_, ?_⟩
    · simp [Call.run, list_splice, mt empty.mp none_there, run]
    · rw [Call.spec, if_neg none_there]
      exact rings'
    · intro a l found concerns
      obtain ⟨off, off'⟩ := not_or.mp concerns
      exact keeps a l found off off'

theorem splice_init_refines (rings : Rings h R) (entered : R list ≠ none)
    (entered' : R head ≠ none) (other : list ≠ head) : Refines h R (.splice_init list head) := by
  have found := exists_elems entered
  have found' := exists_elems entered'
  have empty := list_empty_iff (rings.ring found)
  by_cases none_there : elems R list = []
  · refine ⟨h, ?_, ?_, fun a l _ _ x _ => .refl h x⟩
    · simp [Call.run, list_splice_init, empty.mpr none_there]
    · have same : Call.spec R (.splice_init list head) = R := by
        have same_head : setElems R head (elems R head) = R := by
          rw [setElems, ← found', Function.update_eq_self]
        rw [none_there] at found
        rw [Call.spec, none_there, List.nil_append, same_head, setElems, ← found,
          Function.update_eq_self]
      rw [same]
      exact rings
  · obtain ⟨h', run, rings', keeps⟩ := splice_rings rings found found' other none_there
    have free : Free (setElems (Function.update R list none) head (elems R list ++ elems R head))
        list := by
      intro a l found_a
      have distinct := (List.nodup_cons.mp (rings.ring found).nodup).1
      by_cases here : a = head
      · subst here
        rw [setElems_self] at found_a
        obtain rfl := Option.some.inj found_a
        have off := rings.apart found found' other list List.mem_cons_self
        rw [List.mem_cons, not_or] at off
        rw [List.mem_cons, List.mem_append]
        rintro (same | moved | stayed)
        · exact off.1 same
        · exact distinct moved
        · exact off.2 stayed
      · rw [setElems_other here] at found_a
        obtain ⟨off, found_a'⟩ := forget_found found_a
        exact rings.apart found found_a' off.symm list List.mem_cons_self
    obtain ⟨rings'', keeps'⟩ := init_rings rings' free
    refine ⟨INIT_LIST_HEAD h' list, ?_, ?_, ?_⟩
    · simp [Call.run, list_splice_init, mt empty.mp none_there, run]
    · have same : setElems (setElems (Function.update R list none) head
          (elems R list ++ elems R head)) list [] = Call.spec R (.splice_init list head) := by
        simp only [Call.spec, setElems]
        rw [Function.update_comm other.symm, Function.update_comm other.symm,
          Function.update_idem]
      rw [← same]
      exact rings''
    · intro a l found_a concerns x x_mem
      obtain ⟨off, off'⟩ := not_or.mp concerns
      refine (keeps a l found_a off off' x x_mem).trans (keeps' a l ?_ x x_mem)
      rw [setElems_other off', Function.update_of_ne off, found_a]

theorem Rings.refines (rings : Rings h R) {c : Call κ} (respects : c.Respects R) :
    Refines h R c := by
  cases c with
  | add new head => exact add_refines rings respects.1 respects.2
  | add_tail new head => exact add_tail_refines rings respects.1 respects.2
  | del entry => exact del_refines rings respects
  | del_init entry => exact del_init_refines rings respects
  | move list head => exact move_refines rings respects.1 respects.2
  | move_tail list head => exact move_tail_refines rings respects.1 respects.2
  | splice list head => exact splice_refines rings respects.1 respects.2.1 respects.2.2
  | splice_init list head => exact splice_init_refines rings respects.1 respects.2.1 respects.2.2

/-- Every call that respects the roles of its arguments does to the rings what it does to the
sequences, and no other ring is touched. -/
theorem call_refines (h : Heap κ) (R : Lists κ) (c : Call κ) (rings : Rings h R)
    (respects : c.Respects R) : Refines h R c :=
  rings.refines respects

/-- Two lists, of one element and of none. -/
def twoLists : Lists Nat := fun a => if a = 0 then some [1] else if a = 2 then some [] else none

def twoRings : Heap Nat where
  next a := some (if a = 0 then 1 else if a = 1 then 0 else a)
  prev a := some (if a = 0 then 1 else if a = 1 then 0 else a)

theorem twoRings_rings : Rings twoRings twoLists where
  ring {a l} found := by
    rw [twoLists] at found
    split at found
    · next here =>
        obtain rfl := Option.some.inj found
        subst here
        exact ⟨.cons_cons ⟨rfl, rfl⟩ (.cons_cons ⟨rfl, rfl⟩ (.singleton 0)), by decide⟩
    · split at found
      · next here =>
          obtain rfl := Option.some.inj found
          subst here
          exact Ring.single ⟨rfl, rfl⟩
      · cases found
  apart {a b l r} found found' ne := by
    rw [twoLists] at found found'
    split at found <;> split at found' <;> simp_all
    · obtain ⟨rfl, rfl⟩ := found'
      obtain rfl := found
      simp
    · obtain ⟨rfl, rfl⟩ := found
      obtain rfl := found'
      simp

theorem call_refines_sample : Refines twoRings twoLists (.move 1 2) :=
  call_refines twoRings twoLists (.move 1 2) twoRings_rings
    ⟨⟨0, [1], rfl, List.mem_singleton_self 1⟩, Option.some_ne_none []⟩

/-! ### Runs of calls -/

/-- The roles are respected in a run, of the lists as they are at each call. -/
def RespectsAll : Lists κ → List (Call κ) → Prop
  | _, [] => True
  | R, c :: cs => c.Respects R ∧ RespectsAll (c.spec R) cs

/-- A run of calls does to the rings what it does to the sequences. -/
theorem run_refines {cs : List (Call κ)} (rings : Rings h R) (respects : RespectsAll R cs) :
    ∃ h', cs.foldlM Call.run h = some h' ∧ Rings h' (cs.foldl Call.spec R) := by
  induction cs generalizing h R with
  | nil => exact ⟨h, rfl, rings⟩
  | cons c cs ih =>
      obtain ⟨h', run, rings', -⟩ := rings.refines respects.1
      obtain ⟨h'', more, rings''⟩ := ih rings' respects.2
      exact ⟨h'', by simp [List.foldlM_cons, run, more], rings''⟩

end CFunc.Clibs.ListH
