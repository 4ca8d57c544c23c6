import Mathlib.Data.List.Nodup

/-!
Lists whose entries have keys.

An entry is found, changed and removed by its key, and each of these acts on the
first entry that has it. Where the keys are distinct there is no other one, and
changing and removing act on each entry by itself.
-/

namespace CFunc.Lib.Keyed

universe u v

variable {α : Type u} {κ : Type v} [DecidableEq κ] (key : α → κ)

/-- The first entry with the key. -/
def find (k : κ) (l : List α) : Option α := l.find? fun a => key a = k

/-- The change of the first entry with the key. -/
def change (k : κ) (f : α → α) : List α → List α
  | [] => []
  | a :: l => if key a = k then f a :: l else a :: change k f l

/-- The first entry with the key is left out. -/
def remove (k : κ) (l : List α) : List α := l.eraseP fun a => key a = k

variable {key} {k k' : κ} {f : α → α} {l : List α} {a : α}

theorem find_eq_none : find key k l = none ↔ k ∉ l.map key := by
  simp [find, List.mem_map]

theorem mem_of_find (found : find key k l = some a) : a ∈ l :=
  List.mem_of_find?_eq_some found

theorem key_of_find (found : find key k l = some a) : key a = k :=
  of_decide_eq_true (List.find?_some (p := fun a => key a = k) found)

theorem find_of_mem (distinct : (l.map key).Nodup) (member : a ∈ l) :
    find key (key a) l = some a := by
  induction l with
  | nil => cases member
  | cons b l ih =>
      rw [List.map_cons, List.nodup_cons] at distinct
      rcases List.mem_cons.mp member with rfl | later
      · exact List.find?_cons_of_pos (decide_eq_true rfl)
      · have other : key b ≠ key a := fun same =>
          distinct.1 (same ▸ List.mem_map_of_mem later)
        rw [find, List.find?_cons_of_neg (by simpa using other)]
        exact ih distinct.2 later

theorem change_eq_map (distinct : (l.map key).Nodup) :
    change key k f l = l.map fun a => if key a = k then f a else a := by
  induction l with
  | nil => rfl
  | cons b l ih =>
      rw [List.map_cons, List.nodup_cons] at distinct
      rw [change, List.map_cons]
      split
      next here =>
          have rest : l.map (fun a => if key a = k then f a else a) = l.map id := by
            refine List.map_congr_left fun a member => if_neg fun same => distinct.1 ?_
            rw [here, ← same]
            exact List.mem_map_of_mem member
          rw [rest, List.map_id]
      next => rw [ih distinct.2]

theorem mem_change (member : a ∈ change key k f l) : a ∈ l ∨ ∃ b ∈ l, key b = k ∧ a = f b := by
  induction l with
  | nil => cases member
  | cons b l ih =>
      rw [change] at member
      split at member
      next here =>
          rcases List.mem_cons.mp member with rfl | later
          · exact .inr ⟨b, List.mem_cons_self, here, rfl⟩
          · exact .inl (List.mem_cons_of_mem b later)
      next =>
          rcases List.mem_cons.mp member with rfl | later
          · exact .inl List.mem_cons_self
          · rcases ih later with old | ⟨c, old, has, rfl⟩
            · exact .inl (List.mem_cons_of_mem b old)
            · exact .inr ⟨c, List.mem_cons_of_mem b old, has, rfl⟩

/-- A change that leaves a value of each entry alone. -/
theorem map_change {δ : Type*} {g : α → δ} (keeps : ∀ a, g (f a) = g a) :
    (change key k f l).map g = l.map g := by
  induction l with
  | nil => rfl
  | cons b l ih =>
      rw [change]
      split
      · rw [List.map_cons, List.map_cons, keeps]
      · rw [List.map_cons, List.map_cons, ih]

/-- A change seen through what is kept of each entry. -/
theorem map_change_comm {β : Type*} {g : α → β} {key' : β → κ} {f' : β → β}
    (keys : ∀ a, key' (g a) = key a) (values : ∀ a, key a = k → g (f a) = f' (g a)) :
    (change key k f l).map g = change key' k f' (l.map g) := by
  induction l with
  | nil => rfl
  | cons b l ih =>
      rw [change, List.map_cons, change, keys]
      by_cases here : key b = k
      · rw [if_pos here, if_pos here, List.map_cons, values b here]
      · rw [if_neg here, if_neg here, List.map_cons, ih]

theorem find_map {β : Type*} {g : α → β} {key' : β → κ} (keys : ∀ a, key' (g a) = key a) :
    find key' k (l.map g) = (find key k l).map g := by
  simp only [find, List.find?_map, Function.comp_def, keys]

theorem remove_of_notMem (off : k ∉ l.map key) : remove key k l = l := by
  refine List.eraseP_of_forall_not fun a member => ?_
  have other : key a ≠ k := fun same => off (same ▸ List.mem_map_of_mem member)
  simpa using other

theorem find_change (keeps : ∀ a, key (f a) = key a) :
    find key k' (change key k f l) =
      if k' = k then (find key k' l).map f else find key k' l := by
  induction l with
  | nil => simp [change, find]
  | cons b l ih =>
      rw [change]
      by_cases here : key b = k
      · rw [if_pos here]
        by_cases asked : key b = k'
        · rw [find, List.find?_cons_of_pos (by simpa [keeps] using asked), find,
            List.find?_cons_of_pos (by simpa using asked), if_pos (asked.symm.trans here)]
          rfl
        · rw [find, List.find?_cons_of_neg (by simpa [keeps] using asked), find,
            List.find?_cons_of_neg (by simpa using asked),
            if_neg fun same => asked (here.trans same.symm)]
      · rw [if_neg here]
        by_cases asked : key b = k'
        · rw [find, List.find?_cons_of_pos (by simpa using asked), find,
            List.find?_cons_of_pos (by simpa using asked),
            if_neg fun same => here (asked.trans same)]
        · rw [find, List.find?_cons_of_neg (by simpa using asked), find,
            List.find?_cons_of_neg (by simpa using asked)]
          exact ih

theorem remove_eq_filter (distinct : (l.map key).Nodup) :
    remove key k l = l.filter fun a => key a ≠ k := by
  induction l with
  | nil => rfl
  | cons b l ih =>
      rw [List.map_cons, List.nodup_cons] at distinct
      by_cases here : key b = k
      · rw [remove, List.eraseP_cons_of_pos (by simpa using here),
          List.filter_cons_of_neg (by simpa using here), List.filter_eq_self.mpr]
        intro a member
        have other : key a ≠ k := fun same =>
          distinct.1 (here.trans same.symm ▸ List.mem_map_of_mem member)
        exact decide_eq_true other
      · rw [remove, List.eraseP_cons_of_neg (by simpa using here),
          List.filter_cons_of_pos (by simpa using here), ← remove, ih distinct.2]

theorem find_remove (distinct : (l.map key).Nodup) :
    find key k' (remove key k l) = if k' = k then none else find key k' l := by
  rw [remove_eq_filter distinct, find, List.find?_filter]
  split
  next same =>
      subst same
      rw [List.find?_eq_none]
      simp
  next other =>
      rw [find]
      congr 1
      funext a
      by_cases here : key a = k'
      · simp [here, other]
      · simp [here]

end CFunc.Lib.Keyed
