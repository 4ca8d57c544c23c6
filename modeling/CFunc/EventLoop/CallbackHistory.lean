import CFunc.EventLoop.CallbackRep
import Mathlib.Data.Fintype.EquivFin

/-!
Histories of the callback list.

What the event loop sees of the list are the callbacks it runs, in order. A
history shows the list its client means exactly when nothing is appended while
`last` has lost the callbacks that are due.
-/

namespace CFunc.EventLoop

open CFunc.Lib CFunc.Lib.LinkedList

variable {P D : Type}

/-- What a client does, with the loop running the callbacks. -/
inductive Op (P D : Type) where
  | append (proc : P) (data : D)
  | delete (id : Int)
  | process

/-- The callbacks a walk meets are those of the list. -/
def Seen (c : CallbackList P D) (l : List (Entry P D)) : Prop :=
  ∃ fuel, walk c fuel c.first = some l

theorem walk_links {c : CallbackList P D} {l : List (Ptr × Entry P D)} {p : Option Ptr}
    (chain : Links c.cells p l none) : walk c l.length p = some (l.map Prod.snd) := by
  induction l generalizing p with
  | nil =>
      obtain rfl : p = none := chain
      rfl
  | cons entry l ih =>
      obtain ⟨rfl, e, read, datum, rest⟩ := chain
      simp [walk, read, ih rest, ← datum, CallbackEvent.entry]

theorem walk_mono {c : CallbackList P D} {l : List (Entry P D)} {p : Option Ptr} {fuel more : Nat}
    (walked : walk c fuel p = some l) (le : fuel ≤ more) : walk c more p = some l := by
  induction fuel generalizing p l more with
  | zero =>
      cases p with
      | none => cases more <;> exact walked
      | some a => cases walked
  | succ fuel ih =>
      obtain ⟨more, rfl⟩ := Nat.exists_eq_add_of_le' (Nat.one_le_of_lt le)
      cases p with
      | none => exact walked
      | some a =>
          obtain ⟨e, read, walked⟩ := Option.bind_eq_some_iff.mp walked
          obtain ⟨rest, walked', ⟨⟩⟩ := Option.bind_eq_some_iff.mp walked
          simp [walk, read, ih walked' (Nat.le_of_succ_le_succ le)]

theorem Rep.seen_iff {c : CallbackList P D} {l : List (Ptr × Entry P D)} {s : Pending P D}
    (rep : Rep c l s) {due : List (Entry P D)} : Seen c due ↔ due = s.events := by
  have walked := walk_links rep.chain
  rw [rep.events] at walked
  constructor
  · rintro ⟨fuel, walked'⟩
    have again := walk_mono walked' (Nat.le_max_left fuel l.length)
    rw [walk_mono walked (Nat.le_max_right fuel l.length)] at again
    exact (Option.some.inj again).symm
  · rintro rfl
    exact ⟨l.length, walked⟩

/-- Whatever addresses `malloc` picks, each function does to the callbacks what it is meant to do
to the list of those that are due, `n` being the next id. -/
def Behaves : List (Op P D) → CallbackList P D → List (Entry P D) → Nat → Prop
  | [], _, _, _ => True
  | .append proc data :: ops, c, l, n => ∀ p, c.cells p = none →
      ∃ c', append_callback_event c p proc data = some ((n : Int), c') ∧
        Seen c' (l ++ [((n : Int), proc, data)]) ∧
        Behaves ops c' (l ++ [((n : Int), proc, data)]) (n + 1)
  | .delete id :: ops, c, l, n =>
      ∃ fuel t, delete_callback_event fuel c id = .done t ∧
        Seen t.c (l.eraseP fun e => e.1 = id) ∧ Behaves ops t.c (l.eraseP fun e => e.1 = id) n
  | .process :: ops, c, l, n =>
      ∃ c', process_callback c = some (l.head?.map Prod.snd, c') ∧ Seen c' l.tail ∧
        Behaves ops c' l.tail n

/-- Ids stay within `int`, and nothing is appended once the newest of several callbacks has been
deleted, until none of these is left. -/
def Sound : List (Op P D) → Pending P D → Prop
  | [], _ => True
  | .append proc data :: ops, s =>
      (s.num_callbacks : Int) < INT_MAX ∧ s.lost = false ∧ Sound ops (s.append proc data)
  | .delete id :: ops, s => Sound ops (s.delete id)
  | .process :: ops, s => Sound ops s.next

theorem callbacks_behave_iff_of_rep {ops : List (Op P D)} : ∀ {c : CallbackList P D}
    {l : List (Ptr × Entry P D)} {s : Pending P D}, Rep c l s →
      (Behaves ops c s.events s.num_callbacks ↔ Sound ops s) := by
  induction ops with
  | nil => exact fun _ => Iff.rfl
  | cons op ops ih =>
      intro c l s rep
      cases op with
      | append proc data =>
          constructor
          · intro behaves
            obtain ⟨p, fresh⟩ := rep.exists_free
            obtain ⟨c', run, seen, more⟩ := behaves p fresh
            have fits : (s.num_callbacks : Int) < INT_MAX := rep.count ▸ lt_of_append run
            obtain ⟨c'', l', run', rep'⟩ := append_rep rep fresh fits proc data
            obtain ⟨-, rfl⟩ := Prod.mk.inj (Option.some.inj (run.symm.trans run'))
            -- what is lost is not seen
            have kept : s.lost = false := by
              by_contra lost
              have same := rep'.seen_iff.mp seen
              simp [Pending.append, Bool.eq_true_of_not_eq_false lost] at same
            refine ⟨fits, kept, (ih rep').mp ?_⟩
            simpa [Pending.append, Pending.newest, kept] using more
          · rintro ⟨fits, kept, sound⟩ p fresh
            obtain ⟨c', l', run, rep'⟩ := append_rep rep fresh fits proc data
            have events : (s.append proc data).events =
                s.events ++ [((s.num_callbacks : Int), proc, data)] := by
              simp [Pending.append, Pending.newest, kept]
            rw [← events]
            exact ⟨c', run, rep'.seen_iff.mpr rfl, (ih rep').mpr sound⟩
      | delete id =>
          obtain ⟨t, l', run, rep'⟩ := delete_rep rep id
          have next := ih rep'
          rw [Pending.delete_count] at next
          simp only [Behaves, Sound, ← Pending.delete_events]
          constructor
          · rintro ⟨fuel, t', run', -, more⟩
            have again := Loop.run_mono run' (Nat.le_max_left fuel l.length)
            rw [← delete_callback_event, run _ (Nat.le_max_right fuel l.length)] at again
            obtain rfl := Loop.Result.done.inj again
            exact next.mp more
          · exact fun sound => ⟨_, t, run _ le_rfl, rep'.seen_iff.mpr rfl, next.mpr sound⟩
      | process =>
          obtain ⟨c', l', run, rep'⟩ := process_rep rep
          constructor
          · rintro ⟨c'', run', -, more⟩
            obtain ⟨-, rfl⟩ := Prod.mk.inj (Option.some.inj (run.symm.trans run'))
            exact (ih rep').mp more
          · exact fun sound => ⟨c', run, rep'.seen_iff.mpr rfl, (ih rep').mpr sound⟩

/-- A history of the table as the program starts shows the callbacks that are due exactly when it
is sound. -/
theorem callbacks_behave_iff (ops : List (Op P D)) :
    Behaves ops (CallbackList.start P D) [] 0 ↔ Sound ops (Pending.start P D) :=
  callbacks_behave_iff_of_rep start_rep

end CFunc.EventLoop
