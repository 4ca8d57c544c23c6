import CFunc.Clibs.QueuePass
import Mathlib.Data.Fintype.EquivFin

/-!
Histories of a queue.

What a client sees of a queue are its length, whether it is empty and a walk
along its links. A link that dangles is found by the first walk, so a history
shows the elements that survive it exactly when no pass leaves such a link.
-/

namespace CFunc.Clibs.QueueH

open CFunc.Lib CFunc.Lib.LinkedList

variable {α : Type}

/-! ### What a client sees -/

/-- The length, the emptiness and a walk are those of the list. -/
structure Seen (q : Queue α) (l : List α) : Prop where
  length : ∃ fuel p len, QueueH.length fuel q = .done (p, len) ∧ len.toInt = l.length
  is_empty : is_empty q = true ↔ l = []
  walk : ∃ fuel, walk q fuel q.head = some l

theorem run_length {q : Queue α} {l : List (Ptr × α)} {p : Option Ptr} (n : Nat)
    (chain : Links q.elems p l none) :
    Loop.run (fun t => t.1.isSome) (lengthStep q) l.length (p, BitVec.ofNat 32 n) =
      .done (none, BitVec.ofNat 32 (n + l.length)) := by
  induction l generalizing p n with
  | nil =>
      obtain rfl : p = none := chain
      rfl
  | cons entry l ih =>
      obtain ⟨rfl, c, read, -, rest⟩ := chain
      have step : lengthStep q (some entry.1, BitVec.ofNat 32 n) =
          some (c.next, BitVec.ofNat 32 (n + 1)) := by
        rw [BitVec.ofNat_add]
        simp [lengthStep, read]
      rw [List.length_cons, Loop.run_succ_of_step rfl step, ih (n + 1) rest, Nat.add_right_comm,
        Nat.add_assoc]

theorem walk_chain {q : Queue α} {l : List (Ptr × α)} {p : Option Ptr}
    (chain : Links q.elems p l none) : walk q l.length p = some (l.map Prod.snd) := by
  induction l generalizing p with
  | nil =>
      obtain rfl : p = none := chain
      rfl
  | cons entry l ih =>
      obtain ⟨rfl, c, read, datum, rest⟩ := chain
      simp [walk, read, ih rest, datum]

/-- `len` counts as far as an `int` does. -/
theorem toInt_ofNat_eq {n : Nat} : (BitVec.ofNat 32 n).toInt = n ↔ (n : Int) ≤ INT_MAX := by
  rw [BitVec.toInt_eq_toNat_cond, BitVec.toNat_ofNat, INT_MAX]
  split <;> omega

theorem Rep.seen_iff {q : Queue α} {l : List (Ptr × α)} (rep : Rep q l) :
    Seen q (l.map Prod.snd) ↔ (l.length : Int) ≤ INT_MAX := by
  have counted : QueueH.length l.length q = .done (none, BitVec.ofNat 32 l.length) := by
    have run := run_length 0 rep.chain
    rwa [Nat.zero_add] at run
  constructor
  · intro seen
    obtain ⟨fuel, p, len, done, count⟩ := seen.length
    have again := Loop.run_mono done (Nat.le_max_left fuel l.length)
    rw [Loop.run_mono counted (Nat.le_max_right fuel l.length)] at again
    obtain ⟨-, rfl⟩ := Prod.mk.inj (Loop.Result.done.inj again)
    rw [List.length_map] at count
    exact toInt_ofNat_eq.mp count
  · intro fits
    constructor
    · refine ⟨_, _, _, counted, ?_⟩
      rw [List.length_map]
      exact toInt_ofNat_eq.mpr fits
    · rw [is_empty, beq_iff_eq, rep.chain.first_eq]
      cases l <;> simp [first]
    · exact ⟨l.length, walk_chain rep.chain⟩

/-- No walk comes to the end of a queue with a link that dangles. -/
theorem Dangles.not_seen {q : Queue α} (dangles : Dangles q) (l : List α) : ¬ Seen q l := by
  intro seen
  obtain ⟨passed, a, chain, freed⟩ := dangles
  obtain ⟨fuel, p, len, done, -⟩ := seen.length
  have keep : ∀ t t', (∃ passed, Links q.elems t.1 passed (some a)) → t.1.isSome = true →
      lengthStep q t = some t' → ∃ passed, Links q.elems t'.1 passed (some a) := by
    rintro ⟨p, n⟩ t' ⟨passed, chain⟩ _ step
    cases passed with
    | nil =>
        obtain rfl : p = some a := chain
        simp [lengthStep, freed] at step
    | cons entry passed =>
        obtain ⟨rfl, c, read, -, rest⟩ := chain
        obtain rfl : (c.next, n + 1) = t' := by simpa [lengthStep, read] using step
        exact ⟨passed, rest⟩
  -- the walk still has a dangling link before it where it stops
  obtain ⟨reached, stop⟩ := Loop.reached_of_done done
  obtain ⟨passed, chain⟩ := reached.inv (fun t => ∃ passed, Links q.elems t.1 passed (some a))
    ⟨passed, chain⟩ keep
  cases passed with
  | nil =>
      obtain rfl : p = some a := chain
      cases stop
  | cons entry passed =>
      obtain ⟨rfl, _⟩ := chain
      cases stop

/-! ### Histories -/

/-- What a client does, with the callback of a pass. -/
inductive Op (α : Type) where
  | enque (v : α)
  | deque
  | pass (operate : Operate)

/-- Whatever addresses `malloc` picks, each operation does to the queue what it does to the list,
and the list is then seen. Only a queue that holds an element is dequeued. -/
def Behaves : List (Op α) → Queue α → List α → Prop
  | [], _, _ => True
  | .enque v :: ops, q, l => ∀ p, q.elems p = none →
      ∃ q', enque q p v = some q' ∧ Seen q' (l ++ [v]) ∧ Behaves ops q' (l ++ [v])
  | .deque :: ops, q, l => ∀ v rest, l = v :: rest →
      ∃ q', deque q = some (v, q') ∧ Seen q' rest ∧ Behaves ops q' rest
  | .pass operate :: ops, q, l =>
      ∃ fuel t, iterate operate fuel q = .done t ∧ Seen t.q (survivors operate l) ∧
        Behaves ops t.q (survivors operate l)

/-- Every pass keeps the last element of the list or removes all, and the list never has more
elements than an `int` counts. -/
def Sound : List (Op α) → List α → Prop
  | [], _ => True
  | .enque v :: ops, l => (l.length : Int) < INT_MAX ∧ Sound ops (l ++ [v])
  | .deque :: ops, l => ∀ v rest, l = v :: rest → Sound ops rest
  | .pass operate :: ops, l => KeepsTail operate l.length ∧ Sound ops (survivors operate l)

theorem Rep.exists_fresh {q : Queue α} {l : List (Ptr × α)} (rep : Rep q l) :
    ∃ p, q.elems p = none := by
  obtain ⟨p, off⟩ := Infinite.exists_notMem_finset (l.map Prod.fst).toFinset
  refine ⟨p, by_contra fun allocated => ?_⟩
  exact off (List.mem_toFinset.mpr (rep.live p allocated))

theorem behaves_iff_of_rep {ops : List (Op α)} : ∀ {q : Queue α} {l : List (Ptr × α)},
    Rep q l → (l.length : Int) ≤ INT_MAX →
    (Behaves ops q (l.map Prod.snd) ↔ Sound ops (l.map Prod.snd)) := by
  induction ops with
  | nil => exact fun _ _ => Iff.rfl
  | cons op ops ih =>
      intro q l rep fits
      cases op with
      | enque v =>
          have grown (p : Ptr) : l.map Prod.snd ++ [v] = (l ++ [(p, v)]).map Prod.snd := by simp
          have count (p : Ptr) : (((l ++ [(p, v)]).length : Nat) : Int) ≤ INT_MAX ↔
              ((l.map Prod.snd).length : Int) < INT_MAX := by
            rw [List.length_append, List.length_map, List.length_singleton]
            omega
          constructor
          · intro behaves
            obtain ⟨p, fresh⟩ := rep.exists_fresh
            obtain ⟨q', run, seen, more⟩ := behaves p fresh
            obtain ⟨q'', run', rep'⟩ := enque_rep rep fresh v
            obtain rfl := Option.some.inj (run.symm.trans run')
            rw [grown p] at seen more
            have fits' := rep'.seen_iff.mp seen
            refine ⟨(count p).mp fits', ?_⟩
            rw [grown p]
            exact (ih rep' fits').mp more
          · rintro ⟨fits', sound⟩ p fresh
            obtain ⟨q', run, rep'⟩ := enque_rep rep fresh v
            rw [grown p] at sound ⊢
            have fits'' := (count p).mpr fits'
            exact ⟨q', run, rep'.seen_iff.mpr fits'', (ih rep' fits'').mpr sound⟩
      | deque =>
          cases l with
          | nil =>
              constructor
              · intro _ v rest none_there
                cases none_there
              · intro _ v rest none_there
                cases none_there
          | cons entry l =>
              obtain ⟨a, v⟩ := entry
              obtain ⟨q', run, rep'⟩ := deque_rep rep
              have fits' : (l.length : Int) ≤ INT_MAX := by
                rw [List.length_cons] at fits
                omega
              constructor
              · intro behaves w rest split
                obtain ⟨rfl, rfl⟩ := List.cons.inj split
                obtain ⟨q'', run', -, more⟩ := behaves v _ rfl
                rw [run] at run'
                obtain ⟨-, rfl⟩ := Prod.mk.inj (Option.some.inj run')
                exact (ih rep' fits').mp more
              · intro sound w rest split
                obtain ⟨rfl, rfl⟩ := List.cons.inj split
                exact ⟨q', run, rep'.seen_iff.mpr fits', (ih rep' fits').mpr (sound v _ rfl)⟩
      | pass operate =>
          obtain ⟨t, run, passed⟩ := iterate_passed operate rep
          have fewer : ((survivors operate l).length : Int) ≤ INT_MAX :=
            le_trans (Int.ofNat_le.mpr (length_survivors_le l)) fits
          simp only [Behaves, Sound, survivors_map, List.length_map]
          constructor
          · rintro ⟨fuel, t', run', seen, more⟩
            have again := Loop.run_mono run' (Nat.le_max_left fuel l.length)
            rw [← iterate, run _ (Nat.le_max_right fuel l.length)] at again
            obtain rfl := Loop.Result.done.inj again
            have keeps : KeepsTail operate l.length :=
              by_contra fun loses => (passed.loses loses).not_seen _ seen
            exact ⟨keeps, (ih (passed.keeps keeps) fewer).mp more⟩
          · rintro ⟨keeps, sound⟩
            have rep' := passed.keeps keeps
            exact ⟨_, t, run _ le_rfl, rep'.seen_iff.mpr fewer, (ih rep' fewer).mpr sound⟩

theorem none_fits : (([] : List (Ptr × α)).length : Int) ≤ INT_MAX := (by decide : 0 ≤ INT_MAX)

/-- A history of a new queue shows the list it makes exactly when it is sound. -/
theorem behaves_iff (ops : List (Op α)) : Behaves ops (alloc α) [] ↔ Sound ops [] :=
  behaves_iff_of_rep alloc_rep none_fits

/-- The second of two elements is removed. -/
theorem last_removed_not_behaves :
    ¬ Behaves [.enque 1, .enque 2, .pass fun k => ⟨k == 1, true⟩] (alloc Nat) [] := by
  intro behaves
  have sound := (behaves_iff_of_rep alloc_rep none_fits).mp behaves
  have removed := sound.2.2.1 1 rfl (by decide) 0 Nat.one_pos
  cases removed.2

end CFunc.Clibs.QueueH
