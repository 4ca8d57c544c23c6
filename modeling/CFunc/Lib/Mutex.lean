import Mathlib.Logic.Function.Basic

/-!
Mutexes and their owners.

A mutex that is owned makes everyone else wait. To lock it as its owner, or to
unlock it as anyone else, has no meaning. Who holds what is told apart from who
owns what, so that a program says of each place of a thread what is held there.
-/

namespace CFunc.Lib.Mutex

universe u v

variable {T : Type u} {L : Type v}

/-- The owner of each mutex. -/
abbrev Owners (T : Type u) (L : Type v) := L → Option T

/-- Mutexes are owned by those that hold them. -/
def Matches (owner : Owners T L) (holds : T → L → Prop) : Prop :=
  ∀ t l, owner l = some t ↔ holds t l

variable {owner : Owners T L} {holds holds' : T → L → Prop} {t t' : T} {l : L}

theorem Matches.exclusive (m : Matches owner holds) (held : holds t l) (held' : holds t' l) :
    t = t' :=
  Option.some.inj (((m t l).mpr held).symm.trans ((m t' l).mpr held'))

theorem Matches.congr (m : Matches owner holds) (same : ∀ t l, holds' t l ↔ holds t l) :
    Matches owner holds' := fun t l => (m t l).trans (same t l).symm

theorem Matches.free_iff (m : Matches owner holds) : owner l = none ↔ ∀ t, ¬ holds t l := by
  rw [Option.eq_none_iff_forall_not_mem]
  exact forall_congr' fun t => not_congr (m t l)

variable [DecidableEq T] [DecidableEq L]

/-- `some none` makes `t` wait. -/
def lock (t : T) (l : L) (owner : Owners T L) : Option (Option (Owners T L)) :=
  match owner l with
  | none => some (some (Function.update owner l (some t)))
  | some t' => if t' = t then none else some none

def unlock (t : T) (l : L) (owner : Owners T L) : Option (Owners T L) :=
  if owner l = some t then some (Function.update owner l none) else none

/-- A free mutex is locked. -/
theorem Matches.lock (m : Matches owner holds) (free : ∀ t, ¬ holds t l)
    (more : ∀ t' l', holds' t' l' ↔ holds t' l' ∨ t' = t ∧ l' = l) :
    Mutex.lock t l owner = some (some (Function.update owner l (some t))) ∧
      Matches (Function.update owner l (some t)) holds' := by
  constructor
  · rw [Mutex.lock, m.free_iff.mpr free]
  · intro t' l'
    rw [more]
    by_cases here : l' = l
    · subst here
      rw [Function.update_self, Option.some.injEq]
      constructor
      · rintro rfl
        exact .inr ⟨rfl, rfl⟩
      · rintro (held | ⟨rfl, -⟩)
        · exact absurd held (free t')
        · rfl
    · rw [Function.update_of_ne here, m]
      exact ⟨.inl, fun either => either.resolve_right fun both => here both.2⟩

/-- Someone else holds it. -/
theorem Matches.wait (m : Matches owner holds) (held : holds t' l) (other : t' ≠ t) :
    Mutex.lock t l owner = some none := by
  rw [Mutex.lock, (m t' l).mpr held]
  exact if_neg other

theorem Matches.unlock (m : Matches owner holds) (held : holds t l)
    (fewer : ∀ t' l', holds' t' l' ↔ holds t' l' ∧ ¬ (t' = t ∧ l' = l)) :
    Mutex.unlock t l owner = some (Function.update owner l none) ∧
      Matches (Function.update owner l none) holds' := by
  constructor
  · rw [Mutex.unlock, if_pos ((m t l).mpr held)]
  · intro t' l'
    rw [fewer]
    by_cases here : l' = l
    · subst here
      rw [Function.update_self]
      constructor
      · intro taken
        cases taken
      · rintro ⟨held', other⟩
        exact absurd ⟨(m.exclusive held' held), rfl⟩ other
    · rw [Function.update_of_ne here, m]
      exact ⟨fun held' => ⟨held', fun both => here both.2⟩, And.left⟩

theorem Matches.unlock_none (m : Matches owner holds) (not_held : ¬ holds t l) :
    Mutex.unlock t l owner = none :=
  if_neg (mt (m t l).mp not_held)

end CFunc.Lib.Mutex
