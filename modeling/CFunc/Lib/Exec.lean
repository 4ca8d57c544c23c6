import CFunc.Lib.Loop

/-!
Programs over a state, with total correctness.

A program ends with a value and a new state, faults, or is cut off for want of
fuel. `Ends` says that it ends, and in what; it has one rule for each way to
build a program, so that a specification of a program is assembled from those
of its parts and no caller opens one.
-/

namespace CFunc.Lib

namespace Loop.Result

universe u

/-- Go on where a run is done. -/
def bind {σ τ : Type u} (r : Result σ) (f : σ → Result τ) : Result τ :=
  match r with
  | .done s => f s
  | .fault => .fault
  | .outOfFuel => .outOfFuel

instance : Monad Result where
  pure := .done
  bind := bind

end Loop.Result

/-- A program over the state `τ` that gives a `β`. -/
abbrev Exec (τ β : Type) := StateT τ Loop.Result β

namespace Exec

variable {τ β γ σ : Type}

/-- A computation without a value has no meaning. -/
def lift (value : Option β) : Exec τ β := fun s =>
  match value with
  | some b => .done (b, s)
  | none => .fault

/-- A loop over the local variables `σ`: its round says, with `true`, that it goes on. -/
def loop (round : σ → Exec τ (Bool × σ)) : Nat → σ → Exec τ σ
  | 0, _ => fun _ => .outOfFuel
  | fuel + 1, x => do
      let (again, x) ← round x
      if again then loop round fuel x else return x

/-! ### Ending -/

/-- From `s`, the program ends with a value and a state that satisfy `Q`. -/
def Ends (m : Exec τ β) (s : τ) (Q : β → τ → Prop) : Prop :=
  ∃ b t, m s = .done (b, t) ∧ Q b t

section

variable {m : Exec τ β} {f : β → Exec τ γ} {s : τ} {Q : γ → τ → Prop} {R : β → τ → Prop}

theorem Ends.mono {R' : β → τ → Prop} (ends : Ends m s R) (weaker : ∀ b t, R b t → R' b t) :
    Ends m s R' := by
  obtain ⟨b, t, run, holds⟩ := ends
  exact ⟨b, t, run, weaker b t holds⟩

theorem Ends.pure {b : β} (holds : R b s) : Ends (Pure.pure b) s R := ⟨b, s, rfl, holds⟩

theorem Ends.bind (first : Ends m s R) (rest : ∀ b t, R b t → Ends (f b) t Q) :
    Ends (m >>= f) s Q := by
  obtain ⟨b, t, run, holds⟩ := first
  obtain ⟨c, u, run', holds'⟩ := rest b t holds
  refine ⟨c, u, ?_, holds'⟩
  calc (m >>= f) s = (m s).bind fun p => f p.1 p.2 := rfl
    _ = f b t := by rw [run]; rfl
    _ = .done (c, u) := run'

theorem ends_lift {value : Option β} {b : β} (some : value = some b) :
    Ends (lift value) s fun c t => c = b ∧ s = t := by
  subst some
  exact ⟨b, s, rfl, rfl, rfl⟩

theorem Ends.ite {c : Prop} [Decidable c] {m' : Exec τ β} (yes : c → Ends m s R)
    (no : ¬ c → Ends m' s R) : Ends (if c then m else m') s R := by
  by_cases h : c
  · rw [if_pos h]
    exact yes h
  · rw [if_neg h]
    exact no h

end

/-- Total correctness of a loop: a round keeps `Inv` and decreases the measure, or leaves
with what the loop is to give. -/
theorem Ends.loop {round : σ → Exec τ (Bool × σ)} (Inv Q : σ → τ → Prop) (measure : σ → τ → Nat)
    (step : ∀ x s, Inv x s → Ends (round x) s fun next t =>
      (next.1 = true → Inv next.2 t ∧ measure next.2 t < measure x s) ∧
        (next.1 = false → Q next.2 t)) :
    ∀ {fuel : Nat} {x : σ} {s : τ}, Inv x s → measure x s < fuel →
      Ends (Exec.loop round fuel x) s Q := by
  intro fuel
  induction fuel with
  | zero =>
      intro x s inv bound
      exact absurd bound (Nat.not_lt_zero _)
  | succ fuel ih =>
      intro x s inv bound
      apply Ends.bind (step x s inv)
      rintro ⟨again, x'⟩ t ⟨go, leave⟩
      cases again with
      | true =>
          obtain ⟨inv', smaller⟩ : Inv x' t ∧ measure x' t < measure x s := go rfl
          exact ih inv' (by omega)
      | false => exact Ends.pure (leave rfl)

/-! ### Faulting -/

section

variable {m : Exec τ β} {f : β → Exec τ γ} {s : τ} {R : β → τ → Prop}

/-- From `s`, the program runs into something that has no meaning. -/
def Faults (m : Exec τ β) (s : τ) : Prop := m s = .fault

theorem faults_lift {value : Option β} (none : value = none) : Faults (lift value) s := by
  subst none
  rfl

theorem Faults.first (fault : Faults m s) : Faults (m >>= f) s := by
  calc (m >>= f) s = (m s).bind fun p => f p.1 p.2 := rfl
    _ = .fault := by rw [fault]; rfl

theorem Faults.rest (first : Ends m s R) (fault : ∀ b t, R b t → Faults (f b) t) :
    Faults (m >>= f) s := by
  obtain ⟨b, t, run, holds⟩ := first
  calc (m >>= f) s = (m s).bind fun p => f p.1 p.2 := rfl
    _ = f b t := by rw [run]; rfl
    _ = .fault := fault b t holds

theorem Faults.loop {round : σ → Exec τ (Bool × σ)} {x : σ} (fault : Faults (round x) s)
    (fuel : Nat) : Faults (Exec.loop round (fuel + 1) x) s := fault.first

/-- A loop that never leaves faults, where its rounds keep `Inv` and decrease the measure until
one of them faults. -/
theorem Faults.loop_of_round {round : σ → Exec τ (Bool × σ)} (Inv : σ → τ → Prop)
    (measure : σ → τ → Nat)
    (step : ∀ x s, Inv x s → Faults (round x) s ∨ Ends (round x) s fun next t =>
      next.1 = true ∧ Inv next.2 t ∧ measure next.2 t < measure x s) :
    ∀ {fuel : Nat} {x : σ} {s : τ}, Inv x s → measure x s < fuel →
      Faults (Exec.loop round fuel x) s := by
  intro fuel
  induction fuel with
  | zero =>
      intro x s inv bound
      exact absurd bound (Nat.not_lt_zero _)
  | succ fuel ih =>
      intro x s inv bound
      rcases step x s inv with fault | ends
      · exact Faults.loop fault fuel
      · apply Faults.rest ends
        rintro ⟨again, x'⟩ t ⟨rfl, inv', smaller⟩
        exact ih inv' (Nat.lt_of_lt_of_le smaller (Nat.le_of_lt_succ bound))

theorem Ends.not_faults (ends : Ends m s R) : ¬ Faults m s := by
  obtain ⟨b, t, run, _⟩ := ends
  intro fault
  rw [Faults, run] at fault
  cases fault

end

/-! ### Ending under an exact condition -/

/-- From `s`, the program ends as `Q` says where `good` holds, and faults where it does not. -/
def EndsIff (good : Prop) (m : Exec τ β) (s : τ) (Q : β → τ → Prop) : Prop :=
  (good → Ends m s Q) ∧ (¬ good → Faults m s)

/-- What a loop comes to from `x` and `s`: the rounds before all went on. -/
inductive Reached (round : σ → Exec τ (Bool × σ)) : σ → τ → σ → τ → Prop where
  | start (x : σ) (s : τ) : Reached round x s x s
  | next {x x' y : σ} {s s' t : τ} (run : round x s = .done ((true, x'), s'))
      (rest : Reached round x' s' y t) : Reached round x s y t

section

variable {good good' : Prop} {m : Exec τ β} {f : β → Exec τ γ} {s : τ} {R : β → τ → Prop}
  {Q : γ → τ → Prop}

theorem EndsIff.ends_iff (endsIff : EndsIff good m s R) : Ends m s R ↔ good := by
  constructor
  · intro ends
    by_contra bad
    exact ends.not_faults (endsIff.2 bad)
  · exact endsIff.1

theorem EndsIff.of_done (endsIff : EndsIff good m s R) {b : β} {t : τ}
    (run : m s = .done (b, t)) : R b t := by
  have no_fault : ¬ Faults m s := by
    intro fault
    cases run.symm.trans fault
  obtain ⟨_, _, run', holds⟩ := endsIff.1 (by_contra fun bad => no_fault (endsIff.2 bad))
  cases run.symm.trans run'
  exact holds

theorem EndsIff.congr (endsIff : EndsIff good m s R) (same : good ↔ good') :
    EndsIff good' m s R := by
  rwa [EndsIff, ← same]

theorem EndsIff.mono {R' : β → τ → Prop} (endsIff : EndsIff good m s R)
    (weaker : ∀ b t, R b t → R' b t) : EndsIff good m s R' :=
  ⟨fun holds => (endsIff.1 holds).mono weaker, endsIff.2⟩

theorem Ends.endsIff (ends : Ends m s R) (holds : good) : EndsIff good m s R :=
  ⟨fun _ => ends, fun bad => absurd holds bad⟩

theorem Faults.endsIff (fault : Faults m s) (bad : ¬ good) : EndsIff good m s R :=
  ⟨fun holds => absurd holds bad, fun _ => fault⟩

/-- The condition of two programs in a row: the second one's is about what the first one gives. -/
theorem EndsIff.bind (next : β → τ → Prop) (first : EndsIff good m s R)
    (rest : ∀ b t, R b t → EndsIff (next b t) (f b) t Q) :
    EndsIff (good ∧ ∀ b t, m s = .done (b, t) → next b t) (m >>= f) s Q := by
  by_cases holds : good
  · obtain ⟨b, t, run, spec⟩ := first.1 holds
    have ends : Ends m s fun b' t' => b' = b ∧ t' = t := ⟨b, t, run, rfl, rfl⟩
    by_cases after : next b t
    · apply Ends.endsIff
      · apply ends.bind
        rintro _ _ ⟨rfl, rfl⟩
        exact (rest _ _ spec).1 after
      · refine ⟨holds, fun b' t' run' => ?_⟩
        cases run.symm.trans run'
        exact after
    · apply Faults.endsIff
      · apply Faults.rest ends
        rintro _ _ ⟨rfl, rfl⟩
        exact (rest _ _ spec).2 after
      · exact fun both => after (both.2 b t run)
  · exact Faults.endsIff (first.2 holds).first fun both => holds both.1

/-- Where the first program ends in any case, the condition is the second one's. -/
theorem EndsIff.after (first : Ends m s R) (rest : ∀ b t, R b t → EndsIff good (f b) t Q) :
    EndsIff good (m >>= f) s Q := by
  obtain ⟨b, t, run, spec⟩ := first
  apply ((Ends.endsIff ⟨b, t, run, spec⟩ trivial).bind (fun _ _ => good) rest).congr
  exact ⟨fun both => both.2 b t run, fun holds => ⟨trivial, fun _ _ _ => holds⟩⟩

/-- Where the second program ends in any case, the condition is the first one's. -/
theorem EndsIff.before (first : EndsIff good m s R) (rest : ∀ b t, R b t → Ends (f b) t Q) :
    EndsIff good (m >>= f) s Q :=
  ⟨fun holds => (first.1 holds).bind rest, fun bad => (first.2 bad).first⟩

theorem EndsIff.ite {c : Prop} [Decidable c] {m' : Exec τ β} (yes : c → EndsIff good m s R)
    (no : ¬ c → EndsIff good m' s R) : EndsIff good (if c then m else m') s R := by
  by_cases h : c
  · rw [if_pos h]
    exact yes h
  · rw [if_neg h]
    exact no h

end

/-- A loop ends where every round it comes to is good, and faults where one is not. -/
theorem EndsIff.loop {round : σ → Exec τ (Bool × σ)} (Inv Good Q : σ → τ → Prop)
    (measure : σ → τ → Nat)
    (step : ∀ x s, Inv x s → EndsIff (Good x s) (round x) s fun next t =>
      (next.1 = true → Inv next.2 t ∧ measure next.2 t < measure x s) ∧
        (next.1 = false → Q next.2 t)) :
    ∀ {fuel : Nat} {x : σ} {s : τ}, Inv x s → measure x s < fuel →
      EndsIff (∀ y t, Reached round x s y t → Good y t) (Exec.loop round fuel x) s Q := by
  intro fuel
  induction fuel with
  | zero =>
      intro x s inv bound
      exact absurd bound (Nat.not_lt_zero _)
  | succ fuel ih =>
      intro x s inv bound
      apply ((step x s inv).bind (fun next t =>
        next.1 = true → ∀ y u, Reached round next.2 t y u → Good y u) ?rest).congr
      case rest =>
        rintro ⟨again, x'⟩ t ⟨go, leave⟩
        cases again with
        | true =>
            obtain ⟨inv', smaller⟩ : Inv x' t ∧ measure x' t < measure x s := go rfl
            exact (ih inv' (by omega)).congr ⟨fun all _ => all, fun all => all rfl⟩
        | false =>
            exact (Ends.pure (leave rfl)).endsIff fun again => absurd again Bool.false_ne_true
      constructor
      · rintro ⟨here, later⟩ y u reached
        cases reached with
        | start => exact here
        | next run rest => exact later _ _ run rfl y u rest
      · intro all
        refine ⟨all x s (.start x s), ?_⟩
        rintro ⟨_, x'⟩ t run rfl y u reached
        exact all y u (.next run reached)

/-- What every round keeps holds wherever the loop comes to. -/
theorem Reached.keeps {round : σ → Exec τ (Bool × σ)} (Inv : σ → τ → Prop)
    (step : ∀ x s x' t, Inv x s → round x s = .done ((true, x'), t) → Inv x' t) {x y : σ}
    {s t : τ} (reached : Reached round x s y t) (inv : Inv x s) : Inv y t := by
  induction reached with
  | start => exact inv
  | next run _ ih => exact ih (step _ _ _ _ inv run)

end Exec

end CFunc.Lib
