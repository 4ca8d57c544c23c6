import Mathlib.Data.Option.Basic

/-!
Machines driven by what their environment answers.

A step takes the next answer; it gives the state after it, what the environment
sees, and whether the machine stops. A step may have no meaning, and then the
run has none. Two machines that give the same outputs from related states, and
lead to related states, give the same outputs over every run (`run_rel`).
-/

namespace CFunc.Lib.Reactive

universe u v w x

/-- What a step, or a run, comes to. -/
structure Response (σ : Type u) (ο : Type v) where
  state : σ
  output : List ο
  stopped : Bool

variable {ι : Type w} {σ : Type u} {τ : Type x} {ο : Type v}

/-- The answers are taken one after another until the machine stops. -/
def run (step : ι → σ → Option (Response σ ο)) : List ι → σ → Option (Response σ ο)
  | [], s => some { state := s, output := [], stopped := false }
  | i :: inputs, s => do
      let first ← step i s
      if first.stopped then return first
      else
        let rest ← run step inputs first.state
        return { rest with output := first.output ++ rest.output }

/-- The same outputs, the same end, and related states. -/
structure Agree (R : σ → τ → Prop) (r : Response σ ο) (r' : Response τ ο) : Prop where
  state : R r.state r'.state
  output : r.output = r'.output
  stopped : r.stopped = r'.stopped

section Agree

variable {R : σ → τ → Prop}

theorem Agree.exists_right {r : Response σ ο} {m : Option (Response τ ο)}
    (related : Option.Rel (Agree R) (some r) m) : ∃ r', m = some r' ∧ Agree R r r' := by
  cases related with
  | some agree => exact ⟨_, rfl, agree⟩

theorem Agree.exists_left {m : Option (Response σ ο)} {r' : Response τ ο}
    (related : Option.Rel (Agree R) m (some r')) : ∃ r, m = some r ∧ Agree R r r' := by
  cases related with
  | some agree => exact ⟨_, rfl, agree⟩

end Agree

variable {step : ι → σ → Option (Response σ ο)} {step' : ι → τ → Option (Response τ ο)}

theorem run_rel {R : σ → τ → Prop} {inputs : List ι}
    (steps : ∀ i ∈ inputs, ∀ s t, R s t → Option.Rel (Agree R) (step i s) (step' i t))
    {s : σ} {t : τ} (related : R s t) :
    Option.Rel (Agree R) (run step inputs s) (run step' inputs t) := by
  induction inputs generalizing s t with
  | nil => exact .some ⟨related, rfl, rfl⟩
  | cons i inputs ih =>
      have first := steps i List.mem_cons_self s t related
      simp only [run]
      generalize step i s = r, step' i t = r' at first
      cases first with
      | none => exact .none
      | some agree =>
          rename_i r r'
          by_cases stop : r.stopped = true
          · have stop' := agree.stopped ▸ stop
            simpa [stop, stop'] using agree
          · have stop' := agree.stopped ▸ stop
            have rest := ih (fun j later => steps j (List.mem_cons_of_mem i later)) agree.state
            simp only [Option.bind_eq_bind, Option.bind_some, if_neg stop, if_neg stop']
            generalize run step inputs r.state = m, run step' inputs r'.state = m' at rest
            cases rest with
            | none => exact .none
            | some more =>
                exact .some ⟨more.state, by rw [agree.output, more.output], more.stopped⟩

/-- What the environment sees of a run, and whether the machine has stopped. -/
def Response.seen (r : Response σ ο) : List ο × Bool := (r.output, r.stopped)

theorem seen_eq {R : σ → τ → Prop} {m : Option (Response σ ο)} {m' : Option (Response τ ο)}
    (related : Option.Rel (Agree R) m m') : m.map Response.seen = m'.map Response.seen := by
  cases related with
  | none => rfl
  | some agree => exact congrArg some (Prod.ext agree.output agree.stopped)

/-- A run has a meaning when each step has one and keeps an invariant on what is still to be
answered. -/
theorem exists_run (Inv : List ι → σ → Prop)
    (steps : ∀ i inputs s, Inv (i :: inputs) s → ∃ r, step i s = some r ∧ Inv inputs r.state)
    (fewer : ∀ i inputs s, Inv (i :: inputs) s → Inv inputs s) {inputs : List ι} {s : σ}
    (start : Inv inputs s) : ∃ r, run step inputs s = some r ∧ Inv [] r.state := by
  have drop {s : σ} : ∀ inputs, Inv inputs s → Inv [] s := by
    intro inputs
    induction inputs with
    | nil => exact id
    | cons i inputs ih => exact fun more => ih (fewer i inputs s more)
  induction inputs generalizing s with
  | nil => exact ⟨_, rfl, start⟩
  | cons i inputs ih =>
      obtain ⟨first, taken, kept⟩ := steps i inputs s start
      by_cases stop : first.stopped = true
      · exact ⟨first, by simp [run, taken, stop], drop inputs kept⟩
      · obtain ⟨rest, ran, kept⟩ := ih kept
        exact ⟨{ rest with output := first.output ++ rest.output }, by simp [run, taken, stop, ran],
          kept⟩

/-- The first step of a run, and the rest of it unless the machine stops there. -/
theorem run_cons {i : ι} {inputs : List ι} {s : σ} {r : Response σ ο}
    (ran : run step (i :: inputs) s = some r) :
    ∃ first, step i s = some first ∧ ((first.stopped = true ∧ r = first) ∨
      first.stopped = false ∧ ∃ rest, run step inputs first.state = some rest ∧
        r = { rest with output := first.output ++ rest.output }) := by
  obtain ⟨first, taken, ran⟩ := Option.bind_eq_some_iff.mp ran
  refine ⟨first, taken, ?_⟩
  split at ran
  next stop => exact .inl ⟨stop, (Option.some.inj ran).symm⟩
  next go =>
      obtain ⟨rest, more, same⟩ := Option.bind_eq_some_iff.mp ran
      exact .inr ⟨Bool.eq_false_iff.mpr go, rest, more, (Option.some.inj same).symm⟩

/-- A step that goes on with a single output. -/
theorem run_cons_output {i : ι} {inputs : List ι} {s s' : σ} {o : ο} {os : List ο}
    (taken : step i s = some { state := s', output := [o], stopped := false }) :
    (run step (i :: inputs) s).map Response.output = some (o :: os) ↔
      (run step inputs s').map Response.output = some os := by
  simp only [run, taken, Option.bind_eq_bind, Option.bind_some, Bool.false_eq_true, if_false]
  cases rest : run step inputs s' <;> simp

theorem run_append_eq {inputs : List ι} {s : σ} {r : Response σ ο}
    (ran : run step inputs s = some r) (goes_on : r.stopped = false) (inputs' : List ι) :
    run step (inputs ++ inputs') s =
      (run step inputs' r.state).map fun rest =>
        { rest with output := r.output ++ rest.output } := by
  induction inputs generalizing s r with
  | nil =>
      obtain rfl := Option.some.inj ran
      exact Option.map_id'.symm
  | cons i inputs ih =>
      obtain ⟨first, taken, ⟨stopped, rfl⟩ | ⟨going, more, more_ran, rfl⟩⟩ := run_cons ran
      · rw [goes_on] at stopped
        cases stopped
      · have goes_on_more : more.stopped = false := goes_on
        rw [List.cons_append, run, taken]
        simp only [Option.bind_eq_bind, Option.bind_some, going, Bool.false_eq_true, if_false,
          ih more_ran goes_on_more]
        cases run step inputs' more.state <;> simp

/-- A run that has not stopped goes on. -/
theorem run_append {inputs inputs' : List ι} {s : σ} {r r' : Response σ ο}
    (ran : run step inputs s = some r) (goes_on : r.stopped = false)
    (rest : run step inputs' r.state = some r') :
    run step (inputs ++ inputs') s = some { r' with output := r.output ++ r'.output } := by
  rw [run_append_eq ran goes_on, rest]
  rfl

/-- A view of the state that each step changes in its own way, without stopping. -/
theorem run_tracks {β : Type*} (view : σ → β) {next : β → ι → β}
    (tracks : ∀ i s r, step i s = some r → r.stopped = false ∧ view r.state = next (view s) i)
    {inputs : List ι} {s : σ} {r : Response σ ο} (ran : run step inputs s = some r) :
    r.stopped = false ∧ view r.state = inputs.foldl next (view s) := by
  induction inputs generalizing s r with
  | nil =>
      obtain rfl := Option.some.inj ran
      exact ⟨rfl, rfl⟩
  | cons i inputs ih =>
      obtain ⟨first, taken, ended⟩ := run_cons ran
      obtain ⟨goes_on, viewed⟩ := tracks i s first taken
      obtain ⟨stopped, -⟩ | ⟨-, rest, more, rfl⟩ := ended
      · rw [goes_on] at stopped
        cases stopped
      · obtain ⟨goes_on_rest, viewed_rest⟩ := ih more
        exact ⟨goes_on_rest, by rw [List.foldl_cons, ← viewed]; exact viewed_rest⟩

/-- A machine none of whose steps stops it. -/
theorem run_goes_on (goes_on : ∀ i s r, step i s = some r → r.stopped = false) {inputs : List ι}
    {s : σ} {r : Response σ ο} (ran : run step inputs s = some r) : r.stopped = false := by
  induction inputs generalizing s r with
  | nil =>
      obtain rfl := Option.some.inj ran
      rfl
  | cons i inputs ih =>
      obtain ⟨first, taken, ⟨-, rfl⟩ | ⟨-, rest, more, rfl⟩⟩ := run_cons ran
      · exact goes_on i s r taken
      · have goes_on_rest : rest.stopped = false := ih more
        exact goes_on_rest

/-- A monitor follows the outputs of every run when it follows those of each step. -/
theorem run_monitored {μ : Type*} {monitor : μ → ο → Option μ} (Inv : μ → σ → Prop)
    (steps : ∀ i m s r, Inv m s → step i s = some r →
      ∃ m', r.output.foldlM monitor m = some m' ∧ Inv m' r.state)
    {inputs : List ι} {m : μ} {s : σ} {r : Response σ ο} (start : Inv m s)
    (ran : run step inputs s = some r) :
    ∃ m', r.output.foldlM monitor m = some m' ∧ Inv m' r.state := by
  induction inputs generalizing m s r with
  | nil =>
      obtain rfl := Option.some.inj ran
      exact ⟨m, rfl, start⟩
  | cons i inputs ih =>
      obtain ⟨first, taken, ⟨-, rfl⟩ | ⟨-, rest, more, rfl⟩⟩ := run_cons ran
      · exact steps i m s r start taken
      · obtain ⟨m₁, followed, kept⟩ := steps i m s first start taken
        obtain ⟨m₂, followed', kept'⟩ := ih kept more
        refine ⟨m₂, ?_, kept'⟩
        rw [List.foldlM_append, followed]
        exact followed'

/-- What is said of an end, or of the state that is gone on from. -/
structure Keeps (Inv : σ → Prop) (φ : ο → Prop) (last : List ο → Prop) (r : Response σ ο) :
    Prop where
  on : r.stopped = false → Inv r.state ∧ ∀ o ∈ r.output, φ o
  ends : r.stopped = true →
    ∃ before after, r.output = before ++ after ∧ (∀ o ∈ before, φ o) ∧ last after

/-- What each step keeps, a run keeps. -/
theorem run_keeps (Inv : Nat → σ → Prop) {φ : ο → Prop} {last : List ο → Prop}
    (steps : ∀ i n s r, Inv n s → step i s = some r → Keeps (Inv (n + 1)) φ last r)
    {inputs : List ι} {n : Nat} {s : σ} {r : Response σ ο} (start : Inv n s)
    (ran : run step inputs s = some r) : Keeps (Inv (n + inputs.length)) φ last r := by
  induction inputs generalizing n s r with
  | nil =>
      obtain rfl := Option.some.inj ran
      exact ⟨fun _ => ⟨start, fun _ mem => absurd mem List.not_mem_nil⟩, Bool.noConfusion⟩
  | cons i inputs ih =>
      obtain ⟨first, taken, ⟨stopped, rfl⟩ | ⟨going, rest, more, rfl⟩⟩ := run_cons ran
      · obtain ⟨-, ends⟩ := steps i n s r start taken
        refine ⟨fun going => ?_, ends⟩
        rw [stopped] at going
        cases going
      · obtain ⟨kept, told⟩ := (steps i n s first start taken).on going
        obtain ⟨on, ends⟩ := ih kept more
        rw [List.length_cons, Nat.add_comm inputs.length, ← Nat.add_assoc]
        constructor
        · intro going_rest
          obtain ⟨kept_rest, told_rest⟩ := on going_rest
          refine ⟨kept_rest, fun o mem => ?_⟩
          exact (List.mem_append.mp mem).elim (told o) (told_rest o)
        · intro stopped
          obtain ⟨before, after, output, told_before, end_told⟩ := ends stopped
          refine ⟨first.output ++ before, after, ?_, fun o mem => ?_, end_told⟩
          · rw [List.append_assoc, ← output]
          · exact (List.mem_append.mp mem).elim (told o) (told_before o)

/-- A run has no meaning when one of its steps has none. -/
theorem run_eq_none_iff {inputs : List ι} {s : σ} :
    run step inputs s = none ↔ ∃ before i after r, inputs = before ++ i :: after ∧
      run step before s = some r ∧ r.stopped = false ∧ step i r.state = none := by
  constructor
  · intro undefined
    induction inputs generalizing s with
    | nil => cases undefined
    | cons i inputs ih =>
        cases taken : step i s with
        | none => exact ⟨[], i, inputs, _, rfl, rfl, rfl, taken⟩
        | some first =>
            by_cases stopped : first.stopped = true
            · simp [run, taken, stopped] at undefined
            · have going := Bool.eq_false_iff.mpr stopped
              have later : run step inputs first.state = none := by
                cases rest : run step inputs first.state with
                | none => rfl
                | some r => simp [run, taken, going, rest] at undefined
              obtain ⟨before, j, after, r, rfl, ran, going_on, none_there⟩ := ih later
              refine ⟨i :: before, j, after, { r with output := first.output ++ r.output }, rfl, ?_,
                going_on, none_there⟩
              simp [run, taken, going, ran]
  · rintro ⟨before, i, after, r, rfl, ran, going, undefined⟩
    rw [run_append_eq ran going]
    simp [run, undefined]

/-- From a state that meets the invariant the machine can be brought to stop when some step gets
nearer to it. -/
theorem exists_stop (Inv : σ → Prop) (rank : σ → Nat)
    (nearer : ∀ s, Inv s → ∃ i r, step i s = some r ∧
      (r.stopped = false → Inv r.state ∧ rank r.state < rank s)) {s : σ} (start : Inv s) :
    ∃ inputs r, run step inputs s = some r ∧ r.stopped = true := by
  induction near : rank s using Nat.strongRecOn generalizing s with
  | _ k ih =>
      obtain ⟨i, first, taken, next⟩ := nearer s start
      by_cases stopped : first.stopped = true
      · exact ⟨[i], first, by simp [run, taken, stopped], stopped⟩
      · have going := Bool.eq_false_iff.mpr stopped
        obtain ⟨kept, lower⟩ := next going
        obtain ⟨inputs, r, ran, ended⟩ := ih _ (near ▸ lower) kept rfl
        exact ⟨i :: inputs, { r with output := first.output ++ r.output },
          by simp [run, taken, going, ran], ended⟩

end CFunc.Lib.Reactive
