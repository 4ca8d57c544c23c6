import Mathlib.Data.List.Induction
import Mathlib.Data.Nat.Basic

/-!
Guarded loops over a partial body.

A loop body may fault (the host language gives it no meaning) and a loop may
run forever, so a bounded run ends in one of three ways. Fuel counts rounds of
the body. `run_total` is the rule for total correctness: an invariant kept by
the body and a measure the body decreases give a finished run, with the
measure as a sufficient fuel.
-/

namespace CFunc.Lib.Loop

universe u

/-- How a bounded run of a loop ends. -/
inductive Result (σ : Type u) where
  | done (state : σ)
  | fault
  | outOfFuel
  deriving DecidableEq, Repr

variable {σ : Type u}

/-- `while (guard) body`, for at most `fuel` rounds. -/
def run (guard : σ → Bool) (body : σ → Option σ) : Nat → σ → Result σ
  | 0, s => if guard s then .outOfFuel else .done s
  | fuel + 1, s =>
      if guard s then
        match body s with
        | none => .fault
        | some s' => run guard body fuel s'
      else .done s

variable {guard : σ → Bool} {body : σ → Option σ}

theorem run_of_guard_false {s : σ} (stop : guard s = false) (fuel : Nat) :
    run guard body fuel s = .done s := by
  cases fuel <;> simp [run, stop]

theorem run_succ_of_step {s s' : σ} (go : guard s = true) (step : body s = some s')
    (fuel : Nat) : run guard body (fuel + 1) s = run guard body fuel s' := by
  simp [run, go, step]

/-- Total correctness: the invariant holds at the exit, where the guard fails,
and the measure of the entry state bounds the rounds. `γ` is ghost state the
proof keeps beside the loop's own. -/
theorem run_total {γ : Type} (guard : σ → Bool) (body : σ → Option σ) (Inv : γ → σ → Prop)
    (measure : γ → σ → Nat)
    (step : ∀ x s, Inv x s → guard s = true →
      ∃ x' s', body s = some s' ∧ Inv x' s' ∧ measure x' s' < measure x s) :
    ∀ (fuel : Nat) (x : γ) (s : σ), Inv x s → measure x s ≤ fuel →
      ∃ x' t, run guard body fuel s = .done t ∧ Inv x' t ∧ guard t = false := by
  intro fuel
  induction fuel with
  | zero =>
      intro x s inv bound
      cases go : guard s with
      | false => exact ⟨x, s, run_of_guard_false go 0, inv, go⟩
      | true =>
          obtain ⟨x', s', _, _, smaller⟩ := step x s inv go
          omega
  | succ fuel ih =>
      intro x s inv bound
      cases go : guard s with
      | false => exact ⟨x, s, run_of_guard_false go _, inv, go⟩
      | true =>
          obtain ⟨x', s', body_eq, inv', smaller⟩ := step x s inv go
          obtain ⟨y, t, run_eq, rest⟩ := ih x' s' inv' (by omega)
          exact ⟨y, t, by rw [run_succ_of_step go body_eq, run_eq], rest⟩

/-- A finished run, from its end backwards: the last state stops the guard, and each state before
it goes on to the next. -/
theorem done_induction {P : Nat → σ → Prop} {t : σ}
    (stop : ∀ fuel, guard t = false → P fuel t)
    (next : ∀ fuel s s', guard s = true → body s = some s' → P fuel s' → P (fuel + 1) s)
    {fuel : Nat} {s : σ} (finished : run guard body fuel s = .done t) : P fuel s := by
  induction fuel generalizing s with
  | zero =>
      cases go : guard s with
      | false =>
          rw [run_of_guard_false go, Result.done.injEq] at finished
          subst finished
          exact stop 0 go
      | true => simp [run, go] at finished
  | succ fuel ih =>
      cases go : guard s with
      | false =>
          rw [run_of_guard_false go, Result.done.injEq] at finished
          subst finished
          exact stop _ go
      | true =>
          cases step : body s with
          | none => simp [run, go, step] at finished
          | some s' =>
              rw [run_succ_of_step go step] at finished
              exact next fuel s s' go step (ih finished)

/-- A finished run finishes in the same state on any larger fuel. -/
theorem run_mono {fuel : Nat} {s t : σ} (finished : run guard body fuel s = .done t)
    {more : Nat} (le : fuel ≤ more) : run guard body more s = .done t := by
  refine done_induction (P := fun fuel s => ∀ more ≥ fuel, run guard body more s = .done t)
    ?_ ?_ finished more le
  · intro _ stop more _
    exact run_of_guard_false stop more
  · intro fuel s s' go step ih more le
    obtain ⟨more, rfl⟩ : ∃ k, more = k + 1 := ⟨more - 1, by omega⟩
    rw [run_succ_of_step go step]
    exact ih more (by omega)

/-- Two loops whose rounds keep a relation finish together, in related states. -/
theorem run_rel {τ : Type u} {guard' : τ → Bool} {body' : τ → Option τ} {R : σ → τ → Prop}
    (guards : ∀ {s t}, R s t → guard s = guard' t)
    (bodies : ∀ {s t}, R s t → Option.Rel R (body s) (body' t)) {fuel : Nat} {s : σ} {t t' : τ}
    (related : R s t) (finished : run guard' body' fuel t = .done t') :
    ∃ s', run guard body fuel s = .done s' ∧ R s' t' := by
  refine done_induction
    (P := fun fuel t => ∀ s, R s t → ∃ s', run guard body fuel s = .done s' ∧ R s' t')
    ?_ ?_ finished s related
  · intro fuel stop s related
    exact ⟨s, run_of_guard_false ((guards related).trans stop) fuel, related⟩
  · intro fuel t t₁ go step' ih s related
    have both := bodies related
    rw [step'] at both
    cases step : body s with
    | none =>
        rw [step] at both
        cases both
    | some s₁ =>
        rw [step] at both
        cases both with
        | some next =>
            rw [run_succ_of_step ((guards related).trans go) step]
            exact ih s₁ next

/-- A loop whose body decreases a measure never needs more rounds than the measure. -/
theorem run_ne_outOfFuel (measure : σ → Nat)
    (step : ∀ {s s'}, guard s = true → body s = some s' → measure s' < measure s) {fuel : Nat}
    {s : σ} (bound : measure s ≤ fuel) (positive : ∀ {s}, guard s = true → 0 < measure s) :
    run guard body fuel s ≠ .outOfFuel := by
  induction fuel generalizing s with
  | zero =>
      cases go : guard s with
      | false => simp [run, go]
      | true => exact absurd (positive go) (by omega)
  | succ fuel ih =>
      cases go : guard s with
      | false => simp [run, go]
      | true =>
          cases next : body s with
          | none => simp [run, go, next]
          | some s' =>
              have smaller := step go next
              rw [run_succ_of_step go next]
              exact ih (by omega)

/-! ### Reached states -/

/-- The states at the head of the loop, from `s` on. -/
inductive Reached (guard : σ → Bool) (body : σ → Option σ) (s : σ) : σ → Prop where
  | refl : Reached guard body s s
  | next {t t' : σ} : Reached guard body s t → guard t = true → body t = some t' →
      Reached guard body s t'

theorem Reached.head {s s' t : σ} (go : guard s = true) (step : body s = some s')
    (reached : Reached guard body s' t) : Reached guard body s t := by
  induction reached with
  | refl => exact .next .refl go step
  | next _ go' step' ih => exact .next ih go' step'

/-- Reached states satisfy what the body keeps. -/
theorem Reached.inv (Inv : σ → Prop) {s t : σ} (reached : Reached guard body s t) (start : Inv s)
    (keep : ∀ t t', Inv t → guard t = true → body t = some t' → Inv t') : Inv t := by
  induction reached with
  | refl => exact start
  | next _ go step ih => exact keep _ _ ih go step

/-- A run that is done has reached the state it ends in. -/
theorem reached_of_done {fuel : Nat} {s t : σ} (finished : run guard body fuel s = .done t) :
    Reached guard body s t ∧ guard t = false := by
  refine done_induction (P := fun _ s => Reached guard body s t ∧ guard t = false) ?_ ?_ finished
  · intro _ stop
    exact ⟨.refl, stop⟩
  · rintro _ s s' go step ⟨reached, stop⟩
    exact ⟨reached.head go step, stop⟩

/-- A loop never faults exactly when its body has a meaning wherever it is entered. -/
theorem run_ne_fault_iff {s : σ} : (∀ fuel, run guard body fuel s ≠ .fault) ↔
    ∀ t, Reached guard body s t → guard t = true → body t ≠ none := by
  constructor
  · intro never t reached
    have from_t : ∀ fuel, run guard body fuel t ≠ .fault := by
      induction reached with
      | refl => exact never
      | next _ go step ih =>
          intro fuel
          rw [← run_succ_of_step go step fuel]
          exact ih (fuel + 1)
    intro go faults
    apply from_t 1
    simp [run, go, faults]
  · intro meant fuel
    induction fuel generalizing s with
    | zero => cases go : guard s <;> simp [run, go]
    | succ fuel ih =>
        cases go : guard s with
        | false => simp [run, go]
        | true =>
            cases step : body s with
            | none => exact absurd step (meant s .refl go)
            | some s' =>
                rw [run_succ_of_step go step]
                exact ih fun t reached => meant t (reached.head go step)

/-- A loop whose body descends comes to a state in which it ends, or its body has no meaning. -/
theorem exists_last {α : Type} {r : α → α → Prop} (wf : WellFounded r) (Inv : σ → Prop)
    (measure : σ → α) (keep : ∀ t t', Inv t → guard t = true → body t = some t' →
      Inv t' ∧ r (measure t') (measure t)) {s : σ} (start : Inv s) :
    ∃ t, Reached guard body s t ∧ (guard t = false ∨ body t = none) := by
  induction h : measure s using wf.induction generalizing s with
  | _ x ih =>
      cases go : guard s with
      | false => exact ⟨s, .refl, .inl go⟩
      | true =>
          cases step : body s with
          | none => exact ⟨s, .refl, .inr step⟩
          | some s' =>
              obtain ⟨inv', smaller⟩ := keep s s' start go step
              obtain ⟨t, reached, last⟩ := ih (measure s') (h ▸ smaller) inv' rfl
              exact ⟨t, reached.head go step, last⟩

/-! ### Counted loops -/

/-- `for (i = 0; i < n; i++) body`, for a body that always has a meaning. -/
def count (body : Nat → σ → σ) : Nat → σ → σ
  | 0, s => s
  | n + 1, s => body n (count body n s)

/-- An invariant indexed by the counter holds at the exit of a counted loop. -/
theorem count_inv (body : Nat → σ → σ) (Inv : Nat → σ → Prop) {n : Nat}
    (step : ∀ i < n, ∀ s, Inv i s → Inv (i + 1) (body i s)) {s : σ} (start : Inv 0 s) :
    Inv n (count body n s) := by
  induction n with
  | zero => exact start
  | succ n ih => exact step n (by omega) _ (ih fun i lt => step i (by omega))

/-! ### Loops over a list -/

section Items

universe v

variable {α : Type v} {step : σ → α → Option σ} {items : List α} {s : σ}

theorem foldlM_concat {t : σ} (run_eq : items.foldlM step s = some t) (a : α) :
    (items ++ [a]).foldlM step s = step t a := by
  rw [List.foldlM_append, run_eq]
  exact bind_pure (step t a)

/-- An invariant indexed by the items gone through holds after a loop over a list, for a body
that has a meaning under it. -/
theorem foldlM_inv (Inv : List α → σ → Prop)
    (keep : ∀ before, ∀ a ∈ items, ∀ t, Inv before t →
      ∃ t', step t a = some t' ∧ Inv (before ++ [a]) t') (start : Inv [] s) :
    ∃ t, items.foldlM step s = some t ∧ Inv items t := by
  induction items using List.reverseRecOn with
  | nil => exact ⟨s, rfl, start⟩
  | append_singleton items a ih =>
      obtain ⟨t, run_eq, inv⟩ := ih fun before b mem =>
        keep before b (List.mem_append_left _ mem)
      obtain ⟨t', step_eq, inv'⟩ := keep items a (List.mem_append_right _ List.mem_cons_self) t inv
      exact ⟨t', (foldlM_concat run_eq a).trans step_eq, inv'⟩

/-- The same for a loop over the first numbers. -/
theorem foldlM_range_inv {step : σ → Nat → Option σ} {n : Nat} (Inv : Nat → σ → Prop)
    (keep : ∀ k < n, ∀ t, Inv k t → ∃ t', step t k = some t' ∧ Inv (k + 1) t')
    (start : Inv 0 s) : ∃ t, (List.range n).foldlM step s = some t ∧ Inv n t := by
  induction n with
  | zero => exact ⟨s, rfl, start⟩
  | succ n ih =>
      obtain ⟨t, run_eq, inv⟩ := ih fun k lt => keep k (Nat.lt_succ_of_lt lt)
      obtain ⟨t', step_eq, inv'⟩ := keep n (Nat.lt_succ_self n) t inv
      refine ⟨t', ?_, inv'⟩
      rw [List.range_succ, foldlM_concat run_eq, step_eq]

end Items

end CFunc.Lib.Loop
