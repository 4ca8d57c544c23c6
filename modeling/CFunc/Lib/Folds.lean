import Mathlib.Data.List.FinRange
import Mathlib.Logic.Basic

/-!
Runs over a list with a step that may fail.

`Leads` and `Breaks` say how a run over some items ends from the states of a
predicate, with one rule for each way to put lists together. `returns_iff`
says when a run returns: when every step it comes to does.
`foldlM_set_ok_iff` is about runs that change a vector entry by entry.
-/

namespace CFunc.Lib.Folds

variable {σ τ α β ε : Type} {f : σ → α → Except ε σ} {xs ys : List α} {a : α}
  {P Q R : σ → Prop}

/-- From every state with `P`, the run ends in one with `Q`. -/
def Leads (f : σ → α → Except ε σ) (items : List α) (P Q : σ → Prop) : Prop :=
  ∀ s, P s → ∃ s', items.foldlM f s = .ok s' ∧ Q s'

/-- From every state with `P`, the run fails. -/
def Breaks (f : σ → α → Except ε σ) (items : List α) (P : σ → Prop) : Prop :=
  ∀ s, P s → ∃ e, items.foldlM f s = .error e

theorem foldlM_singleton (f : σ → α → Except ε σ) (a : α) (s : σ) : [a].foldlM f s = f s a := by
  rw [List.foldlM_cons]
  cases f s a <;> rfl

theorem foldlM_append_ok {s t : σ} (first : xs.foldlM f s = .ok t) :
    (xs ++ ys).foldlM f s = ys.foldlM f t := by
  rw [List.foldlM_append, first]
  rfl

/-! ### How a run ends -/

theorem Leads.nil : Leads f [] P P := fun s holds => ⟨s, rfl, holds⟩

theorem Leads.single (step : ∀ s, P s → ∃ s', f s a = .ok s' ∧ Q s') : Leads f [a] P Q := by
  intro s holds
  rw [foldlM_singleton]
  exact step s holds

theorem Leads.append (first : Leads f xs P Q) (rest : Leads f ys Q R) :
    Leads f (xs ++ ys) P R := by
  intro s holds
  obtain ⟨t, run, holds'⟩ := first s holds
  rw [foldlM_append_ok run]
  exact rest t holds'

theorem Leads.cons (first : Leads f [a] P Q) (rest : Leads f ys Q R) : Leads f (a :: ys) P R :=
  first.append rest

/-- What every item keeps, the run keeps. -/
theorem Leads.all (keep : ∀ a ∈ xs, Leads f [a] P P) : Leads f xs P P := by
  induction xs with
  | nil => exact .nil
  | cons a xs ih =>
      apply Leads.cons (keep a List.mem_cons_self)
      exact ih fun b member => keep b (List.mem_cons_of_mem a member)

theorem Leads.mono {P' Q' : σ → Prop} (leads : Leads f xs P Q) (before : ∀ s, P' s → P s)
    (after : ∀ s, Q s → Q' s) : Leads f xs P' Q' := by
  intro s holds
  obtain ⟨t, run, holds'⟩ := leads s (before s holds)
  exact ⟨t, run, after t holds'⟩

theorem Breaks.append (breaks : Breaks f xs P) : Breaks f (xs ++ ys) P := by
  intro s holds
  obtain ⟨e, run⟩ := breaks s holds
  rw [List.foldlM_append, run]
  exact ⟨e, rfl⟩

theorem Breaks.cons (breaks : Breaks f [a] P) : Breaks f (a :: ys) P := breaks.append

theorem Leads.breaks (first : Leads f xs P Q) (rest : Breaks f ys Q) : Breaks f (xs ++ ys) P := by
  intro s holds
  obtain ⟨t, run, holds'⟩ := first s holds
  rw [foldlM_append_ok run]
  exact rest t holds'

/-! ### Runs that return -/

/-- The run over `items` comes to the item `a` in the state `s`. -/
def Meets (f : σ → α → Except ε σ) (items : List α) (start s : σ) (a : α) : Prop :=
  ∃ before after, items = before ++ a :: after ∧ before.foldlM f start = .ok s

theorem bind_eq_ok_iff {x : Except ε α} {g : α → Except ε β} {b : β} :
    x >>= g = .ok b ↔ ∃ a, x = .ok a ∧ g a = .ok b := by
  cases x with
  | error fault => simp [bind, Except.bind]
  | ok a => simp [bind, Except.bind]

theorem map_eq_ok_iff {f : α → β} {x : Except ε α} {b : β} :
    x.map f = .ok b ↔ ∃ a, x = .ok a ∧ f a = b := by
  cases x with
  | error fault => simp [Except.map]
  | ok a => simp [Except.map]

theorem meets_head {start : σ} : Meets f (a :: xs) start start a := ⟨[], xs, rfl, rfl⟩

theorem Meets.cons {start next s : σ} {b : α} (step : f start a = .ok next)
    (meets : Meets f xs next s b) : Meets f (a :: xs) start s b := by
  obtain ⟨before, after, split_eq, run⟩ := meets
  refine ⟨a :: before, after, by rw [split_eq]; rfl, ?_⟩
  rw [List.foldlM_cons, step]
  exact run

theorem Meets.head_or_tail {start s : σ} {b : α} (meets : Meets f (a :: xs) start s b) :
    (s = start ∧ b = a) ∨ ∃ next, f start a = .ok next ∧ Meets f xs next s b := by
  obtain ⟨before, after, split_eq, run⟩ := meets
  cases before with
  | nil =>
      cases split_eq
      cases run
      exact .inl ⟨rfl, rfl⟩
  | cons c before =>
      cases split_eq
      rw [List.foldlM_cons] at run
      cases step : f start a with
      | error e =>
          rw [step] at run
          cases run
      | ok next =>
          rw [step] at run
          exact .inr ⟨next, rfl, before, after, rfl, run⟩

/-- With an invariant under which a step returns exactly when it `Fits`. -/
theorem returns_iff (Inv : σ → Prop) (Fits : σ → α → Prop)
    (step : ∀ s, ∀ a ∈ xs, Inv s → ((∃ s', f s a = .ok s') ↔ Fits s a))
    (keep : ∀ s s', ∀ a ∈ xs, Inv s → f s a = .ok s' → Inv s') {start : σ} (inv : Inv start) :
    (∃ s, xs.foldlM f start = .ok s) ↔ ∀ s a, Meets f xs start s a → Fits s a := by
  induction xs generalizing start with
  | nil =>
      refine iff_of_true ⟨start, rfl⟩ fun s a meets => ?_
      obtain ⟨before, after, split_eq, _⟩ := meets
      cases before <;> cases split_eq
  | cons a xs ih =>
      have rest (next : σ) (run : f start a = .ok next) :=
        ih (fun s b member => step s b (List.mem_cons_of_mem a member))
          (fun s s' b member => keep s s' b (List.mem_cons_of_mem a member))
          (keep start next a List.mem_cons_self inv run)
      have first := step start a List.mem_cons_self inv
      rw [List.foldlM_cons]
      constructor
      · rintro ⟨last, returns⟩ s b meets
        obtain ⟨next, run, returns⟩ := bind_eq_ok_iff.mp returns
        rcases meets.head_or_tail with ⟨rfl, rfl⟩ | ⟨next', run', meets⟩
        · exact first.mp ⟨next, run⟩
        · cases run.symm.trans run'
          exact (rest next run).mp ⟨last, returns⟩ s b meets
      · intro all
        obtain ⟨next, run⟩ := first.mpr (all start a meets_head)
        obtain ⟨last, returns⟩ := (rest next run).mpr fun s b meets => all s b (meets.cons run)
        exact ⟨last, bind_eq_ok_iff.mpr ⟨next, run, returns⟩⟩

/-! ### Items in pieces -/

theorem foldlM_flatMap (f : σ → α → Except ε σ) (pieces : β → List α) (items : List β) (s : σ) :
    (items.flatMap pieces).foldlM f s = items.foldlM (fun s b => (pieces b).foldlM f s) s := by
  induction items generalizing s with
  | nil => rfl
  | cons b items ih =>
      rw [List.flatMap_cons, List.foldlM_append, List.foldlM_cons]
      simp only [ih]

theorem foldlM_congr {g : σ → α → Except ε σ} (same : ∀ s, ∀ a ∈ xs, f s a = g s a) (s : σ) :
    xs.foldlM f s = xs.foldlM g s := by
  induction xs generalizing s with
  | nil => rfl
  | cons a xs ih =>
      rw [List.foldlM_cons, List.foldlM_cons, same s a List.mem_cons_self]
      simp only [ih fun s b member => same s b (List.mem_cons_of_mem a member)]

/-! ### Entries of a vector -/

section Entries

variable {n : Nat}

/-- A vector has its entries chosen one by one. -/
theorem exists_vector_iff {P : Fin n → α → Prop} :
    (∃ v : Vector α n, ∀ i : Fin n, P i (v.get i)) ↔ ∀ i, ∃ a, P i a := by
  constructor
  · rintro ⟨v, entries⟩ i
    exact ⟨v.get i, entries i⟩
  · intro entries
    obtain ⟨choice, chosen⟩ := Classical.skolem.mp entries
    refine ⟨.ofFn choice, fun i => ?_⟩
    have entry : (Vector.ofFn choice).get i = choice i := Vector.getElem_ofFn i.isLt
    rw [entry]
    exact chosen i

theorem get_set (v : Vector α n) (i j : Fin n) (a : α) :
    (v.set i a i.isLt).get j = if i = j then a else v.get j := by
  have entry : (v.set i a i.isLt).get j = if (i : Nat) = j then a else v.get j :=
    Vector.getElem_set i.isLt j.isLt
  simp only [entry, Fin.ext_iff]

/-- The entries of a vector are changed one after the other. -/
theorem foldlM_set_ok_iff {f : Fin n → α → Except ε α} {is : List (Fin n)} (once : is.Nodup)
    {v w : Vector α n} :
    is.foldlM (fun v i => do return v.set i (← f i (v.get i)) i.isLt) v = .ok w ↔
      ∀ i : Fin n, if i ∈ is then f i (v.get i) = .ok (w.get i) else v.get i = w.get i := by
  induction is generalizing v with
  | nil =>
      simp only [List.foldlM_nil, pure, Except.pure, Except.ok.injEq, List.not_mem_nil, if_false]
      constructor
      · rintro rfl i
        rfl
      · intro entries
        exact Vector.ext fun i inside => entries ⟨i, inside⟩
  | cons i is ih =>
      obtain ⟨fresh, once⟩ := List.nodup_cons.mp once
      rw [List.foldlM_cons]
      cases step : f i (v.get i) with
      | error e =>
          apply iff_of_false
          · intro run
            cases run
          · intro entries
            have here := entries i
            rw [if_pos List.mem_cons_self, step] at here
            cases here
      | ok a =>
          have rest := ih once (v := v.set i a i.isLt)
          refine Iff.trans rest (forall_congr' fun j => ?_)
          rw [get_set]
          by_cases same : i = j
          · subst same
            simp [fresh, step]
          · have other : j ∈ i :: is ↔ j ∈ is := by simp [Ne.symm same]
            rw [if_neg same, if_congr other rfl rfl]

end Entries

end CFunc.Lib.Folds
