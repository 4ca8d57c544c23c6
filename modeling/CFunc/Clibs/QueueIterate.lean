import CFunc.Clibs.QueuePass

/-!
Which elements a pass calls its callback for, and what it leaves.

A callback decides on all that it was given so far. Up to the round that
removes the last element the queue represents the survivors and the elements
still to come; that round may leave a link that dangles, and only the ends of
the queue are claimed of it.
-/

namespace CFunc.Clibs.QueueH

open CFunc.Lib CFunc.Lib.LinkedList

variable {α : Type}

/-- What a callback does, by the elements it was called for up to this call. -/
abbrev Callback (α : Type) := List (Ptr × α) → Call

/-- A pass, with the elements that the callback was called for. -/
structure Visits (α : Type) where
  pass : Pass α
  called : List (Ptr × α)

/-- The guard of the loop. -/
abbrev Visits.going (t : Visits α) : Bool := QueueH.going t.pass

/-- One round of the loop, whose call is given `iter` and the data. -/
def visitWith (callback : Callback α) (t : Visits α) : Option (Visits α) := do
  let p ← t.pass.iter.p
  let e ← t.pass.q.elems p
  let called := t.called ++ [(p, e.data)]
  let pass ← visit (fun _ => callback called) t.pass
  return { pass := pass, called := called }

/-- `iterate` of a callback. -/
def iterateWith (callback : Callback α) (fuel : Nat) (q : Queue α) : Loop.Result (Visits α) :=
  Loop.run Visits.going (visitWith callback) fuel
    { pass := { q := q, iter := { p := q.head, prev := none }, calls := 0, returned := false }
      called := [] }

/-- What `iterate` returns after its loop. -/
def Visits.result (t : Visits α) : CInt := if t.pass.returned then 0 else 1

/-- The calls of a pass over `l`, as far as it comes. -/
def calls (callback : Callback α) (l : List (Ptr × α)) : Operate :=
  fun k => callback (l.take (k + 1))

/-- What a pass over `l` is to do. -/
structure EachOnce (callback : Callback α) (l : List (Ptr × α)) (t : Visits α) : Prop where
  called : t.called <+: l
  once : (t.called.map Prod.fst).Nodup
  goes_on : ∀ before, before <+: t.called → before ≠ [] → before ≠ t.called →
    (callback before).returns = true
  stops : t.result = 0 ↔ t.called ≠ [] ∧ (callback t.called).returns = false
  all : t.result ≠ 0 → t.called = l
  head : t.pass.q.head = first (survivors (calls callback l) l)
  tail : t.pass.q.tail = last (survivors (calls callback l) l)

/-! ### Between two calls -/

/-- The ends are those of the list, and the queue represents it while elements are to come. -/
structure Between (q : Queue α) (kept rest : List (Ptr × α)) : Prop where
  head : q.head = first (kept ++ rest)
  tail : q.tail = last (kept ++ rest)
  rep : rest ≠ [] → Rep q (kept ++ rest)

theorem Rep.between {q : Queue α} {kept rest : List (Ptr × α)} (rep : Rep q (kept ++ rest)) :
    Between q kept rest := ⟨rep.chain.first_eq, rep.tail, fun _ => rep⟩

/-- Only the answer to the call at hand matters to a round. -/
theorem visit_congr {operate : Operate} {t : Pass α} {c : Call} (same : operate t.calls = c) :
    visit operate t = visit (fun _ => c) t := by
  simp only [visit, same]

theorem first_append_of_ne_nil {l : List (Ptr × α)} (some_elem : l ≠ []) (more : List (Ptr × α)) :
    first (l ++ more) = first l := by
  obtain ⟨entry, l, rfl⟩ := List.exists_cons_of_ne_nil some_elem
  rfl

section Visit

variable {operate : Operate} {before rest : List (Ptr × α)} {a : Ptr} {v : α} {q : Queue α}

/-- The round that removes the last element behind a survivor. -/
theorem visit_last (rep : Rep q (survivors operate before ++ [(a, v)]))
    (some_left : survivors operate before ≠ []) (removed : Removes operate before.length) :
    ∃ t, visit operate (midway before operate q [(a, v)]) = some t ∧
      Between t.q (survivors operate (before ++ [(a, v)])) [] := by
  obtain ⟨-, c, read, -, -⟩ := rep.chain.cell
  have call := remove_elem_last_eq rep some_left
  have ends : Between
      { q with tail := last (survivors operate before), elems := set q.elems a none }
      (survivors operate (before ++ [(a, v)])) [] := by
    rw [survivors_removed removed]
    constructor
    case head =>
      rw [List.append_nil, ← first_append_of_ne_nil some_left [(a, v)]]
      exact rep.chain.first_eq
    case tail => rw [List.append_nil]
    case rep => exact fun more => absurd rfl more
  cases returns : (operate before.length).returns with
  | true => exact ⟨_, by simp [visit, midway, read, removed.2, call, returns]; rfl, ends⟩
  | false => exact ⟨_, by simp [visit, midway, read, removed.2, call, returns]; rfl, ends⟩

/-- One round, whatever it removes. -/
theorem visit_between (rep : Rep q (survivors operate before ++ (a, v) :: rest))
    (called : ∀ j < before.length, (operate j).returns = true) :
    ∃ q', (if (operate before.length).returns then
          visit operate (midway before operate q ((a, v) :: rest)) =
            some (midway (before ++ [(a, v)]) operate q' rest)
        else ∃ t, visit operate (midway before operate q ((a, v) :: rest)) = some t ∧
          t.q = q' ∧ t.returned = true) ∧
      Between q' (survivors operate (before ++ [(a, v)])) rest := by
  obtain ⟨q', step, keeps, -⟩ := visit_cases rep called
  refine ⟨q', step, ?_⟩
  by_cases whole : survivors operate before = [] ∨ rest ≠ [] ∨ ¬ Removes operate before.length
  · exact (keeps whole).between
  · obtain ⟨some_left, none_rest, removed⟩ :
        survivors operate before ≠ [] ∧ rest = [] ∧ Removes operate before.length := by
      simpa only [not_or, not_not, ne_eq] using whole
    subst none_rest
    obtain ⟨t, run, between⟩ := visit_last rep some_left removed
    suffices same : t.q = q' from same ▸ between
    rw [run] at step
    split at step
    · rw [Option.some.inj step]
      rfl
    · obtain ⟨t', run', same, -⟩ := step
      rw [Option.some.inj run', same]

end Visit

/-! ### The whole pass -/

section Run

variable {callback : Callback α} {before rest l : List (Ptr × α)} {q : Queue α}

variable (callback) in
theorem calls_eq {x : Ptr × α} (split : before ++ x :: rest = l) :
    calls callback l before.length = callback (before ++ [x]) := by
  rw [calls, ← split, List.take_append, List.take_of_length_le (Nat.le_succ _),
    Nat.add_sub_cancel_left, List.take_one, List.head?_cons, Option.toList_some]

/-- The answers so far are those to the elements before. -/
theorem returns_of_earlier {called : List (Ptr × α)} (split : called <+: l)
    (returned : ∀ j < called.length, (calls callback l j).returns = true)
    {before : List (Ptr × α)} (earlier : before <+: called) (some_elem : before ≠ []) :
    (callback before).returns = true := by
  have positive := List.length_pos_iff.mpr some_elem
  have answer := returned (before.length - 1) (by have := earlier.length_le; omega)
  rwa [calls, Nat.sub_add_cancel positive,
    ← List.prefix_iff_eq_take.mp (earlier.trans split)] at answer

theorem visitWith_eq {a : Ptr} {v : α} (split : before ++ (a, v) :: rest = l)
    (rep : Rep q (survivors (calls callback l) before ++ (a, v) :: rest)) :
    visitWith callback ⟨midway before (calls callback l) q ((a, v) :: rest), before⟩ =
      (visit (calls callback l) (midway before (calls callback l) q ((a, v) :: rest))).map
        fun pass => ⟨pass, before ++ [(a, v)]⟩ := by
  obtain ⟨-, c, read, datum, -⟩ := rep.chain.cell
  have call := calls_eq callback split
  rw [visit_congr call]
  simp only [visitWith, midway, first_cons, read, datum, Option.bind_eq_bind, Option.bind_some,
    Option.map_eq_bind]
  rfl

/-- The pass that no answer stopped. -/
theorem eachOnce_through (nodup : (l.map Prod.fst).Nodup)
    (returned : ∀ j < l.length, (calls callback l j).returns = true)
    (between : Between q (survivors (calls callback l) l) []) :
    EachOnce callback l ⟨midway l (calls callback l) q [], l⟩ := by
  constructor
  case called => exact List.prefix_refl _
  case once => exact nodup
  case goes_on =>
    exact fun _ earlier some_elem _ =>
      returns_of_earlier (List.prefix_refl _) returned earlier some_elem
  case stops =>
    refine iff_of_false (by simp [Visits.result, midway]) ?_
    rintro ⟨some_elem, stopped⟩
    rw [returns_of_earlier (List.prefix_refl _) returned (List.prefix_refl _) some_elem] at stopped
    cases stopped
  case all => exact fun _ => rfl
  case head => exact between.head.trans (by rw [List.append_nil])
  case tail => exact between.tail.trans (by rw [List.append_nil])

/-- The pass that the answer to `(a, v)` stopped. -/
theorem eachOnce_stopped (nodup : (l.map Prod.fst).Nodup) {a : Ptr} {v : α}
    (split : before ++ (a, v) :: rest = l)
    (returned : ∀ j < before.length, (calls callback l j).returns = true)
    (returns : (calls callback l before.length).returns = false) {t : Pass α}
    (stopped : t.returned = true)
    (between : Between t.q (survivors (calls callback l) (before ++ [(a, v)])) rest) :
    EachOnce callback l ⟨t, before ++ [(a, v)]⟩ := by
  have split' : before ++ [(a, v)] ++ rest = l := by simpa using split
  have initial : before ++ [(a, v)] <+: l := ⟨rest, split'⟩
  have result : (Visits.mk t (before ++ [(a, v)])).result = 0 := by
    rw [Visits.result, stopped]
    rfl
  have left : survivors (calls callback l) (before ++ [(a, v)]) ++ rest =
      survivors (calls callback l) l := by
    have here : before.length < (before ++ [(a, v)]).length := by simp
    rw [← survivors_stopped here returns, split']
  constructor
  case called => exact initial
  case once => exact nodup.sublist (initial.sublist.map Prod.fst)
  case goes_on =>
    intro early earlier some_elem proper
    refine returns_of_earlier ((List.prefix_append _ _).trans initial) returned ?_ some_elem
    exact (List.prefix_concat_iff.mp earlier).resolve_left proper
  case stops =>
    rw [calls_eq callback split] at returns
    exact iff_of_true result ⟨by simp, returns⟩
  case all => exact fun one => absurd result one
  case head => rw [← left]; exact between.head
  case tail => rw [← left]; exact between.tail

/-- The loop from between two calls on. -/
theorem run_visits (callback : Callback α) (nodup : (l.map Prod.fst).Nodup) :
    ∀ {before : List (Ptr × α)} {q : Queue α}, before ++ rest = l →
    Between q (survivors (calls callback l) before) rest →
    (∀ j < before.length, (calls callback l j).returns = true) →
    ∃ t, Loop.run Visits.going (visitWith callback) rest.length
        ⟨midway before (calls callback l) q rest, before⟩ = .done t ∧
      EachOnce callback l t := by
  induction rest with
  | nil =>
      intro before q split between returned
      rw [List.append_nil] at split
      subst split
      exact ⟨_, rfl, eachOnce_through nodup returned between⟩
  | cons entry rest ih =>
      intro before q split between returned
      obtain ⟨a, v⟩ := entry
      have rep := between.rep (List.cons_ne_nil _ _)
      obtain ⟨q', step, between'⟩ := visit_between rep returned
      have here := visitWith_eq split rep
      cases returns : (calls callback l before.length).returns with
      | true =>
          rw [if_pos returns] at step
          rw [step, Option.map_some] at here
          have count : (before ++ [(a, v)]).length = before.length + 1 := by simp
          have split' : before ++ [(a, v)] ++ rest = l := by simpa using split
          have returned' : ∀ j < (before ++ [(a, v)]).length,
              (calls callback l j).returns = true := by
            intro j lt
            rcases Nat.lt_succ_iff_lt_or_eq.mp (count ▸ lt) with earlier | rfl
            · exact returned j earlier
            · exact returns
          obtain ⟨t, run, each⟩ := ih split' between' returned'
          refine ⟨t, ?_, each⟩
          rw [List.length_cons, Loop.run_succ_of_step rfl here, run]
      | false =>
          rw [if_neg (by rw [returns]; exact Bool.false_ne_true)] at step
          obtain ⟨t, step, rfl, stopped⟩ := step
          rw [step, Option.map_some] at here
          have ended : (Visits.mk t (before ++ [(a, v)])).going = false := by simp [stopped]
          refine ⟨_, ?_, eachOnce_stopped nodup split returned returns stopped between'⟩
          rw [List.length_cons, Loop.run_succ_of_step rfl here]
          exact Loop.run_of_guard_false ended _

/-- A pass calls its callback once for each element, in order, up to the first call that returns
0, and then the ends of the queue are those of the survivors. -/
theorem iterate_eachOnce (callback : Callback α) (rep : Rep q l) :
    ∃ t, (∀ fuel, l.length ≤ fuel → iterateWith callback fuel q = .done t) ∧
      EachOnce callback l t := by
  have start_rep : Between q (survivors (calls callback l) []) l := Rep.between rep
  obtain ⟨t, run, each⟩ := run_visits callback rep.nodup (List.nil_append l) start_rep
    fun j lt => absurd lt j.not_lt_zero
  refine ⟨t, fun fuel le => ?_, each⟩
  have start : ({ q := q, iter := { p := q.head, prev := none }, calls := 0, returned := false } :
      Pass α) = midway [] (calls callback l) q l := by
    rw [midway, ← rep.chain.first_eq]
    rfl
  rw [iterateWith, start]
  exact Loop.run_mono run le

end Run

/-- The last of two elements is removed, from behind one that stays. -/
theorem iterate_removes_last :
    ∃ (q : Queue Nat) (t : Visits Nat),
      (∀ fuel, 2 ≤ fuel → iterateWith (fun called => ⟨called.length == 2, true⟩) fuel q =
        .done t) ∧
      t.called = [(10, 1), (20, 2)] ∧ t.pass.q.head = some 10 ∧ t.pass.q.tail = some 10 := by
  obtain ⟨q₁, -, rep₁⟩ := enque_rep (p := 10) alloc_rep rfl 1
  have fresh : q₁.elems 20 = none := by
    by_contra allocated
    exact absurd (rep₁.live 20 allocated) (by decide)
  obtain ⟨q, -, rep⟩ := enque_rep rep₁ fresh 2
  obtain ⟨t, run, each⟩ := iterate_eachOnce (fun called => ⟨called.length == 2, true⟩) rep
  refine ⟨q, t, run, each.all fun stopped => ?_, each.head, each.tail⟩
  cases (each.stops.mp stopped).2

end CFunc.Clibs.QueueH
