import CFunc.Clibs.QueueRep

/-!
A pass over a queue.

Between its calls a pass has kept some of the elements it visited and has all
others before it, so it removes what its callback chose and keeps the order of
the rest, unless it takes the last element from behind one that it keeps.
-/

namespace CFunc.Clibs.QueueH

open CFunc.Lib CFunc.Lib.LinkedList

variable {α β : Type} (operate : Operate)

/-! ### What a pass removes -/

/-- The callback is called for element `k`, and removes it. -/
def Removes (k : Nat) : Prop :=
  (∀ j < k, (operate j).returns = true) ∧ (operate k).removes = true

instance (k : Nat) : Decidable (Removes operate k) :=
  inferInstanceAs (Decidable (_ ∧ _))

/-- The elements that the callback does not remove. -/
def survivors (l : List α) : List α :=
  (l.zipIdx.filter fun x => ¬ Removes operate x.2).map Prod.fst

/-- A queue of `n` elements does not lose its last one to the pass, or loses all. -/
def KeepsTail (n : Nat) : Prop :=
  ∀ k, k + 1 = n → Removes operate k → ∀ j < k, Removes operate j

variable {operate}

theorem survivors_append (before rest : List α) :
    survivors operate (before ++ rest) = survivors operate before ++
      ((rest.zipIdx before.length).filter fun x => ¬ Removes operate x.2).map Prod.fst := by
  rw [survivors, List.zipIdx_append, Nat.zero_add, List.filter_append, List.map_append, survivors]

theorem survivors_removed {before : List α} (removed : Removes operate before.length) (x : α) :
    survivors operate (before ++ [x]) = survivors operate before := by
  rw [survivors_append]
  simp [removed]

theorem survivors_kept {before : List α} (kept : ¬ Removes operate before.length) (x : α) :
    survivors operate (before ++ [x]) = survivors operate before ++ [x] := by
  rw [survivors_append]
  simp [kept]

/-- No element behind the one the pass stops at is removed. -/
theorem survivors_stopped {before : List α} {j : Nat} (visited : j < before.length)
    (stopped : (operate j).returns = false) (rest : List α) :
    survivors operate (before ++ rest) = survivors operate before ++ rest := by
  have all : (rest.zipIdx before.length).filter (fun x => ¬ Removes operate x.2) =
      rest.zipIdx before.length := by
    refine List.filter_eq_self.mpr fun x member => decide_eq_true fun removed => ?_
    have later := List.le_snd_of_mem_zipIdx member
    rw [removed.1 j (lt_of_lt_of_le visited later)] at stopped
    cases stopped
  rw [survivors_append, all, List.zipIdx_map_fst]

theorem survivors_eq_nil {l : List α} (none_left : survivors operate l = []) :
    ∀ j < l.length, Removes operate j := by
  intro j lt
  rw [survivors, List.map_eq_nil_iff, List.filter_eq_nil_iff] at none_left
  have gone := none_left (l[j], j) (List.mem_zipIdx_iff_getElem?.mpr (List.getElem?_eq_getElem lt))
  simpa using gone

theorem survivors_ne_nil {l : List α} (some_left : survivors operate l ≠ []) :
    ∃ j < l.length, ¬ Removes operate j := by
  by_contra none
  refine some_left ?_
  rw [survivors, List.map_eq_nil_iff, List.filter_eq_nil_iff]
  rintro ⟨x, j⟩ member
  have lt := List.snd_lt_of_mem_zipIdx member
  by_contra kept
  exact none ⟨j, by simpa using lt, by simpa using kept⟩

theorem keepsTail_succ (l : List α) :
    KeepsTail operate (l.length + 1) ↔ survivors operate l = [] ∨ ¬ Removes operate l.length := by
  constructor
  · intro keeps
    by_contra neither
    obtain ⟨some_left, removed⟩ := not_or.mp neither
    obtain ⟨j, lt, kept⟩ := survivors_ne_nil some_left
    exact kept (keeps l.length rfl (not_not.mp removed) j lt)
  · rintro (none_left | kept) k last removed j lt
    · obtain rfl := Nat.succ.inj last
      exact survivors_eq_nil none_left j lt
    · obtain rfl := Nat.succ.inj last
      exact absurd removed kept

theorem survivors_map (f : α → β) (l : List α) :
    survivors operate (l.map f) = (survivors operate l).map f := by
  simp [survivors, List.zipIdx_map, List.filter_map, Function.comp_def]

theorem length_survivors_le (l : List α) : (survivors operate l).length ≤ l.length := by
  rw [survivors, List.length_map]
  exact Nat.le_trans (List.length_filter_le _ _) (Nat.le_of_eq List.length_zipIdx)

/-! ### The loop -/

/-- The guard of the loop. -/
abbrev going (t : Pass α) : Bool := !t.returned && t.iter.p.isSome

/-- How a pass over `n` elements ends. -/
structure Passed (operate : Operate) (l : List (Ptr × α)) (t : Pass α) : Prop where
  returned : t.returned = false ↔ ∀ j < l.length, (operate j).returns = true
  keeps : KeepsTail operate l.length → Rep t.q (survivors operate l)
  loses : ¬ KeepsTail operate l.length → Dangles t.q

section Visit

variable {before rest : List (Ptr × α)} {a : Ptr} {v : α} {q : Queue α}

/-- The call for the element after those in `before`. -/
theorem call_cases (rep : Rep q (survivors operate before ++ (a, v) :: rest))
    (called : ∀ j < before.length, (operate j).returns = true) :
    ∃ q', (if (operate before.length).removes then
          remove_elem q ⟨some a, last (survivors operate before)⟩
        else some (q, ⟨some a, last (survivors operate before)⟩)) =
        some (q', ⟨if (operate before.length).removes then none else some a,
          last (survivors operate before)⟩) ∧
      last (survivors operate (before ++ [(a, v)])) =
        (if (operate before.length).removes then last (survivors operate before) else some a) ∧
      (survivors operate before = [] ∨ rest ≠ [] ∨ ¬ Removes operate before.length →
        Rep q' (survivors operate (before ++ [(a, v)]) ++ rest)) ∧
      (survivors operate before ≠ [] → rest = [] → Removes operate before.length →
        Dangles q') := by
  by_cases removes : (operate before.length).removes = true
  · have removed : Removes operate before.length := ⟨called, removes⟩
    simp only [if_pos removes, survivors_removed removed]
    by_cases whole : survivors operate before = [] ∨ rest ≠ []
    · obtain ⟨q', gone, rep'⟩ := remove_elem_rep rep whole
      exact ⟨q', gone, trivial, fun _ => rep',
        fun some_left none_rest => absurd none_rest (whole.resolve_left some_left)⟩
    · obtain ⟨some_left, none_rest⟩ := not_or.mp whole
      obtain rfl := not_not.mp none_rest
      obtain ⟨q', gone, dangles⟩ := remove_elem_last rep some_left
      refine ⟨q', gone, trivial, ?_, fun _ _ _ => dangles⟩
      rintro (none_left | more | not_removed)
      · exact absurd none_left some_left
      · exact absurd rfl more
      · exact absurd removed not_removed
  · have kept : ¬ Removes operate before.length := fun removed => removes removed.2
    simp only [if_neg removes, survivors_kept kept]
    refine ⟨q, rfl, last_concat _ _ _, ?_, fun _ _ removed => absurd removed kept⟩
    intro _
    rwa [List.append_assoc, List.singleton_append]

variable (before)

/-- The loop after the calls for `before`, with `rest` still to come. -/
def midway (operate : Operate) (q : Queue α) (rest : List (Ptr × α)) : Pass α :=
  { q := q
    iter := ⟨first rest, last (survivors operate before)⟩
    calls := before.length
    returned := false }

variable {before}

/-- One round goes on to the next element, or returns. -/
theorem visit_cases (rep : Rep q (survivors operate before ++ (a, v) :: rest))
    (called : ∀ j < before.length, (operate j).returns = true) :
    ∃ q', (if (operate before.length).returns then
          visit operate (midway before operate q ((a, v) :: rest)) =
            some (midway (before ++ [(a, v)]) operate q' rest)
        else ∃ t, visit operate (midway before operate q ((a, v) :: rest)) = some t ∧
          t.q = q' ∧ t.returned = true) ∧
      (survivors operate before = [] ∨ rest ≠ [] ∨ ¬ Removes operate before.length →
        Rep q' (survivors operate (before ++ [(a, v)]) ++ rest)) ∧
      (survivors operate before ≠ [] → rest = [] → Removes operate before.length →
        Dangles q') := by
  obtain ⟨-, c, read, -, after⟩ := rep.chain.cell
  have next : c.next = first rest := after.first_eq
  obtain ⟨q', call, ends, outcome⟩ := call_cases rep called
  refine ⟨q', ?_, outcome⟩
  cases returns : (operate before.length).returns with
  | true =>
      rw [if_pos rfl]
      cases removes : (operate before.length).removes with
      | true =>
          simp only [removes, if_true] at call ends
          simp [visit, midway, read, removes, call, returns, next, ends]
      | false =>
          simp only [removes, Bool.false_eq_true, if_false] at call ends
          simp [visit, midway, read, removes, returns, next, ends]
          exact congrArg Prod.fst (Option.some.inj call)
  | false =>
      rw [if_neg Bool.false_ne_true]
      cases removes : (operate before.length).removes with
      | true =>
          simp only [removes, if_true] at call
          simp [visit, midway, read, removes, call, returns]
      | false =>
          simp only [removes, Bool.false_eq_true, if_false] at call
          simp [visit, midway, read, removes, returns]
          exact congrArg Prod.fst (Option.some.inj call)

end Visit

section Ends

variable {before rest : List (Ptr × α)} {a : Ptr} {v : α} {q : Queue α}

/-- The queue stays whole where more elements are to come or its tail is kept. -/
theorem whole_of_keepsTail (kept : rest = [] → KeepsTail operate (before.length + 1)) :
    survivors operate before = [] ∨ rest ≠ [] ∨ ¬ Removes operate before.length := by
  by_cases none_rest : rest = []
  · exact ((keepsTail_succ before).mp (kept none_rest)).imp_right .inr
  · exact .inr (.inl none_rest)

theorem removes_of_not_keepsTail (lost : ¬ KeepsTail operate (before.length + 1)) :
    survivors operate before ≠ [] ∧ Removes operate before.length := by
  obtain ⟨some_left, removed⟩ := not_or.mp (mt (keepsTail_succ before).mpr lost)
  exact ⟨some_left, not_not.mp removed⟩

/-- What follows the call that ends the pass does not remove anything. -/
theorem keepsTail_of_stopped (returns : (operate before.length).returns = false)
    (kept : rest = [] → KeepsTail operate (before.length + 1)) :
    KeepsTail operate (before ++ (a, v) :: rest).length := by
  intro k last removed
  rcases Nat.lt_or_ge before.length k with later | earlier
  · rw [removed.1 before.length later] at returns
    cases returns
  · rw [List.length_append, List.length_cons] at last
    have none_rest : rest = [] := List.length_eq_zero_iff.mp (by omega)
    rw [none_rest, List.length_nil] at last
    exact kept none_rest k last removed

/-- The call that returns 0 ends the pass. -/
theorem passed_stopped (returns : (operate before.length).returns = false) {t : Pass α}
    (returned : t.returned = true)
    (keeps : survivors operate before = [] ∨ rest ≠ [] ∨ ¬ Removes operate before.length →
      Rep t.q (survivors operate (before ++ [(a, v)]) ++ rest))
    (loses : survivors operate before ≠ [] → rest = [] → Removes operate before.length →
      Dangles t.q) :
    Passed operate (before ++ (a, v) :: rest) t := by
  have all : before ++ [(a, v)] ++ rest = before ++ (a, v) :: rest := by simp
  have here : before.length < (before ++ [(a, v)]).length := by simp
  have stops : t.returned = false ↔
      ∀ j < (before ++ (a, v) :: rest).length, (operate j).returns = true := by
    refine iff_of_false (by simp [returned]) fun all_return => ?_
    rw [all_return before.length (by simp)] at returns
    cases returns
  by_cases tail : rest = [] ∧ ¬ KeepsTail operate (before.length + 1)
  · obtain ⟨rfl, lost⟩ := tail
    obtain ⟨some_left, removed⟩ := removes_of_not_keepsTail lost
    have count : (before ++ [(a, v)]).length = before.length + 1 := by simp
    exact ⟨stops, fun kept => absurd (count ▸ kept) lost, fun _ => loses some_left rfl removed⟩
  · have kept (none_rest : rest = []) : KeepsTail operate (before.length + 1) :=
      not_not.mp (not_and.mp tail none_rest)
    constructor
    case returned => exact stops
    case keeps =>
      intro _
      rw [← all, survivors_stopped here returns]
      exact keeps (whole_of_keepsTail kept)
    case loses => exact fun lost => absurd (keepsTail_of_stopped returns kept) lost

end Ends

/-- The whole loop, from between two calls on. -/
theorem run_passed {rest : List (Ptr × α)} : ∀ {before : List (Ptr × α)} {q : Queue α},
    Rep q (survivors operate before ++ rest) →
    (∀ j < before.length, (operate j).returns = true) →
    (rest = [] → KeepsTail operate before.length) →
    ∃ t, Loop.run going (visit operate) rest.length (midway before operate q rest) = .done t ∧
      Passed operate (before ++ rest) t := by
  induction rest with
  | nil =>
      intro before q rep called keeps
      refine ⟨midway before operate q [], rfl, ?_⟩
      rw [List.append_nil] at rep ⊢
      exact ⟨iff_of_true rfl called, fun _ => rep, fun loses => absurd (keeps rfl) loses⟩
  | cons entry rest ih =>
      intro before q rep called _
      obtain ⟨a, v⟩ := entry
      obtain ⟨q', step, keeps, loses⟩ := visit_cases rep called
      have go : going (midway before operate q ((a, v) :: rest)) = true := rfl
      cases returns : (operate before.length).returns with
      | true =>
          rw [if_pos returns] at step
          have all : before ++ [(a, v)] ++ rest = before ++ (a, v) :: rest := by simp
          have count : (before ++ [(a, v)]).length = before.length + 1 := by simp
          have called' : ∀ j < (before ++ [(a, v)]).length, (operate j).returns = true := by
            intro j lt
            rcases Nat.lt_succ_iff_lt_or_eq.mp (count ▸ lt) with earlier | rfl
            · exact called j earlier
            · exact returns
          by_cases tail : rest = [] ∧ ¬ KeepsTail operate (before.length + 1)
          · -- the last element is lost, and no round follows
            obtain ⟨rfl, lost⟩ := tail
            obtain ⟨some_left, removed⟩ := removes_of_not_keepsTail lost
            refine ⟨_, Loop.run_succ_of_step go step 0, ?_⟩
            rw [← all, List.append_nil]
            exact ⟨iff_of_true rfl called', fun kept => absurd (count ▸ kept) lost,
              fun _ => loses some_left rfl removed⟩
          · have kept (none_rest : rest = []) : KeepsTail operate (before.length + 1) :=
              not_not.mp (not_and.mp tail none_rest)
            obtain ⟨t, run, passed⟩ := ih (keeps (whole_of_keepsTail kept)) called'
              fun none_rest => count ▸ kept none_rest
            refine ⟨t, ?_, all ▸ passed⟩
            rw [List.length_cons, Loop.run_succ_of_step go step, run]
      | false =>
          rw [if_neg (by rw [returns]; exact Bool.false_ne_true)] at step
          obtain ⟨t, step, rfl, returned⟩ := step
          have ended : going t = false := by simp [returned]
          refine ⟨t, ?_, passed_stopped returns returned keeps loses⟩
          rw [List.length_cons, Loop.run_succ_of_step go step, Loop.run_of_guard_false ended]

/-- A pass over a queue ends after as many rounds as the queue has elements, at most. -/
theorem iterate_passed (operate : Operate) {q : Queue α} {l : List (Ptr × α)} (rep : Rep q l) :
    ∃ t, (∀ fuel, l.length ≤ fuel → iterate operate fuel q = .done t) ∧ Passed operate l t := by
  have start_rep : Rep q (survivors operate [] ++ l) := rep
  obtain ⟨t, run, passed⟩ := run_passed start_rep (fun j lt => absurd lt j.not_lt_zero)
    fun _ k last => absurd last k.succ_ne_zero
  refine ⟨t, fun fuel le => ?_, passed⟩
  have start : ({ q := q, iter := { p := q.head, prev := none }, calls := 0, returned := false } :
      Pass α) = midway [] operate q l := by
    rw [midway, ← rep.chain.first_eq]
    rfl
  rw [iterate, start]
  exact Loop.run_mono run le

end CFunc.Clibs.QueueH
