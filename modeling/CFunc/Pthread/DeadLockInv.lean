import CFunc.Pthread.DeadLock
import Mathlib.Data.List.Nodup
import Mathlib.Tactic.IntervalCases

/-!
What the threads keep.

A mutex is owned by the thread that is between its locking and its unlocking.
While a thread holds its own mutex, the other is not between its second lock and
its first unlock, so that each share is what one of the two serial orders makes
it, and its status is the one that its owner has noted.
-/

namespace CFunc.Pthread

open CFunc.Lib

/-! ### Statements done by `main` -/

theorem main_fun_nodup : main_fun.Nodup := by decide

theorem main_fun_place {i k : Nat} {m : MainStmt} (at_i : main_fun[i]? = some m)
    (at_k : main_fun[k]? = some m) : i = k :=
  (List.getElem?_inj (List.getElem?_eq_some_iff.mp at_i).1 main_fun_nodup).mp
    (at_i.trans at_k.symm)

namespace State

variable {s : State}

theorem did_iff {n : Nat} {m : MainStmt} (at_n : main_fun[n]? = some m) : s.did m ↔ n < s.main := by
  obtain ⟨inside, rfl⟩ := List.getElem?_eq_some_iff.mp at_n
  rw [did, List.mem_take_iff_getElem]
  constructor
  · rintro ⟨k, lt, same⟩
    obtain rfl := (List.Nodup.getElem_inj_iff main_fun_nodup).mp same
    exact (lt_min_iff.mp lt).1
  · intro lt
    exact ⟨n, lt_min lt inside, rfl⟩

theorem destroyed_iff : s.did .mutex_destroy ↔ 10 < s.main := did_iff rfl

end State

/-! ### Who holds what -/

/-- The places between the locking of `q` and its unlocking. -/
def Between (p q : Player) (a : Nat) : Prop :=
  if q = p then 1 ≤ a ∧ a ≤ 9 else 4 ≤ a ∧ a ≤ 7

theorem between_own {p : Player} {a : Nat} : Between p p a ↔ 1 ≤ a ∧ a ≤ 9 := by
  rw [Between, if_pos rfl]

theorem between_other {p : Player} {a : Nat} : Between p p.other a ↔ 4 ≤ a ∧ a ≤ 7 := by
  rw [Between, if_neg p.other_ne]

/-- A statement that neither locks nor unlocks. -/
theorem between_same {p : Player} {a : Nat} (inside : a ≠ 0 ∧ a ≠ 3 ∧ a ≠ 7 ∧ a ≠ 9) (l : Player) :
    Between p l (a + 1) ↔ Between p l a := by
  unfold Between
  split
  · omega
  · omega

theorem between_lock_own {p : Player} {a : Nat} (locks : a = 0) (l : Player) :
    Between p l (a + 1) ↔ Between p l a ∨ l = p := by
  obtain rfl | rfl := p.eq_or_other l
  · rw [between_own, between_own, eq_self, or_true, iff_true]
    omega
  · rw [between_other, between_other, or_iff_left p.other_ne]
    omega

theorem between_lock_other {p : Player} {a : Nat} (locks : a = 3) (l : Player) :
    Between p l (a + 1) ↔ Between p l a ∨ l = p.other := by
  obtain rfl | rfl := p.eq_or_other l
  · rw [between_own, between_own, or_iff_left l.other_ne.symm]
    omega
  · rw [between_other, between_other, eq_self, or_true, iff_true]
    omega

theorem between_unlock_other {p : Player} {a : Nat} (unlocks : a = 7) (l : Player) :
    Between p l (a + 1) ↔ Between p l a ∧ l ≠ p.other := by
  obtain rfl | rfl := p.eq_or_other l
  · rw [between_own, between_own, and_iff_left l.other_ne.symm]
    omega
  · rw [between_other, between_other, ne_eq, eq_self, not_true_eq_false, and_false, iff_false]
    omega

theorem between_unlock_own {p : Player} {a : Nat} (unlocks : a = 9) (l : Player) :
    Between p l (a + 1) ↔ Between p l a ∧ l ≠ p := by
  obtain rfl | rfl := p.eq_or_other l
  · rw [between_own, between_own, ne_eq, eq_self, not_true_eq_false, and_false, iff_false]
    omega
  · rw [between_other, between_other, and_iff_left p.other_ne]
    omega

def State.Holds (s : State) : Thread → Player → Prop
  | .worker p, q => Between p q (s.pc p)
  | .detect_deadlock, q => list[s.i]? = some q ∧ (s.detect = .count ∨ s.detect = .unlock)
  | .main, _ | .detect_count, _ => False

/-! ### The shares -/

/-- The share `x` of a thread at `a`, which adds `k`, beside that of the other thread at `b`. The
thread reads the other share before the other thread has begun, or after it has ended. -/
structure Shares (a b : Nat) (x y k l : Int) : Prop where
  untouched : a ≤ 2 → x = 0
  added : 3 ≤ a → a ≤ 5 → x = k
  set : 6 ≤ a → (x = k ∧ (6 ≤ b → y = k + l)) ∨ (b = 10 ∧ y = l ∧ x = l + k)

/-- The share after the statement at `a`. -/
def share_after (a : Nat) (x y k : Int) : Int :=
  if a = 2 then x + k else if a = 5 then y + k else x

section Shares

variable {a b : Nat} {x y k l : Int}

theorem share_after_of_ne (not_add : a ≠ 2) (not_set : a ≠ 5) : share_after a x y k = x := by
  rw [share_after, if_neg not_add, if_neg not_set]

/-- A statement that leaves the share. -/
theorem Shares.leave (own : Shares a b x y k l) (its : Shares b a y x l k) (not_add : a ≠ 2)
    (not_set : a ≠ 5) (lt : a < 10) : Shares (a + 1) b x y k l ∧ Shares b (a + 1) y x l k := by
  constructor
  · constructor
    · exact fun few => own.untouched (by omega)
    · exact fun from_add to_set => own.added (by omega) (by omega)
    · exact fun past_set => own.set (by omega)
  · refine ⟨its.untouched, its.added, fun past_set => ?_⟩
    obtain ⟨alone, summed⟩ | ⟨ended, -⟩ := its.set past_set
    · exact .inl ⟨alone, fun past => summed (by omega)⟩
    · omega

theorem Shares.add (own : Shares 2 b x y k l) (its : Shares b 2 y x l k) :
    Shares 3 b (x + k) y k l ∧ Shares b 3 y (x + k) l k := by
  have zero := own.untouched (Nat.le_refl 2)
  constructor
  · constructor
    · exact fun few => absurd few (by decide)
    · intro _ _
      rw [zero, Int.zero_add]
    · exact fun past_set => absurd past_set (by decide)
  · refine ⟨its.untouched, its.added, fun past_set => ?_⟩
    obtain ⟨alone, -⟩ | ⟨ended, -⟩ := its.set past_set
    · exact .inl ⟨alone, fun past => absurd past (by decide)⟩
    · cases ended

/-- The other share is read before the other thread has begun, or after it has ended. -/
theorem Shares.assign (its : Shares b 5 y x l k) (outside : b < 1 ∨ 9 < b) (le : b ≤ 10) :
    Shares 6 b (y + k) y k l ∧ Shares b 6 y (y + k) l k := by
  have alone (past : 6 ≤ b) : y = l := by
    obtain ⟨alone, -⟩ | ⟨ended, -⟩ := its.set past
    · exact alone
    · cases ended
  constructor
  · refine ⟨fun few => absurd few (by decide), fun _ to_set => absurd to_set (by decide), ?_⟩
    intro _
    rcases outside with before | after
    · rw [its.untouched (by omega), Int.zero_add]
      exact .inl ⟨rfl, fun past => absurd past (by omega)⟩
    · rw [alone (by omega)]
      exact .inr ⟨by omega, rfl, rfl⟩
  · refine ⟨its.untouched, its.added, fun past_set => .inl ⟨alone past_set, fun _ => ?_⟩⟩
    rw [alone past_set]

theorem Shares.advance (own : Shares a b x y k l) (its : Shares b a y x l k)
    (outside : a = 5 → b < 1 ∨ 9 < b) (lt : a < 10) (le : b ≤ 10) :
    Shares (a + 1) b (share_after a x y k) y k l ∧
      Shares b (a + 1) y (share_after a x y k) l k := by
  by_cases adds : a = 2
  · subst adds
    exact own.add its
  by_cases sets : a = 5
  · subst sets
    exact its.assign (outside rfl) le
  · rw [share_after_of_ne adds sets]
    exact own.leave its adds sets lt

/-- What is read of the other share before it is added to. -/
theorem Shares.read (its : Shares b a y x l k) (at_set : a = 5) : y = 0 ∨ y = l := by
  by_cases few : b ≤ 2
  · exact .inl (its.untouched few)
  by_cases to_set : b ≤ 5
  · exact .inr (its.added (by omega) to_set)
  · obtain ⟨alone, -⟩ | ⟨ended, -⟩ := its.set (by omega)
    · exact .inr alone
    · omega

end Shares

/-! ### The invariant -/

/-- After `turns` turns. -/
structure Inv (turns : Nat) (s : State) : Prop where
  places : ∀ p, s.pc p ≤ 10
  index : s.i < list.length
  owned : Mutex.Matches s.owner s.Holds
  shares : ∀ p,
    Shares (s.pc p) (s.pc p.other) (s.share p) (s.share p.other) p.added p.other.added
  noted : ∀ p, 2 ≤ s.pc p → s.pc p ≤ 8 → s.mute_status p = true ∧ s.line p = p.lines.1
  counted : 0 ≤ s.count ∧ s.count ≤ turns
  joined : ∀ t, s.did (.join t) → s.ended t
  running : s.main < main_fun.length
  counting : s.counter = .ended → s.did (.cancel .detect_count)

theorem not_did_start (m : MainStmt) : ¬ State.start.did m := List.not_mem_nil

theorem inv_start : Inv 0 .start where
  places _ := Nat.zero_le 10
  index := Nat.zero_lt_two
  owned t l := by
    cases t <;> simp [State.start, State.Holds, Between]
  shares p := by
    constructor <;> simp [State.start]
  noted p past := absurd past (by simp [State.start])
  counted := ⟨Int.le_refl 0, Int.le_refl 0⟩
  joined t did := absurd did (not_did_start _)
  running := Nat.zero_lt_succ _
  counting := Counter.noConfusion

section Inv

variable {s : State} {n : Nat} {p : Player}

theorem Inv.later (inv : Inv n s) {m : Nat} (le : n ≤ m) : Inv m s :=
  { inv with counted := ⟨inv.counted.1, inv.counted.2.trans (Int.ofNat_le.mpr le)⟩ }

theorem Inv.ended_of_joined (inv : Inv n s) {k : Nat} {t : Thread}
    (at_k : main_fun[k]? = some (.join t)) (lt : k < s.main) : s.ended t :=
  inv.joined t ((State.did_iff at_k).mpr lt)

theorem Inv.shares_other (inv : Inv n s) (p : Player) :
    Shares (s.pc p.other) (s.pc p) (s.share p.other) (s.share p) p.other.added p.added := by
  have its := inv.shares p.other
  rwa [p.other_other] at its

/-- A worker that has been waited for has ended. -/
theorem Inv.place_of_joined (inv : Inv n s) (lt : 5 < s.main) : s.pc p = 10 := by
  cases p
  · exact inv.ended_of_joined (k := 4) (t := .worker .A) rfl (by omega)
  · exact inv.ended_of_joined (k := 5) (t := .worker .B) rfl lt

/-- No mutex is destroyed while a worker is under way. -/
theorem Inv.not_destroyed (inv : Inv n s) (going : s.pc p < 10) : ¬ s.did .mutex_destroy := by
  rw [State.destroyed_iff]
  intro lt
  have := inv.place_of_joined (p := p) (by omega)
  omega

/-- Nobody holds a mutex that no worker and not the detecting thread holds. -/
theorem not_held {q : Player} (idle : s.detect ≠ .count ∧ s.detect ≠ .unlock)
    (workers : ∀ r, ¬ Between r q (s.pc r)) (t : Thread) : ¬ s.Holds t q := by
  intro held
  cases t with
  | main | detect_count => exact held
  | worker r => exact workers r held
  | detect_deadlock =>
      obtain ⟨-, here | here⟩ := held
      · exact idle.1 here
      · exact idle.2 here

/-- Once `main` has waited for the workers, only the detecting thread holds a mutex. -/
theorem Inv.not_held_of_joined (inv : Inv n s) (lt : 5 < s.main)
    (idle : s.detect ≠ .count ∧ s.detect ≠ .unlock) (q : Player) (t : Thread) : ¬ s.Holds t q := by
  refine not_held idle (fun r between => ?_) t
  have place := inv.place_of_joined (p := r) lt
  rw [Between] at between
  split at between
  · omega
  · omega

/-- A thread that holds both mutexes shuts the other out. -/
theorem Inv.outside (inv : Inv n s) (within : 4 ≤ s.pc p) (within' : s.pc p ≤ 7) :
    s.pc p.other < 1 ∨ 9 < s.pc p.other := by
  by_contra inside
  have held : s.Holds (.worker p) p.other := between_other.mpr ⟨within, within'⟩
  have held' : s.Holds (.worker p.other) p.other := between_own.mpr (by omega)
  have same := inv.owned.exclusive held held'
  rw [Thread.worker.injEq] at same
  exact p.other_ne same.symm

end Inv

/-! ### The workers -/

/-- The thread of `p` does its next statement. -/
structure Advanced (p : Player) (s s' : State) : Prop where
  pc : s'.pc = Function.update s.pc p (s.pc p + 1)
  share : s'.share =
    Function.update s.share p (share_after (s.pc p) (s.share p) (s.share p.other) p.added)
  owned : Mutex.Matches s'.owner s'.Holds
  noted : ∀ q, 2 ≤ s'.pc q → s'.pc q ≤ 8 → s'.mute_status q = true ∧ s'.line q = q.lines.1
  count : s'.count = s.count
  i : s'.i = s.i
  detect : s'.detect = s.detect
  counter : s'.counter = s.counter
  main : s'.main = s.main

section Worker

variable {s s' : State} {n : Nat} {p : Player}

theorem stmt_at {k : Nat} (here : s.pc p = k) : p.thread_fun[s.pc p]? =
    (Pthread.thread_fun p p.other p.added p.lines.1 p.lines.2)[k]? := by
  rw [p.thread_fun_eq, here]

theorem step_worker_eq {stmt : Stmt} (at_pc : p.thread_fun[s.pc p]? = some stmt)
    (done : stmt.exec (.worker p) s = some (some s')) :
    step_worker p s = goes_on { s' with pc := Function.update s'.pc p (s'.pc p + 1) } [] := by
  simp [step_worker, at_pc, done]

theorem step_worker_waits {stmt : Stmt} (at_pc : p.thread_fun[s.pc p]? = some stmt)
    (waits : stmt.exec (.worker p) s = some none) : step_worker p s = goes_on s [] := by
  simp [step_worker, at_pc, waits]

theorem step_worker_ended (ended : s.pc p = 10) : step_worker p s = goes_on s [] := by
  have past : p.thread_fun[s.pc p]? = none := by
    rw [ended]
    cases p <;> rfl
  simp [step_worker, past]

theorem holds_advanced (pc : s'.pc = Function.update s.pc p (s.pc p + 1)) (i : s'.i = s.i)
    (detect : s'.detect = s.detect) (t : Thread) (l : Player) :
    s'.Holds t l ↔ if t = .worker p then Between p l (s.pc p + 1) else s.Holds t l := by
  cases t with
  | main | detect_count => exact Iff.rfl
  | detect_deadlock => rw [if_neg Thread.noConfusion, State.Holds, State.Holds, i, detect]
  | worker q =>
      rw [State.Holds, pc]
      by_cases same : q = p
      · subst same
        rw [Function.update_self, if_pos rfl]
      · rw [Function.update_of_ne same, if_neg (mt Thread.worker.inj same)]
        rfl

/-- A statement that takes no mutex and gives none back. -/
theorem Inv.owned_advanced (inv : Inv n s) (pc : s'.pc = Function.update s.pc p (s.pc p + 1))
    (i : s'.i = s.i) (detect : s'.detect = s.detect) (owner : s'.owner = s.owner)
    (same : ∀ l, Between p l (s.pc p + 1) ↔ Between p l (s.pc p)) :
    Mutex.Matches s'.owner s'.Holds := by
  rw [owner]
  refine inv.owned.congr fun t l => ?_
  rw [holds_advanced pc i detect]
  by_cases own : t = .worker p
  · rw [if_pos own, same, own]
    rfl
  · rw [if_neg own]

/-- A statement that notes nothing. -/
theorem Inv.noted_advanced (inv : Inv n s) (pc : s'.pc = Function.update s.pc p (s.pc p + 1))
    (mute_status : s'.mute_status = s.mute_status) (line : s'.line = s.line) (past : s.pc p ≠ 1)
    (q : Player) (lower : 2 ≤ s'.pc q) (upper : s'.pc q ≤ 8) :
    s'.mute_status q = true ∧ s'.line q = q.lines.1 := by
  rw [mute_status, line]
  rw [pc] at lower upper
  by_cases own : q = p
  · subst own
    rw [Function.update_self] at lower upper
    exact inv.noted q (by omega) (by omega)
  · rw [Function.update_of_ne own] at lower upper
    exact inv.noted q lower upper

/-- What a thread notes of the mutex that it holds is its own, or of a thread that is outside. -/
theorem Inv.noted_held (inv : Inv n s) (pc : s'.pc = Function.update s.pc p (s.pc p + 1))
    {q : Player} (mute_status : ∀ r ≠ q, s'.mute_status r = s.mute_status r)
    (line : ∀ r ≠ q, s'.line r = s.line r)
    (its : q = p ∧ (2 ≤ s.pc p + 1 → s.pc p + 1 ≤ 8 →
        s'.mute_status p = true ∧ s'.line p = p.lines.1) ∨
      q = p.other ∧ 4 ≤ s.pc p ∧ s.pc p ≤ 7)
    (r : Player) (lower : 2 ≤ s'.pc r) (upper : s'.pc r ≤ 8) :
    s'.mute_status r = true ∧ s'.line r = r.lines.1 := by
  rw [pc] at lower upper
  obtain ⟨rfl, done⟩ | ⟨rfl, within, within'⟩ := its
  · by_cases own : r = q
    · subst own
      rw [Function.update_self] at lower upper
      exact done lower upper
    · rw [Function.update_of_ne own] at lower upper
      rw [mute_status r own, line r own]
      exact inv.noted r lower upper
  · have outside := inv.outside within within'
    obtain rfl | rfl := p.eq_or_other r
    · rw [Function.update_self] at lower upper
      have other := r.other_ne.symm
      rw [mute_status r other, line r other]
      exact inv.noted r (by omega) (by omega)
    · rw [Function.update_of_ne p.other_ne] at lower upper
      omega

theorem Inv.advance_lock (inv : Inv n s) {q : Player} (place : s.pc p = 0 ∨ s.pc p = 3)
    (at_pc : p.thread_fun[s.pc p]? = some (.mutex_lock q)) (free : ∀ t, ¬ s.Holds t q)
    (more : ∀ l, Between p l (s.pc p + 1) ↔ Between p l (s.pc p) ∨ l = q) :
    ∃ s', step_worker p s = goes_on s' [] ∧ Advanced p s s' := by
  set next : State := { s with pc := Function.update s.pc p (s.pc p + 1) }
  have holds (t : Thread) (l : Player) :
      next.Holds t l ↔ s.Holds t l ∨ t = .worker p ∧ l = q := by
    have after : next.Holds t l ↔
        if t = .worker p then Between p l (s.pc p + 1) else s.Holds t l :=
      @holds_advanced s next p rfl rfl rfl t l
    rw [after]
    by_cases own : t = .worker p
    · subst own
      rw [if_pos rfl, more]
      simp [State.Holds]
    · simp [own]
  obtain ⟨taken, matched⟩ := inv.owned.lock free holds
  have done : (Stmt.mutex_lock q).exec (.worker p) s =
      some (some { s with owner := Function.update s.owner q (some (.worker p)) }) := by
    rw [Stmt.exec, pthread_mutex_lock, if_neg (inv.not_destroyed (p := p) (by omega)), taken]
    rfl
  refine ⟨_, step_worker_eq at_pc done, ?_⟩
  exact
    { pc := rfl
      share := by rw [share_after_of_ne (by omega) (by omega), Function.update_eq_self]
      owned := matched
      noted := inv.noted_advanced rfl rfl rfl (by omega)
      count := rfl, i := rfl, detect := rfl, counter := rfl, main := rfl }

theorem Inv.advance_unlock (inv : Inv n s) {q : Player} (place : s.pc p = 7 ∨ s.pc p = 9)
    (at_pc : p.thread_fun[s.pc p]? = some (.mutex_unlock q)) (held : Between p q (s.pc p))
    (fewer : ∀ l, Between p l (s.pc p + 1) ↔ Between p l (s.pc p) ∧ l ≠ q) :
    ∃ s', step_worker p s = goes_on s' [] ∧ Advanced p s s' := by
  set next : State := { s with pc := Function.update s.pc p (s.pc p + 1) }
  have holds (t : Thread) (l : Player) :
      next.Holds t l ↔ s.Holds t l ∧ ¬ (t = .worker p ∧ l = q) := by
    have after : next.Holds t l ↔
        if t = .worker p then Between p l (s.pc p + 1) else s.Holds t l :=
      @holds_advanced s next p rfl rfl rfl t l
    rw [after]
    by_cases own : t = .worker p
    · subst own
      rw [if_pos rfl, fewer]
      simp [State.Holds]
    · simp [own]
  have held_by : s.Holds (.worker p) q := held
  obtain ⟨given, matched⟩ := inv.owned.unlock held_by holds
  have done : (Stmt.mutex_unlock q).exec (.worker p) s =
      some (some { s with owner := Function.update s.owner q none }) := by
    rw [Stmt.exec, pthread_mutex_unlock, if_neg (inv.not_destroyed (p := p) (by omega)), given]
    rfl
  refine ⟨_, step_worker_eq at_pc done, ?_⟩
  exact
    { pc := rfl
      share := by rw [share_after_of_ne (by omega) (by omega), Function.update_eq_self]
      owned := matched
      noted := inv.noted_advanced rfl rfl rfl (by omega)
      count := rfl, i := rfl, detect := rfl, counter := rfl, main := rfl }

theorem Inv.advance_note (inv : Inv n s) {q : Player} {line : Nat}
    (at_pc : p.thread_fun[s.pc p]? = some (.note_status q line))
    (place : s.pc p = 1 ∧ q = p ∧ line = p.lines.1 ∨ s.pc p = 4 ∧ q = p.other)
    (same : ∀ l, Between p l (s.pc p + 1) ↔ Between p l (s.pc p)) :
    ∃ s', step_worker p s = goes_on s' [] ∧ Advanced p s s' := by
  refine ⟨_, step_worker_eq at_pc rfl, ?_⟩
  exact
    { pc := rfl
      share := by rw [share_after_of_ne (by omega) (by omega), Function.update_eq_self]
      owned := inv.owned_advanced rfl rfl rfl rfl same
      noted := by
        refine inv.noted_held rfl (q := q) (fun r ne => Function.update_of_ne ne _ _)
          (fun r ne => Function.update_of_ne ne _ _) ?_
        obtain ⟨-, rfl, rfl⟩ | ⟨at_four, rfl⟩ := place
        · exact .inl ⟨rfl, fun _ _ => ⟨Function.update_self .., Function.update_self ..⟩⟩
        · exact .inr ⟨rfl, by omega, by omega⟩
      count := rfl, i := rfl, detect := rfl, counter := rfl, main := rfl }

theorem Inv.advance_clear (inv : Inv n s) {q : Player}
    (at_pc : p.thread_fun[s.pc p]? = some (.clear_status q))
    (place : s.pc p = 6 ∧ q = p.other ∨ s.pc p = 8 ∧ q = p)
    (same : ∀ l, Between p l (s.pc p + 1) ↔ Between p l (s.pc p)) :
    ∃ s', step_worker p s = goes_on s' [] ∧ Advanced p s s' := by
  refine ⟨_, step_worker_eq at_pc rfl, ?_⟩
  exact
    { pc := rfl
      share := by rw [share_after_of_ne (by omega) (by omega), Function.update_eq_self]
      owned := inv.owned_advanced rfl rfl rfl rfl same
      noted := by
        refine inv.noted_held rfl (q := q) (fun r ne => Function.update_of_ne ne _ _)
          (fun _ _ => rfl) ?_
        obtain ⟨at_six, rfl⟩ | ⟨at_eight, rfl⟩ := place
        · exact .inr ⟨rfl, by omega, by omega⟩
        · exact .inl ⟨rfl, by omega⟩
      count := rfl, i := rfl, detect := rfl, counter := rfl, main := rfl }

theorem Inv.advance_share (inv : Inv n s) {stmt : Stmt}
    (at_pc : p.thread_fun[s.pc p]? = some stmt)
    (place : s.pc p = 2 ∧ stmt = .add_share p p.added ∨
      s.pc p = 5 ∧ stmt = .set_share p p.other p.added)
    (same : ∀ l, Between p l (s.pc p + 1) ↔ Between p l (s.pc p)) :
    ∃ s', step_worker p s = goes_on s' [] ∧ Advanced p s s' := by
  have small (p : Player) : p.added = 2 ∨ p.added = 3 := by
    cases p <;> simp [Player.added]
  have done : stmt.exec (.worker p) s = some (some { s with
      share := Function.update s.share p
        (share_after (s.pc p) (s.share p) (s.share p.other) p.added) }) := by
    have added := small p
    obtain ⟨at_two, rfl⟩ | ⟨at_five, rfl⟩ := place
    · have zero := (inv.shares p).untouched (by omega)
      have fits : addInt (s.share p) p.added = some (s.share p + p.added) :=
        addInt_eq_some (by rw [INT_MIN]; omega) (by rw [INT_MAX]; omega)
      rw [Stmt.exec, fits, share_after, if_pos at_two]
      rfl
    · have added' := small p.other
      have read := (inv.shares_other p).read at_five
      have fits : addInt (s.share p.other) p.added = some (s.share p.other + p.added) :=
        addInt_eq_some (by rw [INT_MIN]; omega) (by rw [INT_MAX]; omega)
      rw [Stmt.exec, fits, share_after, if_neg (by omega), if_pos at_five]
      rfl
  refine ⟨_, step_worker_eq at_pc done, ?_⟩
  exact
    { pc := rfl
      share := rfl
      owned := inv.owned_advanced rfl rfl rfl rfl same
      noted := inv.noted_advanced rfl rfl rfl (by omega)
      count := rfl, i := rfl, detect := rfl, counter := rfl, main := rfl }

/-- A thread of a player goes on unless someone has the mutex that it is to lock. -/
theorem Inv.advances (inv : Inv n s) (going : s.pc p < 10)
    (free : s.pc p = 0 → ∀ t, ¬ s.Holds t p)
    (free_other : s.pc p = 3 → ∀ t, ¬ s.Holds t p.other) :
    ∃ s', step_worker p s = goes_on s' [] ∧ Advanced p s s' := by
  obtain here | here | here | here | here | here | here | here | here | here :
      s.pc p = 0 ∨ s.pc p = 1 ∨ s.pc p = 2 ∨ s.pc p = 3 ∨ s.pc p = 4 ∨ s.pc p = 5 ∨ s.pc p = 6 ∨
        s.pc p = 7 ∨ s.pc p = 8 ∨ s.pc p = 9 := by omega
  · exact inv.advance_lock (.inl here) (stmt_at here) (free here) (between_lock_own here)
  · exact inv.advance_note (stmt_at here) (.inl ⟨here, rfl, rfl⟩) (between_same (by omega))
  · exact inv.advance_share (stmt_at here) (.inl ⟨here, rfl⟩) (between_same (by omega))
  · exact inv.advance_lock (.inr here) (stmt_at here) (free_other here) (between_lock_other here)
  · exact inv.advance_note (stmt_at here) (.inr ⟨here, rfl⟩) (between_same (by omega))
  · exact inv.advance_share (stmt_at here) (.inr ⟨here, rfl⟩) (between_same (by omega))
  · exact inv.advance_clear (stmt_at here) (.inl ⟨here, rfl⟩) (between_same (by omega))
  · exact inv.advance_unlock (.inl here) (stmt_at here) (between_other.mpr (by omega))
      (between_unlock_other here)
  · exact inv.advance_clear (stmt_at here) (.inr ⟨here, rfl⟩) (between_same (by omega))
  · exact inv.advance_unlock (.inr here) (stmt_at here) (between_own.mpr (by omega))
      (between_unlock_own here)

/-- A mutex that someone else has makes a thread of a player wait. -/
theorem Inv.waits (inv : Inv n s) {q : Player} {t : Thread}
    (at_pc : p.thread_fun[s.pc p]? = some (.mutex_lock q)) (held : s.Holds t q)
    (other : t ≠ .worker p) (going : s.pc p < 10) : step_worker p s = goes_on s [] := by
  refine step_worker_waits at_pc ?_
  rw [Stmt.exec, pthread_mutex_lock, if_neg (inv.not_destroyed going), inv.owned.wait held other]
  rfl

/-- A turn of a thread of a player. -/
theorem Inv.worker_turn (inv : Inv n s) (p : Player) :
    step_worker p s = goes_on s [] ∨
      ∃ s', step_worker p s = goes_on s' [] ∧ s.pc p < 10 ∧ Advanced p s s' := by
  have place := inv.places p
  by_cases ended : s.pc p = 10
  · exact .inl (step_worker_ended ended)
  have going : s.pc p < 10 := by omega
  by_cases own_held : s.pc p = 0 ∧ ∃ t, s.Holds t p
  · obtain ⟨here, t, held⟩ := own_held
    refine .inl (inv.waits (stmt_at here) held ?_ going)
    rintro rfl
    have := between_own.mp held
    omega
  by_cases other_held : s.pc p = 3 ∧ ∃ t, s.Holds t p.other
  · obtain ⟨here, t, held⟩ := other_held
    refine .inl (inv.waits (stmt_at here) held ?_ going)
    rintro rfl
    have := between_other.mp held
    omega
  · obtain ⟨s', done, advanced⟩ := inv.advances going
      (fun here t held => own_held ⟨here, t, held⟩)
      (fun here t held => other_held ⟨here, t, held⟩)
    exact .inr ⟨s', done, going, advanced⟩

theorem did_congr (main : s'.main = s.main) (m : MainStmt) : s'.did m ↔ s.did m := by
  rw [State.did, State.did, main]

theorem Inv.advance (inv : Inv n s) (going : s.pc p < 10) (moved : Advanced p s s') :
    Inv n s' where
  places q := by
    rw [moved.pc]
    obtain rfl | rfl := p.eq_or_other q
    · rw [Function.update_self]
      exact going
    · rw [Function.update_of_ne p.other_ne]
      exact inv.places _
  index := moved.i ▸ inv.index
  owned := moved.owned
  shares q := by
    obtain ⟨own, other⟩ := (inv.shares p).advance (inv.shares_other p)
      (fun at_set => inv.outside (by omega) (by omega)) going (inv.places _)
    rw [moved.pc, moved.share]
    obtain rfl | rfl := p.eq_or_other q
    · rw [Function.update_self, Function.update_self, Function.update_of_ne q.other_ne,
        Function.update_of_ne q.other_ne]
      exact own
    · rw [p.other_other, Function.update_self, Function.update_self,
        Function.update_of_ne p.other_ne, Function.update_of_ne p.other_ne]
      exact other
  noted := moved.noted
  counted := moved.count ▸ inv.counted
  joined t did := by
    have ended := inv.joined t ((did_congr moved.main _).mp did)
    cases t with
    | main => exact ended
    | detect_deadlock => exact moved.detect.trans ended
    | detect_count => exact moved.counter.trans ended
    | worker q =>
        have at_end : s.pc q = 10 := by
          cases q <;> exact ended
        have other : q ≠ p := by
          rintro rfl
          omega
        have same : s'.pc q = s.pc q := by rw [moved.pc, Function.update_of_ne other]
        exact same.trans ended
  running := moved.main ▸ inv.running
  counting ended := (did_congr moved.main _).mpr (inv.counting (moved.counter ▸ ended))

end Worker

end CFunc.Pthread
