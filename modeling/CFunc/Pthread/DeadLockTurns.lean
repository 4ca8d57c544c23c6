import CFunc.Pthread.DeadLockInv
import Mathlib.Logic.Basic

/-!
Turns of `main` and of the threads that look for a deadlock.

A turn that has a meaning keeps the invariant. It has none where an index of the
list is typed in: the count thread then unlocks a mutex that it has not locked.
-/

namespace CFunc.Pthread

open CFunc.Lib

/-! ### The detecting thread -/

section Detecting

variable {s s' : State} {n : Nat}

/-- What the detecting thread does not change. -/
structure Watched (s s' : State) : Prop where
  pc : s'.pc = s.pc
  share : s'.share = s.share
  mute_status : s'.mute_status = s.mute_status
  line : s'.line = s.line
  counter : s'.counter = s.counter
  main : s'.main = s.main

theorem watched_with (owner : Mutex.Owners Thread Player) (count : Int) (i : Nat)
    (detect : Detect) :
    Watched s { s with owner := owner, count := count, i := i, detect := detect } :=
  ⟨rfl, rfl, rfl, rfl, rfl, rfl⟩

theorem Inv.watched (inv : Inv n s) {m : Nat} (same : Watched s s') (index : s'.i < list.length)
    (owned : Mutex.Matches s'.owner s'.Holds) (counted : 0 ≤ s'.count ∧ s'.count ≤ m)
    (ended : s.detect = .ended → s'.detect = .ended) : Inv m s' where
  places := same.pc ▸ inv.places
  index := index
  owned := owned
  shares p := by
    rw [same.pc, same.share]
    exact inv.shares p
  noted p := by
    rw [same.pc, same.mute_status, same.line]
    exact inv.noted p
  counted := counted
  joined t did := by
    have before := inv.joined t ((did_congr same.main _).mp did)
    cases t with
    | main => exact before
    | worker p => exact (congrFun same.pc p).trans before
    | detect_deadlock => exact ended before
    | detect_count => exact same.counter.trans before
  running := same.main ▸ inv.running
  counting ended := (did_congr same.main _).mpr (inv.counting (same.counter ▸ ended))

/-- The detecting thread has no mutex, before or after. -/
theorem Inv.owned_idle (inv : Inv n s) (pc : s'.pc = s.pc) (owner : s'.owner = s.owner)
    (idle : s.detect ≠ .count ∧ s.detect ≠ .unlock)
    (idle' : s'.detect ≠ .count ∧ s'.detect ≠ .unlock) :
    Mutex.Matches s'.owner s'.Holds := by
  rw [owner]
  refine inv.owned.congr fun t l => ?_
  cases t with
  | main | detect_count => exact Iff.rfl
  | worker p => rw [State.Holds, State.Holds, pc]
  | detect_deadlock => simp [State.Holds, idle, idle']

theorem Inv.detect_not_destroyed (inv : Inv n s) (going : s.detect ≠ .ended) :
    ¬ s.did .mutex_destroy := by
  rw [State.destroyed_iff]
  intro lt
  exact going (inv.ended_of_joined (k := 9) (t := .detect_deadlock) rfl (by omega))

theorem Inv.exists_index (inv : Inv n s) : ∃ p, list[s.i]? = some p :=
  ⟨_, List.getElem?_eq_getElem inv.index⟩

theorem Inv.detect_lock_waits (inv : Inv n s) (here : s.detect = .lock) {p : Player}
    (at_i : list[s.i]? = some p) {t : Thread} (held : s.Holds t p) :
    loop_detect_deadlock_thread s = goes_on s [] := by
  have other : t ≠ .detect_deadlock := by
    rintro rfl
    simp [State.Holds, here] at held
  have waits := inv.owned.wait held other
  simp [loop_detect_deadlock_thread, here, at_i, pthread_mutex_lock,
    inv.detect_not_destroyed (by rw [here]; exact Detect.noConfusion), waits]

theorem Inv.detect_lock (inv : Inv n s) (here : s.detect = .lock) {p : Player}
    (at_i : list[s.i]? = some p) (free : ∀ t, ¬ s.Holds t p) :
    ∃ s', loop_detect_deadlock_thread s = goes_on s' [] ∧ Watched s s' ∧ Inv n s' ∧
      s'.detect = .count ∧ s'.count = s.count := by
  set next : State := { s with detect := .count }
  have holds (t : Thread) (l : Player) :
      next.Holds t l ↔ s.Holds t l ∨ t = .detect_deadlock ∧ l = p := by
    cases t with
    | main | detect_count | worker => simp [next, State.Holds]
    | detect_deadlock => simp [next, State.Holds, here, at_i, eq_comm]
  obtain ⟨taken, matched⟩ := inv.owned.lock free holds
  have done : loop_detect_deadlock_thread s = goes_on { next with
      owner := Function.update s.owner p (some .detect_deadlock) } [] := by
    simp [loop_detect_deadlock_thread, here, at_i, pthread_mutex_lock,
      inv.detect_not_destroyed (by rw [here]; exact Detect.noConfusion), taken, next]
  have same : Watched s { next with owner := Function.update s.owner p (some .detect_deadlock) } :=
    watched_with _ _ _ _
  refine ⟨_, done, same, inv.watched same inv.index matched inv.counted ?_, rfl, rfl⟩
  intro ended
  rw [here] at ended
  cases ended

theorem Inv.detect_count (inv : Inv n s) (here : s.detect = .count) (room : s.count < INT_MAX) :
    ∃ s', loop_detect_deadlock_thread s = goes_on s' [] ∧ Watched s s' ∧ Inv (n + 1) s' ∧
      s'.detect = .unlock ∧ s'.count = s.count + 1 := by
  have counted := inv.counted
  have fits : addInt s.count 1 = some (s.count + 1) :=
    addInt_eq_some (by rw [INT_MIN]; omega) (by omega)
  have done : loop_detect_deadlock_thread s =
      goes_on { s with count := s.count + 1, detect := .unlock } [] := by
    simp [loop_detect_deadlock_thread, here, fits]
  have owned : Mutex.Matches s.owner
      { s with count := s.count + 1, detect := .unlock : State }.Holds := by
    refine inv.owned.congr fun t l => ?_
    cases t with
    | main | detect_count | worker => exact Iff.rfl
    | detect_deadlock => simp [State.Holds, here]
  have same : Watched s { s with count := s.count + 1, detect := .unlock } :=
    watched_with _ _ _ _
  refine ⟨_, done, same, inv.watched same inv.index owned ⟨?_, ?_⟩ ?_, rfl, rfl⟩
  · show 0 ≤ s.count + 1
    omega
  · show s.count + 1 ≤ ↑(n + 1)
    omega
  · intro ended
    rw [here] at ended
    cases ended

theorem Inv.detect_unlock (inv : Inv n s) (here : s.detect = .unlock) :
    ∃ s', loop_detect_deadlock_thread s = goes_on s' [] ∧ Watched s s' ∧ Inv n s' ∧
      s'.detect = .testcancel ∧ s'.count = s.count := by
  obtain ⟨p, at_i⟩ := inv.exists_index
  set next : State := { s with detect := .testcancel }
  have holds (t : Thread) (l : Player) :
      next.Holds t l ↔ s.Holds t l ∧ ¬ (t = .detect_deadlock ∧ l = p) := by
    cases t with
    | main | detect_count | worker => simp [next, State.Holds]
    | detect_deadlock => simp [next, State.Holds, here, at_i, eq_comm]
  have held : s.Holds .detect_deadlock p := ⟨at_i, .inr here⟩
  obtain ⟨given, matched⟩ := inv.owned.unlock held holds
  have done : loop_detect_deadlock_thread s =
      goes_on { next with owner := Function.update s.owner p none } [] := by
    simp [loop_detect_deadlock_thread, here, at_i, pthread_mutex_unlock,
      inv.detect_not_destroyed (by rw [here]; exact Detect.noConfusion), given, next]
  have same : Watched s { next with owner := Function.update s.owner p none } :=
    watched_with _ _ _ _
  refine ⟨_, done, same, inv.watched same inv.index matched inv.counted ?_, rfl, rfl⟩
  intro ended
  rw [here] at ended
  cases ended

/-- It is cancelled, or it sleeps and begins again. -/
theorem Inv.detect_rests (inv : Inv n s) (here : s.detect = .testcancel ∨ s.detect = .sleep) :
    ∃ s', loop_detect_deadlock_thread s = goes_on s' [] ∧ Watched s s' ∧ Inv n s' ∧
      s'.count = s.count ∧
      if s.did (.cancel .detect_deadlock) then s'.detect = .ended
      else s'.detect = .sleep ∨ s'.detect = .lock := by
  have idle : s.detect ≠ .count ∧ s.detect ≠ .unlock := by
    obtain here | here := here
    · simp [here]
    · simp [here]
  have not_ended : s.detect ≠ .ended := by
    obtain here | here := here
    · simp [here]
    · simp [here]
  have rests {s' : State} (same : Watched s s') (i : s'.i < list.length)
      (owner : s'.owner = s.owner) (count : s'.count = s.count)
      (idle' : s'.detect ≠ .count ∧ s'.detect ≠ .unlock) : Inv n s' :=
    inv.watched same i (inv.owned_idle same.pc owner idle idle') (count ▸ inv.counted)
      fun ended => absurd ended not_ended
  have next_index : (s.i + 1) % list.length < list.length := Nat.mod_lt _ Nat.zero_lt_two
  by_cases cancelled : s.did (.cancel .detect_deadlock)
  · simp only [cancelled, if_true]
    obtain here | here := here
    · have same : Watched s { s with i := (s.i + 1) % list.length, detect := .ended } :=
        watched_with _ _ _ _
      refine ⟨_, ?_, same, rests same next_index rfl rfl (by simp), rfl, rfl⟩
      rw [loop_detect_deadlock_thread, here]
      exact if_pos cancelled
    · have same : Watched s { s with detect := .ended } := watched_with _ _ _ _
      refine ⟨_, ?_, same, rests same inv.index rfl rfl (by simp), rfl, rfl⟩
      rw [loop_detect_deadlock_thread, here]
      exact if_pos cancelled
  · simp only [cancelled, if_false]
    obtain here | here := here
    · have same : Watched s { s with i := (s.i + 1) % list.length, detect := .sleep } :=
        watched_with _ _ _ _
      refine ⟨_, ?_, same, rests same next_index rfl rfl (by simp), rfl, .inl rfl⟩
      rw [loop_detect_deadlock_thread, here]
      exact if_neg cancelled
    · have same : Watched s { s with detect := .lock } := watched_with _ _ _ _
      refine ⟨_, ?_, same, rests same inv.index rfl rfl (by simp), rfl, .inr rfl⟩
      rw [loop_detect_deadlock_thread, here]
      exact if_neg cancelled

end Detecting

/-! ### A turn -/

section Turns

variable {s s' : State} {n : Nat}

/-- Nobody holds a mutex once `main` has waited for everybody. -/
theorem Inv.free_of_joined (inv : Inv n s) (lt : 9 < s.main) (p : Player) : s.owner p = none := by
  have ended : s.detect = .ended := inv.ended_of_joined (k := 9) (t := .detect_deadlock) rfl lt
  rw [inv.owned.free_iff]
  exact inv.not_held_of_joined (by omega) (by simp [ended]) p

/-- The two serial orders. -/
theorem Inv.shares_of_joined (inv : Inv n s) (lt : 5 < s.main) :
    s.share .A = 2 ∧ s.share .B = 5 ∨ s.share .A = 5 ∧ s.share .B = 3 := by
  have place_A := inv.place_of_joined (p := .A) lt
  have place_B := inv.place_of_joined (p := .B) lt
  have set : (s.share .A = 2 ∧ (6 ≤ s.pc .B → s.share .B = 5)) ∨
      (s.pc .B = 10 ∧ s.share .B = 3 ∧ s.share .A = 5) := (inv.shares .A).set (by omega)
  omega

/-- What is printed of the shares in the end. -/
def Serial (output : List Event) : Prop := output = [.shares 2 5] ∨ output = [.shares 5 3]

def Event.NotShares (e : Event) : Prop := ∀ a b, e ≠ .shares a b

/-- What comes of a turn, or of a run. -/
abbrev Went (n : Nat) : Response → Prop := Reactive.Keeps (Inv n) Event.NotShares Serial

theorem Inv.went (inv : Inv n s) {output : List Event} (told : ∀ e ∈ output, e.NotShares) :
    ∃ r, goes_on s output = some r ∧ Went n r :=
  ⟨_, rfl, ⟨fun _ => ⟨inv, told⟩, Bool.noConfusion⟩⟩

theorem Inv.went_silent (inv : Inv n s) : ∃ r, goes_on s [] = some r ∧ Went n r :=
  inv.went fun _ mem => absurd mem List.not_mem_nil

theorem Inv.main_next (inv : Inv n s) {m : MainStmt} (at_main : main_fun[s.main]? = some m)
    (not_last : m ≠ .print_shares) (ended : ∀ t, m = .join t → s.ended t) :
    Inv n { s with main := s.main + 1 } where
  places := inv.places
  index := inv.index
  owned := inv.owned.congr fun t l => by cases t <;> exact Iff.rfl
  shares := inv.shares
  noted := inv.noted
  counted := inv.counted
  joined t did := by
    have mem : MainStmt.join t ∈ main_fun.take (s.main + 1) := did
    rw [List.take_add_one, List.mem_append, at_main, Option.toList_some, List.mem_singleton] at mem
    have before : s.ended t := mem.elim (inv.joined t) fun join => ended t join.symm
    cases t <;> exact before
  running := by
    have lt : s.main < 12 := inv.running
    have ne : s.main ≠ 11 := by
      intro last
      rw [last] at at_main
      exact not_last (Option.some.inj at_main).symm
    show s.main + 1 < 12
    omega
  counting ended := by
    have before := inv.counting ended
    rw [State.did_iff (n := 6) rfl] at before ⊢
    exact before.trans (Nat.lt_succ_self _)

/-- Unless it waits for a thread, `main` goes on, and prints the shares at last. -/
theorem Inv.main_advances (inv : Inv n s) {m : MainStmt} (at_main : main_fun[s.main]? = some m)
    (ended : ∀ t, m = .join t → s.ended t) : ∃ r, main s = some r ∧ Went n r ∧
      (r.stopped = false → r.state = { s with main := s.main + 1 }) := by
  have next (not_last : m ≠ .print_shares)
      (done : main s = goes_on { s with main := s.main + 1 } []) : ∃ r, main s = some r ∧
        Went n r ∧ (r.stopped = false → r.state = { s with main := s.main + 1 }) := by
    obtain ⟨r, taken, went⟩ := (inv.main_next at_main not_last ended).went_silent
    obtain rfl := Option.some.inj taken
    exact ⟨_, done, went, fun _ => rfl⟩
  cases m with
  | create | cancel => exact next MainStmt.noConfusion (by simp [main, at_main])
  | join t => exact next MainStmt.noConfusion (by simp [main, at_main, ended t rfl])
  | mutex_destroy =>
      have place := main_fun_place (k := 10) at_main rfl
      have free : ∀ p ∈ list, s.owner p = none := fun p _ => inv.free_of_joined (by omega) p
      refine next MainStmt.noConfusion ?_
      simp only [main, at_main]
      exact if_pos free
  | print_shares =>
      have place := main_fun_place (k := 11) at_main rfl
      have printed : main s = some
          { state := { s with main := s.main + 1 }
            output := [.shares (s.share .A) (s.share .B)]
            stopped := true } := by
        simp only [main, at_main]
      refine ⟨_, printed, ⟨Bool.noConfusion, fun _ => ?_⟩, fun _ => rfl⟩
      refine ⟨[], _, rfl, fun _ mem => absurd mem List.not_mem_nil, ?_⟩
      obtain ⟨own, other⟩ | ⟨own, other⟩ := inv.shares_of_joined (by omega)
      · exact .inl (by rw [own, other])
      · exact .inr (by rw [own, other])

theorem main_waits {t : Thread} (at_main : main_fun[s.main]? = some (.join t))
    (going : ¬ s.ended t) : main s = goes_on s [] := by
  simp [main, at_main, going]

theorem Inv.main_turn (inv : Inv n s) : ∃ r, main s = some r ∧ Went n r := by
  obtain ⟨m, at_main⟩ : ∃ m, main_fun[s.main]? = some m :=
    ⟨_, List.getElem?_eq_getElem inv.running⟩
  by_cases waits : ∃ t, m = .join t ∧ ¬ s.ended t
  · obtain ⟨t, rfl, going⟩ := waits
    rw [main_waits at_main going]
    exact inv.went_silent
  · have ended (t : Thread) (join : m = .join t) : s.ended t := by
      by_contra going
      exact waits ⟨t, join, going⟩
    obtain ⟨r, taken, went, -⟩ := inv.main_advances at_main ended
    exact ⟨r, taken, went⟩

theorem Inv.detect_turn (inv : Inv n s) :
    loop_detect_deadlock_thread s = none ∧ INT_MAX ≤ s.count ∨
      ∃ s', loop_detect_deadlock_thread s = goes_on s' [] ∧ Inv (n + 1) s' ∧ Watched s s' ∧
        (s.detect ≠ .count → s'.count = s.count) := by
  have later {s' : State} (inv' : Inv n s') : Inv (n + 1) s' := inv'.later (Nat.le_succ n)
  cases here : s.detect with
  | lock =>
      obtain ⟨p, at_i⟩ := inv.exists_index
      by_cases held : ∃ t, s.Holds t p
      · obtain ⟨t, held⟩ := held
        exact .inr ⟨s, inv.detect_lock_waits here at_i held, later inv, watched_with _ _ _ _,
          fun _ => rfl⟩
      · obtain ⟨s', done, same, inv', -, count⟩ :=
          inv.detect_lock here at_i (not_exists.mp held)
        exact .inr ⟨s', done, later inv', same, fun _ => count⟩
  | count =>
      by_cases room : s.count < INT_MAX
      · obtain ⟨s', done, same, inv', -⟩ := inv.detect_count here room
        exact .inr ⟨s', done, inv', same, fun counts => absurd rfl counts⟩
      · have full : addInt s.count 1 = none := if_neg (by omega)
        exact .inl ⟨by simp [loop_detect_deadlock_thread, here, full], by omega⟩
  | unlock =>
      obtain ⟨s', done, same, inv', -, count⟩ := inv.detect_unlock here
      exact .inr ⟨s', done, later inv', same, fun _ => count⟩
  | testcancel =>
      obtain ⟨s', done, same, inv', count, -⟩ := inv.detect_rests (.inl here)
      exact .inr ⟨s', done, later inv', same, fun _ => count⟩
  | sleep =>
      obtain ⟨s', done, same, inv', count, -⟩ := inv.detect_rests (.inr here)
      exact .inr ⟨s', done, later inv', same, fun _ => count⟩
  | ended =>
      refine .inr ⟨s, ?_, later inv, watched_with _ _ _ _, fun _ => rfl⟩
      rw [loop_detect_deadlock_thread, here]

theorem Inv.counter_next (inv : Inv n s) {counter : Counter}
    (ended : s.counter = .ended → counter = .ended)
    (cancelled : counter = .ended → s.did (.cancel .detect_count)) :
    Inv n { s with counter := counter } where
  places := inv.places
  index := inv.index
  owned := inv.owned.congr fun t l => by cases t <;> exact Iff.rfl
  shares := inv.shares
  noted := inv.noted
  counted := inv.counted
  joined t did := by
    have before := inv.joined t did
    cases t with
    | detect_count => exact ended before
    | main | worker | detect_deadlock => exact before
  running := inv.running
  counting := cancelled

theorem Inv.count_turn (inv : Inv n s) : ∃ r, loop_detect_count_thread s = some r ∧ Went n r := by
  have next {counter : Counter} (before : s.counter ≠ .ended) (after : counter ≠ .ended) :
      Inv n { s with counter := counter } :=
    inv.counter_next (fun ended => absurd ended before) fun ended => absurd ended after
  unfold loop_detect_count_thread
  split
  next here => exact (next (by simp [here]) (by simp)).went_silent
  next temp here =>
    split
    next =>
      have prompts : Inv n { s with counter := .prompt } := next (by simp [here]) (by simp)
      exact prompts.went (by simp [Event.NotShares])
    next => exact (next (by simp [here]) (by simp)).went_silent
  next => exact inv.went_silent
  next => exact inv.went_silent

/-- An index of the list is typed in at the prompt. -/
def Unlocks (turn : Turn) (s : State) : Prop :=
  ∃ index : Int, turn = .input index ∧ 0 ≤ index ∧ index < list.length ∧ s.counter = .prompt

/-- The count thread unlocks a mutex that it has not locked. -/
theorem Inv.handle_dead_lock_none (inv : Inv n s) {index : Int} (lower : 0 ≤ index)
    (upper : index < list.length) : handle_dead_lock index s = none := by
  have inside : index.toNat < list.length := by omega
  have not_held : ¬ s.Holds .detect_count list[index.toNat] := id
  have refused := inv.owned.unlock_none not_held
  rw [handle_dead_lock, if_pos ⟨lower, upper⟩, List.getElem?_eq_getElem inside]
  simp [pthread_mutex_unlock, refused]

/-- A turn that has no meaning unlocks, or the count has no room. -/
theorem Inv.turn (inv : Inv n s) (turn : Turn) :
    step turn s = none ∧ (Unlocks turn s ∨ INT_MAX ≤ s.count) ∨
      ¬ Unlocks turn s ∧ ∃ r, step turn s = some r ∧ Went (n + 1) r := by
  have later : Inv (n + 1) s := inv.later (Nat.le_succ n)
  cases turn with
  | cancelled =>
      have no_input : ¬ Unlocks .cancelled s := by
        rintro ⟨index, turn, -⟩
        cases turn
      refine .inr ⟨no_input, ?_⟩
      rw [step]
      split
      next cancelled => exact (later.counter_next (fun _ => rfl) fun _ => cancelled).went_silent
      next => exact later.went_silent
  | input index =>
      rw [step]
      by_cases prompt : s.counter = .prompt
      · rw [if_pos prompt]
        by_cases inside : 0 ≤ index ∧ index < list.length
        · exact .inl ⟨inv.handle_dead_lock_none inside.1 inside.2,
            .inl ⟨index, rfl, inside.1, inside.2, prompt⟩⟩
        · refine .inr ⟨?_, ?_⟩
          · rintro ⟨index', turn, lower, upper, -⟩
            obtain rfl := Turn.input.inj turn
            exact inside ⟨lower, upper⟩
          · rw [handle_dead_lock, if_neg inside]
            exact later.went (by simp [Event.NotShares])
      · refine .inr ⟨?_, ?_⟩
        · rintro ⟨index', -, -, -, at_prompt⟩
          exact prompt at_prompt
        · rw [if_neg prompt]
          exact later.went_silent
  | thread t =>
      have no_input : ¬ Unlocks (.thread t) s := by
        rintro ⟨index, turn, -⟩
        cases turn
      cases t with
      | main => exact .inr ⟨no_input, later.main_turn⟩
      | worker p =>
          refine .inr ⟨no_input, ?_⟩
          rw [step]
          split
          · obtain waits | ⟨s', done, going, advanced⟩ := later.worker_turn p
            · rw [waits]
              exact later.went_silent
            · rw [done]
              exact (later.advance going advanced).went_silent
          · exact later.went_silent
      | detect_count =>
          refine .inr ⟨no_input, ?_⟩
          rw [step]
          split
          · exact later.count_turn
          · exact later.went_silent
      | detect_deadlock =>
          rw [step]
          split
          · obtain ⟨undefined, full⟩ | ⟨s', done, inv', -⟩ := inv.detect_turn
            · exact .inl ⟨undefined, .inr full⟩
            · rw [done]
              exact .inr ⟨no_input, inv'.went_silent⟩
          · exact .inr ⟨no_input, later.went_silent⟩

end Turns

end CFunc.Pthread
