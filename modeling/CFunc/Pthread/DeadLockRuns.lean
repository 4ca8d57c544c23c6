import CFunc.Pthread.DeadLockTurns
import Mathlib.Data.List.Count

/-!
Runs of the threads, whoever's turn it is.

A run that comes to its end prints what one of the two serial orders makes of
the shares. From a state that is not a deadlock the threads can always be
brought to the end, from a deadlock never: it is told with the lines where the
two mutexes were locked, and what is typed in to resolve it has no meaning or
changes nothing.
-/

namespace CFunc.Pthread

open CFunc.Lib

theorem Inv.step_keeps {turn : Turn} {n : Nat} {s : State} {r : Response} (inv : Inv n s)
    (taken : step turn s = some r) : Went (n + 1) r := by
  obtain ⟨undefined, -⟩ | ⟨-, r', taken', went⟩ := inv.turn turn
  · rw [taken] at undefined
    cases undefined
  · obtain rfl := Option.some.inj (taken.symm.trans taken')
    exact went

theorem run_went {turns : List Turn} {r : Response}
    (ran : Reactive.run step turns .start = some r) : Went (0 + turns.length) r :=
  Reactive.run_keeps Inv (fun _ _ _ _ inv taken => inv.step_keeps taken) inv_start ran

theorem run_inv {turns : List Turn} {r : Response}
    (ran : Reactive.run step turns .start = some r) (going : r.stopped = false) :
    Inv turns.length r.state :=
  Nat.zero_add turns.length ▸ ((run_went ran).on going).1

/-! ### What is printed -/

def turns_of (t : Thread) (k : Nat) : List Turn := List.replicate k (.thread t)

/-- One player's thread after the other's. -/
def one_by_one (p : Player) : List Turn :=
  turns_of .main 4 ++ turns_of (.worker p) 10 ++ turns_of (.worker p.other) 10 ++
    turns_of .main 4 ++ [.cancelled] ++ turns_of .main 1 ++ turns_of .detect_deadlock 4 ++
    turns_of .main 3

example : (Reactive.run step (one_by_one .A) .start).map Reactive.Response.seen =
    some ([.shares 2 5], true) := rfl

/-- Nothing but a number of the list that is typed in at the prompt takes the meaning of a run. -/
theorem run_undefined_iff (turns : List Turn) (few : turns.length ≤ INT_MAX) :
    Reactive.run step turns .start = none ↔
      ∃ before turn after r, turns = before ++ turn :: after ∧
        Reactive.run step before .start = some r ∧ r.stopped = false ∧
        Unlocks turn r.state := by
  rw [Reactive.run_eq_none_iff]
  refine exists_congr fun before => exists_congr fun turn => exists_congr fun after =>
    exists_congr fun r => and_congr_right fun whole => and_congr_right fun ran =>
      and_congr_right fun going => ?_
  have inv := run_inv ran going
  have room : r.state.count < INT_MAX := by
    have counted := inv.counted.2
    rw [whole, List.length_append, List.length_cons] at few
    omega
  obtain ⟨undefined, unlocks | full⟩ | ⟨no_unlock, r', taken, -⟩ := inv.turn turn
  · exact iff_of_true undefined unlocks
  · omega
  · refine iff_of_false ?_ no_unlock
    rw [taken]
    exact Option.some_ne_none r'

/-- Each player's thread locks its own mutex. -/
def crossing : List Turn :=
  turns_of .main 4 ++ turns_of (.worker .A) 3 ++ turns_of (.worker .B) 3

theorem run_undefined_iff_crossing :
    ∃ before turn after r,
      crossing ++ turns_of .detect_count 2 ++ [.input 1] = before ++ turn :: after ∧
        Reactive.run step before .start = some r ∧ r.stopped = false ∧
        Unlocks turn r.state :=
  (run_undefined_iff _ (by decide)).mp rfl

/-! ### Coming to the end -/

namespace State

/-- Each thread has its own mutex, and is to lock the other's. -/
def DeadLocked (s : State) : Prop := ∀ p, 1 ≤ s.pc p ∧ s.pc p ≤ 3

theorem deadLocked_iff {s : State} (p : Player) :
    s.DeadLocked ↔ (1 ≤ s.pc p ∧ s.pc p ≤ 3) ∧ 1 ≤ s.pc p.other ∧ s.pc p.other ≤ 3 := by
  constructor
  · exact fun both => ⟨both p, both p.other⟩
  · rintro ⟨own, other⟩ q
    obtain rfl | rfl := p.eq_or_other q
    · exact own
    · exact other

end State

/-- A state from which the threads can be brought to the end. -/
structure Live (s : State) : Prop where
  inv : ∃ n, Inv n s
  apart : ¬ s.DeadLocked
  room : s.detect = .lock ∨ s.detect = .count → s.count < INT_MAX

/-- How far `loop_detect_deadlock_thread` is from where it is cancelled. -/
def Detect.rank : Detect → Nat
  | lock => 4
  | count => 3
  | unlock => 2
  | testcancel | sleep => 1
  | ended => 0

def Counter.rank (counter : Counter) : Nat := if counter = .ended then 0 else 1

def State.rank (s : State) : Nat :=
  (12 - s.main) + (10 - s.pc .A) + (10 - s.pc .B) + s.detect.rank + s.counter.rank

/-- A turn that gets nearer to the end. -/
def Nearer (s : State) (turn : Turn) : Prop :=
  ∃ r, step turn s = some r ∧ (r.stopped = false → Live r.state ∧ r.state.rank < s.rank)

theorem nearer_on {s s' : State} {turn : Turn} (taken : step turn s = goes_on s' [])
    (live : Live s') (lower : s'.rank < s.rank) : Nearer s turn :=
  ⟨_, taken, fun _ => ⟨live, lower⟩⟩

theorem State.rank_eq (s : State) (p : Player) :
    s.rank = (12 - s.main) + (10 - s.pc p) + (10 - s.pc p.other) + s.detect.rank +
      s.counter.rank := by
  cases p with
  | A => rfl
  | B =>
      rw [State.rank, Player.other]
      omega

section Nearer

variable {s : State}

theorem Live.main_nearer (live : Live s) {m : MainStmt} (at_main : main_fun[s.main]? = some m)
    (ended : ∀ t, m = .join t → s.ended t) : Nearer s (.thread .main) := by
  obtain ⟨⟨n, inv⟩, apart, room⟩ := live
  obtain ⟨r, taken, went, next⟩ := inv.main_advances at_main ended
  refine ⟨r, taken, fun going => ?_⟩
  have kept := (went.on going).1
  have lt : s.main < 12 := inv.running
  rw [next going] at kept ⊢
  refine ⟨⟨⟨n, kept⟩, apart, room⟩, ?_⟩
  simp only [State.rank]
  omega

theorem Watched.apart {s' : State} (same : Watched s s') (apart : ¬ s.DeadLocked) :
    ¬ s'.DeadLocked := by
  rw [State.DeadLocked, same.pc]
  exact apart

theorem Watched.lower {s' : State} (same : Watched s s') (lower : s'.detect.rank < s.detect.rank) :
    s'.rank < s.rank := by
  rw [State.rank, State.rank, same.main, same.pc, same.counter]
  omega

/-- The detecting thread gives back the mutex that it has, and once it is cancelled it ends. -/
theorem Live.detect_nearer (live : Live s) (created : 2 < s.main)
    (busy : (s.detect = .count ∨ s.detect = .unlock) ∨ 7 < s.main ∧ s.detect ≠ .ended) :
    Nearer s (.thread .detect_deadlock) := by
  obtain ⟨⟨n, inv⟩, apart, room⟩ := live
  have turn : step (.thread .detect_deadlock) s = loop_detect_deadlock_thread s :=
    if_pos ((State.did_iff (n := 2) rfl).mpr created)
  have nearer {m : Nat} {s' : State} (done : loop_detect_deadlock_thread s = goes_on s' [])
      (same : Watched s s') (inv' : Inv m s') (lower : s'.detect.rank < s.detect.rank)
      (room' : s'.detect = .lock ∨ s'.detect = .count → s'.count < INT_MAX) :
      Nearer s (.thread .detect_deadlock) :=
    nearer_on (turn.trans done) ⟨⟨m, inv'⟩, same.apart apart, room'⟩ (same.lower lower)
  have rests (here : s.detect = .testcancel ∨ s.detect = .sleep) (cancelled : 7 < s.main) :
      Nearer s (.thread .detect_deadlock) := by
    obtain ⟨s', done, same, inv', count, ended⟩ := inv.detect_rests here
    rw [if_pos ((State.did_iff (n := 7) rfl).mpr cancelled)] at ended
    refine nearer done same inv' ?_ (by simp [ended])
    obtain here | here := here
    · rw [ended, here]
      exact Nat.zero_lt_one
    · rw [ended, here]
      exact Nat.zero_lt_one
  cases here : s.detect with
  | lock =>
      obtain ⟨cancelled, -⟩ : 7 < s.main ∧ s.detect ≠ .ended := by simpa [here] using busy
      obtain ⟨p, at_i⟩ := inv.exists_index
      have free := inv.not_held_of_joined (by omega) (by simp [here]) p
      obtain ⟨s', done, same, inv', next, count⟩ := inv.detect_lock here at_i free
      refine nearer done same inv' ?_ fun _ => ?_
      · rw [next, here]
        decide
      · rw [count]
        exact room (.inl here)
  | count =>
      obtain ⟨s', done, same, inv', next, -⟩ := inv.detect_count here (room (.inr here))
      refine nearer done same inv' ?_ (by simp [next])
      rw [next, here]
      decide
  | unlock =>
      obtain ⟨s', done, same, inv', next, -⟩ := inv.detect_unlock here
      refine nearer done same inv' ?_ (by simp [next])
      rw [next, here]
      decide
  | testcancel =>
      obtain ⟨cancelled, -⟩ : 7 < s.main ∧ s.detect ≠ .ended := by simpa [here] using busy
      exact rests (.inl here) cancelled
  | sleep =>
      obtain ⟨cancelled, -⟩ : 7 < s.main ∧ s.detect ≠ .ended := by simpa [here] using busy
      exact rests (.inr here) cancelled
  | ended => simp [here] at busy

/-- A thread that has both mutexes goes on, and so does one beside which the other is outside. -/
theorem Live.worker_nearer (live : Live s) {p : Player} (created : s.did (.create (.worker p)))
    (idle : s.detect ≠ .count ∧ s.detect ≠ .unlock) (going : s.pc p < 10)
    (safe : 4 ≤ s.pc p ∨ s.pc p.other = 0 ∨ s.pc p.other = 10) :
    Nearer s (.thread (.worker p)) := by
  obtain ⟨⟨n, inv⟩, apart, room⟩ := live
  have free (few : s.pc p < 4) {q : Player} (apart : ¬ Between p q (s.pc p)) :
      ∀ t, ¬ s.Holds t q := by
    refine not_held idle fun r between => ?_
    obtain rfl | rfl := p.eq_or_other r
    · exact apart between
    · rw [Between] at between
      split at between
      · omega
      · omega
  have free_own (here : s.pc p = 0) : ∀ t, ¬ s.Holds t p := by
    refine free (by omega) fun between => ?_
    have := between_own.mp between
    omega
  have free_other (here : s.pc p = 3) : ∀ t, ¬ s.Holds t p.other := by
    refine free (by omega) fun between => ?_
    have := between_other.mp between
    omega
  obtain ⟨s', done, advanced⟩ := inv.advances going free_own free_other
  have own : s'.pc p = s.pc p + 1 := by rw [advanced.pc, Function.update_self]
  have other : s'.pc p.other = s.pc p.other := by
    rw [advanced.pc, Function.update_of_ne p.other_ne]
  refine nearer_on ((if_pos created).trans done) ⟨⟨n, inv.advance going advanced⟩, ?_, ?_⟩ ?_
  · rw [State.deadLocked_iff p, own, other]
    omega
  · rw [advanced.detect, advanced.count]
    exact room
  · rw [s.rank_eq p, s'.rank_eq p, own, other, advanced.main, advanced.detect, advanced.counter]
    omega

theorem Live.cancelled_nearer (live : Live s) (cancelled : 6 < s.main)
    (going : s.counter ≠ .ended) : Nearer s .cancelled := by
  obtain ⟨⟨n, inv⟩, apart, room⟩ := live
  have turn : step .cancelled s = goes_on { s with counter := .ended } [] :=
    if_pos ((State.did_iff (n := 6) rfl).mpr cancelled)
  have next : Inv n { s with counter := .ended } :=
    inv.counter_next (fun _ => rfl) fun _ => (State.did_iff (n := 6) rfl).mpr cancelled
  refine nearer_on turn ⟨⟨n, next⟩, apart, room⟩ ?_
  have before : s.counter.rank = 1 := if_neg going
  show _ + _ + _ + _ + 0 < _ + _ + _ + _ + s.counter.rank
  rw [before]
  exact Nat.lt_succ_self _

/-- While `main` waits for the threads of the players, one of them goes on. -/
theorem Live.workers_nearer (live : Live s) (created : 4 ≤ s.main) {q : Player}
    (going : s.pc q < 10) : ∃ turn, Nearer s turn := by
  by_cases idle : s.detect ≠ .count ∧ s.detect ≠ .unlock
  · obtain ⟨n, inv⟩ := live.inv
    have apart := mt (State.deadLocked_iff q).mpr live.apart
    have place := inv.places q.other
    have did (p : Player) : s.did (.create (.worker p)) := by
      cases p with
      | A => exact (State.did_iff (n := 0) rfl).mpr (by omega)
      | B => exact (State.did_iff (n := 1) rfl).mpr (by omega)
    by_cases own : 4 ≤ s.pc q ∨ s.pc q.other = 0 ∨ s.pc q.other = 10
    · exact ⟨_, live.worker_nearer (did q) idle going own⟩
    · refine ⟨_, live.worker_nearer (did q.other) idle (by omega) ?_⟩
      rw [q.other_other]
      omega
  · refine ⟨_, live.detect_nearer (by omega) (.inl ?_)⟩
    by_cases count : s.detect = .count
    · exact .inl count
    · exact .inr (by_contra fun unlock => idle ⟨count, unlock⟩)

theorem Live.exists_nearer (live : Live s) : ∃ turn, Nearer s turn := by
  obtain ⟨n, inv⟩ := live.inv
  obtain ⟨m, at_main⟩ : ∃ m, main_fun[s.main]? = some m :=
    ⟨_, List.getElem?_eq_getElem inv.running⟩
  by_cases waits : ∃ t, m = .join t ∧ ¬ s.ended t
  · obtain ⟨t, rfl, going⟩ := waits
    cases t with
    | main =>
        have mem := List.mem_of_getElem? at_main
        exact absurd mem (by decide)
    | worker p =>
        have place := inv.places p
        have not_end : s.pc p ≠ 10 := by
          intro at_end
          refine going (at_end.trans ?_)
          cases p <;> rfl
        have created : 4 ≤ s.main := by
          cases p with
          | A => exact (main_fun_place (k := 4) at_main rfl).ge
          | B => exact (Nat.le_succ 4).trans (main_fun_place (k := 5) at_main rfl).ge
        exact live.workers_nearer (q := p) created (by omega)
    | detect_count =>
        have at_join := main_fun_place (k := 8) at_main rfl
        exact ⟨_, live.cancelled_nearer (by omega) going⟩
    | detect_deadlock =>
        have at_join := main_fun_place (k := 9) at_main rfl
        exact ⟨_, live.detect_nearer (by omega) (.inr ⟨by omega, going⟩)⟩
  · have ended (t : Thread) (join : m = .join t) : s.ended t := by
      by_contra going
      exact waits ⟨t, join, going⟩
    exact ⟨_, live.main_nearer at_main ended⟩

end Nearer

/-! ### Deadlocks -/

section DeadLock

variable {s : State} {n : Nat}

/-- Both threads are still under way, so `main` waits for the first of them. -/
theorem Inv.main_of_deadLocked (inv : Inv n s) (dead : s.DeadLocked) : s.main ≤ 4 := by
  by_contra past
  have ended : s.pc .A = 10 := inv.ended_of_joined (k := 4) (t := .worker .A) rfl (by omega)
  have := dead .A
  omega

theorem Inv.main_turn_deadLocked (inv : Inv n s) (dead : s.DeadLocked) :
    main s = goes_on s [] ∨ main s = goes_on { s with main := s.main + 1 } [] := by
  have few := inv.main_of_deadLocked dead
  obtain here | here | here | here | here :
      s.main = 0 ∨ s.main = 1 ∨ s.main = 2 ∨ s.main = 3 ∨ s.main = 4 := by omega
  · exact .inr (by simp [main, here, main_fun])
  · exact .inr (by simp [main, here, main_fun])
  · exact .inr (by simp [main, here, main_fun])
  · exact .inr (by simp [main, here, main_fun])
  · have at_join : main_fun[s.main]? = some (.join (.worker .A)) := by rw [here]; rfl
    refine .inl (main_waits at_join fun ended => ?_)
    have place : s.pc .A = 10 := ended
    have := dead .A
    omega

/-- A turn in a deadlock. -/
structure Held (turn : Turn) (s : State) (r : Response) : Prop where
  stopped : r.stopped = false
  pc : ∀ p, r.state.pc p = s.pc p ∨ s.pc p < 3 ∧ r.state.pc p = s.pc p + 1
  count : r.state.count = s.count
  main : s.main ≤ r.state.main
  beside : turn ≠ .thread .detect_count → s.counter ≠ .prompt →
    r.output = [] ∧ r.state.counter = s.counter

theorem held_same (turn : Turn) {r : Response} (taken : goes_on s [] = some r) :
    Held turn s r := by
  obtain rfl := Option.some.inj taken
  exact ⟨rfl, fun _ => .inl rfl, rfl, Nat.le_refl _, fun _ _ => ⟨rfl, rfl⟩⟩

/-- Neither thread gets the mutex of the other, and nobody else gets one. -/
theorem Inv.turn_deadLocked (inv : Inv n s) (dead : s.DeadLocked) {turn : Turn} {r : Response}
    (taken : step turn s = some r) : Held turn s r := by
  cases turn with
  | cancelled =>
      have few := inv.main_of_deadLocked dead
      have not_did : ¬ s.did (.cancel .detect_count) := by
        rw [State.did_iff (n := 6) rfl]
        omega
      rw [step, if_neg not_did] at taken
      exact held_same _ taken
  | input index =>
      rw [step] at taken
      by_cases prompt : s.counter = .prompt
      · rw [if_pos prompt] at taken
        by_cases inside : 0 ≤ index ∧ index < list.length
        · rw [inv.handle_dead_lock_none inside.1 inside.2] at taken
          cases taken
        · rw [handle_dead_lock, if_neg inside] at taken
          obtain rfl := Option.some.inj taken
          exact ⟨rfl, fun _ => .inl rfl, rfl, Nat.le_refl _, fun _ absent => absurd prompt absent⟩
      · rw [if_neg prompt] at taken
        exact held_same _ taken
  | thread t =>
      cases t with
      | main =>
          obtain waits | next := inv.main_turn_deadLocked dead
          · exact held_same _ (waits.symm.trans taken)
          · obtain rfl := Option.some.inj (next.symm.trans taken)
            exact ⟨rfl, fun _ => .inl rfl, rfl, Nat.le_succ _, fun _ _ => ⟨rfl, rfl⟩⟩
      | worker p =>
          rw [step] at taken
          split at taken
          next =>
            by_cases at_three : s.pc p = 3
            · have held : s.Holds (.worker p.other) p.other :=
                between_own.mpr (by have := dead p.other; omega)
              have other : Thread.worker p.other ≠ .worker p := fun same =>
                p.other_ne (Thread.worker.inj same)
              have at_pc : p.thread_fun[s.pc p]? = some (.mutex_lock p.other) := by
                rw [p.thread_fun_eq, at_three]
                rfl
              rw [inv.waits at_pc held other (by omega)] at taken
              exact held_same _ taken
            · obtain waits | ⟨s', done, -, advanced⟩ := inv.worker_turn p
              · exact held_same _ (waits.symm.trans taken)
              · obtain rfl := Option.some.inj (done.symm.trans taken)
                refine ⟨rfl, fun q => ?_, advanced.count, advanced.main.ge,
                  fun _ _ => ⟨rfl, advanced.counter⟩⟩
                have place := dead p
                show s'.pc q = _ ∨ _ ∧ s'.pc q = _
                rw [advanced.pc]
                obtain rfl | rfl := p.eq_or_other q
                · rw [Function.update_self]
                  omega
                · rw [Function.update_of_ne p.other_ne]
                  exact .inl rfl
          next => exact held_same _ taken
      | detect_count =>
          rw [step] at taken
          split at taken
          next =>
            unfold loop_detect_count_thread at taken
            split at taken
            next =>
              obtain rfl := Option.some.inj taken
              exact ⟨rfl, fun _ => .inl rfl, rfl, Nat.le_refl _, fun other => absurd rfl other⟩
            next =>
              split at taken
              next =>
                obtain rfl := Option.some.inj taken
                exact ⟨rfl, fun _ => .inl rfl, rfl, Nat.le_refl _, fun other => absurd rfl other⟩
              next =>
                obtain rfl := Option.some.inj taken
                exact ⟨rfl, fun _ => .inl rfl, rfl, Nat.le_refl _, fun other => absurd rfl other⟩
            next => exact held_same _ taken
            next => exact held_same _ taken
          next => exact held_same _ taken
      | detect_deadlock =>
          rw [step] at taken
          split at taken
          next =>
            obtain ⟨undefined, -⟩ | ⟨s', done, -, same, count⟩ := inv.detect_turn
            · rw [taken] at undefined
              cases undefined
            · obtain rfl := Option.some.inj (done.symm.trans taken)
              have idle : s.detect ≠ .count := by
                intro here
                obtain ⟨p, at_i⟩ := inv.exists_index
                have held : s.Holds .detect_deadlock p := ⟨at_i, .inl here⟩
                have own : s.Holds (.worker p) p := between_own.mpr (by have := dead p; omega)
                cases inv.owned.exclusive held own
              exact ⟨rfl, fun p => .inl (congrFun same.pc p), count idle, same.main.ge,
                fun _ _ => ⟨rfl, same.counter⟩⟩
          next => exact held_same _ taken

theorem Held.dead {turn : Turn} {r : Response} (held : Held turn s r) (dead : s.DeadLocked) :
    r.state.DeadLocked := by
  intro p
  have before := dead p
  have after := held.pc p
  omega

/-- The threads stay in a deadlock. -/
theorem run_deadLocked {turns : List Turn} {r : Response} (inv : Inv n s) (dead : s.DeadLocked)
    (ran : Reactive.run step turns s = some r) : r.stopped = false := by
  have kept : Reactive.Keeps (fun s => Inv (n + turns.length) s ∧ s.DeadLocked) (fun _ => True)
      (fun _ => False) r := by
    refine Reactive.run_keeps (fun n s => Inv n s ∧ s.DeadLocked) ?_ ⟨inv, dead⟩ ran
    rintro turn n s r ⟨inv, dead⟩ taken
    have held := inv.turn_deadLocked dead taken
    have next := ((inv.step_keeps taken).on held.stopped).1
    refine ⟨fun _ => ⟨⟨next, held.dead dead⟩, fun _ _ => trivial⟩, fun stopped => ?_⟩
    rw [held.stopped] at stopped
    cases stopped
  by_contra stopped
  obtain ⟨-, -, -, -, absurdity⟩ := kept.ends (Bool.not_eq_false _ ▸ stopped)
  exact absurdity

end DeadLock

section Telling

variable {s : State} {n : Nat}

/-- Each thread waits for the mutex of the other. -/
def State.Stuck (s : State) : Prop := ∀ p, s.pc p = 3

theorem State.Stuck.dead (stuck : s.Stuck) : s.DeadLocked := fun p => by
  have := stuck p
  omega

theorem Held.stuck {turn : Turn} {r : Response} (held : Held turn s r) (stuck : s.Stuck) :
    r.state.Stuck := by
  intro p
  have before := stuck p
  have after := held.pc p
  omega

theorem Inv.found_locked (inv : Inv n s) (stuck : s.Stuck) :
    found_locked s = [(0, 139), (1, 165)] := by
  have noted (p : Player) := inv.noted p (by rw [stuck p]; decide) (by rw [stuck p]; decide)
  obtain ⟨locked_A, line_A⟩ := noted .A
  obtain ⟨locked_B, line_B⟩ := noted .B
  simp [Pthread.found_locked, list, locked_A, locked_B, line_A, line_B, Player.lines]

/-- How many turns of the count thread there are until it tells that the count stands still. -/
def Counter.left (count : Int) : Counter → Nat
  | .read => 2
  | .compare temp => if temp = count then 1 else 3
  | .prompt | .ended => 0

theorem Counter.left_le (count : Int) (counter : Counter) : counter.left count ≤ 3 := by
  cases counter with
  | compare temp =>
      rw [Counter.left]
      split <;> decide
  | read => exact Nat.le_succ 2
  | prompt | ended => exact Nat.zero_le 3

/-- Counting, not asking, and not cancelled. -/
def Counter.Counts (counter : Counter) : Prop := counter ≠ .prompt ∧ counter ≠ .ended

/-- A turn of the count thread gets nearer to telling the deadlock, or tells it. -/
theorem count_turn_tells (counts : s.counter.Counts) {r : Response}
    (taken : loop_detect_count_thread s = some r) :
    r.output = [.dead_lock (found_locked s), .please_input] ∨
      r.output = [] ∧ r.state.counter.Counts ∧
        r.state.counter.left s.count < s.counter.left s.count := by
  unfold loop_detect_count_thread at taken
  split at taken
  next here =>
    obtain rfl := Option.some.inj taken
    exact .inr ⟨rfl, ⟨Counter.noConfusion, Counter.noConfusion⟩, by simp [here, Counter.left]⟩
  next temp here =>
    split at taken
    next =>
      obtain rfl := Option.some.inj taken
      exact .inl rfl
    next moved =>
      obtain rfl := Option.some.inj taken
      exact .inr ⟨rfl, ⟨Counter.noConfusion, Counter.noConfusion⟩,
        by simp [here, Counter.left, moved]⟩
  next here => exact absurd here counts.1
  next here => exact absurd here counts.2

theorem Counter.Counts.left_pos {counter : Counter} (counts : counter.Counts) (count : Int) :
    0 < counter.left count := by
  cases counter with
  | compare temp =>
      rw [Counter.left]
      split <;> decide
  | read => exact Nat.zero_lt_two
  | prompt => exact absurd rfl counts.1
  | ended => exact absurd rfl counts.2

theorem Inv.run_tells (inv : Inv n s) (stuck : s.Stuck) (created : s.did (.create .detect_count))
    (counts : s.counter.Counts) {turns : List Turn} {r : Response}
    (ran : Reactive.run step turns s = some r)
    (enough : s.counter.left s.count ≤ turns.count (.thread .detect_count)) :
    ∃ rest, r.output = .dead_lock [(0, 139), (1, 165)] :: rest := by
  induction turns generalizing n s r with
  | nil => exact absurd (counts.left_pos s.count) (Nat.not_lt.mpr enough)
  | cons turn turns ih =>
      obtain ⟨first, taken, ended⟩ := Reactive.run_cons ran
      have held := inv.turn_deadLocked stuck.dead taken
      obtain ⟨stopped, -⟩ | ⟨-, rest, more, rfl⟩ := ended
      · rw [held.stopped] at stopped
        cases stopped
      · have inv' := ((inv.step_keeps taken).on held.stopped).1
        have created' : first.state.did (.create .detect_count) := by
          rw [State.did_iff (n := 3) rfl] at created ⊢
          exact created.trans_le held.main
        by_cases its : turn = .thread .detect_count
        · subst its
          rw [step, if_pos created] at taken
          rw [List.count_cons_self] at enough
          obtain told | ⟨silent, counts', nearer⟩ := count_turn_tells counts taken
          · refine ⟨.please_input :: rest.output, ?_⟩
            rw [told, inv.found_locked stuck]
            rfl
          · obtain ⟨later, output⟩ := ih inv' (held.stuck stuck) created' counts' more
              (by rw [held.count]; omega)
            exact ⟨later, by rw [silent, List.nil_append, output]⟩
        · obtain ⟨silent, same⟩ := held.beside its counts.1
          rw [List.count_cons_of_ne its] at enough
          obtain ⟨later, output⟩ := ih inv' (held.stuck stuck) created' (same ▸ counts) more
            (by rw [same, held.count]; exact enough)
          exact ⟨later, by rw [silent, List.nil_append, output]⟩

end Telling

/-- Three turns after both threads wait, the count thread tells the deadlock, with the line where
each of them has locked its own mutex. -/
theorem dead_lock_told (turns more : List Turn) {r r' : Response}
    (ran : Reactive.run step turns .start = some r) (going : r.stopped = false)
    (stuck : r.state.Stuck) (created : r.state.did (.create .detect_count))
    (no_prompt : r.state.counter ≠ .prompt) (ran' : Reactive.run step more r.state = some r')
    (enough : 3 ≤ more.count (.thread .detect_count)) :
    ∃ rest, r'.output = .dead_lock [(0, 139), (1, 165)] :: rest := by
  have inv := run_inv ran going
  have counts : r.state.counter.Counts := by
    refine ⟨no_prompt, fun ended => ?_⟩
    have few := inv.main_of_deadLocked stuck.dead
    have cancelled := (State.did_iff (n := 6) rfl).mp (inv.counting ended)
    omega
  exact inv.run_tells stuck created counts ran'
    ((Counter.left_le r.state.count r.state.counter).trans enough)

theorem dead_lock_told_crossing : ∃ r r', Reactive.run step crossing .start = some r ∧
    Reactive.run step (turns_of .detect_count 3) r.state = some r' ∧
    ∃ rest, r'.output = .dead_lock [(0, 139), (1, 165)] :: rest := by
  refine ⟨_, _, rfl, rfl, dead_lock_told crossing (turns_of .detect_count 3) rfl rfl (fun p => ?_)
    (by decide) (by decide) rfl (by decide)⟩
  cases p
  · rfl
  · rfl

end CFunc.Pthread
