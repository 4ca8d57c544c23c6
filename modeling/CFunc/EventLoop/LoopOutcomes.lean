import CFunc.EventLoop.LoopRuns
import Mathlib.Algebra.Ring.Nat

/-!
What a program can rely on when it runs the event loop.

A run has a meaning as long as the descriptors given have places in an `fd_set`
and the ids of callbacks stay within `int`. Between two calls of `select` the
handlers come before the callbacks, no more of them than descriptors were
watched. A descriptor found ready has its handler called, unless it is deleted
or the loop stops before its turn.
-/

namespace CFunc.EventLoop

open CFunc.Lib

variable {F P D : Type}

/-! ### Runs that have a meaning -/

/-- A descriptor to watch has a place in an `fd_set`. -/
def Request.Fits : Request F P D → Prop
  | .add_file_handler fd _ _ => 0 ≤ fd ∧ fd < FD_SETSIZE
  | _ => True

def Request.appends : Request F P D → Nat
  | .append_callback_event _ _ => 1
  | _ => 0

def Answer.Fits (a : Answer F P D) : Prop := ∀ r ∈ a.requests, r.Fits

/-- The number of callbacks appended in a round, if it calls a handler or a callback. -/
def Answer.appends (a : Answer F P D) : Nat := (a.requests.map Request.appends).sum

def Session.Fits (x : Session F P D) : Prop := x.setup.Fits ∧ ∀ a ∈ x.answers, a.Fits

def Session.appends (x : Session F P D) : Nat :=
  x.setup.appends + (x.answers.map Answer.appends).sum

namespace Watching

/-- There is room for so many callbacks more. -/
def Room (n : Nat) (t : Watching F P D) : Prop :=
  t.Sane ∧ ((t.callbacks.num_callbacks + n : Nat) : Int) ≤ INT_MAX

theorem Room.le {n k : Nat} {t : Watching F P D} (room : Room n t) (le : k ≤ n) : Room k t :=
  ⟨room.1, by have := room.2; omega⟩

theorem request_count {t t' : Watching F P D} {r : Request F P D}
    (requested : t.request r = some t') :
    t'.callbacks.num_callbacks = t.callbacks.num_callbacks + r.appends := by
  cases r with
  | add_file_handler fd proc client_data =>
      rw [request] at requested
      split_ifs at requested <;> (obtain rfl := Option.some.inj requested; rfl)
  | delete_file_handler fd =>
      obtain rfl := Option.some.inj requested
      rfl
  | append_callback_event proc data =>
      rw [request] at requested
      split_ifs at requested
      obtain rfl := Option.some.inj requested
      rfl
  | delete_callback_event id =>
      obtain rfl := Option.some.inj requested
      exact t.callbacks.delete_count id

theorem exists_request {n : Nat} {t : Watching F P D} {r : Request F P D} (fits : r.Fits)
    (room : Room (r.appends + n) t) : ∃ t', t.request r = some t' ∧ Room n t' := by
  have some_t' : ∃ t', t.request r = some t' := by
    cases r with
    | add_file_handler fd proc client_data =>
        rw [request]
        split_ifs with known inside
        · exact ⟨_, rfl⟩
        · exact ⟨_, rfl⟩
        · exact absurd fits inside
    | delete_file_handler fd => exact ⟨_, rfl⟩
    | append_callback_event proc data =>
        have fits : (t.callbacks.num_callbacks : Int) < INT_MAX := by
          have := room.2
          rw [Request.appends] at this
          omega
        rw [request, if_pos fits]
        exact ⟨_, rfl⟩
    | delete_callback_event id => exact ⟨_, rfl⟩
  obtain ⟨t', requested⟩ := some_t'
  refine ⟨t', requested, request_sane room.1 requested, ?_⟩
  rw [request_count requested, Nat.add_assoc]
  exact room.2

theorem exists_requests {n : Nat} {l : List (Request F P D)} (fits : ∀ r ∈ l, r.Fits)
    {t : Watching F P D} (room : Room ((l.map Request.appends).sum + n) t) :
    ∃ t', l.foldlM request t = some t' ∧ Room n t' := by
  induction l generalizing t with
  | nil => exact ⟨t, rfl, by simpa using room⟩
  | cons r l ih =>
      rw [List.map_cons, List.sum_cons, Nat.add_assoc] at room
      obtain ⟨t₁, first, room⟩ := exists_request (fits r List.mem_cons_self) room
      obtain ⟨t', rest, room⟩ := ih (fun r member => fits r (List.mem_cons_of_mem _ member)) room
      exact ⟨t', by rw [List.foldlM_cons, first]; exact rest, room⟩

theorem exists_round {n : Nat} {a : Answer F P D} (fits : a.Fits) {t : Watching F P D}
    (room : Room (a.appends + n) t) : ∃ r, round a t = some r ∧ Room n r.state := by
  cases found : t.found with
  | nil =>
      cases due : t.callbacks.events with
      | nil =>
          refine ⟨wait a t, by rw [round, found, due]; rfl, wait_sane room.1 a, ?_⟩
          have same : (wait a t).state.callbacks = t.callbacks := by
            rw [wait]
            split_ifs <;> rfl
          rw [same]
          exact (room.le (Nat.le_add_left _ _)).2
      | cons e rest =>
          obtain ⟨id, proc, data⟩ := e
          have next : Room (a.appends + n) { t with callbacks := t.callbacks.next } :=
            ⟨⟨room.1.distinct, room.1.inside, room.1.found⟩, room.2⟩
          obtain ⟨t', requested, room'⟩ := exists_requests fits next
          rw [found] at requested
          exact ⟨_, by rw [round, found, due]; simp only [requested]; rfl, room'⟩
  | cons x rest =>
      have tail : Room (a.appends + n) { t with found := rest } :=
        ⟨⟨room.1.distinct, room.1.inside, fun fd error member =>
          room.1.found fd error (found ▸ List.mem_cons_of_mem x member)⟩, room.2⟩
      cases x with
      | none => exact ⟨_, by rw [round, found]; rfl, tail.le (Nat.le_add_left _ _)⟩
      | some pending =>
          obtain ⟨fd, error⟩ := pending
          have known := room.1.found fd error (found ▸ List.mem_cons_self)
          obtain ⟨w, search⟩ := Option.ne_none_iff_exists'.mp fun none_found =>
            Keyed.find_eq_none.mp none_found known
          obtain ⟨t', requested, room'⟩ := exists_requests fits tail
          exact ⟨_, by rw [round, found]; simp only [search, requested]; rfl, room'⟩

theorem exists_loop {n : Nat} {answers : List (Answer F P D)} (fits : ∀ a ∈ answers, a.Fits)
    {t : Watching F P D} (room : Room ((answers.map Answer.appends).sum + n) t) :
    ∃ r, Reactive.run round answers t = some r ∧ Room n r.state := by
  obtain ⟨r, ran, -, room⟩ := Reactive.exists_run
    (fun (answers : List (Answer F P D)) t =>
      (∀ a ∈ answers, a.Fits) ∧ Room ((answers.map Answer.appends).sum + n) t)
    (fun a answers t ⟨fits, room⟩ => by
      rw [List.map_cons, List.sum_cons, Nat.add_assoc] at room
      obtain ⟨r, taken, room⟩ := exists_round (fits a List.mem_cons_self) room
      exact ⟨r, taken, fun b member => fits b (List.mem_cons_of_mem a member), room⟩)
    (fun a answers t ⟨fits, room⟩ => by
      rw [List.map_cons, List.sum_cons, Nat.add_assoc] at room
      exact ⟨fun b member => fits b (List.mem_cons_of_mem a member),
        room.le (Nat.le_add_left _ _)⟩)
    ⟨fits, room⟩
  exact ⟨r, ran, by simpa using room⟩

theorem exists_session {n : Nat} {x : Session F P D} (fits : x.Fits) {t : Watching F P D}
    (room : Room (x.appends + n) t) : ∃ r, session x t = some r ∧ Room n r.state := by
  rw [Session.appends, Nat.add_assoc] at room
  obtain ⟨t₁, requested, room⟩ := exists_requests fits.1 room
  obtain ⟨r, ran, room⟩ := exists_loop fits.2 room
  refine ⟨{ r with stopped := !r.stopped }, ?_, room⟩
  rw [session, requested]
  simp only [Option.bind_eq_bind, Option.bind_some, ran]
  rfl

theorem exists_sessions {sessions : List (Session F P D)} (fits : ∀ x ∈ sessions, x.Fits)
    (room : (((sessions.map Session.appends).sum : Nat) : Int) ≤ INT_MAX) :
    ∃ r, Reactive.run session sessions (start F P D) = some r := by
  have start : Room ((sessions.map Session.appends).sum) (start F P D) :=
    ⟨start_sane, by simpa [Watching.start, Pending.start] using room⟩
  obtain ⟨r, ran, -⟩ := Reactive.exists_run
    (fun (sessions : List (Session F P D)) t =>
      (∀ x ∈ sessions, x.Fits) ∧ Room ((sessions.map Session.appends).sum) t)
    (fun x sessions t ⟨fits, room⟩ => by
      obtain ⟨r, taken, room⟩ := exists_session (fits x List.mem_cons_self) room
      exact ⟨r, taken, fun y member => fits y (List.mem_cons_of_mem x member), room⟩)
    (fun x sessions t ⟨fits, room⟩ =>
      ⟨fun y member => fits y (List.mem_cons_of_mem x member), room.le (Nat.le_add_left _ _)⟩)
    ⟨fits, start⟩
  exact ⟨r, ran⟩

end Watching

/-- A program that watches descriptors with places in an `fd_set` only, and appends no more
callbacks than `int` has ids for, never runs into a use of a freed callback event or queue element,
an access out of a set or an overflow. -/
theorem event_loop_safe (sessions : List (Session F P D)) (fits : ∀ x ∈ sessions, x.Fits)
    (room : (((sessions.map Session.appends).sum : Nat) : Int) ≤ INT_MAX) :
    ∃ r, Reactive.run session sessions (State.start F P D) = some r := by
  obtain ⟨r', ran⟩ := Watching.exists_sessions fits room
  obtain ⟨r, shown, -⟩ := run_of_watching ran
  exact ⟨r, shown⟩

/-- An answer in which the given descriptors are readable. -/
noncomputable def answer (requests : List (Request Unit Unit D)) (fds : List Int) :
    Answer Unit Unit D :=
  { requests := requests
    returns := 0
    ready := some { readable := members_of fds, writable := FD_ZERO, exception := FD_ZERO }
    remote_event := Malloc.lowest _
    callback_event := Malloc.lowest _ }

/-- A callback is due before descriptor 3 is waited for, and its handler appends another. -/
noncomputable def serial : Session Unit Unit Unit :=
  { setup := answer [.add_file_handler 3 () (), .append_callback_event () ()] []
    answers := [answer [] [], answer [] [3], answer [.append_callback_event () ()] [],
      answer [] []] }

theorem event_loop_safe_serial :
    ∃ r, Reactive.run session [serial] (State.start Unit Unit Unit) = some r := by
  refine event_loop_safe [serial] ?_ ?_
  · simp [serial, answer, Session.Fits, Answer.Fits, Request.Fits, FD_SETSIZE]
  · simp [serial, answer, Session.appends, Answer.appends, Request.appends, INT_MAX]

/-! ### Handlers before callbacks -/

/-- The number of handlers that may still be called before the next `select`. -/
def Output.allowed (n : Nat) : Output F P D → Option Nat
  | .handler _ _ _ => if 0 < n then some (n - 1) else none
  | .callback _ _ => some 0
  | .select _ masks => some (members masks.readable)

namespace Watching

/-- No more handlers are to be called than are allowed. -/
def Allowed (n : Nat) (t : Watching F P D) : Prop := t.Sane ∧ t.found.length ≤ n

theorem requests_allowed {n : Nat} {t t' : Watching F P D} (allowed : Allowed n t)
    {l : List (Request F P D)} (ran : l.foldlM request t = some t') : Allowed n t' := by
  refine ⟨requests_sane allowed.1 ran, ?_⟩
  refine requests_inv (fun t => t.found.length ≤ n) ?_ allowed.2 ran
  intro r _ t t' le requested
  cases r with
  | add_file_handler fd proc client_data =>
      rw [request] at requested
      split_ifs at requested <;> (obtain rfl := Option.some.inj requested; exact le)
  | delete_file_handler fd =>
      obtain rfl := Option.some.inj requested
      simpa using le
  | append_callback_event proc data =>
      rw [request] at requested
      split_ifs at requested
      obtain rfl := Option.some.inj requested
      exact le
  | delete_callback_event id =>
      obtain rfl := Option.some.inj requested
      exact le

theorem wait_allowed {n : Nat} {t : Watching F P D} (allowed : Allowed n t) (a : Answer F P D) :
    ∃ n', (wait a t).output.foldlM Output.allowed n = some n' ∧ Allowed n' (wait a t).state := by
  have sane := wait_sane allowed.1 a
  rw [wait] at sane ⊢
  split_ifs at sane ⊢
  · exact ⟨n, rfl, allowed⟩
  · refine ⟨_, rfl, sane, ?_⟩
    have fewer : (find_all a.ready t.watched).length ≤ (t.watched.map Watch.fd).length := by
      rw [List.length_map]
      cases a.ready with
      | none => exact Nat.zero_le _
      | some ready => exact List.length_filterMap_le _ _
    refine fewer.trans (length_le_countP allowed.1.distinct allowed.1.inside fun fd member => ?_)
    exact (members_of_iff (allowed.1.inside fd member).1).mpr member

theorem round_allowed (a : Answer F P D) (n : Nat) (t : Watching F P D)
    (r : Reactive.Response (Watching F P D) (Output F P D)) (allowed : Allowed n t)
    (taken : round a t = some r) :
    ∃ n', r.output.foldlM Output.allowed n = some n' ∧ Allowed n' r.state := by
  have sane := round_sane allowed.1 taken
  cases round_cases taken with
  | pass first =>
      refine ⟨n, rfl, sane, ?_⟩
      have := allowed.2
      rw [first, List.length_cons] at this
      exact Nat.le_of_succ_le this
  | @handler fd error found w t' first search requested =>
      have some_left := allowed.2
      rw [first, List.length_cons] at some_left
      refine ⟨n - 1, ?_, ?_⟩
      · have more : 0 < n := by omega
        simp [Output.allowed, more]
      · have tail : Allowed (n - 1) { t with found := found } :=
          ⟨⟨allowed.1.distinct, allowed.1.inside, fun fd' error' member =>
            allowed.1.found fd' error' (first ▸ List.mem_cons_of_mem _ member)⟩, by
              change found.length ≤ n - 1
              omega⟩
        exact requests_allowed tail requested
  | callback none_found due requested =>
      refine ⟨0, rfl, ?_⟩
      have none_left : Allowed 0 { t with callbacks := t.callbacks.next } :=
        ⟨⟨allowed.1.distinct, allowed.1.inside, allowed.1.found⟩, by simp [none_found]⟩
      exact requests_allowed none_left requested
  | wait none_found none_due => exact wait_allowed allowed a

theorem session_allowed (x : Session F P D) (n : Nat) (t : Watching F P D)
    (r : Reactive.Response (Watching F P D) (Output F P D)) (allowed : Allowed n t)
    (taken : session x t = some r) :
    ∃ n', r.output.foldlM Output.allowed n = some n' ∧ Allowed n' r.state := by
  obtain ⟨t₁, requested, taken⟩ := Option.bind_eq_some_iff.mp taken
  obtain ⟨r', ran, ⟨⟩⟩ := Option.bind_eq_some_iff.mp taken
  have followed :=
    Reactive.run_monitored Allowed round_allowed (requests_allowed allowed requested) ran
  exact followed

end Watching

/-- In every run, between one `select` and the next, handlers are called before any callback is,
and no more of them than descriptors were watched. -/
theorem handlers_before_callbacks (sessions : List (Session F P D))
    {r : Reactive.Response (State F P D) (Output F P D)}
    (ran : Reactive.run session sessions (State.start F P D) = some r) :
    (r.output.foldlM Output.allowed 0).isSome = true := by
  obtain ⟨r', shown, agree⟩ := watching_of_run ran
  have start : Watching.Allowed 0 (Watching.start F P D) := ⟨Watching.start_sane, le_rfl⟩
  obtain ⟨n, followed, -⟩ :=
    Reactive.run_monitored Watching.Allowed Watching.session_allowed start shown
  rw [agree.output, followed]
  rfl

theorem handlers_before_callbacks_serial :
    ∃ r, Reactive.run session [serial] (State.start Unit Unit Unit) = some r ∧
      r.output.length = 4 ∧ (r.output.foldlM Output.allowed 0).isSome = true := by
  have four : (Reactive.run Watching.session [serial] (Watching.start Unit Unit Unit)).map
      (fun r => r.output.length) = some 4 := by
    simp [Reactive.run, Watching.session, serial, answer, Watching.request, Watching.start,
      FD_SETSIZE, Pending.append, Pending.start, Pending.newest, INT_MAX, Watching.round,
      Watching.wait, Pending.next, Watching.find_all, Watching.find_ready, members_of, Keyed.find,
      FD_ZERO]
  obtain ⟨r', ran, four⟩ := Option.map_eq_some_iff.mp four
  obtain ⟨r, shown, agree⟩ := run_of_watching ran
  exact ⟨r, shown, agree.output ▸ four, handlers_before_callbacks [serial] shown⟩

end CFunc.EventLoop
