import CFunc.EventLoop.LoopOutcomes

/-!
No event is lost.

A descriptor found ready stands in the queue until its turn comes. Each round
brings its turn nearer, and nothing but a request that names the descriptor
takes it out of the queue or changes its handler.
-/

namespace CFunc.EventLoop

open CFunc.Lib

variable {F P D : Type}

/-- The request is about the descriptor. -/
def Request.Names (fd : Int) : Request F P D → Prop
  | .add_file_handler fd' _ _ => fd' = fd
  | .delete_file_handler fd' => fd' = fd
  | _ => False

/-- The handler called leaves the descriptor alone and lets the loop go on. -/
def Answer.Leaves (fd : Int) (a : Answer F P D) : Prop :=
  0 ≤ a.returns ∧ ∀ r ∈ a.requests, ¬ r.Names fd

namespace Watching

/-- The descriptor is watched and its turn is to come, among so many. -/
structure Turn (fd error : Int) (w : Watch F D) (n : Nat) (t : Watching F P D) : Prop where
  sane : t.Sane
  found : some (fd, error) ∈ t.found
  watched : Keyed.find Watch.fd fd t.watched = some w
  length : t.found.length ≤ n

theorem request_turn {fd error : Int} {w : Watch F D} {n : Nat} {t t' : Watching F P D}
    (turn : Turn fd error w n t) {r : Request F P D} (other : ¬ r.Names fd)
    (requested : t.request r = some t') : Turn fd error w n t' := by
  have sane := request_sane turn.sane requested
  cases r with
  | add_file_handler fd' proc client_data =>
      have ne : ¬ fd' = fd := other
      rw [request] at requested
      split_ifs at requested
      · obtain rfl := Option.some.inj requested
        refine ⟨sane, turn.found, ?_, turn.length⟩
        rw [Keyed.find_change, if_neg (Ne.symm ne), turn.watched]
        exact fun _ => rfl
      · obtain rfl := Option.some.inj requested
        refine ⟨sane, turn.found, ?_, turn.length⟩
        exact (List.find?_cons_of_neg (by simpa using ne)).trans turn.watched
  | delete_file_handler fd' =>
      have ne : ¬ fd = fd' := fun same => other same.symm
      obtain rfl := Option.some.inj requested
      refine ⟨sane, mem_cancel.mpr ⟨turn.found, ne⟩, ?_, by simpa using turn.length⟩
      change Keyed.find Watch.fd fd (t.watched.filter fun w => w.fd ≠ fd') = some w
      rw [← Keyed.remove_eq_filter turn.sane.distinct, Keyed.find_remove turn.sane.distinct,
        if_neg ne, turn.watched]
  | append_callback_event proc data =>
      rw [request] at requested
      split_ifs at requested
      obtain rfl := Option.some.inj requested
      exact ⟨sane, turn.found, turn.watched, turn.length⟩
  | delete_callback_event id =>
      obtain rfl := Option.some.inj requested
      exact ⟨sane, turn.found, turn.watched, turn.length⟩

theorem requests_turn {fd error : Int} {w : Watch F D} {n : Nat} {t t' : Watching F P D}
    (turn : Turn fd error w n t) {l : List (Request F P D)} (others : ∀ r ∈ l, ¬ r.Names fd)
    (ran : l.foldlM request t = some t') : Turn fd error w n t' :=
  requests_inv _ (fun r member _ _ turn requested => request_turn turn (others r member) requested)
    turn ran

/-- The turn comes in this round, or it is one nearer. -/
theorem round_turn {fd error : Int} {w : Watch F D} {n : Nat} {t : Watching F P D}
    (turn : Turn fd error w (n + 1) t) {a : Answer F P D} (leaves : a.Leaves fd)
    {r : Reactive.Response (Watching F P D) (Output F P D)} (taken : round a t = some r) :
    .handler w.proc error w.client_data ∈ r.output ∨
      r.stopped = false ∧ Turn fd error w n r.state := by
  have tail {x : Option (Int × Int)} {found : List (Option (Int × Int))}
      (first : t.found = x :: found) (later : some (fd, error) ∈ found) :
      Turn fd error w n { t with found := found } :=
    ⟨⟨turn.sane.distinct, turn.sane.inside, fun fd' error' member =>
      turn.sane.found fd' error' (first ▸ List.mem_cons_of_mem x member)⟩, later, turn.watched, by
        have := turn.length
        rw [first, List.length_cons] at this
        exact Nat.le_of_succ_le_succ this⟩
  have here := turn.found
  cases round_cases taken with
  | pass first =>
      rw [first] at here
      exact .inr ⟨rfl, tail first ((List.mem_cons.mp here).resolve_left (by simp))⟩
  | handler first search requested =>
      rw [first] at here
      rcases List.mem_cons.mp here with now | later
      · obtain ⟨rfl, rfl⟩ := Prod.mk.inj (Option.some.inj now)
        obtain rfl := Option.some.inj (turn.watched.symm.trans search)
        exact .inl List.mem_cons_self
      · refine .inr ⟨?_, requests_turn (tail first later) leaves.2 requested⟩
        exact decide_eq_false (not_lt.mpr leaves.1)
  | callback none_found due requested =>
      rw [none_found] at here
      exact absurd here List.not_mem_nil
  | wait none_found none_due =>
      rw [none_found] at here
      exact absurd here List.not_mem_nil

theorem run_turn {fd error : Int} {w : Watch F D} {answers : List (Answer F P D)}
    (leave : ∀ a ∈ answers, a.Leaves fd) {t : Watching F P D}
    (turn : Turn fd error w answers.length t)
    {r : Reactive.Response (Watching F P D) (Output F P D)}
    (ran : Reactive.run round answers t = some r) :
    .handler w.proc error w.client_data ∈ r.output := by
  induction answers generalizing t r with
  | nil =>
      have none_left : t.found = [] := List.length_eq_zero_iff.mp (Nat.le_zero.mp turn.length)
      exact absurd (none_left ▸ turn.found) List.not_mem_nil
  | cons a answers ih =>
      obtain ⟨first, taken, ended⟩ := Reactive.run_cons ran
      rcases round_turn turn (leave a List.mem_cons_self) taken with now | ⟨goes_on, nearer⟩
      · rcases ended with ⟨-, rfl⟩ | ⟨-, rest, -, rfl⟩
        · exact now
        · exact List.mem_append_left _ now
      · rcases ended with ⟨stopped, -⟩ | ⟨-, rest, more, rfl⟩
        · rw [goes_on] at stopped
          cases stopped
        · exact List.mem_append_right _
            (ih (fun b member => leave b (List.mem_cons_of_mem a member)) nearer more)

/-- A descriptor that is found is to have its turn. -/
theorem wait_turn {t : Watching F P D} (sane : t.Sane) {w : Watch F D} (listed : w ∈ t.watched)
    {a : Answer F P D} {ready : Masks} (ready_eq : a.ready = some ready)
    (found : ready.readable w.fd.toNat = true ∨ ready.exception w.fd.toNat = true) {n : Nat}
    (le : t.watched.length ≤ n) :
    Turn w.fd (if ready.exception w.fd.toNat then 1 else 0) w n (wait a t).state := by
  have kept := wait_sane sane a
  rw [wait] at kept ⊢
  rw [if_neg (List.ne_nil_of_mem listed)] at kept ⊢
  refine ⟨kept, ?_, Keyed.find_of_mem sane.distinct listed, ?_⟩
  · rw [ready_eq]
    refine List.mem_filterMap.mpr ⟨w, listed, ?_⟩
    rw [find_ready, if_pos (Bool.or_eq_true_iff.mpr found)]
  · rw [ready_eq]
    exact (List.length_filterMap_le _ _).trans le

end Watching

/-- What is shown is sane. -/
theorem Shows.sane {s : State F P D} {t : Watching F P D} (shown : Shows s t) : t.Sane := by
  have fds : t.watched.map Watch.fd = s.remote_notifier.first_file_handler.map FileHandler.fd := by
    rw [← shown.watched, watch_fds]
  refine ⟨fds ▸ shown.kept.distinct, fds ▸ shown.kept.inside, fun fd error member => ?_⟩
  obtain ⟨l, -, queued⟩ := shown.queue
  rw [← queued.found] at member
  obtain ⟨d, -, found⟩ := List.mem_map.mp member
  exact fds ▸ mem_of_finding found

/-- When `select` finds a descriptor that has a handler, the handler is called within as many
rounds as there are handlers, with the error that was found, unless a handler names the
descriptor or ends the loop before; no callback is run before that. -/
theorem ready_handler_called {sessions : List (Session F P D)}
    {r₀ r₁ r : Reactive.Response (State F P D) (Output F P D)}
    (reached : Reactive.run session sessions (State.start F P D) = some r₀)
    {h : FileHandler F D} (watched : h ∈ r₀.state.remote_notifier.first_file_handler)
    {a : Answer F P D} (waits : round a r₀.state = some r₁) {nfds : Int} {masks : Masks}
    (selects : r₁.output = [.select nfds masks]) {ready : Masks} (ready_eq : a.ready = some ready)
    (found : ready.readable h.fd.toNat = true ∨ ready.exception h.fd.toNat = true)
    {answers : List (Answer F P D)} (leave : ∀ b ∈ answers, b.Leaves h.fd)
    (long : r₀.state.remote_notifier.first_file_handler.length ≤ answers.length)
    (ran : start_event_loop answers r₁.state = some r) :
    .handler h.proc (if ready.exception h.fd.toNat then 1 else 0) h.client_data ∈ r.output := by
  obtain ⟨r₀', -, agree₀⟩ := watching_of_run reached
  have shown := agree₀.state
  obtain ⟨r₁', taken, agree₁⟩ := Reactive.Agree.exists_right (waits ▸ round_rel a shown)
  have selects' : r₁'.output = [.select nfds masks] := agree₁.output.symm.trans selects
  have turn : Watching.Turn h.fd (if ready.exception h.fd.toNat then 1 else 0) h.watch
      answers.length r₁'.state := by
    cases Watching.round_cases taken with
    | pass first => cases selects'
    | handler first search requested => cases selects'
    | callback none_found due requested => cases selects'
    | wait none_found none_due =>
        have listed : h.watch ∈ r₀'.state.watched := shown.watched ▸ List.mem_map_of_mem watched
        refine Watching.wait_turn shown.sane listed ready_eq found ?_
        rwa [← shown.watched, List.length_map]
  obtain ⟨r', ran', agree⟩ :=
    Reactive.Agree.exists_right (ran ▸ start_event_loop_rel answers agree₁.state)
  rw [agree.output]
  exact Watching.run_turn leave turn ran'

/-- Descriptors 3 and 4 are watched, each with its number as data. -/
noncomputable def watching : Session Unit Unit Nat :=
  { setup := answer [.add_file_handler 3 () 3, .add_file_handler 4 () 4] [], answers := [] }

/-- A handler that asks for nothing and returns 1. -/
noncomputable def content : Answer Unit Unit Nat := { answer [] [] with returns := 1 }

/-- The handler of descriptor 4 comes first, and returns 1. -/
theorem ready_handler_called_watching : ∃ r₀ r₁ r,
    Reactive.run session [watching] (State.start Unit Unit Nat) = some r₀ ∧
      round (answer [] [3, 4]) r₀.state = some r₁ ∧
      start_event_loop [content, answer [] []] r₁.state = some r ∧
      .handler () 0 3 ∈ r.output := by
  let t : Watching Unit Unit Nat :=
    { watched := [{ fd := 4, proc := (), client_data := 4 },
        { fd := 3, proc := (), client_data := 3 }]
      found := []
      callbacks := Pending.start Unit Nat }
  have set_up : Reactive.run Watching.session [watching] (Watching.start Unit Unit Nat) =
      some { state := t, output := [], stopped := true } := by
    simp [Reactive.run, Watching.session, watching, answer, Watching.request, Watching.start,
      FD_SETSIZE, t]
  obtain ⟨r₀, reached, agree₀⟩ := run_of_watching set_up
  have shown : Shows r₀.state t := agree₀.state
  have waited := round_rel (answer [] [3, 4]) shown
  obtain ⟨r₁, waits, agree₁⟩ := Reactive.Agree.exists_left waited
  have ended := start_event_loop_rel [content, answer [] []] agree₁.state
  have ends : ∃ r', Reactive.run Watching.round [content, answer [] []]
      (Watching.wait (answer [] [3, 4]) t).state = some r' := by
    simp [Reactive.run, Watching.round, Watching.wait, Watching.find_all, Watching.find_ready,
      members_of, Keyed.find, FD_ZERO, answer, content, t]
  obtain ⟨r', ends⟩ := ends
  rw [ends] at ended
  obtain ⟨r, ran, -⟩ := Reactive.Agree.exists_left ended
  have handlers : r₀.state.remote_notifier.first_file_handler.map FileHandler.watch =
      [{ fd := 4, proc := (), client_data := 4 }, { fd := 3, proc := (), client_data := 3 }] :=
    shown.watched
  obtain ⟨four, others, listed, -, rest⟩ := List.map_eq_cons_iff.mp handlers
  obtain ⟨h, others, listed', here, -⟩ := List.map_eq_cons_iff.mp rest
  have three : h.fd = 3 := congrArg Watch.fd here
  have data : h.client_data = 3 := congrArg Watch.client_data here
  have long : r₀.state.remote_notifier.first_file_handler.length ≤
      [content, answer [] []].length := by
    rw [← List.length_map, handlers]
    rfl
  have member : h ∈ r₀.state.remote_notifier.first_file_handler := by
    rw [listed, listed']
    exact List.mem_cons_of_mem four List.mem_cons_self
  have called := ready_handler_called reached member waits agree₁.output rfl
    (.inl (by rw [three]; rfl)) (by simp [answer, content, Answer.Leaves]) long ran
  exact ⟨r₀, r₁, r, reached, waits, ran, by simpa [three, data, FD_ZERO] using called⟩

end CFunc.EventLoop
