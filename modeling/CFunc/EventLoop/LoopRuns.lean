import CFunc.EventLoop.LoopRefines

/-!
Runs of the event loop.

A program calls functions of the event loop, runs the loop, and goes on once it
has returned. Whatever the handlers, the callbacks and `select` do, what is seen
of this is what the descriptors watched and the callbacks due bring about. What
follows from it for whole runs is proved of the latter.
-/

namespace CFunc.EventLoop

open CFunc.Lib

variable {F P D : Type}

theorem session_rel (x : Session F P D) {s : State F P D} {t : Watching F P D}
    (shown : Shows s t) :
    Option.Rel (Reactive.Agree Shows) (session x s) (Watching.session x t) := by
  have setup := requests_rel x.setup shown
  rw [session, Watching.session]
  generalize requests x.setup s = m, x.setup.requests.foldlM Watching.request t = m' at setup
  cases setup with
  | none => exact .none
  | some shown =>
      rename_i s t
      have loop := start_event_loop_rel x.answers shown
      simp only [Option.bind_eq_bind, Option.bind_some]
      generalize start_event_loop x.answers s = n, Reactive.run Watching.round x.answers t = n'
        at loop
      cases loop with
      | none => exact .none
      | some agree => exact .some ⟨agree.state, agree.output, congrArg (!·) agree.stopped⟩

theorem sessions_rel (sessions : List (Session F P D)) :
    Option.Rel (Reactive.Agree Shows)
      (Reactive.run session sessions (State.start F P D))
      (Reactive.run Watching.session sessions (Watching.start F P D)) :=
  Reactive.run_rel (fun x _ _ _ shown => session_rel x shown) start_shows

theorem watching_of_run {sessions : List (Session F P D)}
    {r : Reactive.Response (State F P D) (Output F P D)}
    (ran : Reactive.run session sessions (State.start F P D) = some r) :
    ∃ r', Reactive.run Watching.session sessions (Watching.start F P D) = some r' ∧
      Reactive.Agree Shows r r' := by
  have related := sessions_rel sessions
  rw [ran] at related
  exact Reactive.Agree.exists_right related

theorem run_of_watching {sessions : List (Session F P D)}
    {r' : Reactive.Response (Watching F P D) (Output F P D)}
    (ran : Reactive.run Watching.session sessions (Watching.start F P D) = some r') :
    ∃ r, Reactive.run session sessions (State.start F P D) = some r ∧
      Reactive.Agree Shows r r' := by
  have related := sessions_rel sessions
  rw [ran] at related
  exact Reactive.Agree.exists_left related

/-- The event loop calls the handlers, the callbacks and `select` exactly as the descriptors
watched and the callbacks due call for, and runs into no meaning exactly where they have none. -/
theorem event_loop_refines (sessions : List (Session F P D)) :
    (Reactive.run session sessions (State.start F P D)).map Reactive.Response.seen =
      (Reactive.run Watching.session sessions (Watching.start F P D)).map
        Reactive.Response.seen :=
  Reactive.seen_eq (sessions_rel sessions)

/-! ### What the descriptors watched keep -/

namespace Watching

structure Sane (t : Watching F P D) : Prop where
  distinct : (t.watched.map Watch.fd).Nodup
  inside : ∀ fd ∈ t.watched.map Watch.fd, 0 ≤ fd ∧ fd < FD_SETSIZE
  found : ∀ fd error, some (fd, error) ∈ t.found → fd ∈ t.watched.map Watch.fd

theorem start_sane : (start F P D).Sane where
  distinct := List.nodup_nil
  inside _ member := absurd member List.not_mem_nil
  found _ _ member := absurd member List.not_mem_nil

theorem mem_cancel {fd fd' error : Int} {found : List (Option (Int × Int))} :
    some (fd', error) ∈ found.map (cancel fd) ↔ some (fd', error) ∈ found ∧ fd' ≠ fd := by
  rw [List.mem_map]
  constructor
  · rintro ⟨x, member, same⟩
    cases x with
    | none => cases same
    | some pending =>
        obtain ⟨d, e⟩ := pending
        rw [cancel] at same
        split_ifs at same with here
        obtain ⟨rfl, rfl⟩ := Prod.mk.inj (Option.some.inj same)
        exact ⟨member, here⟩
  · rintro ⟨member, other⟩
    exact ⟨_, member, by rw [cancel, if_neg other]⟩

theorem request_sane {t t' : Watching F P D} (sane : t.Sane) {r : Request F P D}
    (requested : t.request r = some t') : t'.Sane := by
  cases r with
  | add_file_handler fd proc client_data =>
      rw [request] at requested
      split_ifs at requested with known inside
      · obtain rfl := Option.some.inj requested
        have fds : (Keyed.change Watch.fd fd
            (fun w => { w with proc := proc, client_data := client_data }) t.watched).map Watch.fd =
            t.watched.map Watch.fd := Keyed.map_change fun _ => rfl
        exact ⟨fds ▸ sane.distinct, fds ▸ sane.inside, fds ▸ sane.found⟩
      · obtain rfl := Option.some.inj requested
        refine ⟨List.nodup_cons.mpr ⟨known, sane.distinct⟩, ?_, ?_⟩
        · intro d member
          rcases List.mem_cons.mp member with rfl | old
          · exact inside
          · exact sane.inside d old
        · exact fun d e member => List.mem_cons_of_mem _ (sane.found d e member)
  | delete_file_handler fd =>
      obtain rfl := Option.some.inj requested
      refine ⟨sane.distinct.sublist (List.filter_sublist.map _), ?_, ?_⟩
      · intro d member
        exact sane.inside d ((List.filter_sublist.map _).subset member)
      · intro d e member
        obtain ⟨member, other⟩ := mem_cancel.mp member
        obtain ⟨w, watched, rfl⟩ := List.mem_map.mp (sane.found d e member)
        exact List.mem_map_of_mem (List.mem_filter.mpr ⟨watched, decide_eq_true other⟩)
  | append_callback_event proc data =>
      rw [request] at requested
      split_ifs at requested
      obtain rfl := Option.some.inj requested
      exact ⟨sane.distinct, sane.inside, sane.found⟩
  | delete_callback_event id =>
      obtain rfl := Option.some.inj requested
      exact ⟨sane.distinct, sane.inside, sane.found⟩

/-- What a round can do. -/
inductive Round (a : Answer F P D) (t : Watching F P D) :
    Reactive.Response (Watching F P D) (Output F P D) → Prop where
  | pass {found : List (Option (Int × Int))} : t.found = none :: found →
      Round a t { state := { t with found := found }, output := [], stopped := false }
  | handler {fd error : Int} {found : List (Option (Int × Int))} {w : Watch F D}
      {t' : Watching F P D} : t.found = some (fd, error) :: found →
      Keyed.find Watch.fd fd t.watched = some w →
      a.requests.foldlM request { t with found := found } = some t' →
      Round a t { state := t', output := [.handler w.proc error w.client_data],
                  stopped := a.returns < 0 }
  | callback {id : Int} {proc : P} {data : D} {rest : List (Entry P D)} {t' : Watching F P D} :
      t.found = [] → t.callbacks.events = (id, proc, data) :: rest →
      a.requests.foldlM request { t with callbacks := t.callbacks.next } = some t' →
      Round a t { state := t', output := [.callback proc data], stopped := a.returns ≠ 0 }
  | wait : t.found = [] → t.callbacks.events = [] → Round a t (wait a t)

theorem round_cases {a : Answer F P D} {t : Watching F P D}
    {r : Reactive.Response (Watching F P D) (Output F P D)} (taken : round a t = some r) :
    Round a t r := by
  rw [round] at taken
  split at taken
  next found first =>
      obtain rfl := Option.some.inj taken
      exact .pass first
  next fd error found first =>
      obtain ⟨w, search, taken⟩ := Option.bind_eq_some_iff.mp taken
      obtain ⟨t', requested, ⟨⟩⟩ := Option.bind_eq_some_iff.mp taken
      exact .handler first search requested
  next none_found =>
      split at taken
      next id proc data rest due =>
          obtain ⟨t', requested, ⟨⟩⟩ := Option.bind_eq_some_iff.mp taken
          exact .callback none_found due requested
      next none_due =>
          obtain rfl := Option.some.inj taken
          exact .wait none_found none_due

theorem requests_inv (Inv : Watching F P D → Prop) {l : List (Request F P D)}
    (keep : ∀ r ∈ l, ∀ t t', Inv t → t.request r = some t' → Inv t') {t t' : Watching F P D}
    (start : Inv t) (ran : l.foldlM request t = some t') : Inv t' := by
  induction l generalizing t with
  | nil =>
      obtain rfl := Option.some.inj ran
      exact start
  | cons r l ih =>
      rw [List.foldlM_cons] at ran
      obtain ⟨t₁, first, ran⟩ := Option.bind_eq_some_iff.mp ran
      exact ih (fun r member => keep r (List.mem_cons_of_mem _ member))
        (keep r List.mem_cons_self t t₁ start first) ran

theorem requests_sane {t t' : Watching F P D} (sane : t.Sane) {l : List (Request F P D)}
    (ran : l.foldlM request t = some t') : t'.Sane :=
  requests_inv Sane (fun _ _ _ _ sane requested => request_sane sane requested) sane ran

theorem watched_of_find_all {ready : Option Masks} {watched : List (Watch F D)} {fd error : Int}
    (member : some (fd, error) ∈ find_all ready watched) : ∃ w ∈ watched, w.fd = fd := by
  cases ready with
  | none => exact absurd member List.not_mem_nil
  | some ready =>
      obtain ⟨w, watched, ready_here⟩ := List.mem_filterMap.mp member
      rw [find_ready] at ready_here
      split at ready_here
      · exact ⟨w, watched, congrArg Prod.fst (Option.some.inj (Option.some.inj ready_here))⟩
      · cases ready_here

theorem wait_sane {t : Watching F P D} (sane : t.Sane) (a : Answer F P D) :
    (wait a t).state.Sane := by
  rw [wait]
  split_ifs
  · exact sane
  · refine ⟨sane.distinct, sane.inside, fun fd error member => ?_⟩
    obtain ⟨w, watched, rfl⟩ := watched_of_find_all member
    exact List.mem_map_of_mem watched

theorem round_sane {t : Watching F P D} (sane : t.Sane) {a : Answer F P D}
    {r : Reactive.Response (Watching F P D) (Output F P D)} (taken : round a t = some r) :
    r.state.Sane := by
  have tail {x : Option (Int × Int)} {found : List (Option (Int × Int))}
      (first : t.found = x :: found) : Sane { t with found := found } :=
    ⟨sane.distinct, sane.inside, fun fd error member =>
      sane.found fd error (first ▸ List.mem_cons_of_mem x member)⟩
  cases round_cases taken with
  | pass first => exact tail first
  | handler first search requested => exact requests_sane (tail first) requested
  | callback none_found due requested =>
      exact requests_sane (t := { t with callbacks := t.callbacks.next })
        ⟨sane.distinct, sane.inside, sane.found⟩ requested
  | wait none_found none_due => exact wait_sane sane a

end Watching

end CFunc.EventLoop
