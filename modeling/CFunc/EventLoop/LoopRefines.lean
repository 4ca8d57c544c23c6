import CFunc.EventLoop.LoopRequests

/-!
The event loop watches descriptors.

`select` counts a descriptor once for each set it is found in, so its count is
no less than the number of handlers to enqueue an event for, and the loop over
the handlers does not end before the last of them. When it is called, no event
is left in the queue and no handler is still marked as ready.
-/

namespace CFunc.EventLoop

open CFunc.Lib CFunc.Clibs

variable {F P D : Type}

/-! ### Waiting -/

/-- What a descriptor with a place in the sets was found ready for. -/
def mask_of (ready : Masks) (fd : Int) : CInt :=
  (if ready.readable fd.toNat then remote_READABLE else 0) |||
    (if ready.writable fd.toNat then remote_WRITABLE else 0) |||
    (if ready.exception fd.toNat then remote_EXCEPTION else 0)

theorem found_mask_eq (ready : Masks) {fd : Int} (inside : 0 ≤ fd ∧ fd < FD_SETSIZE) :
    found_mask ready fd = some (mask_of ready fd) := by
  simp [found_mask, FD_ISSET, place_eq inside, mask_of]

/-- A handler after the loop. -/
def mark (ready : Masks) (h : FileHandler F D) : FileHandler F D :=
  if mask_of ready h.fd = 0 then h else { h with ready_mask := mask_of ready h.fd }

/-- Whether a handler is found ready. -/
def is_ready (ready : Masks) (h : FileHandler F D) : Bool := mask_of ready h.fd ≠ 0

theorem mask_of_eq_zero {ready : Masks} {fd : Int} :
    mask_of ready fd = 0 ↔ ready.readable fd.toNat = false ∧ ready.writable fd.toNat = false ∧
      ready.exception fd.toNat = false := by
  rw [mask_of]
  cases ready.readable fd.toNat <;> cases ready.writable fd.toNat <;>
    cases ready.exception fd.toNat <;> decide

theorem enqueue_found_of_nonpos (malloc : Malloc (QueueH.Elem Int)) (ready : Masks)
    (handlers : List (FileHandler F D)) {num_found : Int} (q : QueueH.Queue Int)
    (none_left : ¬ 0 < num_found) :
    enqueue_found malloc ready handlers num_found q = some (handlers, q) := by
  cases handlers with
  | nil => rfl
  | cons h handlers => rw [enqueue_found, if_neg none_left]

theorem enqueue_found_rep (malloc : Malloc (QueueH.Elem Int)) {ready : Masks}
    {handlers : List (FileHandler F D)} {num_found : Int} {q : QueueH.Queue Int}
    {l : List (QueueH.Ptr × Int)} (rep : QueueH.Rep q l)
    (inside : ∀ h ∈ handlers, 0 ≤ h.fd ∧ h.fd < FD_SETSIZE)
    (unready : ∀ h ∈ handlers, h.ready_mask = 0)
    (enough : (handlers.countP (is_ready ready) : Int) ≤ num_found) :
    ∃ q' l', enqueue_found malloc ready handlers num_found q =
        some (handlers.map (mark ready), q') ∧ QueueH.Rep q' l' ∧
      l'.map Prod.snd =
        l.map Prod.snd ++ (handlers.filter (is_ready ready)).map FileHandler.fd := by
  induction handlers generalizing num_found q l with
  | nil => exact ⟨q, l, rfl, rep, by simp⟩
  | cons h handlers ih =>
      have inside' := fun h member => inside h (List.mem_cons_of_mem _ member)
      have unready' := fun h member => unready h (List.mem_cons_of_mem _ member)
      have mask := found_mask_eq ready (inside h List.mem_cons_self)
      by_cases more : 0 < num_found
      · by_cases found : mask_of ready h.fd = 0
        · have not_ready : is_ready ready h = false := decide_eq_false (not_not.mpr found)
          have enough' : (handlers.countP (is_ready ready) : Int) ≤ num_found := by
            simpa [List.countP_cons, not_ready] using enough
          obtain ⟨q', l', run, rep', added⟩ := ih rep inside' unready' enough'
          refine ⟨q', l', ?_, rep', ?_⟩
          · rw [enqueue_found, if_pos more, mask]
            simp only [Option.bind_eq_bind, Option.bind_some, if_pos found, run, List.map_cons,
              mark]
            rfl
          · simpa [not_ready] using added
        · have ready_here : is_ready ready h = true := decide_eq_true found
          obtain ⟨q₁, run₁, rep₁⟩ :=
            QueueH.enque_rep rep (malloc.free q.elems rep.exists_fresh) h.fd
          have enough' : (handlers.countP (is_ready ready) : Int) ≤ num_found - 1 := by
            rw [List.countP_cons, if_pos ready_here] at enough
            omega
          obtain ⟨q', l', run, rep', added⟩ := ih rep₁ inside' unready' enough'
          refine ⟨q', l', ?_, rep', ?_⟩
          · rw [enqueue_found, if_pos more, mask]
            simp only [Option.bind_eq_bind, Option.bind_some, if_neg found,
              if_pos (unready h List.mem_cons_self), run₁, run, List.map_cons, mark]
            rfl
          · simp [ready_here, added]
      · -- none is left to be found
        have none_ready : (h :: handlers).countP (is_ready ready) = 0 := by omega
        rw [List.countP_eq_zero] at none_ready
        have same : (h :: handlers).map (mark ready) = h :: handlers := by
          refine (List.map_congr_left fun h' member => if_pos ?_).trans (List.map_id _)
          exact not_not.mp (of_decide_eq_false (Bool.eq_false_iff.mpr (none_ready h' member)))
        refine ⟨q, l, ?_, rep, ?_⟩
        · rw [same, enqueue_found_of_nonpos _ _ _ _ more]
        · rw [List.filter_eq_nil_iff.mpr none_ready]
          simp

theorem countP_any_le {α : Type} (l : List α) (a b c : α → Bool) :
    l.countP (fun x => a x || b x || c x) ≤ l.countP a + l.countP b + l.countP c := by
  induction l with
  | nil => simp
  | cons x l ih =>
      simp only [List.countP_cons]
      cases a x <;> cases b x <;> cases c x <;> simp <;> omega

/-- No more handlers are found ready than descriptors are counted. -/
theorem countP_is_ready_le (ready : Masks) {handlers : List (FileHandler F D)}
    (distinct : (handlers.map FileHandler.fd).Nodup)
    (inside : ∀ h ∈ handlers, 0 ≤ h.fd ∧ h.fd < FD_SETSIZE) :
    handlers.countP (is_ready ready) ≤
      members ready.readable + members ready.writable + members ready.exception := by
  have counted : ((handlers.filter (is_ready ready)).map FileHandler.fd).length ≤
      (List.range FD_SETSIZE).countP fun d =>
        ready.readable d || ready.writable d || ready.exception d := by
    refine length_le_countP (distinct.sublist (List.filter_sublist.map _)) ?_ ?_
    · intro fd member
      obtain ⟨h, found, rfl⟩ := List.mem_map.mp member
      exact inside h (List.mem_filter.mp found).1
    · intro fd member
      obtain ⟨h, found, rfl⟩ := List.mem_map.mp member
      by_contra none_set
      refine of_decide_eq_true (List.mem_filter.mp found).2 (mask_of_eq_zero.mpr ?_)
      simpa [and_assoc] using none_set
  rw [List.length_map, ← List.countP_eq_length_filter] at counted
  exact counted.trans (countP_any_le _ _ _ _)

section Waiting

variable {s : State F P D} {t : Watching F P D}

/-- Without an event in the queue no handler is marked as ready. -/
theorem Shows.idle (shown : Shows s t) (idle : t.found = []) :
    QueueH.Rep s.event_queue [] ∧ ∀ h ∈ s.remote_notifier.first_file_handler, h.ready_mask = 0 := by
  obtain ⟨l, rep, queued⟩ := shown.queue
  obtain rfl : l = [] := by
    have none_found := queued.found
    rw [idle, List.map_eq_nil_iff, List.map_eq_nil_iff] at none_found
    exact none_found
  exact ⟨rep, fun h member => by_contra fun ready => List.not_mem_nil (queued.all h member ready)⟩

theorem Shows.watched_eq_nil (shown : Shows s t) :
    s.remote_notifier.num_fds = 0 ↔ t.watched = [] := by
  rw [shown.kept.num_fds, ← shown.watched, List.map_eq_nil_iff]
  constructor
  · intro none_watched
    by_contra some_watched
    have reached := highest_of_reached (fun fd member => (shown.kept.inside fd member).1)
      (fun none_left => some_watched (List.map_eq_nil_iff.mp none_left))
    have := (shown.kept.inside _ reached).1
    omega
  · intro none_left
    rw [none_left]
    rfl

/-- What `select` answers when the descriptors in a list are watched. -/
def selected (ready : Masks) (fds : List Int) : Int × Masks :=
  select (some ready) (highest_of fds) (watch_masks fds)

/-- What is left of what is ready, for a descriptor that is watched. -/
theorem mask_of_select {fds : List Int} {ready : Masks} {fd : Int} (natural : 0 ≤ fd)
    (member : fd ∈ fds) :
    mask_of (selected ready fds).2 fd =
      (if ready.readable fd.toNat then remote_READABLE else 0) |||
        (if ready.exception fd.toNat then remote_EXCEPTION else 0) := by
  obtain ⟨n, rfl⟩ := Int.eq_ofNat_of_zero_le natural
  have asked : members_of fds n = true := decide_eq_true member
  have below : (n : Int) < highest_of fds := lt_highest_of member
  have left (is : FdSet) :
      (members_of fds n && is n && decide ((n : Int) < highest_of fds)) = is n := by
    rw [asked, decide_eq_true below, Bool.true_and, Bool.and_true]
  have readable : (selected ready fds).2.readable n = ready.readable n := left ready.readable
  have writable : (selected ready fds).2.writable n = false := rfl
  have exception : (selected ready fds).2.exception n = ready.exception n := left ready.exception
  have no_bit (x : CInt) : x ||| 0 = x := BitVec.or_zero
  rw [mask_of, Int.toNat_natCast, readable, writable, exception, if_neg Bool.false_ne_true, no_bit]

theorem pending_mark {masks : Masks} {h : FileHandler F D} (found : is_ready masks h = true) :
    (mark masks h).pending = some (h.fd, error_of (mask_of masks h.fd)) := by
  have some_bit : mask_of masks h.fd ≠ 0 := of_decide_eq_true found
  rw [mark, if_neg some_bit, FileHandler.pending, if_neg some_bit]

theorem find_ready_eq {fds : List Int} {ready : Masks} {h : FileHandler F D} (natural : 0 ≤ h.fd)
    (member : h.fd ∈ fds) :
    Watching.find_ready ready h.watch =
      if is_ready (selected ready fds).2 h then
        some (some (h.fd, error_of (mask_of (selected ready fds).2 h.fd)))
      else none := by
  rw [is_ready, mask_of_select natural member, Watching.find_ready, FileHandler.watch]
  cases ready.readable h.fd.toNat <;> cases ready.exception h.fd.toNat
  · rfl
  · exact (if_pos (by decide)).symm
  · exact (if_pos (by decide)).symm
  · exact (if_pos (by decide)).symm

theorem mark_fd (masks : Masks) (h : FileHandler F D) : (mark masks h).fd = h.fd := by
  rw [mark]
  split <;> rfl

/-- The handlers once those found ready are marked. -/
theorem Kept.mark {n : Notifier F D} (kept : Kept n) (ready : Masks)
    (unready : ∀ h ∈ n.first_file_handler, h.ready_mask = 0) :
    let masks := (selected ready (n.first_file_handler.map FileHandler.fd)).2
    Kept { n with first_file_handler := n.first_file_handler.map (mark masks) } := by
  intro masks
  have same_fds : (n.first_file_handler.map (EventLoop.mark masks)).map FileHandler.fd =
      n.first_file_handler.map FileHandler.fd := by
    rw [List.map_map]
    exact List.map_congr_left fun h _ => mark_fd masks h
  constructor
  · simpa only [same_fds] using kept.distinct
  · simpa only [same_fds] using kept.inside
  · intro h member
    obtain ⟨h, old, rfl⟩ := List.mem_map.mp member
    rw [EventLoop.mark]
    split <;> exact kept.mask h old
  · intro h member
    obtain ⟨h, old, rfl⟩ := List.mem_map.mp member
    have inside := List.mem_map_of_mem (f := FileHandler.fd) old
    rw [EventLoop.mark]
    split
    · exact fun some_ready => absurd (unready h old) some_ready
    · change mask_of masks h.fd ≠ 0 → mask_of masks h.fd &&& h.mask ≠ 0
      have mask : mask_of masks h.fd =
          (if ready.readable h.fd.toNat then remote_READABLE else 0) |||
            (if ready.exception h.fd.toNat then remote_EXCEPTION else 0) :=
        mask_of_select (kept.inside _ inside).1 inside
      rw [mask, kept.mask h old]
      cases ready.readable h.fd.toNat <;> cases ready.exception h.fd.toNat <;> decide
  · simpa only [same_fds] using kept.check
  · simpa only [same_fds] using kept.num_fds

theorem watch_mark (masks : Masks) (handlers : List (FileHandler F D)) :
    (handlers.map (mark masks)).map FileHandler.watch = handlers.map FileHandler.watch := by
  rw [List.map_map]
  refine List.map_congr_left fun h _ => ?_
  rw [Function.comp_apply, mark]
  split <;> rfl

/-- What is enqueued is what is found. -/
theorem queued_mark {ready : Masks} {handlers : List (FileHandler F D)}
    (distinct : (handlers.map FileHandler.fd).Nodup)
    (natural : ∀ fd ∈ handlers.map FileHandler.fd, 0 ≤ fd)
    (unready : ∀ h ∈ handlers, h.ready_mask = 0) :
    let masks := (selected ready (handlers.map FileHandler.fd)).2
    Queued (handlers.map (mark masks)) ((handlers.filter (is_ready masks)).map FileHandler.fd)
      ((handlers.map FileHandler.watch).filterMap (Watching.find_ready ready)) := by
  intro masks
  have same_fds : (handlers.map (mark masks)).map FileHandler.fd =
      handlers.map FileHandler.fd := by
    rw [List.map_map]
    exact List.map_congr_left fun h _ => mark_fd masks h
  constructor
  · exact distinct.sublist (List.filter_sublist.map _)
  · rw [List.map_map, ← List.filterMap_eq_map, List.filterMap_filter, List.filterMap_map]
    refine List.filterMap_congr fun h member => ?_
    have known := List.mem_map_of_mem (f := FileHandler.fd) member
    change (if is_ready masks h = true then some (finding _ h.fd) else none) =
      Watching.find_ready ready h.watch
    rw [find_ready_eq (natural _ known) known]
    split
    next found =>
        have marked := Keyed.find_of_mem (same_fds ▸ distinct) (List.mem_map_of_mem member)
        rw [mark_fd] at marked
        change some (finding _ _) = _
        rw [finding, marked, Option.bind_some, pending_mark found]
    next => rfl
  · intro h member ready_here
    obtain ⟨h, old, rfl⟩ := List.mem_map.mp member
    rw [mark_fd]
    refine List.mem_map_of_mem (List.mem_filter.mpr ⟨old, decide_eq_true fun none_found => ?_⟩)
    rw [mark, if_pos none_found] at ready_here
    exact ready_here (unready h old)

theorem wait_rel (a : Answer F P D) (shown : Shows s t) (idle : t.found = []) :
    Option.Rel (Reactive.Agree Shows) (wait_for_event a s) (some (t.wait a)) := by
  obtain ⟨rep, unready⟩ := shown.idle idle
  have watched := shown.watched_eq_nil
  rw [wait_for_event, Watching.wait]
  by_cases none_watched : t.watched = []
  · rw [if_pos (watched.mpr none_watched), if_pos none_watched]
    exact .some ⟨shown, rfl, rfl⟩
  · rw [if_neg fun zero => none_watched (watched.mp zero), if_neg none_watched]
    have inside (h : FileHandler F D) (member : h ∈ s.remote_notifier.first_file_handler) :=
      shown.kept.inside h.fd (List.mem_map_of_mem member)
    have fds : t.watched.map Watch.fd =
        s.remote_notifier.first_file_handler.map FileHandler.fd := by
      rw [← shown.watched, watch_fds]
    have output : [Output.select s.remote_notifier.num_fds s.remote_notifier.check_masks] =
        [(Output.select (highest_of (t.watched.map Watch.fd))
          (watch_masks (t.watched.map Watch.fd)) : Output F P D)] := by
      rw [fds, shown.kept.check, shown.kept.num_fds]
    cases a.ready with
    | none =>
        simp only [select, enqueue_found_of_nonpos _ _ _ _ (by decide : ¬ (0 : Int) < -1)]
        refine .some ⟨⟨shown.kept, shown.watched, ⟨[], rep, List.nodup_nil, rfl, ?_⟩,
          shown.callbacks, shown.bounded⟩, output, rfl⟩
        exact fun h member ready => absurd (unready h member) ready
    | some ready =>
        set masks := selected ready (s.remote_notifier.first_file_handler.map FileHandler.fd)
          with masks_eq
        have answer : select (some ready) s.remote_notifier.num_fds
            s.remote_notifier.check_masks = masks := by
          rw [shown.kept.check, shown.kept.num_fds, masks_eq, selected]
        have enough : (s.remote_notifier.first_file_handler.countP (is_ready masks.2) : Int) ≤
            masks.1 := Int.ofNat_le.mpr (countP_is_ready_le masks.2 shown.kept.distinct inside)
        obtain ⟨q', l', run, rep', added⟩ :=
          enqueue_found_rep a.remote_event rep inside unready enough
        rw [answer]
        simp only [Option.bind_eq_bind, run, Option.bind_some]
        refine .some ⟨⟨shown.kept.mark ready unready, ?_, ⟨l', rep', ?_⟩, shown.callbacks,
          shown.bounded⟩, output, rfl⟩
        · rw [← shown.watched]
          exact watch_mark masks.2 _
        · rw [added, ← shown.watched]
          exact queued_mark shown.kept.distinct (fun fd member => (shown.kept.inside fd member).1)
            unready

end Waiting

/-! ### Rounds -/

/-- `handle_file_event` for the first event of the queue. -/
theorem handle_rel {n : Notifier F D} (kept : Kept n) {fd : Int} {fds : List Int}
    {x : Option (Int × Int)} {found : List (Option (Int × Int))}
    (queued : Queued n.first_file_handler (fd :: fds) (x :: found)) :
    ∃ n', handle_file_event fd n =
        (x.bind fun (fd, error) =>
          (Keyed.find Watch.fd fd (n.first_file_handler.map FileHandler.watch)).map fun w =>
            (w.proc, error, w.client_data), n') ∧
      Kept n' ∧
      n'.first_file_handler.map FileHandler.watch = n.first_file_handler.map FileHandler.watch ∧
      Queued n'.first_file_handler fds found := by
  obtain ⟨here, there⟩ := List.cons.inj queued.found
  obtain ⟨off, distinct⟩ := List.nodup_cons.mp queued.distinct
  subst here
  rw [handle_file_event, finding]
  cases search : Keyed.find FileHandler.fd fd n.first_file_handler with
  | none =>
      refine ⟨n, rfl, kept, rfl, distinct, there, fun h member ready => ?_⟩
      refine (List.mem_cons.mp (queued.all h member ready)).resolve_left fun same => ?_
      exact Keyed.find_eq_none.mp search (same ▸ List.mem_map_of_mem member)
  | some h =>
      obtain rfl := Keyed.key_of_find search
      have member := Keyed.mem_of_find search
      let clear (g : FileHandler F D) : FileHandler F D :=
        { g with error := some (error_of h.ready_mask), ready_mask := 0 }
      have cleared : Kept { n with
          first_file_handler := Keyed.change FileHandler.fd h.fd clear n.first_file_handler } :=
        kept.change (fun _ => rfl) kept.mask fun _ _ some_ready => absurd rfl some_ready
      refine ⟨_, ?_, cleared, Keyed.map_change fun _ => rfl, distinct, ?_, ?_⟩
      · have watch : Keyed.find Watch.fd h.fd (n.first_file_handler.map FileHandler.watch) =
            some h.watch := by
          refine (Keyed.find_map fun _ => rfl).trans ?_
          exact congrArg (Option.map FileHandler.watch) search
        by_cases ready : h.ready_mask = 0
        · simp [FileHandler.pending, ready, clear, error_of]
        · have matched := kept.ready h member ready
          simp only [Option.bind_some, FileHandler.pending, if_neg ready, if_pos matched, watch]
          rfl
      · rw [← there]
        refine List.map_congr_left fun fd inside => ?_
        exact finding_other (fun _ => rfl) (ne_of_mem_of_not_mem inside off)
      · intro g member' ready
        rw [Keyed.change_eq_map kept.distinct] at member'
        obtain ⟨g, old, rfl⟩ := List.mem_map.mp member'
        split_ifs at ready ⊢ with same
        · exact absurd rfl ready
        · exact (List.mem_cons.mp (queued.all g old ready)).resolve_left same

/-- Both sides go on to the same output. -/
theorem respond_rel {m : Option (State F P D)} {m' : Option (Watching F P D)}
    (related : Option.Rel Shows m m') (output : List (Output F P D)) (stopped : Bool) :
    Option.Rel (Reactive.Agree Shows)
      (do let s ← m; return { state := s, output := output, stopped := stopped })
      (do let t ← m'; return { state := t, output := output, stopped := stopped }) := by
  cases related with
  | none => exact .none
  | some shown => exact .some ⟨shown, rfl, rfl⟩

/-- A round shows what a round on what is shown does. -/
theorem round_rel (a : Answer F P D) {s : State F P D} {t : Watching F P D} (shown : Shows s t) :
    Option.Rel (Reactive.Agree Shows) (round a s) (t.round a) := by
  obtain ⟨l, rep, queued⟩ := shown.queue
  cases found : t.found with
  | nil =>
      obtain ⟨empty, -⟩ := shown.idle found
      have is_empty : QueueH.is_empty s.event_queue = true := by
        rw [QueueH.is_empty, empty.chain.first_eq]
        rfl
      obtain ⟨lc, rep_c⟩ := shown.callbacks
      obtain ⟨c', l', run, rep'⟩ := process_rep rep_c
      rw [round, Watching.round, if_pos is_empty, run, found]
      cases due : t.callbacks.events with
      | nil => exact wait_rel a shown found
      | cons e rest =>
          have queue := shown.queue
          rw [found] at queue
          refine respond_rel (requests_rel a ?_) _ _
          exact ⟨shown.kept, shown.watched, queue, ⟨l', rep'⟩, shown.bounded.next⟩
  | cons x rest =>
      cases l with
      | nil =>
          have none_found := queued.found
          rw [found] at none_found
          cases none_found
      | cons entry l =>
          obtain ⟨p, fd⟩ := entry
          obtain ⟨q', run, rep'⟩ := QueueH.deque_rep rep
          rw [found] at queued
          obtain ⟨n', handled, kept, watched, queued'⟩ := handle_rel shown.kept queued
          have is_empty : ¬ QueueH.is_empty s.event_queue = true := by
            rw [QueueH.is_empty, rep.chain.1]
            exact Bool.false_ne_true
          have shown' : Shows
              { s with event_queue := q', remote_notifier := n' } { t with found := rest } :=
            ⟨kept, watched.trans shown.watched, ⟨l, rep', queued'⟩, shown.callbacks, shown.bounded⟩
          rw [round, Watching.round, if_neg is_empty, run, found]
          simp only [Option.bind_eq_bind, Option.bind_some, handled, shown.watched]
          cases x with
          | none => exact .some ⟨shown', rfl, rfl⟩
          | some pending =>
              obtain ⟨fd', error⟩ := pending
              have known := mem_of_finding (List.cons.inj queued.found).1
              rw [← watch_fds, shown.watched] at known
              obtain ⟨w, search⟩ := Option.ne_none_iff_exists'.mp fun none_found =>
                Keyed.find_eq_none.mp none_found known
              simp only [Option.bind_some, search, Option.map_some]
              exact respond_rel (requests_rel a shown') _ _

/-- Every run of the loop shows what the descriptors watched and the callbacks due bring about. -/
theorem start_event_loop_rel (answers : List (Answer F P D)) {s : State F P D}
    {t : Watching F P D} (shown : Shows s t) :
    Option.Rel (Reactive.Agree Shows) (start_event_loop answers s)
      (Reactive.run Watching.round answers t) :=
  Reactive.run_rel (fun a _ _ _ shown => round_rel a shown) shown

end CFunc.EventLoop
