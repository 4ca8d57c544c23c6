import CFunc.Clibs.QueueHistory
import CFunc.EventLoop.NotifierInv

/-!
What a state of the event loop shows, and what a request does to it.

An event of the queue whose handler has been deleted, or deleted and added
again, calls nothing: it stands for a descriptor that is passed over. Every
request has a meaning exactly where the one on what is shown has.
-/

namespace CFunc.EventLoop

open CFunc.Lib CFunc.Clibs

variable {F P D : Type}

def FileHandler.watch (h : FileHandler F D) : Watch F D :=
  { fd := h.fd, proc := h.proc, client_data := h.client_data }

/-- The error that `handle_file_event` reports. -/
def error_of (ready_mask : CInt) : Int := if ready_mask &&& remote_EXCEPTION ≠ 0 then 1 else 0

/-- What a handler was found ready for and not called for yet. -/
def FileHandler.pending (h : FileHandler F D) : Option (Int × Int) :=
  if h.ready_mask = 0 then none else some (h.fd, error_of h.ready_mask)

/-- What an event of the queue stands for. -/
def finding (handlers : List (FileHandler F D)) (fd : Int) : Option (Int × Int) :=
  (Keyed.find FileHandler.fd fd handlers).bind FileHandler.pending

/-- Each handler that was found ready has one event in the queue. -/
structure Queued (handlers : List (FileHandler F D)) (fds : List Int)
    (found : List (Option (Int × Int))) : Prop where
  distinct : fds.Nodup
  found : fds.map (finding handlers) = found
  all : ∀ h ∈ handlers, h.ready_mask ≠ 0 → h.fd ∈ fds

structure Shows (s : State F P D) (t : Watching F P D) : Prop where
  kept : Kept s.remote_notifier
  watched : s.remote_notifier.first_file_handler.map FileHandler.watch = t.watched
  queue : ∃ l, QueueH.Rep s.event_queue l ∧
    Queued s.remote_notifier.first_file_handler (l.map Prod.snd) t.found
  callbacks : ∃ l, Rep s.callback_list l t.callbacks
  bounded : t.callbacks.Bounded

theorem start_shows : Shows (State.start F P D) (Watching.start F P D) where
  kept :=
    { distinct := List.nodup_nil
      inside := fun _ member => absurd member List.not_mem_nil
      mask := fun _ member => absurd member List.not_mem_nil
      ready := fun _ member => absurd member List.not_mem_nil
      check := by
        have empty : members_of [] = FD_ZERO :=
          funext fun _ => decide_eq_false List.not_mem_nil
        rw [watch_masks, State.start, List.map_nil, empty]
      num_fds := rfl }
  watched := rfl
  queue := ⟨[], QueueH.alloc_rep, List.nodup_nil, rfl,
    fun _ member => absurd member List.not_mem_nil⟩
  callbacks := ⟨[], start_rep⟩
  bounded := le_rfl

theorem watch_fds (handlers : List (FileHandler F D)) :
    (handlers.map FileHandler.watch).map Watch.fd = handlers.map FileHandler.fd := by
  rw [List.map_map]
  rfl

/-! ### Requests -/

section Findings

variable {handlers : List (FileHandler F D)} {fd fd' : Int}

/-- What is found is watched. -/
theorem mem_of_finding {error : Int} (found : finding handlers fd = some (fd', error)) :
    fd' ∈ handlers.map FileHandler.fd := by
  obtain ⟨h, search, pending⟩ := Option.bind_eq_some_iff.mp found
  rw [FileHandler.pending] at pending
  split at pending
  · cases pending
  · obtain ⟨rfl, -⟩ := Prod.mk.inj (Option.some.inj pending)
    exact List.mem_map_of_mem (Keyed.mem_of_find search)

/-- A change that keeps the descriptor and what it was found ready for. -/
theorem finding_change {f : FileHandler F D → FileHandler F D} (keeps : ∀ h, (f h).fd = h.fd)
    (same : ∀ h, (f h).pending = h.pending) :
    finding (Keyed.change FileHandler.fd fd f handlers) fd' = finding handlers fd' := by
  rw [finding, Keyed.find_change keeps, finding]
  split_ifs
  · rw [Option.bind_map]
    exact congrArg _ (funext same)
  · rfl

/-- A change of another handler. -/
theorem finding_other {f : FileHandler F D → FileHandler F D} (keeps : ∀ h, (f h).fd = h.fd)
    (other : fd' ≠ fd) :
    finding (Keyed.change FileHandler.fd fd f handlers) fd' = finding handlers fd' := by
  rw [finding, Keyed.find_change keeps, if_neg other, finding]

theorem finding_cons {h : FileHandler F D} (new : h.fd ∉ handlers.map FileHandler.fd)
    (unready : h.pending = none) : finding (h :: handlers) fd' = finding handlers fd' := by
  rw [finding, Keyed.find]
  by_cases here : h.fd = fd'
  · subst here
    rw [List.find?_cons_of_pos (by simp), finding, Keyed.find_eq_none.mpr new]
    exact unready
  · rw [List.find?_cons_of_neg (by simpa using here)]
    rfl

theorem finding_remove (distinct : (handlers.map FileHandler.fd).Nodup) :
    finding (Keyed.remove FileHandler.fd fd handlers) fd' =
      Watching.cancel fd (finding handlers fd') := by
  rw [finding, Keyed.find_remove distinct, finding]
  cases found : Keyed.find FileHandler.fd fd' handlers with
  | none => simp [Watching.cancel]
  | some h =>
      obtain rfl := Keyed.key_of_find found
      rw [Option.bind_some, FileHandler.pending]
      by_cases here : h.fd = fd
      · split_ifs <;> simp [Watching.cancel, here]
      · rw [if_neg here, Option.bind_some, FileHandler.pending]
        split_ifs <;> simp [Watching.cancel, here]

end Findings

section Requests

variable {s : State F P D} {t : Watching F P D} {fds : List Int} {found : List (Option (Int × Int))}

/-- Handlers that stand for the same, found ready no more often than before. -/
theorem Queued.congr {handlers handlers' : List (FileHandler F D)}
    (queued : Queued handlers fds found) {see : Option (Int × Int) → Option (Int × Int)}
    (same : ∀ fd, finding handlers' fd = see (finding handlers fd))
    (fewer : ∀ h ∈ handlers', h.ready_mask ≠ 0 →
      ∃ h' ∈ handlers, h'.fd = h.fd ∧ h'.ready_mask ≠ 0) :
    Queued handlers' fds (found.map see) where
  distinct := queued.distinct
  found := by
    rw [← queued.found, List.map_map]
    exact List.map_congr_left fun fd _ => same fd
  all h member ready := by
    obtain ⟨h', member', same_fd, ready'⟩ := fewer h member ready
    exact same_fd ▸ queued.all h' member' ready'

theorem Queued.same {handlers handlers' : List (FileHandler F D)}
    (queued : Queued handlers fds found) (same : ∀ fd, finding handlers' fd = finding handlers fd)
    (fewer : ∀ h ∈ handlers', h.ready_mask ≠ 0 →
      ∃ h' ∈ handlers, h'.fd = h.fd ∧ h'.ready_mask ≠ 0) :
    Queued handlers' fds found := by
  rw [← List.map_id found]
  exact queued.congr same fewer

theorem known_iff (shown : Shows s t) (fd : Int) :
    fd ∈ t.watched.map Watch.fd ↔ fd ∈ s.remote_notifier.first_file_handler.map FileHandler.fd := by
  rw [← shown.watched, watch_fds]

theorem request_add (shown : Shows s t) (malloc : Malloc (CallbackEvent P D)) (fd : Int) (proc : F)
    (client_data : D) :
    Option.Rel Shows (request malloc s (.add_file_handler fd proc client_data))
      (t.request (.add_file_handler fd proc client_data)) := by
  obtain ⟨l, rep, queued⟩ := shown.queue
  have known_iff := known_iff shown fd
  rw [request, Watching.request]
  by_cases known : fd ∈ s.remote_notifier.first_file_handler.map FileHandler.fd
  · obtain ⟨n', run, kept, handlers⟩ := add_known proc client_data shown.kept known
    rw [run, if_pos (known_iff.mpr known)]
    refine .some ⟨kept, ?_, ⟨l, rep, ?_⟩, shown.callbacks, shown.bounded⟩
    · change n'.first_file_handler.map _ = _
      rw [handlers, ← shown.watched]
      exact Keyed.map_change_comm (fun _ => rfl) fun _ _ => rfl
    · change Queued n'.first_file_handler _ _
      rw [handlers]
      refine queued.same (fun _ => finding_change (fun _ => rfl) fun _ => rfl) ?_
      intro h member ready
      rcases Keyed.mem_change member with old | ⟨h', old, -, rfl⟩
      · exact ⟨h, old, rfl, ready⟩
      · exact ⟨h', old, rfl, ready⟩
  · rw [if_neg fun member => known (known_iff.mp member)]
    by_cases inside : 0 ≤ fd ∧ fd < FD_SETSIZE
    · obtain ⟨n', run, kept, handlers⟩ := add_new proc client_data shown.kept known inside
      rw [run, if_pos inside]
      refine .some ⟨kept, ?_, ⟨l, rep, ?_⟩, shown.callbacks, shown.bounded⟩
      · change n'.first_file_handler.map _ = _
        rw [handlers, ← shown.watched]
        rfl
      · change Queued n'.first_file_handler _ _
        rw [handlers]
        refine queued.same (fun _ => finding_cons known rfl) fun h member ready => ?_
        rcases List.mem_cons.mp member with rfl | old
        · exact absurd rfl ready
        · exact ⟨h, old, rfl, ready⟩
    · rw [add_outside known inside, if_neg inside]
      exact .none

theorem request_delete (shown : Shows s t) (malloc : Malloc (CallbackEvent P D)) (fd : Int) :
    Option.Rel Shows (request malloc s (.delete_file_handler fd))
      (t.request (.delete_file_handler fd)) := by
  obtain ⟨n', run, kept, left⟩ := delete_kept shown.kept fd
  obtain ⟨l, rep, queued⟩ := shown.queue
  rw [request, run]
  refine .some ⟨kept, ?_, ⟨l, rep, ?_⟩, shown.callbacks, shown.bounded⟩
  · change n'.first_file_handler.map _ = _
    rw [left, Keyed.remove_eq_filter shown.kept.distinct, ← shown.watched, List.filter_map]
    rfl
  · change Queued n'.first_file_handler _ _
    rw [left]
    refine queued.congr (fun fd => finding_remove shown.kept.distinct) fun h member ready => ?_
    exact ⟨h, List.mem_of_mem_eraseP member, rfl, ready⟩

theorem request_append (shown : Shows s t) (malloc : Malloc (CallbackEvent P D)) (proc : P)
    (data : D) :
    Option.Rel Shows (request malloc s (.append_callback_event proc data))
      (t.request (.append_callback_event proc data)) := by
  obtain ⟨l, rep⟩ := shown.callbacks
  have fresh := malloc.free s.callback_list.cells rep.exists_free
  rw [request, Watching.request]
  by_cases fits : (t.callbacks.num_callbacks : Int) < INT_MAX
  · obtain ⟨c', l', run, rep'⟩ := append_rep rep fresh fits proc data
    rw [run, if_pos fits]
    exact .some ⟨shown.kept, shown.watched, shown.queue, ⟨l', rep'⟩, shown.bounded.append proc data⟩
  · have refused : append_callback_event s.callback_list
        (malloc.address s.callback_list.cells) proc data = none := by
      by_contra some_id
      obtain ⟨⟨id, c'⟩, run⟩ := Option.ne_none_iff_exists'.mp some_id
      exact fits (rep.count ▸ lt_of_append run)
    rw [refused, if_neg fits]
    exact .none

theorem request_delete_callback (shown : Shows s t) (malloc : Malloc (CallbackEvent P D))
    (id : Int) :
    Option.Rel Shows (request malloc s (.delete_callback_event id))
      (t.request (.delete_callback_event id)) := by
  obtain ⟨l, rep⟩ := shown.callbacks
  obtain ⟨u, l', run, rep'⟩ := delete_rep rep id
  have enough : s.callback_list.num_callbacks.toNat ≥ l.length := by
    have bounded := shown.bounded
    rw [Pending.Bounded, ← rep.events, List.length_map] at bounded
    rw [rep.count]
    exact bounded
  rw [request, run _ enough]
  exact .some ⟨shown.kept, shown.watched, shown.queue, ⟨l', rep'⟩, shown.bounded.delete id⟩

theorem request_rel (malloc : Malloc (CallbackEvent P D)) (shown : Shows s t)
    (r : Request F P D) : Option.Rel Shows (request malloc s r) (t.request r) := by
  cases r with
  | add_file_handler fd proc client_data => exact request_add shown malloc fd proc client_data
  | delete_file_handler fd => exact request_delete shown malloc fd
  | append_callback_event proc data => exact request_append shown malloc proc data
  | delete_callback_event id => exact request_delete_callback shown malloc id

theorem requests_rel (a : Answer F P D) (shown : Shows s t) :
    Option.Rel Shows (requests a s) (a.requests.foldlM Watching.request t) := by
  rw [requests]
  induction a.requests generalizing s t with
  | nil => exact .some shown
  | cons r rest ih =>
      have first := request_rel a.callback_event shown r
      rw [List.foldlM_cons, List.foldlM_cons]
      generalize request a.callback_event s r = m, t.request r = m' at first
      cases first with
      | none => exact .none
      | some shown => exact ih shown

end Requests

end CFunc.EventLoop
