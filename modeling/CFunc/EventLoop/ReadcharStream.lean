import CFunc.EventLoop.Readchar

/-!
The buffer hands out the stream.

A history of the buffer shows the bytes received in their order, and a callback
for what is left, exactly when no `readchar` comes between a `read` that failed
and the closing of the connection, and the ids of the callbacks stay within
`int`. The callback list never holds more than one callback of the buffer, so
that it never loses one.
-/

namespace CFunc.EventLoop.Remote

open CFunc.Lib

/-! ### The callback of the buffer -/

/-- The callbacks that are due, `id` being that of the buffer. -/
def due (id : Int) (scheduled : Bool) (n : Nat) : Pending Callback Unit :=
  { events := if scheduled then [(id, .process_remaining, ())] else []
    lost := false
    num_callbacks := n }

structure Scheduled (id : Int) (c : CallbackList Callback Unit) (scheduled : Bool) (n : Nat) :
    Prop where
  list : ∃ l, Rep c l (due id scheduled n)
  bounded : (due id scheduled n).Bounded
  known : scheduled = false ↔ id = NOT_SCHEDULED

section Scheduling

variable {id : Int} {c : CallbackList Callback Unit} {scheduled : Bool} {n : Nat}

theorem Scheduled.append (idle : Scheduled id c false n) (fits : (n : Int) < INT_MAX)
    (malloc : Malloc (CallbackEvent Callback Unit)) :
    ∃ c', append_callback_event c (malloc.address c.cells) .process_remaining () =
        some ((n : Int), c') ∧ Scheduled n c' true (n + 1) := by
  obtain ⟨l, rep⟩ := idle.list
  obtain ⟨c', l', run, rep'⟩ :=
    append_rep rep (malloc.free c.cells rep.exists_free) fits Callback.process_remaining ()
  refine ⟨c', run, ⟨l', rep'⟩, idle.bounded.append .process_remaining (), ?_⟩
  refine ⟨fun none_due => absurd none_due (by decide), fun same => ?_⟩
  rw [NOT_SCHEDULED] at same
  omega

theorem Scheduled.append_none (idle : Scheduled id c false n) (full : ¬ (n : Int) < INT_MAX)
    (p : Ptr) : append_callback_event c p Callback.process_remaining () = none := by
  obtain ⟨l, rep⟩ := idle.list
  by_contra some_id
  obtain ⟨⟨id', c'⟩, run⟩ := Option.ne_none_iff_exists'.mp some_id
  exact full (rep.count ▸ lt_of_append run)

/-- The callback is taken out of the list. -/
theorem Scheduled.delete (is_due : Scheduled id c true n) :
    ∃ t, delete_callback_event c.num_callbacks.toNat c id = .done t ∧
      Scheduled NOT_SCHEDULED t.c false n := by
  obtain ⟨l, rep⟩ := is_due.list
  obtain ⟨t, l', run, rep'⟩ := delete_rep rep id
  have enough : c.num_callbacks.toNat ≥ l.length := by
    have bounded := is_due.bounded
    rw [Pending.Bounded, ← rep.events, List.length_map] at bounded
    rw [rep.count]
    exact bounded
  have deleted : (due id true n).delete id = due NOT_SCHEDULED false n := by
    simp [due, Pending.delete]
  rw [deleted] at rep'
  exact ⟨t, run _ enough, ⟨l', rep'⟩, Nat.zero_le _, fun _ => rfl, fun _ => rfl⟩

theorem Scheduled.process (is_due : Scheduled id c scheduled n) :
    ∃ c', process_callback c =
        some (if scheduled then some (.process_remaining, ()) else none, c') ∧
      Scheduled NOT_SCHEDULED c' false n := by
  obtain ⟨l, rep⟩ := is_due.list
  obtain ⟨c', l', run, rep'⟩ := process_rep rep
  have next : (due id scheduled n).next = due NOT_SCHEDULED false n := by
    cases scheduled <;> rfl
  rw [next] at rep'
  refine ⟨c', ?_, ⟨l', rep'⟩, Nat.zero_le _, fun _ => rfl, fun _ => rfl⟩
  rw [run]
  cases scheduled <;> rfl

end Scheduling

/-! ### The buffer -/

/-- The buffer holds what is left of the stream. -/
structure Holds (s : Readchar) (t : Stream) : Prop where
  count : s.readchar_bufcnt = if t.failed then -1 else (t.left.length : Int)
  failed : t.failed = true → t.left = []
  fits : t.left.length ≤ BUFSIZ
  counted : (t.num_callbacks : Int) ≤ INT_MAX
  left : t.left ≠ [] → ∃ i, s.readchar_bufp = some i ∧ t.left <+: s.readchar_buf.drop i
  scheduled : Scheduled s.readchar_callback s.callback_list t.scheduled t.num_callbacks

theorem start_holds : Holds Readchar.start Stream.start where
  count := rfl
  failed failed := nomatch failed
  fits := Nat.zero_le _
  counted := by decide
  left some_left := absurd rfl some_left
  scheduled := ⟨⟨[], start_rep⟩, le_rfl, fun _ => rfl, fun _ => rfl⟩

section Steps

variable {s : Readchar} {t : Stream} {ch : Byte} {left : List Byte}

/-- For what is left in the buffer, a callback is scheduled unless there is one. -/
theorem reschedule_holds (malloc : Malloc (CallbackEvent Callback Unit))
    (count : s.readchar_bufcnt = (left.length : Int))
    (scheduled : Scheduled s.readchar_callback s.callback_list t.scheduled t.num_callbacks)
    (counted : (t.num_callbacks : Int) ≤ INT_MAX) :
    (((t.take left).num_callbacks : Int) ≤ INT_MAX → ∃ id c,
      reschedule malloc s = some { s with readchar_callback := id, callback_list := c } ∧
        Scheduled id c (t.take left).scheduled (t.take left).num_callbacks) ∧
    (¬ ((t.take left).num_callbacks : Int) ≤ INT_MAX → reschedule malloc s = none) := by
  have asks : (0 < s.readchar_bufcnt ∧ s.readchar_callback = NOT_SCHEDULED) ↔
      ¬ (left = [] ∨ t.scheduled = true) := by
    rw [count, Int.natCast_pos, List.length_pos_iff, not_or, Bool.not_eq_true, scheduled.known]
  by_cases idle : left = [] ∨ t.scheduled = true
  · have same : (t.take left).num_callbacks = t.num_callbacks ∧
        (t.take left).scheduled = t.scheduled := by
      rw [Stream.take, if_pos idle]
      exact ⟨rfl, rfl⟩
    rw [same.1, same.2]
    refine ⟨fun _ => ⟨_, _, ?_, scheduled⟩, fun full => absurd counted full⟩
    rw [reschedule, if_neg (asks.not_left.mpr idle)]
  · have new : (t.take left).num_callbacks = t.num_callbacks + 1 ∧
        (t.take left).scheduled = true := by
      rw [Stream.take, if_neg idle]
      exact ⟨rfl, rfl⟩
    have free : t.scheduled = false := Bool.eq_false_iff.mpr fun due => idle (.inr due)
    rw [free] at scheduled
    rw [new.1, new.2, Int.natCast_succ, Int.add_one_le_iff]
    constructor
    · intro fits
      obtain ⟨c, run, appended⟩ := scheduled.append fits malloc
      exact ⟨_, c, by simp [reschedule, asks.mpr idle, run], appended⟩
    · intro full
      simp [reschedule, asks.mpr idle, scheduled.append_none full]

/-- A byte is handed out, and a callback is there for what is left. -/
theorem next_char_holds (malloc : Malloc (CallbackEvent Callback Unit)) (holds : Holds s t)
    (bytes : t.left = ch :: left) :
    (((t.take left).num_callbacks : Int) ≤ INT_MAX →
      ∃ s', next_char malloc s = some ((ch.toNat : Int), s') ∧ Holds s' (t.take left)) ∧
    (¬ ((t.take left).num_callbacks : Int) ≤ INT_MAX → next_char malloc s = none) := by
  have kept : t.failed = false := by
    by_contra failed
    have none_left := holds.failed (Bool.eq_true_of_not_eq_false failed)
    rw [bytes] at none_left
    cases none_left
  have count : s.readchar_bufcnt = (left.length : Int) + 1 := by
    rw [holds.count, kept, bytes]
    rfl
  have fits : (left.length : Int) + 1 ≤ BUFSIZ := by
    have fits := holds.fits
    rw [bytes, List.length_cons] at fits
    exact_mod_cast fits
  have counted : addInt s.readchar_bufcnt (-1) = some (left.length : Int) := by
    rw [addInt_eq_some, count, Int.add_neg_cancel_right]
    all_goals rw [count]; simp only [INT_MIN, INT_MAX, BUFSIZ] at *; omega
  obtain ⟨i, at_i, rest⟩ := holds.left (by rw [bytes]; exact List.cons_ne_nil _ _)
  rw [bytes] at rest
  obtain ⟨after, split⟩ := rest
  have read : s.readchar_buf[i]? = some ch := by
    rw [← List.head?_drop, ← split]
    rfl
  have rest : left <+: s.readchar_buf.drop (i + 1) := by
    refine ⟨after, ?_⟩
    rw [← List.tail_drop, ← split]
    rfl
  have asked := reschedule_holds (t := t) (s := { s with
      readchar_bufcnt := (left.length : Int), readchar_bufp := some (i + 1) }) malloc
    (rfl : (left.length : Int) = left.length) holds.scheduled holds.counted
  have same : (t.take left).left = left ∧ (t.take left).failed = false := by
    rw [Stream.take]
    split <;> exact ⟨rfl, kept⟩
  constructor
  · intro fits'
    obtain ⟨id, c, run, due⟩ := asked.1 fits'
    refine ⟨_, by simp [next_char, counted, at_i, read, run]; rfl, ?_⟩
    constructor
    · rw [same.1, same.2]
      rfl
    · exact fun failed => absurd (same.2.symm.trans failed) Bool.false_ne_true
    · rw [same.1]
      exact_mod_cast (Int.lt_of_add_one_le fits).le
    · exact fits'
    · exact fun _ => ⟨_, rfl, by rwa [same.1]⟩
    · exact due
  · intro full
    simp [next_char, counted, at_i, read, asked.2 full]

theorem readchar_holds (received : Received) (malloc : Malloc (CallbackEvent Callback Unit))
    (holds : Holds s t) (alive : t.failed = false) :
    let next := t.use (.readchar received malloc)
    ((next.2.num_callbacks : Int) ≤ INT_MAX →
      ∃ ch reads s', readchar received malloc s = some (ch, reads, s') ∧
        next.1 = .returned ch reads ∧ Holds s' next.2) ∧
    (¬ (next.2.num_callbacks : Int) ≤ INT_MAX → readchar received malloc s = none) := by
  intro next
  cases bytes : t.left with
  | cons ch left =>
      have some_left : s.readchar_bufcnt ≠ 0 := by
        rw [holds.count, alive, bytes, List.length_cons]
        exact Int.natCast_ne_zero.mpr (Nat.succ_ne_zero _)
      have same : next = (.returned ch.toNat false, t.take left) := by
        simp only [next, Stream.use, bytes]
      have taken := next_char_holds malloc holds bytes
      rw [same, readchar.eq_def, if_neg some_left]
      constructor
      · intro fits
        obtain ⟨s', run, holds'⟩ := taken.1 fits
        exact ⟨_, _, s', by simp [run], rfl, holds'⟩
      · intro full
        simp [taken.2 full]
  | nil =>
      have none_left : s.readchar_bufcnt = 0 := by
        rw [holds.count, alive, bytes]
        rfl
      rw [readchar.eq_def, if_pos none_left]
      cases received with
      | failed =>
          have same : next = (.returned (-1) true, { t with failed := true }) := by
            simp only [next, Stream.use, bytes]
          rw [same]
          refine ⟨fun _ => ⟨_, _, _, rfl, rfl, ?_⟩, fun full => absurd holds.counted full⟩
          exact ⟨rfl, fun _ => bytes, holds.fits, holds.counted, fun more => absurd bytes more,
            holds.scheduled⟩
      | got data fits =>
          cases data with
          | nil =>
              have same : next = (.returned (-1) true, { t with failed := false }) := by
                simp only [next, Stream.use, bytes]
              rw [same]
              refine ⟨fun _ => ⟨_, _, _, rfl, rfl, ?_⟩, fun full => absurd holds.counted full⟩
              constructor
              · simp [bytes]
              · exact fun _ => bytes
              · exact holds.fits
              · exact holds.counted
              · exact fun more => absurd bytes more
              · exact holds.scheduled
          | cons ch left =>
              have filled : Holds { s with
                  readchar_buf := (ch :: left) ++ s.readchar_buf.drop (ch :: left).length
                  readchar_bufcnt := (ch :: left).length
                  readchar_bufp := some 0 } { t with left := ch :: left, failed := false } :=
                ⟨rfl, fun failed => absurd failed Bool.false_ne_true, fits, holds.counted,
                  fun _ => ⟨0, rfl, List.prefix_append _ _⟩, holds.scheduled⟩
              have same : next = (.returned ch.toNat true,
                  Stream.take left { t with left := ch :: left, failed := false }) := by
                simp only [next, Stream.use, bytes]
                rfl
              have taken := next_char_holds malloc filled rfl
              have more : ¬ ((ch :: left).length : Int) ≤ 0 := by
                rw [List.length_cons]
                omega
              rw [same]
              constructor
              · intro counted
                obtain ⟨s', run, holds'⟩ := taken.1 counted
                exact ⟨_, _, s', by simp only [if_neg more, run]; rfl, rfl, holds'⟩
              · intro full
                simp only [if_neg more, taken.2 full]
                rfl

/-- The buffer is emptied, and its callback is not to run. -/
theorem reset_holds (holds : Holds s t) :
    ∃ s', reset_readchar s = some s' ∧ Holds s' (t.use .reset_readchar).2 := by
  have scheduled := holds.scheduled
  cases due : t.scheduled with
  | false =>
      rw [due] at scheduled
      refine ⟨{ s with readchar_bufcnt := 0 }, ?_, ?_⟩
      · simp [reset_readchar, scheduled.known.mp rfl]
      · exact ⟨rfl, fun _ => rfl, Nat.zero_le _, holds.counted, fun more => absurd rfl more,
          scheduled⟩
  | true =>
      rw [due] at scheduled
      obtain ⟨d, run, deleted⟩ := scheduled.delete
      have known : s.readchar_callback ≠ NOT_SCHEDULED :=
        mt scheduled.known.mpr Bool.true_eq_false.mp
      refine ⟨{ s with readchar_bufcnt := 0, callback_list := d.c,
                       readchar_callback := NOT_SCHEDULED }, ?_, ?_⟩
      · simp [reset_readchar, known, run]
      · exact ⟨rfl, fun _ => rfl, Nat.zero_le _, holds.counted, fun more => absurd rfl more,
          deleted⟩

theorem process_holds (holds : Holds s t) :
    ∃ s', Remote.use .process_callback s =
        some { state := s', output := [(t.use .process_callback).1], stopped := false } ∧
      Holds s' (t.use .process_callback).2 := by
  obtain ⟨c, run, processed⟩ := holds.scheduled.process
  cases due : t.scheduled with
  | false =>
      rw [due] at run
      refine ⟨s, by simp [Remote.use, Stream.use, run, due], ?_⟩
      rwa [Stream.use, if_neg (by rw [due]; exact Bool.false_ne_true)]
  | true =>
      rw [due] at run
      have positive : 0 < s.readchar_bufcnt ↔ t.left ≠ [] := by
        rw [holds.count]
        split
        next failed => simp [holds.failed failed]
        · rw [Int.natCast_pos, List.length_pos_iff]
      refine ⟨{ s with callback_list := c, readchar_callback := NOT_SCHEDULED }, ?_, ?_⟩
      · simp [Remote.use, Stream.use, run, due, process_remaining, positive]
      · rw [Stream.use, if_pos due]
        exact ⟨holds.count, holds.failed, holds.fits, holds.counted, holds.left, processed⟩

end Steps

/-! ### Histories -/

/-- A `readchar` that serves the stream: no `read` has failed before it, and the callback that it
may append gets an id. -/
def Stream.Serves (t : Stream) : Use → Prop
  | .readchar received malloc =>
      t.failed = false ∧ ((t.use (.readchar received malloc)).2.num_callbacks : Int) ≤ INT_MAX
  | .reset_readchar | .process_callback => True

def Stream.Served : List Use → Stream → Prop
  | [], _ => True
  | u :: uses, t => t.Serves u ∧ Served uses (t.use u).2

theorem use_holds {s : Readchar} {t : Stream} {u : Use} (holds : Holds s t) (serves : t.Serves u) :
    ∃ s', use u s = some { state := s', output := [(t.use u).1], stopped := false } ∧
      Holds s' (t.use u).2 := by
  cases u with
  | readchar received malloc =>
      obtain ⟨ch, reads, s', run, same, holds'⟩ :=
        (readchar_holds received malloc holds serves.1).1 serves.2
      exact ⟨s', by simp [use, run, same], holds'⟩
  | reset_readchar =>
      obtain ⟨s', run, holds'⟩ := reset_holds holds
      exact ⟨s', by simp [use, run, Stream.use], holds'⟩
  | process_callback => exact process_holds holds

/-- After a `read` that failed no `readchar` calls it again. -/
theorem use_differs {s : Readchar} {t : Stream} {u : Use} (holds : Holds s t)
    (unserved : ¬ t.Serves u) {r : Reactive.Response Readchar Seen} (run : use u s = some r) :
    ∃ seen, r.output = [seen] ∧ seen ≠ (t.use u).1 := by
  cases u with
  | reset_readchar => exact absurd trivial unserved
  | process_callback => exact absurd trivial unserved
  | readchar received malloc =>
      obtain ⟨⟨ch, reads, s'⟩, called, same⟩ := Option.bind_eq_some_iff.mp run
      obtain rfl := Option.some.inj same
      refine ⟨_, rfl, ?_⟩
      cases failed : t.failed with
      | false =>
          have full := fun fits => unserved ⟨failed, fits⟩
          rw [(readchar_holds received malloc holds failed).2 full] at called
          cases called
      | true =>
          have some_left : s.readchar_bufcnt ≠ 0 := by
            rw [holds.count, if_pos failed]
            decide
          have not_read : reads = false := by
            rw [readchar.eq_def, if_neg some_left] at called
            obtain ⟨_, -, same⟩ := Option.bind_eq_some_iff.mp called
            cases same
            rfl
          have reads_again : ∃ ch', (t.use (.readchar received malloc)).1 = .returned ch' true := by
            simp only [Stream.use, holds.failed failed]
            cases received with
            | failed => exact ⟨_, rfl⟩
            | got data _ => cases data <;> exact ⟨_, rfl⟩
          obtain ⟨ch', reads_again⟩ := reads_again
          rw [not_read, reads_again]
          rintro ⟨⟩

theorem stream_seen_iff_of_holds {uses : List Use} : ∀ {s : Readchar} {t : Stream}, Holds s t →
    ((Reactive.run use uses s).map Reactive.Response.output = some (t.seen uses) ↔
      t.Served uses) := by
  induction uses with
  | nil => exact fun _ => ⟨fun _ => trivial, fun _ => rfl⟩
  | cons u uses ih =>
      intro s t holds
      by_cases serves : t.Serves u
      · obtain ⟨s', step, holds'⟩ := use_holds holds serves
        have rest := ih holds'
        rw [Stream.seen, Reactive.run_cons_output step, rest, Stream.Served, and_iff_right serves]
      · refine ⟨fun ran => ?_, fun served => absurd served.1 serves⟩
        obtain ⟨r, ran, shown⟩ := Option.map_eq_some_iff.mp ran
        obtain ⟨first, step, ⟨-, rfl⟩ | ⟨-, rest, -, rfl⟩⟩ := Reactive.run_cons ran
        all_goals
          obtain ⟨seen, output, differs⟩ := use_differs holds serves step
          rw [output, Stream.seen] at shown
          exact absurd (List.cons.inj shown).1 differs

/-- A history of the buffer shows the stream exactly when each `readchar` of it serves the
stream. -/
theorem stream_seen_iff (uses : List Use) :
    (Reactive.run use uses Readchar.start).map Reactive.Response.output =
      some (Stream.start.seen uses) ↔ Stream.start.Served uses :=
  stream_seen_iff_of_holds start_holds

end CFunc.EventLoop.Remote
