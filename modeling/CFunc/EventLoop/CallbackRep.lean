import CFunc.EventLoop.Callbacks
import Mathlib.Data.List.TakeWhile
import Mathlib.Data.Set.Finite.Basic

/-!
The callbacks that are due.

Deleting the newest of several callbacks leaves `last` at `NULL` while `first`
is not: from then on `last` has lost the list, what is appended hangs on no
event that `first` leads to, and this lasts until the list runs empty. `Pending`
is the list with that flag, and `Rep` what the three functions keep.
-/

namespace CFunc.EventLoop

open CFunc.Lib CFunc.Lib.LinkedList

/-- What is registered: the id, the procedure and its argument. -/
abbrev Entry (P D : Type) := Int × P × D

variable {P D : Type}

def CallbackEvent.entry (e : CallbackEvent P D) : Entry P D := (e.id, e.proc, e.data)

/-- The callbacks that are due, and whether `last` has lost them. -/
structure Pending (P D : Type) where
  events : List (Entry P D)
  lost : Bool
  num_callbacks : Nat

namespace Pending

def start (P D : Type) : Pending P D := { events := [], lost := false, num_callbacks := 0 }

/-- What is registered under the next id. -/
def newest (s : Pending P D) (proc : P) (data : D) : Entry P D :=
  ((s.num_callbacks : Int), proc, data)

def append (s : Pending P D) (proc : P) (data : D) : Pending P D :=
  { s with events := if s.lost then s.events else s.events ++ [s.newest proc data],
           num_callbacks := s.num_callbacks + 1 }

def delete (s : Pending P D) (id : Int) : Pending P D :=
  match s.events.dropWhile fun e => e.1 ≠ id with
  | [] => s
  | _ :: after =>
      let events := s.events.takeWhile (fun e => e.1 ≠ id) ++ after
      { s with events := events, lost := (s.lost || after.isEmpty) && !events.isEmpty }

def next (s : Pending P D) : Pending P D :=
  { s with events := s.events.tail, lost := s.lost && !s.events.tail.isEmpty }

theorem delete_absent {s : Pending P D} {id : Int} (absent : ∀ e ∈ s.events, e.1 ≠ id) :
    s.delete id = s := by
  have dropped : s.events.dropWhile (fun e => e.1 ≠ id) = [] := by
    rw [List.dropWhile_eq_nil_iff]
    exact fun e member => decide_eq_true (absent e member)
  rw [delete, dropped]

theorem delete_found {s : Pending P D} {id : Int} {before after : List (Entry P D)}
    {e : Entry P D} (split : s.events = before ++ e :: after)
    (absent : ∀ e ∈ before, e.1 ≠ id) (found : e.1 = id) :
    s.delete id = { s with
      events := before ++ after
      lost := (s.lost || after.isEmpty) && !(before ++ after).isEmpty } := by
  have absent' : ∀ e ∈ before, decide (e.1 ≠ id) = true := by simpa using absent
  have dropped : s.events.dropWhile (fun e => e.1 ≠ id) = e :: after := by
    rw [split, List.dropWhile_append_of_pos absent', List.dropWhile_cons_of_neg (by simp [found])]
  have taken : s.events.takeWhile (fun e => e.1 ≠ id) = before := by
    rw [split, List.takeWhile_append_of_pos absent', List.takeWhile_cons_of_neg (by simp [found]),
      List.append_nil]
  rw [delete, dropped, taken]

theorem delete_events (s : Pending P D) (id : Int) :
    (s.delete id).events = s.events.eraseP fun e => e.1 = id := by
  by_cases absent : ∀ e ∈ s.events, e.1 ≠ id
  · rw [delete_absent absent, List.eraseP_of_forall_not]
    simpa using absent
  · simp only [not_forall, not_not] at absent
    obtain ⟨e, member, found⟩ := absent
    obtain ⟨e, before, after, others, found, split, erased⟩ :=
      List.exists_of_eraseP (p := fun e : Entry P D => e.1 = id) member (decide_eq_true found)
    rw [erased, delete_found split (by simpa using others) (of_decide_eq_true found)]

/-- No more callbacks are due than have been appended. -/
def Bounded (s : Pending P D) : Prop := s.events.length ≤ s.num_callbacks

theorem Bounded.append {s : Pending P D} (bounded : s.Bounded) (proc : P) (data : D) :
    (s.append proc data).Bounded := by
  have grown : (s.append proc data).events.length ≤ s.events.length + 1 := by
    rw [Pending.append]
    split <;> simp
  exact grown.trans (Nat.succ_le_succ bounded)

theorem delete_count (s : Pending P D) (id : Int) :
    (s.delete id).num_callbacks = s.num_callbacks := by
  rw [Pending.delete]
  split <;> rfl

theorem Bounded.delete {s : Pending P D} (bounded : s.Bounded) (id : Int) :
    (s.delete id).Bounded := by
  rw [Bounded, delete_events, delete_count]
  exact (List.length_eraseP_le).trans bounded

theorem Bounded.next {s : Pending P D} (bounded : s.Bounded) : s.next.Bounded := by
  have fewer : s.next.events.length ≤ s.events.length := by simp [Pending.next]
  exact fewer.trans bounded

end Pending

/-- The events from link `p` on, up to link `e`. -/
abbrev Links (cells : Ptr → Option (CallbackEvent P D)) (p : Option Ptr)
    (l : List (Ptr × Entry P D)) (e : Option Ptr) : Prop :=
  Chain CallbackEvent.next CallbackEvent.entry cells p l e

/-- A walk from `first` meets the events of `l`, and `last` is the last of them unless it has lost
them. An event that no walk meets may stay allocated. -/
structure Rep (c : CallbackList P D) (l : List (Ptr × Entry P D)) (s : Pending P D) : Prop where
  chain : Links c.cells c.first l none
  events : l.map Prod.snd = s.events
  nodup : (l.map Prod.fst).Nodup
  tail : s.lost = false → l ≠ [] → c.last = last l
  off : s.lost = true → ∀ a, c.last = some a → a ∉ l.map Prod.fst
  live : ∀ a, c.last = some a → c.cells a ≠ none
  more : s.lost = true → l ≠ []
  count : c.num_callbacks = s.num_callbacks
  finite : {a | c.cells a ≠ none}.Finite

theorem start_rep : Rep (CallbackList.start P D) [] (Pending.start P D) where
  chain := rfl
  events := rfl
  nodup := List.nodup_nil
  tail _ some_event := absurd rfl some_event
  off lost := nomatch lost
  live _ none_last := nomatch none_last
  more lost := nomatch lost
  count := rfl
  finite := by simp [CallbackList.start]

section Steps

variable {c : CallbackList P D} {l before after : List (Ptr × Entry P D)} {s : Pending P D}
  {a p : Ptr} {v : Entry P D}

/-- A change at an address that is not among the events of a chain. -/
theorem links_update {cells : Ptr → Option (CallbackEvent P D)} {h e : Option Ptr}
    {new : Option (CallbackEvent P D)} (chain : Links cells h l e) (off : p ∉ l.map Prod.fst) :
    Links (Function.update cells p new) h l e :=
  chain.congr fun _ member => Function.update_of_ne (ne_of_mem_of_not_mem member off) _ _

theorem Rep.not_mem_of_free (rep : Rep c l s) (fresh : c.cells p = none) :
    p ∉ l.map Prod.fst := by
  intro member
  obtain ⟨⟨_, w⟩, inside, rfl⟩ := List.mem_map.mp member
  obtain ⟨before, after, rfl⟩ := List.append_of_mem inside
  obtain ⟨-, e, read, -⟩ := rep.chain.cell
  rw [read] at fresh
  cases fresh

/-- The addresses before an event are not its own, and neither are those after it. -/
theorem Rep.apart (rep : Rep c (before ++ (a, v) :: after) s) :
    a ∉ before.map Prod.fst ∧ a ∉ after.map Prod.fst ∧
      ((before ++ after).map Prod.fst).Nodup := by
  have nodup := rep.nodup
  rw [List.map_append, List.map_cons, List.nodup_middle, List.nodup_cons,
    ← List.map_append] at nodup
  have off := nodup.1
  rw [List.map_append, List.mem_append, not_or] at off
  exact ⟨off.1, off.2, nodup.2⟩

theorem Rep.first_ne (rep : Rep c l s) (some_event : l ≠ []) : c.first ≠ none := by
  obtain ⟨entry, l, rfl⟩ := List.exists_cons_of_ne_nil some_event
  rw [rep.chain.1]
  exact Option.some_ne_none _

/-- The new event is stored at `p`, and the one that `last` points to is linked to it. -/
theorem append_eq (rep : Rep c l s) (fresh : c.cells p = none)
    (fits : (s.num_callbacks : Int) < INT_MAX) (proc : P) (data : D) :
    ∃ cells, append_callback_event c p proc data =
        some ((s.num_callbacks : Int),
          { first := if c.first = none then some p else c.first, last := some p,
            num_callbacks := (s.num_callbacks : Int) + 1, cells := cells }) ∧
      cells p = some { id := s.num_callbacks, proc := proc, data := data, next := none } ∧
      (∀ a, a ≠ p → c.last ≠ some a → cells a = c.cells a) ∧
      ∀ t e, c.last = some t → c.cells t = some e → cells t = some { e with next := some p } := by
  have counted : addInt s.num_callbacks 1 = some ((s.num_callbacks : Int) + 1) :=
    addInt_eq_some (le_trans (by decide) (Int.natCast_nonneg (s.num_callbacks + 1))) fits
  cases ends : c.last with
  | none =>
      refine ⟨_, by simp [append_callback_event, counted, ends, rep.count]; rfl, ?_, ?_, ?_⟩
      · exact Function.update_self _ _ _
      · exact fun a other _ => Function.update_of_ne other _ _
      · rintro t e ⟨⟩
  | some t =>
      obtain ⟨e, read⟩ := Option.ne_none_iff_exists'.mp (rep.live t ends)
      have other : t ≠ p := by
        rintro rfl
        rw [read] at fresh
        cases fresh
      refine ⟨_, by simp [append_callback_event, counted, ends, rep.count,
        Function.update_of_ne other, read]; rfl, ?_, ?_, ?_⟩
      · rw [Function.update_of_ne other.symm, Function.update_self]
      · intro a new not_last
        rw [Function.update_of_ne (fun same => not_last (congrArg some same.symm)),
          Function.update_of_ne new]
      · rintro _ e' ⟨⟩ read'
        obtain rfl := Option.some.inj (read.symm.trans read')
        exact Function.update_self _ _ _

theorem Rep.exists_free {c : CallbackList P D} {l : List (Ptr × Entry P D)} {s : Pending P D}
    (rep : Rep c l s) : ∃ p, c.cells p = none := by
  obtain ⟨p, off⟩ := rep.finite.exists_notMem
  exact ⟨p, not_not.mp off⟩

/-- No id is given out past the largest `int`. -/
theorem lt_of_append {c c' : CallbackList P D} {p : Ptr} {proc : P} {data : D} {id : Int}
    (run : append_callback_event c p proc data = some (id, c')) : c.num_callbacks < INT_MAX := by
  obtain ⟨n, counted, -⟩ := Option.bind_eq_some_iff.mp run
  rw [addInt] at counted
  split at counted
  next bounds => exact Int.lt_of_add_one_le bounds.2
  · cases counted

theorem append_rep (rep : Rep c l s) (fresh : c.cells p = none)
    (fits : (s.num_callbacks : Int) < INT_MAX) (proc : P) (data : D) :
    ∃ c' l', append_callback_event c p proc data = some ((s.num_callbacks : Int), c') ∧
      Rep c' l' (s.append proc data) := by
  have off := rep.not_mem_of_free fresh
  obtain ⟨cells, run, new, same, linked⟩ := append_eq rep fresh fits proc data
  refine ⟨_, if s.lost then l else l ++ [(p, s.newest proc data)], run, ?_⟩
  have last_live : ∀ a, some p = some a → cells a ≠ none := by
    rintro _ ⟨⟩
    rw [new]
    exact Option.some_ne_none _
  have finite : {a | cells a ≠ none}.Finite := by
    refine (rep.finite.insert p).subset fun a live => ?_
    by_cases new : a = p
    · exact .inl new
    by_cases ends : c.last = some a
    · exact .inr (rep.live a ends)
    · exact .inr ((same a new ends).symm.trans_ne live)
  cases lost : s.lost with
  | true =>
      obtain ⟨entry, l, rfl⟩ := List.exists_cons_of_ne_nil (rep.more lost)
      have first : c.first = some entry.1 := rep.chain.1
      constructor
      · refine Chain.congr (by simpa [first] using rep.chain) fun a member => same a ?_ ?_
        · exact ne_of_mem_of_not_mem member off
        · exact fun ends => rep.off lost a ends member
      · simpa [Pending.append, lost] using rep.events
      · exact rep.nodup
      · exact fun kept => absurd kept (by simp [Pending.append, lost])
      · rintro _ _ ⟨⟩
        exact off
      · exact last_live
      · exact fun _ => rep.more lost
      · rfl
      · exact finite
  | false =>
      have kept : ¬ (s.append proc data).lost = true := by simp [Pending.append, lost]
      rw [if_neg Bool.false_ne_true]
      constructor
      · rcases List.eq_nil_or_concat l with rfl | ⟨init, ⟨t, v⟩, rfl⟩
        · have first : c.first = none := rep.chain
          simp only [first, if_true]
          exact ⟨rfl, _, new, rfl, rfl⟩
        · rw [List.concat_eq_append] at *
          have ends : c.last = some t := (rep.tail lost (by simp)).trans (last_concat _ _ _)
          obtain ⟨before, e, read, rfl, -⟩ := rep.chain.ends
          rw [if_neg (rep.first_ne (by simp))]
          refine Chain.concat ?_ new
          refine Chain.concat (before.congr fun a member => same a ?_ ?_) (linked t e ends read)
          · exact fun new => off (by simp [← new, member])
          · intro same_last
            obtain rfl := Option.some.inj (ends.symm.trans same_last)
            exact rep.apart.1 member
      · simp [Pending.append, lost, rep.events]
      · rw [List.map_append]
        exact List.nodup_append.mpr ⟨rep.nodup, List.nodup_singleton p, by
          rintro a member _ (_ | ⟨_, ⟨⟩⟩) rfl
          exact off member⟩
      · exact fun _ _ => (last_concat _ _ _).symm
      · exact fun lost => absurd lost kept
      · exact last_live
      · exact fun lost => absurd lost kept
      · rfl
      · exact finite

theorem mem_of_last (ends : last l = some a) : a ∈ l.map Prod.fst := by
  obtain ⟨init, w, rfl⟩ := eq_concat_of_last ends
  simp

/-- The event at `a` is unlinked, found behind the events before it, and freed. -/
theorem unlink_rep (rep : Rep c (before ++ (a, v) :: after) s) (s' : Pending P D)
    (events : (before ++ after).map Prod.snd = s'.events)
    (lost : s'.lost = ((s.lost || after.isEmpty) && !(before ++ after).isEmpty))
    (count : s'.num_callbacks = s.num_callbacks) :
    ∃ e c', c.cells a = some e ∧ e.entry = v ∧ assign c (last before) e.next = some c' ∧
      Rep (release c' a) (before ++ after) s' := by
  obtain ⟨off, off', nodup⟩ := rep.apart
  obtain ⟨first, e, read, datum, rest⟩ := rep.chain.cell
  have unlinked : ∃ c', assign c (last before) e.next = some c' ∧ c'.last = c.last ∧
      c'.num_callbacks = c.num_callbacks ∧ (∀ x, c'.cells x = none ↔ c.cells x = none) ∧
      Links (Function.update c'.cells a none) c'.first (before ++ after) none := by
    rcases List.eq_nil_or_concat before with rfl | ⟨init, ⟨b, w⟩, rfl⟩
    · exact ⟨_, rfl, rfl, rfl, fun _ => Iff.rfl, links_update rest off'⟩
    · rw [List.concat_eq_append] at *
      obtain ⟨start, d, read_b, rfl, -⟩ := first.ends
      have other : b ≠ a := fun same => off (by simp [same])
      have distinct := nodup
      rw [List.append_assoc, List.map_append, List.singleton_append, List.map_cons,
        List.nodup_middle, List.nodup_cons, ← List.map_append, List.map_append, List.mem_append,
        not_or] at distinct
      refine ⟨{ c with cells := Function.update c.cells b (some { d with next := e.next }) },
        by simp [assign, read_b], rfl, rfl, ?_, ?_⟩
      · intro x
        by_cases here : x = b
        · simp [here, read_b]
        · simp [here]
      · have new : Function.update (Function.update c.cells b (some { d with next := e.next }))
            a none b = some { d with next := e.next } := by
          rw [Function.update_of_ne other, Function.update_self]
        refine chain_append.mpr ⟨e.next, Chain.concat ?_ new, ?_⟩
        · exact links_update (links_update start distinct.1.1) fun member => off (by simp [member])
        · exact links_update (links_update rest distinct.1.2) off'
  obtain ⟨c', run, same_last, same_count, live, chain⟩ := unlinked
  refine ⟨e, c', read, datum, run, ?_⟩
  have ends (x : Ptr) (points : (release c' a).last = some x) : c.last = some x ∧ x ≠ a := by
    rw [release, same_last] at points
    split at points
    · cases points
    next other => exact ⟨points, fun same => other (same ▸ points)⟩
  constructor
  · exact chain
  · exact events
  · exact nodup
  · intro kept some_event
    rw [lost] at kept
    obtain ⟨known, more⟩ : s.lost = false ∧ after ≠ [] := by simpa [some_event] using kept
    have points : c.last = last after := by
      rw [rep.tail known (by simp), last_append (List.cons_ne_nil _ _), last_cons _ more]
    have not_last : c.last ≠ some a := by
      rw [points]
      exact fun same => off' (mem_of_last same)
    rw [release, same_last, if_neg not_last, points, last_append more]
  · intro lost' x points member
    obtain ⟨points, other⟩ := ends x points
    have member' : x ∈ (before ++ (a, v) :: after).map Prod.fst := by
      rw [List.map_append, List.mem_append] at member ⊢
      exact member.imp_right (List.mem_cons_of_mem a)
    cases known : s.lost with
    | true => exact rep.off known x points member'
    | false =>
        have alone : after = [] := by
          rw [lost, known] at lost'
          simp_all
        subst alone
        rw [rep.tail known (by simp), last_concat] at points
        exact other (Option.some.inj points).symm
  · intro x points
    obtain ⟨points, other⟩ := ends x points
    simpa [release, other, live] using rep.live x points
  · intro lost' none_left
    rw [lost, none_left] at lost'
    simp at lost'
  · rw [release, same_count, count, rep.count]
  · refine rep.finite.subset fun x allocated => ?_
    by_cases here : x = a
    · simp [release, here] at allocated
    · simpa [release, here, live] using allocated

/-- Where there are several events, `last` is not the first of them. -/
theorem Rep.last_ne (rep : Rep c ((a, v) :: after) s) (more : after ≠ []) : c.last ≠ some a := by
  intro points
  cases known : s.lost with
  | true => exact rep.off known a points List.mem_cons_self
  | false =>
      rw [rep.tail known (List.cons_ne_nil _ _), last_cons _ more] at points
      exact (Rep.apart (show Rep c ([] ++ (a, v) :: after) s from rep)).2.1 (mem_of_last points)

theorem process_rep (rep : Rep c l s) :
    ∃ c' l', process_callback c = some (s.events.head?.map Prod.snd, c') ∧ Rep c' l' s.next := by
  cases l with
  | nil =>
      have none_due : s.events = [] := rep.events.symm
      have first : c.first = none := rep.chain
      have kept : s.lost = false := Bool.eq_false_iff.mpr fun lost => rep.more lost rfl
      refine ⟨c, [], by simp [process_callback, first, none_due], ?_⟩
      have same : s.next = s := by
        rw [Pending.next, none_due, kept]
        cases s
        simp_all
      rwa [same]
  | cons entry after =>
      obtain ⟨a, v⟩ := entry
      obtain ⟨first, e, read, datum, rest⟩ := rep.chain
      obtain ⟨-, off, nodup⟩ := Rep.apart (show Rep c ([] ++ (a, v) :: after) s from rep)
      have due : s.events = v :: after.map Prod.snd := rep.events.symm
      have left : s.events.tail.isEmpty = after.isEmpty := by
        rw [due]
        cases after <;> rfl
      have ends : e.next = none ↔ after = [] := by
        rw [Chain.first_eq rest, first_eq_none]
      refine ⟨{ c with first := e.next, last := (if e.next = none then none else c.last),
                       cells := Function.update c.cells a none }, after, ?_, ?_⟩
      · rw [due, ← datum]
        cases next : e.next <;> simp [process_callback, first, read, next, CallbackEvent.entry]
      · have stays (x : Ptr) (points : (if e.next = none then none else c.last) = some x) :
            after ≠ [] ∧ c.last = some x := by
          split at points
          · cases points
          next other => exact ⟨fun alone => other (ends.mpr alone), points⟩
        constructor
        · exact links_update rest off
        · simp [Pending.next, due]
        · exact nodup
        · intro kept more
          have known : s.lost = false := by simpa [Pending.next, left, more] using kept
          exact (if_neg fun none_left => more (ends.mp none_left)).trans
            ((rep.tail known (List.cons_ne_nil _ _)).trans (last_cons _ more))
        · intro lost x points member
          obtain ⟨-, points⟩ := stays x points
          have known : s.lost = true := by
            rw [Pending.next] at lost
            exact (Bool.and_eq_true_iff.mp lost).1
          exact rep.off known x points (List.mem_cons_of_mem a member)
        · intro x points
          obtain ⟨more, points⟩ := stays x points
          have other : x ≠ a := fun same => rep.last_ne more (same ▸ points)
          simpa [other] using rep.live x points
        · intro lost none_left
          simp [Pending.next, left, none_left] at lost
        · exact rep.count
        · refine rep.finite.subset fun x allocated => ?_
          by_cases here : x = a
          · simp [here] at allocated
          · simpa [here] using allocated

/-- The loop from where it has passed some of the events, none of them with the id. -/
theorem run_search {id : Int} (rep : Rep c (before ++ after) s)
    (absent : ∀ e ∈ before.map Prod.snd, e.1 ≠ id) :
    ∃ t l', Loop.run (fun t => t.event_ptr.isSome) (search id) after.length
        { c := c, p := last before, event_ptr := first after } = .done t ∧
      Rep t.c l' (s.delete id) := by
  induction after generalizing before with
  | nil =>
      refine ⟨_, before ++ [], Loop.run_of_guard_false rfl _, ?_⟩
      rw [Pending.delete_absent]
      · exact rep
      · rwa [← rep.events, List.append_nil]
  | cons entry after ih =>
      obtain ⟨a, v⟩ := entry
      obtain ⟨-, e, read, datum, rest⟩ := rep.chain.cell
      by_cases found : v.1 = id
      · have split : s.events = before.map Prod.snd ++ v :: after.map Prod.snd := by
          rw [← rep.events, List.map_append, List.map_cons]
        have deleted := Pending.delete_found split absent found
        obtain ⟨e', c', read', -, unlinked, rep'⟩ := unlink_rep rep (s.delete id)
          (by rw [deleted, List.map_append])
          (by rw [deleted, ← List.map_append, List.isEmpty_map, List.isEmpty_map]) (by rw [deleted])
        obtain rfl := Option.some.inj (read.symm.trans read')
        have step : search id { c := c, p := last before, event_ptr := some a } =
            some { c := release c' a, p := last before, event_ptr := none } := by
          have id_eq : e.id = id := by rw [← found, ← datum, CallbackEvent.entry]
          simp [search, read, id_eq, unlinked]
        refine ⟨{ c := release c' a, p := last before, event_ptr := none }, before ++ after, ?_,
          rep'⟩
        rw [List.length_cons, first_cons, Loop.run_succ_of_step rfl step,
          Loop.run_of_guard_false rfl]
      · have step : search id { c := c, p := last before, event_ptr := some a } =
            some { c := c, p := some a, event_ptr := e.next } := by
          have id_ne : e.id ≠ id := by rwa [← datum, CallbackEvent.entry] at found
          simp [search, read, id_ne]
        rw [List.length_cons, first_cons, Loop.run_succ_of_step rfl step, Chain.first_eq rest,
          ← last_concat before a v]
        refine ih (by simpa using rep) ?_
        rw [List.map_append]
        rintro _ member
        rcases List.mem_append.mp member with old | new
        · exact absent _ old
        · obtain rfl := List.mem_singleton.mp new
          exact found

theorem delete_rep (rep : Rep c l s) (id : Int) :
    ∃ t l', (∀ fuel ≥ l.length, delete_callback_event fuel c id = .done t) ∧
      Rep t.c l' (s.delete id) := by
  obtain ⟨t, l', run, rep'⟩ := run_search (show Rep c ([] ++ l) s from rep)
    fun _ member => absurd member List.not_mem_nil
  refine ⟨t, l', fun fuel enough => Loop.run_mono ?_ enough, rep'⟩
  rwa [rep.chain.first_eq]

end Steps

end CFunc.EventLoop
