import Mathlib.Data.List.Chain
import Mathlib.Data.List.Nodup
import Mathlib.Logic.Function.Basic

/-!
Doubly linked rings.

Every node has two links, which may be null. A ring runs along `next` from a
node through others and back to it, and the other way round along `prev`. All
updates here are made of one, `Heap.link`, which joins two nodes and cuts both
from their old neighbours on that side: `Ring.insert`, `Ring.delete` and
`Ring.splice` say what becomes of the rings, and `Ring.frame` which do not
change. A ring may be entered at any node (`closed_append_comm`).
-/

namespace CFunc.Lib.LinkedRing

universe u

structure Heap (κ : Type u) where
  next : κ → Option κ
  prev : κ → Option κ

variable {κ : Type u}

/-- `b` follows `a`, and `a` precedes `b`. -/
def Heap.Link (h : Heap κ) (a b : κ) : Prop := h.next a = some b ∧ h.prev b = some a

/-- From `a` through `l` and back. -/
structure Ring (h : Heap κ) (a : κ) (l : List κ) : Prop where
  chain : (a :: (l ++ [a])).IsChain h.Link
  nodup : (a :: l).Nodup

variable {h h' : Heap κ} {a b : κ} {l r : List κ}

namespace Ring

theorem next_eq (ring : Ring h a l) : h.next a = (l ++ [a]).head? := by
  have first := ring.chain.rel_head?
  cases l with
  | nil => exact (first rfl).1
  | cons x l => exact (first rfl).1

theorem prev_eq (ring : Ring h a l) : h.prev a = (a :: l).getLast? := by
  have chain := ring.chain
  rw [← List.cons_append, List.isChain_append] at chain
  have last := List.getLast?_eq_some_getLast (List.cons_ne_nil a l)
  rw [last]
  exact (chain.2.2 _ last a rfl).2

/-- The node that a ring is entered at has one behind it. -/
theorem next_link (ring : Ring h a l) : ∃ n ∈ a :: l, h.Link a n := by
  have first := ring.chain.rel_head?
  cases l with
  | nil => exact ⟨a, List.mem_cons_self, first rfl⟩
  | cons x l => exact ⟨x, List.mem_cons_of_mem a List.mem_cons_self, first rfl⟩

/-- The node that a ring is entered at has one before it. -/
theorem prev_link (ring : Ring h a l) : ∃ p ∈ a :: l, h.Link p a := by
  have chain := ring.chain
  rw [← List.cons_append, List.isChain_append] at chain
  have last := List.getLast?_eq_some_getLast (List.cons_ne_nil a l)
  exact ⟨_, List.getLast_mem _, chain.2.2 _ last a rfl⟩

theorem next_mem (ring : Ring h a l) {n : κ} (next : h.next a = some n) : n ∈ a :: l := by
  have member := List.mem_of_mem_head? (ring.next_eq.symm.trans next)
  rw [List.mem_append, List.mem_singleton, or_comm] at member
  exact List.mem_cons.mpr member

theorem prev_mem (ring : Ring h a l) {p : κ} (prev : h.prev a = some p) : p ∈ a :: l :=
  List.mem_of_mem_getLast? (ring.prev_eq.symm.trans prev)

/-- A ring is kept where the links of its nodes are. -/
theorem frame (ring : Ring h a l)
    (same : ∀ x ∈ a :: l, h'.next x = h.next x ∧ h'.prev x = h.prev x) : Ring h' a l where
  chain := by
    have inside (x : κ) (member : x ∈ a :: (l ++ [a])) : x ∈ a :: l := by
      rw [← List.cons_append, List.mem_append, List.mem_singleton] at member
      exact member.elim id fun here => here ▸ List.mem_cons_self
    refine ring.chain.imp_of_mem_imp fun x y x_mem y_mem old => ⟨?_, ?_⟩
    · exact (same x (inside x x_mem)).1.trans old.1
    · exact (same y (inside y y_mem)).2.trans old.2
  nodup := ring.nodup

/-- A ring is renamed where every link is. -/
theorem map {f : κ → κ} (injective : Function.Injective f)
    (links : ∀ x y, h.Link x y → h'.Link (f x) (f y)) (ring : Ring h a l) :
    Ring h' (f a) (l.map f) where
  chain := by
    rw [← List.map_singleton, ← List.map_append, ← List.map_cons, List.isChain_map]
    exact ring.chain.imp links
  nodup := by
    rw [← List.map_cons]
    exact ring.nodup.map injective

/-- A node alone. -/
theorem single (self : h.Link a a) : Ring h a [] :=
  ⟨.cons_cons self (.singleton a), List.nodup_singleton a⟩

end Ring

/-- The nodes form a ring in their order. -/
def Closed (h : Heap κ) : List κ → Prop
  | [] => True
  | a :: l => Ring h a l

theorem closed_append_comm : Closed h (l ++ r) ↔ Closed h (r ++ l) := by
  have half {a b : κ} {l r : List κ} (ring : Ring h a (l ++ b :: r)) : Ring h b (r ++ a :: l) := by
    constructor
    · have chain := ring.chain
      rw [List.append_assoc, List.cons_append, List.isChain_cons_split] at chain
      rw [List.append_assoc, List.cons_append, List.isChain_cons_split]
      exact ⟨chain.2, chain.1⟩
    · have perm : (b :: (r ++ a :: l)).Perm (a :: (l ++ b :: r)) := by
        rw [← List.cons_append, ← List.cons_append]
        exact List.perm_append_comm
      exact perm.nodup_iff.mpr ring.nodup
  cases l with
  | nil => rw [List.nil_append, List.append_nil]
  | cons a l =>
      cases r with
      | nil => rw [List.nil_append, List.append_nil]
      | cons b r => exact ⟨half, half⟩

/-- A ring entered at another of its nodes. -/
theorem Ring.enter {x : κ} (ring : Ring h a l) (member : x ∈ a :: l) :
    ∃ r, Ring h x r ∧ ∀ y, y ∈ x :: r ↔ y ∈ a :: l := by
  obtain ⟨before, after, split⟩ := List.append_of_mem member
  have closed : Closed h (before ++ x :: after) := split ▸ ring
  refine ⟨after ++ before, closed_append_comm.mp closed, fun y => ?_⟩
  rw [split, ← List.cons_append]
  exact List.perm_append_comm.mem_iff

/-! ### Links that change -/

variable [DecidableEq κ]

/-- `b` is made to follow `a`. -/
def Heap.link (h : Heap κ) (a b : κ) : Heap κ where
  next := Function.update h.next a (some b)
  prev := Function.update h.prev b (some a)

section Link

variable {x y : κ}

@[simp] theorem link_next_self : (h.link a b).next a = some b := Function.update_self ..

@[simp] theorem link_prev_self : (h.link a b).prev b = some a := Function.update_self ..

theorem link_next_of_ne (other : x ≠ a) : (h.link a b).next x = h.next x :=
  Function.update_of_ne other ..

theorem link_prev_of_ne (other : x ≠ b) : (h.link a b).prev x = h.prev x :=
  Function.update_of_ne other ..

theorem link_link : (h.link a b).Link a b := ⟨link_next_self, link_prev_self⟩

/-- A new link leaves another in place that leaves from elsewhere and arrives elsewhere. -/
theorem Heap.Link.link (old : h.Link x y) (from_other : x ≠ a) (to_other : y ≠ b) :
    (h.link a b).Link x y :=
  ⟨(link_next_of_ne from_other).trans old.1, (link_prev_of_ne to_other).trans old.2⟩

/-- A chain that neither leaves from `a` nor arrives at `b` is kept. -/
theorem chain_link {c : List κ} (chain : c.IsChain h.Link) (from_other : a ∉ c.dropLast)
    (to_other : b ∉ c.tail) : c.IsChain (h.link a b).Link := by
  induction chain with
  | nil => exact .nil
  | singleton x => exact .singleton x
  | @cons_cons x y c old chain ih =>
      simp only [List.dropLast_cons_cons, List.mem_cons, not_or] at from_other
      simp only [List.tail_cons, List.mem_cons, not_or] at to_other
      refine .cons_cons (old.link (Ne.symm from_other.1) (Ne.symm to_other.1)) ?_
      exact ih from_other.2 to_other.2

end Link

namespace Ring

variable {e n p new : κ}

/-- A node put behind `p`. -/
theorem insert (ring : Ring h p l) (fresh : new ∉ p :: l) (next : h.next p = some n) :
    Ring ((h.link new n).link p new) p (new :: l) := by
  have head : (l ++ [p]).head? = some n := ring.next_eq.symm.trans next
  obtain ⟨c, split⟩ := List.head?_eq_some_iff.mp head
  have nodup : (l ++ [p]).Nodup := List.perm_append_singleton p l |>.nodup_iff.mpr ring.nodup
  have off : new ∉ l ++ [p] := by
    rw [List.mem_append, List.mem_singleton, or_comm, ← List.mem_cons]
    exact fresh
  have off_n : n ≠ new := fun same => off (by rw [split, ← same]; exact List.mem_cons_self)
  have off_p : p ≠ new := fun same => fresh (same ▸ List.mem_cons_self)
  have p_mem : p ∉ (l ++ [p]).dropLast := by
    rw [List.dropLast_concat]
    exact (List.nodup_cons.mp ring.nodup).1
  have n_mem : n ∉ (l ++ [p]).tail := by
    rw [split] at nodup ⊢
    exact (List.nodup_cons.mp nodup).1
  constructor
  · rw [List.cons_append]
    refine .cons_cons link_link (List.IsChain.cons ?_ ?_)
    · refine chain_link (chain_link ring.chain.tail ?_ n_mem) p_mem ?_
      · exact fun member => off ((List.dropLast_sublist _).subset member)
      · exact fun member => off (List.mem_of_mem_tail member)
    · intro y member
      obtain rfl := Option.some.inj (head.symm.trans member)
      exact link_link.link (Ne.symm off_p) off_n
  · rw [List.nodup_cons, List.mem_cons, not_or, List.nodup_cons]
    have distinct := List.nodup_cons.mp ring.nodup
    exact ⟨⟨off_p, distinct.1⟩, fun member => fresh (List.mem_cons_of_mem p member), distinct.2⟩

/-- A node put before the one that the ring is entered at. -/
theorem insert_last (ring : Ring h a l) (fresh : new ∉ a :: l) (prev : h.prev a = some p) :
    Ring ((h.link new a).link p new) a (l ++ [new]) := by
  have last := ring.prev_eq.symm.trans prev
  rcases List.eq_nil_or_concat l with rfl | ⟨l, b, rfl⟩
  · obtain rfl : a = p := Option.some.inj last
    exact ring.insert fresh ring.next_eq
  · rw [List.concat_eq_append] at *
    rw [← List.cons_append, List.getLast?_concat] at last
    obtain rfl : b = p := Option.some.inj last
    have entered : Ring h b (a :: l) :=
      (closed_append_comm (l := a :: l) (r := [b])).mp ring
    have fresh' : new ∉ b :: a :: l := by
      rw [← List.cons_append, List.mem_append, List.mem_singleton, or_comm,
        ← List.mem_cons] at fresh
      exact fresh
    have inserted : Ring _ b (new :: a :: l) := entered.insert fresh' entered.next_eq
    rw [List.append_assoc]
    exact (closed_append_comm (l := [b, new]) (r := a :: l)).mp inserted

/-- The node that a ring is entered at taken out. -/
theorem delete_first {x : κ} {t : List κ} (ring : Ring h e (x :: t)) (next : h.next e = some n)
    (prev : h.prev e = some p) : Ring (h.link p n) x t := by
  have nodup := (List.nodup_cons.mp ring.nodup).2
  obtain rfl : x = n := Option.some.inj (ring.next_eq.symm.trans next)
  have last : (x :: t).getLast? = some p := ring.prev_eq.symm.trans prev
  obtain ⟨init, split⟩ := List.getLast?_eq_some_iff.mp last
  have chain : (x :: t).IsChain h.Link := by
    have whole := ring.chain.tail
    exact List.IsChain.left_of_append whole
  constructor
  · rw [← List.cons_append]
    refine List.IsChain.append (chain_link chain ?_ (List.nodup_cons.mp nodup).1) (.singleton x) ?_
    · rw [split, List.dropLast_concat]
      rw [split, ← List.concat_eq_append, List.nodup_concat] at nodup
      exact nodup.1
    · intro y y_last z z_first
      obtain rfl := Option.some.inj (last.symm.trans y_last)
      obtain rfl := Option.some.inj z_first
      exact link_link
  · exact nodup

/-- A node taken out. -/
theorem delete (ring : Ring h a (l ++ e :: r)) (next : h.next e = some n)
    (prev : h.prev e = some p) : Ring (h.link p n) a (l ++ r) := by
  have entered : Ring h e (r ++ a :: l) :=
    (closed_append_comm (l := a :: l) (r := e :: r)).mp ring
  cases r with
  | nil =>
      rw [List.append_nil]
      exact entered.delete_first next prev
  | cons b r =>
      have deleted : Ring _ b (r ++ a :: l) := entered.delete_first next prev
      exact (closed_append_comm (l := b :: r) (r := a :: l)).mp deleted

/-- The nodes behind `a` put behind `b`, which is in another ring. -/
theorem splice {first last : κ} (ring : Ring h a l) (other : Ring h b r)
    (apart : ∀ x ∈ l, x ∉ b :: r) (begins : l.head? = some first) (ends : l.getLast? = some last)
    (next : h.next b = some n) : Ring ((h.link b first).link last n) b (l ++ r) := by
  have distinct := List.nodup_cons.mp ring.nodup
  have distinct' := List.nodup_cons.mp other.nodup
  have n_first : (r ++ [b]).head? = some n := other.next_eq.symm.trans next
  have nodup' : (r ++ [b]).Nodup :=
    (List.perm_append_singleton b r).nodup_iff.mpr other.nodup
  obtain ⟨c, split'⟩ := List.head?_eq_some_iff.mp n_first
  have n_mem : n ∈ b :: r := other.next_mem next
  have first_mem : first ∈ l := List.mem_of_mem_head? begins
  have last_mem : last ∈ l := List.mem_of_mem_getLast? ends
  have inside {x : κ} (member : x ∈ r ++ [b]) : x ∈ b :: r :=
    (List.perm_append_singleton b r).mem_iff.mp member
  obtain ⟨rest, split⟩ := List.head?_eq_some_iff.mp begins
  obtain ⟨init, split_last⟩ := List.getLast?_eq_some_iff.mp ends
  constructor
  · rw [List.append_assoc]
    refine List.IsChain.cons (List.IsChain.append ?_ ?_ ?_) ?_
    · -- the nodes that move
      have chain : l.IsChain h.Link := List.IsChain.left_of_append ring.chain.tail
      refine chain_link (chain_link chain ?_ ?_) ?_ ?_
      · exact fun member =>
          apart b ((List.dropLast_sublist l).subset member) List.mem_cons_self
      · rw [split] at distinct ⊢
        exact (List.nodup_cons.mp distinct.2).1
      · rw [split_last, ← List.concat_eq_append, List.nodup_concat] at distinct
        rw [split_last, List.dropLast_concat]
        exact distinct.2.1
      · exact fun member => apart n (List.mem_of_mem_tail member) n_mem
    · -- the nodes that stay
      refine chain_link (chain_link other.chain.tail ?_ ?_) ?_ ?_
      · rw [List.dropLast_concat]
        exact distinct'.1
      · exact fun member => apart first first_mem (inside (List.mem_of_mem_tail member))
      · rw [List.dropLast_concat]
        exact fun member => apart last last_mem (List.mem_cons_of_mem b member)
      · rw [split'] at nodup' ⊢
        exact (List.nodup_cons.mp nodup').1
    · intro x x_last y y_first
      obtain rfl := Option.some.inj (ends.symm.trans x_last)
      obtain rfl := Option.some.inj (n_first.symm.trans y_first)
      exact link_link
    · intro y y_first
      rw [List.head?_append, begins] at y_first
      obtain rfl := Option.some.inj y_first
      refine link_link.link ?_ ?_
      · exact fun same => apart last last_mem (same ▸ List.mem_cons_self)
      · exact fun same => apart first first_mem (same ▸ n_mem)
  · refine List.nodup_middle.mp (List.nodup_append.mpr ⟨distinct.2, other.nodup, ?_⟩)
    rintro x x_mem y y_mem rfl
    exact apart x x_mem y_mem

end Ring

end CFunc.Lib.LinkedRing
