import CFunc.Lib.CInt
import CFunc.Lib.Cells

/-!
`algo/headsort.c`: heap sort in place.

`max_heapify` lets the value at `start` sink until it is above both sons,
exchanging equal values on the way; it computes the son's index before it
compares it with the end of the heap. The drain keeps a heap below `i` and, from
`i` on, values that are in order and not below any before them.
-/

namespace CFunc.HeapSort

open CFunc.Lib CFunc.Lib.Cells
open CFunc.Lib.Exec (lift loop Ends EndsIff Faults Reached ends_lift faults_lift)

/-! ### The program -/

/-- `swap(&arr[a], &arr[b])`, which reads `b` first. -/
def swap (a b : Int) : Exec (Cells Int) Unit := exchange b a

/-- `dad * 2 + 1` -/
def son_of (dad : Int) : Option Int := do
  addInt (← mulInt dad 2) 1

/-- `son`, after the `son++` that selects the larger of two sons. -/
def larger_son (son last : Int) : Exec (Cells Int) Int := do
  let next ← lift (addInt son 1)
  if next ≤ last then do
    if (← read son) < (← read next) then return next else return son
  else return son

/-- One test of the loop in `max_heapify`, with `dad` and `son`; `last` is its `end`. -/
def heapify_round (last : Int) (at_ : Int × Int) : Exec (Cells Int) (Bool × Int × Int) := do
  if at_.2 ≤ last then do
    let son ← larger_son at_.2 last
    if (← read at_.1) > (← read son) then return (false, at_.1, son)
    else do
      swap at_.1 son
      return (true, son, ← lift (son_of son))
  else return (false, at_)

def max_heapify (fuel : Nat) (start last : Int) : Exec (Cells Int) Unit := do
  let son ← lift (son_of start)
  let _ ← loop (heapify_round last) fuel (start, son)

/-- One test of the first loop of `heap_sort`. -/
def build_round (fuel : Nat) (len i : Int) : Exec (Cells Int) (Bool × Int) := do
  if i ≥ 0 then do
    max_heapify fuel i (← lift (addInt len (-1)))
    return (true, ← lift (addInt i (-1)))
  else return (false, i)

/-- One test of the second loop of `heap_sort`. -/
def drain_round (fuel : Nat) (i : Int) : Exec (Cells Int) (Bool × Int) := do
  if i > 0 then do
    swap 0 i
    max_heapify fuel 0 (← lift (addInt i (-1)))
    return (true, ← lift (addInt i (-1)))
  else return (false, i)

def heap_sort (fuel : Nat) (len : Int) : Exec (Cells Int) Unit := do
  let middle ← lift (addInt (len.tdiv 2) (-1))
  let _ ← loop (build_round fuel len) fuel middle
  let back ← lift (addInt len (-1))
  let _ ← loop (drain_round fuel) fuel back

/-! ### Heap order -/

/-- `c` is a son of `p`. -/
def Son (p c : Int) : Prop := c = p * 2 + 1 ∨ c = p * 2 + 2

/-- The value at `p` is not below the value at `c`. -/
def Above (t : Cells Int) (p c : Int) : Prop :=
  ∀ x y, t.peek p = some x → t.peek c = some y → y ≤ x

/-- The nodes from `start` on are above their sons, as far as these are in `..last`. -/
def HeapFrom (start last : Int) (t : Cells Int) : Prop :=
  ∀ p c, start ≤ p → Son p c → c ≤ last → Above t p c

variable {start last dad son : Int} {s t u : Cells Int} {fuel : Nat}

theorem Above.congr {p c p' c' : Int} (above : Above s p c) (eq : t.peek p' = s.peek p)
    (eq' : t.peek c' = s.peek c) : Above t p' c' := by
  intro x y at_p at_c
  exact above x y (eq ▸ at_p) (eq' ▸ at_c)

theorem Above.trans {p c d x : Int} (here : t.peek c = some x) (above : Above t p c)
    (above' : Above t c d) : Above t p d := by
  intro y z at_p at_d
  exact (above' x z here at_d).trans (above y x at_p here)

theorem Above.refl (t : Cells Int) (p : Int) : Above t p p := by
  intro x y at_p at_p'
  exact (Option.some.inj (at_p'.symm.trans at_p)).le

/-- The root of a heap is above every node. -/
theorem HeapFrom.root (heap : HeapFrom 0 last t) (inside : last < t.cells.length) (n : Nat)
    (le : n ≤ last) : Above t 0 n := by
  induction n using Nat.strong_induction_on with
  | _ n ih =>
      by_cases root : n = 0
      · subst root
        exact Above.refl t 0
      · have before := ih ((n - 1) / 2) (by omega) (by omega)
        obtain ⟨x, here⟩ := peek_of_lt (s := t) (i := ((n - 1) / 2 : Nat)) (by omega) (by omega)
        exact before.trans here (heap _ _ (by omega) (by unfold Son; omega) le)

/-- What the loop of `max_heapify` keeps: only `dad` may be below its sons, and these are not
above `dad`'s own parent. -/
structure Sinking (start last : Int) (s : Cells Int) (dad : Int) (t : Cells Int) : Prop where
  within : Within start last s t
  lower : start ≤ dad
  upper : dad ≤ last
  others : ∀ p c, start ≤ p → p ≠ dad → Son p c → c ≤ last → Above t p c
  grand : ∀ p c, start ≤ p → Son p dad → Son dad c → c ≤ last → Above t p c

/-- The order alone: among the nodes `N`, only `dad` may be below its sons, and these are not
above `dad`'s own parent. -/
structure Sifting (N : Int → Prop) (last dad : Int) (t : Cells Int) : Prop where
  node : N dad
  upper : dad ≤ last
  others : ∀ p c, N p → p ≠ dad → Son p c → c ≤ last → Above t p c
  grand : ∀ p c, N p → Son p dad → Son dad c → c ≤ last → Above t p c

theorem Sinking.sifting (sinking : Sinking start last s dad t) : Sifting (start ≤ ·) last dad t :=
  ⟨sinking.lower, sinking.upper, sinking.others, sinking.grand⟩

section Sifting

variable {N : Int → Prop}

/-- The value sinks to a son that no son is above. -/
theorem Sifting.move (sifting : Sifting N last dad t) (nonneg : ∀ p, N p → 0 ≤ p)
    (closed : ∀ p c, N p → Son p c → N c) (is_son : Son dad son) (le : son ≤ last)
    (largest : ∀ c, Son dad c → c ≤ last → Above t son c) (above : Above t son dad)
    (exchanged : Exchanged son dad t u) : Sifting N last son u := by
  have dad_nonneg := nonneg dad sifting.node
  have node := closed dad son sifting.node is_son
  unfold Son at is_son
  refine ⟨node, le, ?_, ?_⟩
  · intro p c from_start ne is_son' inside
    have p_nonneg := nonneg p from_start
    by_cases at_dad : p = dad
    · subst at_dad
      by_cases same : c = son
      · subst same
        exact above.congr exchanged.right exchanged.left
      · apply (largest c is_son' inside).congr exchanged.right
        unfold Son at is_son'
        exact exchanged.same c same (by omega)
    · have unmoved := exchanged.same p ne at_dad
      by_cases to_dad : c = dad
      · subst to_dad
        exact (sifting.grand p son from_start is_son' is_son le).congr unmoved exchanged.right
      · apply (sifting.others p c from_start at_dad is_son' inside).congr unmoved
        unfold Son at is_son'
        exact exchanged.same c (by omega) to_dad
  · intro p c from_start is_son' is_son'' inside
    unfold Son at is_son'
    obtain rfl : p = dad := by omega
    apply (sifting.others son c node (by omega) is_son'' inside).congr exchanged.right
    unfold Son at is_son''
    exact exchanged.same c (by omega) (by omega)

/-- Reading alone. -/
theorem Sifting.read (sifting : Sifting N last dad t) (cells : u.cells = t.cells) :
    Sifting N last dad u := by
  have same := peek_congr cells
  refine ⟨sifting.node, sifting.upper, ?_, ?_⟩
  · intro p c from_start ne is_son inside
    exact (sifting.others p c from_start ne is_son inside).congr (same p) (same c)
  · intro p c from_start is_son is_son' inside
    exact (sifting.grand p c from_start is_son is_son' inside).congr (same p) (same c)

/-- Where `dad` is above its sons too, all nodes are. -/
theorem Sifting.heap (sifting : Sifting N last dad t)
    (done : ∀ c, Son dad c → c ≤ last → Above t dad c) :
    ∀ p c, N p → Son p c → c ≤ last → Above t p c := by
  intro p c from_start is_son inside
  by_cases at_dad : p = dad
  · subst at_dad
    exact done c is_son inside
  · exact sifting.others p c from_start at_dad is_son inside

end Sifting

theorem Sinking.move (sinking : Sinking start last s dad t) (nonneg : 0 ≤ start)
    (is_son : Son dad son) (le : son ≤ last) (largest : ∀ c, Son dad c → c ≤ last → Above t son c)
    (above : Above t son dad) (exchanged : Exchanged son dad t u) :
    Sinking start last s son u := by
  have lower := sinking.lower
  have closed (p c : Int) (from_start : start ≤ p) (is_son : Son p c) : start ≤ c := by
    unfold Son at is_son
    omega
  have sifting := sinking.sifting.move (fun p from_start => nonneg.trans from_start) closed is_son
    le largest above exchanged
  have moved := exchanged.within sifting.node le lower sinking.upper
  exact ⟨sinking.within.trans moved, sifting.node, le, sifting.others, sifting.grand⟩

theorem Sinking.read (sinking : Sinking start last s dad t) (cells : u.cells = t.cells)
    (touches : Touches start last t u) : Sinking start last s dad u := by
  have sifting := sinking.sifting.read cells
  exact ⟨sinking.within.trans (Within.of_cells_eq cells touches), sinking.lower, sinking.upper,
    sifting.others, sifting.grand⟩

theorem Sinking.heapFrom (sinking : Sinking start last s dad t)
    (done : ∀ c, Son dad c → c ≤ last → Above t dad c) : HeapFrom start last t :=
  sinking.sifting.heap done

/-! ### `max_heapify` -/

theorem son_of_eq (nonneg : 0 ≤ dad) (small : dad < 2 ^ 30) : son_of dad = some (dad * 2 + 1) := by
  have product : mulInt dad 2 = some (dad * 2) :=
    mulInt_eq_some (by unfold INT_MIN; omega) (by unfold INT_MAX; omega)
  rw [son_of, product]
  exact addInt_eq_some (by unfold INT_MIN; omega) (by unfold INT_MAX; omega)

theorem son_of_eq_none (large : 2 ^ 30 ≤ dad) : son_of dad = none := by
  have product : mulInt dad 2 = none := by
    rw [mulInt, if_neg]
    unfold INT_MAX
    omega
  rw [son_of, product]
  rfl

theorem ends_larger_son (nonneg : 0 ≤ son) (le : son ≤ last) (inside : last < s.cells.length)
    (fits : last < INT_MAX) :
    Ends (larger_son son last) s fun c t => t.cells = s.cells ∧ Touches son last s t ∧
      (c = son ∨ c = son + 1 ∧ ¬ Above s son c) ∧ c ≤ last ∧
      ∀ b, (b = son ∨ b = son + 1) → b ≤ last → Above s c b := by
  have no_underflow : INT_MIN ≤ son + 1 := by unfold INT_MIN; omega
  apply Ends.bind (ends_lift (addInt_eq_some no_underflow (by omega)))
  rintro _ _ ⟨rfl, rfl⟩
  apply Ends.ite
  · intro both
    obtain ⟨x, here⟩ := peek_of_lt (s := s) (i := son) (by omega) (by omega)
    obtain ⟨y, here'⟩ := peek_of_lt (s := s) (i := son + 1) (by omega) (by omega)
    apply Ends.bind (ends_read here)
    rintro _ s₁ ⟨rfl, cells₁, touches₁⟩
    apply Ends.bind (ends_read ((peek_congr cells₁ _).trans here'))
    rintro _ s₂ ⟨rfl, cells₂, touches₂⟩
    have touches : Touches son last s s₂ :=
      (touches₁.mono (le_refl _) le).trans (touches₂.mono (by omega) both)
    apply Ends.ite
    · intro less
      apply Ends.pure
      have strict : ¬ Above s son (son + 1) := fun above => absurd (above _ _ here here') (by omega)
      refine ⟨cells₂.trans cells₁, touches, .inr ⟨rfl, strict⟩, both, ?_⟩
      rintro b (rfl | rfl) inside' x y at_c at_b
      · rw [here', Option.some.injEq] at at_c
        rw [here, Option.some.injEq] at at_b
        omega
      · exact Above.refl s _ x y at_c at_b
    · intro not_less
      apply Ends.pure
      refine ⟨cells₂.trans cells₁, touches, .inl rfl, le, ?_⟩
      rintro b (rfl | rfl) inside' x y at_c at_b
      · exact Above.refl s _ x y at_c at_b
      · rw [here, Option.some.injEq] at at_c
        rw [here', Option.some.injEq] at at_b
        omega
  · intro single
    apply Ends.pure
    refine ⟨rfl, Touches.refl .., .inl rfl, le, ?_⟩
    rintro b (rfl | rfl) inside'
    · exact Above.refl s _
    · exact absurd inside' single

/-- A round from `dad` stops where `dad` is above its sons, or exchanges it with the largest one. -/
inductive Round (last dad : Int) (t : Cells Int) : Bool × Int × Int → Cells Int → Prop where
  | stop {at_ : Int × Int} {u : Cells Int} (cells : u.cells = t.cells)
      (touches : Touches dad last t u) (done : ∀ c, Son dad c → c ≤ last → Above t dad c) :
      Round last dad t (false, at_) u
  | sink {son : Int} {read u : Cells Int} (cells : read.cells = t.cells)
      (touches : Touches dad last t read) (is_son : Son dad son) (le : son ≤ last)
      (largest : ∀ c, Son dad c → c ≤ last → Above t son c) (above : Above t son dad)
      (exchanged : Exchanged son dad read u) :
      Round last dad t (true, son, son * 2 + 1) u

/-- A value that is not above a son from `2 ^ 30` on has a son before `2 ^ 30` at least as large. -/
def Stays (last dad : Int) (t : Cells Int) : Prop :=
  ∀ c x y, Son dad c → c ≤ last → 2 ^ 30 ≤ c → t.peek dad = some x → t.peek c = some y → x ≤ y →
    ∃ b z, Son dad b ∧ b < 2 ^ 30 ∧ t.peek b = some z ∧ y ≤ z

theorem stays_of_lt (small : last < 2 ^ 30) (dad : Int) (t : Cells Int) : Stays last dad t := by
  intro c x y is_son le large
  omega

/-- The round sinks to a son before `2 ^ 30`, or not at all, where the value stays; otherwise the
next index of a son has no value. -/
theorem heapify_round_endsIff (nonneg : 0 ≤ dad) (upper : dad ≤ last)
    (inside : last < t.cells.length) (fits : last < INT_MAX) :
    EndsIff (Stays last dad t) (heapify_round last (dad, dad * 2 + 1)) t (Round last dad t) := by
  apply EndsIff.ite
  · intro has_son
    simp only at has_son
    apply EndsIff.after (ends_larger_son (by omega) has_son inside fits)
    rintro c t₁ ⟨cells₁, touches₁, which, inside', largest⟩
    have is_son : Son dad c := by unfold Son; omega
    have larger : ∀ b, Son dad b → b ≤ last → Above t c b := by
      intro b is_son' le'
      unfold Son at is_son'
      exact largest b (by omega) le'
    obtain ⟨x, here⟩ := peek_of_lt (s := t) (i := dad) (by omega) (by omega)
    obtain ⟨y, here'⟩ := peek_of_lt (s := t) (i := c) (by omega) (by omega)
    apply EndsIff.after (ends_read ((peek_congr cells₁ _).trans here))
    rintro _ t₂ ⟨rfl, cells₂, touches₂⟩
    apply EndsIff.after (ends_read ((peek_congr (cells₂.trans cells₁) _).trans here'))
    rintro _ t₃ ⟨rfl, cells₃, touches₃⟩
    have cells : t₃.cells = t.cells := cells₃.trans (cells₂.trans cells₁)
    have touches : Touches dad last t t₃ :=
      ((touches₁.mono (by omega) (le_refl _)).trans (touches₂.mono (le_refl _) upper)).trans
        (touches₃.mono (by omega) inside')
    apply EndsIff.ite
    · intro greater
      have above_all : ∀ b w, Son dad b → b ≤ last → t.peek b = some w → w < x := by
        intro b w is_son' le' at_b
        exact (larger b is_son' le' y w here' at_b).trans_lt greater
      have done : ∀ b, Son dad b → b ≤ last → Above t dad b := by
        intro b is_son' le' v w at_dad at_b
        rw [here, Option.some.injEq] at at_dad
        exact at_dad ▸ (above_all b w is_son' le' at_b).le
      apply Ends.endsIff (Ends.pure (.stop cells touches done))
      intro b v w is_son' le' _ at_dad at_b le''
      have lt := above_all b w is_son' le' at_b
      rw [here, Option.some.injEq] at at_dad
      omega
    · intro not_greater
      have above : Above t c dad := by
        intro y' x' at_c at_dad
        rw [here', Option.some.injEq] at at_c
        rw [here, Option.some.injEq] at at_dad
        omega
      apply EndsIff.after (ends_exchange ((peek_congr cells _).trans here')
        ((peek_congr cells _).trans here))
      rintro _ t₄ exchanged
      by_cases small : c < 2 ^ 30
      · apply Ends.endsIff
        · apply Ends.bind (ends_lift (son_of_eq (by omega) small))
          rintro _ _ ⟨rfl, rfl⟩
          exact Ends.pure (.sink cells touches is_son inside' larger above exchanged)
        · intro b v w is_son' le' _ _ at_b _
          exact ⟨c, y, is_son, small, here', larger b is_son' le' y w here' at_b⟩
      · apply Faults.endsIff (Faults.first (faults_lift (son_of_eq_none (by omega))))
        intro stays
        obtain ⟨b, z, is_son', small', at_b, le⟩ :=
          stays c x y is_son inside' (by omega) here here' (by omega)
        -- The other son is the left one, which is taken unless the right one is larger.
        unfold Son at is_son'
        have left : b = dad * 2 + 1 := by omega
        have right : ¬ Above t (dad * 2 + 1) c := (which.resolve_left (by omega)).2
        apply right
        intro z' y' at_b' at_c
        rw [← left, at_b, Option.some.injEq] at at_b'
        rw [here', Option.some.injEq] at at_c
        omega
  · intro leaf
    simp only at leaf
    have none : ∀ c, Son dad c → ¬ c ≤ last := by
      intro c is_son le
      unfold Son at is_son
      omega
    have done : ∀ c, Son dad c → c ≤ last → Above t dad c :=
      fun c is_son le => absurd le (none c is_son)
    apply Ends.endsIff (Ends.pure (.stop rfl (Touches.refl ..) done))
    intro c x y is_son le
    exact absurd le (none c is_son)

/-- A son is further from the start than `dad`. -/
theorem lt_of_son (nonneg : 0 ≤ dad) (is_son : Son dad son) : dad < son := by
  unfold Son at is_son
  omega

/-- `dad` and the state at a test of the loop, where `max_heapify` starts from `start` and `s`. -/
def Sinks (last start : Int) (s : Cells Int) (dad : Int) (t : Cells Int) : Prop :=
  ∃ son, Reached (heapify_round last) (start, start * 2 + 1) s (dad, son) t

/-- `max_heapify` keeps what every exchange keeps, and leaves with what a stop gives, unless a
value does not stay. -/
theorem sift_endsIff {I : Int → Cells Int → Prop} {Q : Cells Int → Prop} (nonneg : 0 ≤ start)
    (low : start < 2 ^ 30) (fits : last < INT_MAX)
    (bounds : ∀ dad t, I dad t → 0 ≤ dad ∧ dad ≤ last ∧ last < t.cells.length)
    (step : ∀ dad t next u, I dad t → Round last dad t next u →
      (next.1 = true → I next.2.1 u) ∧ (next.1 = false → Q u))
    (start_in : I start s) (enough : last - start < fuel) :
    EndsIff (∀ dad t, Sinks last start s dad t → Stays last dad t) (max_heapify fuel start last) s
      fun _ t => Q t := by
  obtain ⟨-, le, -⟩ := bounds start s start_in
  apply EndsIff.after (ends_lift (son_of_eq nonneg low))
  rintro _ _ ⟨rfl, rfl⟩
  apply EndsIff.before (R := fun _ t => Q t) ?_ fun _ _ holds => Ends.pure holds
  have whole : EndsIff
      (∀ at_ t, Reached (heapify_round last) (start, start * 2 + 1) s at_ t → Stays last at_.1 t)
      (loop (heapify_round last) fuel (start, start * 2 + 1)) s fun _ t => Q t := by
    refine EndsIff.loop (fun at_ t => I at_.1 t ∧ at_.2 = at_.1 * 2 + 1) _ _
      (fun at_ _ => (last - at_.1).toNat) ?round ⟨start_in, rfl⟩ (by simp only; omega)
    rintro ⟨dad, son⟩ t ⟨holds, eq⟩
    obtain rfl : son = dad * 2 + 1 := eq
    obtain ⟨dad_nonneg, upper, inside⟩ := bounds dad t holds
    apply (heapify_round_endsIff dad_nonneg upper inside fits).mono
    intro next u round
    have kept := step dad t next u holds round
    cases round with
    | stop cells touches done => exact ⟨nofun, kept.2⟩
    | sink cells touches is_son le' largest above exchanged =>
        have further := lt_of_son dad_nonneg is_son
        exact ⟨fun _ => ⟨⟨kept.1 rfl, rfl⟩, by simp only; omega⟩, nofun⟩
  apply whole.congr
  constructor
  · rintro all dad t ⟨son, reached⟩
    exact all (dad, son) t reached
  · rintro all ⟨dad, son⟩ t reached
    exact all dad t ⟨son, reached⟩

theorem ends_sift {I : Int → Cells Int → Prop} {Q : Cells Int → Prop} (nonneg : 0 ≤ start)
    (small : last < 2 ^ 30)
    (bounds : ∀ dad t, I dad t → 0 ≤ dad ∧ dad ≤ last ∧ last < t.cells.length)
    (step : ∀ dad t next u, I dad t → Round last dad t next u →
      (next.1 = true → I next.2.1 u) ∧ (next.1 = false → Q u))
    (start_in : I start s) (enough : last - start < fuel) :
    Ends (max_heapify fuel start last) s fun _ t => Q t := by
  obtain ⟨-, le, -⟩ := bounds start s start_in
  apply (sift_endsIff nonneg (by omega) (by unfold INT_MAX; omega) bounds step start_in enough).1
  intro dad t _
  exact stays_of_lt small dad t

/-- `max_heapify` puts the node `start` in order with all below it. -/
theorem max_heapify_endsIff (nonneg : 0 ≤ start) (le : start ≤ last) (low : start < 2 ^ 30)
    (inside : last < s.cells.length) (fits : last < INT_MAX)
    (heap : HeapFrom (start + 1) last s) (enough : last - start < fuel) :
    EndsIff (∀ dad t, Sinks last start s dad t → Stays last dad t) (max_heapify fuel start last) s
      fun _ t => Within start last s t ∧ HeapFrom start last t := by
  have entry : Sinking start last s start s := by
    refine ⟨Within.refl .., le_refl _, le, ?_, ?_⟩
    · intro p c from_start ne is_son inside'
      exact heap p c (by omega) is_son inside'
    · intro p c from_start is_son
      unfold Son at is_son
      omega
  apply sift_endsIff (I := Sinking start last s) nonneg low fits ?bounds ?step entry enough
  case bounds =>
    intro dad t sinking
    have length := sinking.within.length_eq
    exact ⟨nonneg.trans sinking.lower, sinking.upper, by omega⟩
  case step =>
    intro dad t next u sinking round
    have lower := sinking.lower
    cases round with
    | stop cells touches done =>
        have read := sinking.read cells (touches.mono lower (le_refl _))
        have same := peek_congr cells
        exact ⟨nofun, fun _ => ⟨read.within, read.heapFrom fun c is_son le' =>
          (done c is_son le').congr (same dad) (same c)⟩⟩
    | @sink son _ _ cells touches is_son le' largest above exchanged =>
        have read := sinking.read cells (touches.mono lower (le_refl _))
        have same := peek_congr cells
        have moved := read.move nonneg is_son le' (fun c is_son' le'' =>
          (largest c is_son' le'').congr (same son) (same c)) (above.congr (same son) (same dad))
          exchanged
        exact ⟨fun _ => moved, nofun⟩

/-! ### `heap_sort` -/

variable {len i : Int}

/-- The heap that the first loop builds. -/
theorem build_endsIff (nonneg : 0 ≤ len) (fits : len ≤ INT_MAX) (inside : len ≤ s.cells.length)
    (enough : len < fuel) :
    EndsIff (∀ i t, Reached (build_round fuel len) (len / 2 - 1) s i t → 0 ≤ i →
        ∀ dad u, Sinks (len - 1) i t dad u → Stays (len - 1) dad u)
      (loop (build_round fuel len) fuel (len / 2 - 1)) s
      fun _ t => Within 0 (len - 1) s t ∧ HeapFrom 0 (len - 1) t := by
  have half : len / 2 ≤ 2 ^ 30 := by unfold INT_MAX at fits; omega
  refine EndsIff.loop (fun i t => -1 ≤ i ∧ i ≤ len / 2 - 1 ∧ Within 0 (len - 1) s t ∧
    HeapFrom (i + 1) (len - 1) t) _ _ (fun i _ => (i + 1).toNat) ?round ?entry (by omega)
  case entry =>
    refine ⟨by omega, by omega, Within.refl .., ?_⟩
    intro p c from_half is_son inside'
    unfold Son at is_son
    omega
  case round =>
    rintro i t ⟨lower, upper, within, heap⟩
    have length := within.length_eq
    apply EndsIff.ite
    · intro go
      have least : INT_MIN ≤ i + -1 := by unfold INT_MIN; omega
      apply EndsIff.after (ends_lift (addInt_eq_some (least.trans (by omega)) (by omega)))
      rintro _ _ ⟨rfl, rfl⟩
      have enough' : len - 1 - i < fuel := by omega
      have sifted := max_heapify_endsIff go (by omega) (by omega) (by omega) (by omega) heap enough'
      apply (sifted.congr ⟨fun all _ => all, fun all => all go⟩).before
      rintro _ u ⟨within', heap'⟩
      apply Ends.bind (ends_lift (addInt_eq_some least (by omega)))
      rintro _ _ ⟨rfl, rfl⟩
      apply Ends.pure
      refine ⟨fun _ => ⟨⟨by omega, by omega, within.trans (within'.mono go (by omega)), ?_⟩, ?_⟩,
        nofun⟩
      · rwa [Int.neg_add_cancel_right]
      · simp only
        omega
    · intro stop
      refine Ends.endsIff (Ends.pure ?_) fun go => absurd go stop
      obtain rfl : i = -1 := by omega
      exact ⟨nofun, fun _ => ⟨within, heap⟩⟩

/-- What the second loop keeps: a heap up to `i`, and every value past `i` is above all values
before it. -/
structure Draining (len : Int) (s : Cells Int) (i : Int) (t : Cells Int) : Prop where
  within : Within 0 (len - 1) s t
  upper : i ≤ len - 1
  heap : HeapFrom 0 i t
  settled : ∀ j k, 0 ≤ j → j ≤ k → i < k → k ≤ len - 1 → Above t k j

/-- The root goes to `i`, and the heap below is put in order again. -/
theorem Draining.step (draining : Draining len s i t) (positive : 0 < i)
    (inside : len ≤ s.cells.length) {v : Cells Int} (exchanged : Exchanged i 0 t u)
    (within : Within 0 (i - 1) u v) (heap : HeapFrom 0 (i - 1) v) :
    Draining len s (i - 1) v := by
  have upper := draining.upper
  have length := draining.within.length_eq
  have moved : Within 0 i t u := exchanged.within (by omega) (le_refl _) (le_refl _) (by omega)
  have sunk : Within 0 i t v := moved.trans (within.mono (le_refl _) (by omega))
  refine ⟨draining.within.trans (sunk.mono (le_refl _) upper), by omega, heap, ?_⟩
  intro j k nonneg le after inside' x y at_k at_j
  -- The value at `k` was above all values up to `i`, and those are still the values up to `i`.
  have was : ∃ k', t.peek k' = some x ∧ (k = k' ∧ i < k ∨ k = i ∧ k' = 0) := by
    by_cases at_i : k = i
    · subst at_i
      rw [within.same k (by omega), exchanged.left] at at_k
      exact ⟨0, at_k, .inr ⟨rfl, rfl⟩⟩
    · rw [sunk.same k (by omega)] at at_k
      exact ⟨k, at_k, .inl ⟨rfl, by omega⟩⟩
  obtain ⟨k', at_k', place⟩ := was
  have bound : ∀ b z, 0 ≤ b → b ≤ i → t.peek b = some z → z ≤ x := by
    intro b z lower upper' at_b
    cases place with
    | inl same => exact draining.settled b k' lower (by omega) (by omega) (by omega) x z at_k' at_b
    | inr root =>
        obtain ⟨n, rfl⟩ := Int.eq_ofNat_of_zero_le lower
        rw [root.2] at at_k'
        exact draining.heap.root (by omega) n upper' x z at_k' at_b
  by_cases low : j ≤ i
  · exact sunk.all bound j y nonneg low at_j
  · rw [sunk.same j (by omega)] at at_j
    rw [sunk.same k (by omega)] at at_k
    exact draining.settled j k nonneg le (by omega) inside' x y at_k at_j

/-- Where the draining is done, all is in order. -/
theorem Draining.sorted (draining : Draining len s i t) (stop : ¬ 0 < i) :
    Sorted 0 (len - 1) t := by
  intro j k x y lower le upper' at_j at_k
  by_cases after : i < k
  · exact draining.settled j k lower le after upper' y x at_k at_j
  · obtain rfl : j = k := by omega
    exact Above.refl t j y x at_k at_j

theorem drain_round_endsIff (fits : len ≤ INT_MAX) (inside : len ≤ s.cells.length)
    (enough : len < fuel) (draining : Draining len s i t) :
    EndsIff (0 < i → ∀ u, swap 0 i t = .done ((), u) →
        ∀ dad v, Sinks (i - 1) 0 u dad v → Stays (i - 1) dad v)
      (drain_round fuel i) t fun next u =>
        (next.1 = true → Draining len s next.2 u ∧ next.2.toNat < i.toNat) ∧
          (next.1 = false → Within 0 (len - 1) s u ∧ Sorted 0 (len - 1) u) := by
  have upper := draining.upper
  have length := draining.within.length_eq
  apply EndsIff.ite
  · intro go
    obtain ⟨x, here⟩ := peek_of_lt (s := t) (i := i) (by omega) (by omega)
    obtain ⟨y, root⟩ := peek_of_lt (s := t) (i := 0) (le_refl _) (by omega)
    obtain ⟨_, u, run, exchanged⟩ := ends_exchange here root
    have length' := exchanged.perm.length_eq
    have least : INT_MIN ≤ i + -1 := by unfold INT_MIN; omega
    have below : HeapFrom (0 + 1) (i - 1) u := by
      intro p c from_one is_son le
      unfold Son at is_son
      apply (draining.heap p c (by omega) is_son (by omega)).congr
      · exact exchanged.same p (by omega) (by omega)
      · exact exchanged.same c (by omega) (by omega)
    have enough' : i - 1 - 0 < fuel := by omega
    have sifted := max_heapify_endsIff (le_refl 0) (by omega) (by decide) (by omega) (by omega)
      below enough'
    have first : Ends (swap 0 i) t fun _ u' => u' = u := ⟨_, u, run, rfl⟩
    refine EndsIff.congr
      (?_ : EndsIff (∀ dad v, Sinks (i - 1) 0 u dad v → Stays (i - 1) dad v) _ _ _) ?_
    · apply EndsIff.after first
      rintro _ _ rfl
      apply EndsIff.after (ends_lift (addInt_eq_some least (by omega)))
      rintro _ _ ⟨rfl, rfl⟩
      apply sifted.before
      rintro _ v ⟨within, heap'⟩
      apply Ends.bind (ends_lift (addInt_eq_some least (by omega)))
      rintro _ _ ⟨rfl, rfl⟩
      apply Ends.pure
      refine ⟨fun _ => ⟨draining.step go inside exchanged within heap', ?_⟩, nofun⟩
      simp only
      omega
    · constructor
      · intro all _ u' run'
        cases run.symm.trans run'
        exact all
      · intro all
        exact all go u run
  · intro stop
    refine Ends.endsIff (Ends.pure ⟨nofun, fun _ => ⟨draining.within, ?_⟩⟩)
      fun go => absurd go stop
    exact draining.sorted stop

theorem draining_start (heap : HeapFrom 0 (len - 1) s) : Draining len s (len - 1) s :=
  ⟨Within.refl .., le_refl _, heap, fun j k _ _ _ _ => by omega⟩

theorem drain_endsIff (fits : len ≤ INT_MAX) (nonneg : 0 ≤ len) (inside : len ≤ s.cells.length)
    (heap : HeapFrom 0 (len - 1) s) (enough : len < fuel) :
    EndsIff (∀ i t, Reached (drain_round fuel) (len - 1) s i t → 0 < i →
        ∀ u, swap 0 i t = .done ((), u) → ∀ dad v, Sinks (i - 1) 0 u dad v → Stays (i - 1) dad v)
      (loop (drain_round fuel) fuel (len - 1)) s
      fun _ t => Within 0 (len - 1) s t ∧ Sorted 0 (len - 1) t :=
  EndsIff.loop (Draining len s) _ _ (fun i _ => i.toNat)
    (fun _ _ draining => drain_round_endsIff fits inside enough draining)
    (draining_start heap) (by omega)

theorem reached_drain_le (fits : len ≤ INT_MAX) (inside : len ≤ s.cells.length)
    (heap : HeapFrom 0 (len - 1) s) (enough : len < fuel)
    (reached : Reached (drain_round fuel) (len - 1) s i t) : i ≤ len - 1 := by
  have draining : Draining len s i t := by
    apply reached.keeps (Draining len s) ?step (draining_start heap)
    intro i t j u draining run
    exact ((drain_round_endsIff fits inside enough draining).of_done run).1 rfl |>.1
  exact draining.upper

/-- The tests that the loops of the `max_heapify` calls of `heap_sort` come to, with the `end` and
the `dad` of each and the state before it. -/
inductive Comes (fuel : Nat) (len : Int) (s : Cells Int) : Int → Int → Cells Int → Prop where
  | build {i dad : Int} {t u : Cells Int}
      (before : Reached (build_round fuel len) (len / 2 - 1) s i t) (go : 0 ≤ i)
      (sinks : Sinks (len - 1) i t dad u) : Comes fuel len s (len - 1) dad u
  | drain {i j dad : Int} {built t u v : Cells Int}
      (first : loop (build_round fuel len) fuel (len / 2 - 1) s = .done (j, built))
      (before : Reached (drain_round fuel) (len - 1) built i t) (go : 0 < i)
      (swapped : swap 0 i t = .done ((), u)) (sinks : Sinks (i - 1) 0 u dad v) :
      Comes fuel len s (i - 1) dad v

theorem heap_sort_endsIff (nonneg : 0 ≤ len) (fits : len ≤ INT_MAX)
    (inside : len ≤ s.cells.length) (enough : len < fuel) :
    EndsIff (∀ last dad t, Comes fuel len s last dad t → Stays last dad t) (heap_sort fuel len) s
      fun _ t => Within 0 (len - 1) s t ∧ Sorted 0 (len - 1) t := by
  have half : len.tdiv 2 = len / 2 := Int.tdiv_eq_ediv_of_nonneg nonneg
  have least : INT_MIN ≤ -1 := by decide
  have built := build_endsIff nonneg fits inside enough
  have whole := built.bind (fun _ u => ∀ i t, Reached (drain_round fuel) (len - 1) u i t → 0 < i →
    ∀ v, swap 0 i t = .done ((), v) → ∀ dad w, Sinks (i - 1) 0 v dad w → Stays (i - 1) dad w)
    (f := fun _ => do
    let back ← lift (addInt len (-1))
    let _ ← loop (drain_round fuel) fuel back)
    (Q := fun _ t => Within 0 (len - 1) s t ∧ Sorted 0 (len - 1) t) ?drained
  case drained =>
    rintro _ t ⟨within, heap⟩
    apply EndsIff.after (ends_lift (addInt_eq_some (by omega) (by omega)))
    rintro _ _ ⟨rfl, rfl⟩
    have length := within.length_eq
    apply (drain_endsIff fits nonneg (by omega) heap enough).before
    rintro _ u ⟨within', sorted⟩
    exact Ends.pure ⟨within.trans within', sorted⟩
  apply EndsIff.congr
  · apply EndsIff.after (ends_lift (addInt_eq_some (by omega) (by omega)))
    rintro _ _ ⟨rfl, rfl⟩
    rw [half]
    exact whole
  · constructor
    · rintro ⟨building, draining⟩ last dad t comes
      cases comes with
      | build before go sinks => exact building _ _ before go dad t sinks
      | drain first before go swapped sinks =>
          exact draining _ _ first _ _ before go _ swapped dad t sinks
    · intro all
      refine ⟨fun i t before go dad u sinks => all _ dad u (.build before go sinks), ?_⟩
      intro j t first i u before go v swapped dad w sinks
      exact all _ dad w (.drain first before go swapped sinks)

theorem ends_heap_sort (nonneg : 0 ≤ len) (small : len ≤ 2 ^ 30) (inside : len ≤ s.cells.length)
    (enough : len < fuel) :
    Ends (heap_sort fuel len) s fun _ t => Within 0 (len - 1) s t ∧ Sorted 0 (len - 1) t := by
  have fits : len ≤ INT_MAX := by unfold INT_MAX; omega
  apply (heap_sort_endsIff nonneg fits inside enough).1
  intro last dad t comes
  apply stays_of_lt
  cases comes with
  | build => omega
  | @drain i j _ built u v w first before go swapped sinks =>
      have made := build_endsIff nonneg fits inside enough
      have ends := made.1 fun _ _ _ _ dad u _ => stays_of_lt (by omega) dad u
      obtain ⟨_, _, run, within, heap⟩ := ends
      cases first.symm.trans run
      have length := within.length_eq
      have le := reached_drain_le fits (by omega) heap enough before
      omega

/-- `heap_sort` sorts the first `len` elements, leaves the others alone and accesses no other. -/
theorem heap_sort_sorts (arr : List Int) (len : Int) (nonneg : 0 ≤ len) (small : len ≤ 2 ^ 30)
    (inside : len ≤ arr.length) (fuel : Nat) (enough : len < fuel) :
    Ends (heap_sort fuel len) ⟨arr, []⟩ fun _ out =>
      (out.cells.take len.toNat).Pairwise (· ≤ ·) ∧
      (out.cells.take len.toNat).Perm (arr.take len.toNat) ∧
      out.cells.drop len.toNat = arr.drop len.toNat ∧ ∀ i ∈ out.touched, 0 ≤ i ∧ i < len := by
  obtain ⟨n, rfl⟩ := Int.eq_ofNat_of_zero_le nonneg
  apply (ends_heap_sort nonneg small inside enough).mono
  rintro _ out ⟨within, sorted⟩
  obtain ⟨perm, rest⟩ := within.take_perm
  refine ⟨sorted.pairwise, perm, rest, ?_⟩
  obtain ⟨new, touched, bounds⟩ := within.touches
  rw [List.append_nil] at touched
  intro i mem
  have := bounds i (touched ▸ mem)
  omega

theorem heap_sort_sorts_duplicates :
    Ends (heap_sort 10 9) ⟨[1, 3, 5, 6, 7, 8, 5, 2, 3], []⟩ fun _ out =>
      (out.cells.take 9).Pairwise (· ≤ ·) ∧
      (out.cells.take 9).Perm [1, 3, 5, 6, 7, 8, 5, 2, 3] ∧
      out.cells.drop 9 = [] ∧ ∀ i ∈ out.touched, 0 ≤ i ∧ i < 9 :=
  heap_sort_sorts [1, 3, 5, 6, 7, 8, 5, 2, 3] 9 (by decide) (by decide) (by decide) 10 (by decide)

example : (match heap_sort 10 9 ⟨[1, 3, 5, 6, 7, 8, 5, 2, 3], []⟩ with
    | .done (_, out) => out.cells
    | _ => []) = [1, 2, 3, 3, 5, 5, 6, 7, 8] := by decide +kernel

/-! ### Nodes without a son's index -/

/-- The first `max_heapify` of `heap_sort` already overflows if the last element is the largest. -/
theorem heap_sort_faults (large : 2 ^ 30 < len) (fits : len ≤ INT_MAX)
    (inside : len ≤ s.cells.length) (enough : len < fuel)
    (largest : ∀ k x y, 0 ≤ k → k < len - 1 → s.peek k = some x → s.peek (len - 1) = some y →
      x < y) : Faults (heap_sort fuel len) s := by
  apply (heap_sort_endsIff (by omega) fits inside enough).2
  intro all
  have first : Comes fuel len s (len - 1) (len / 2 - 1) s :=
    .build (.start _ s) (by omega) ⟨_, .start _ s⟩
  obtain ⟨x, here⟩ := peek_of_lt (s := s) (i := len / 2 - 1) (by omega) (by omega)
  obtain ⟨y, here'⟩ := peek_of_lt (s := s) (i := len - 1) (by omega) (by omega)
  have lt := largest _ x y (by omega) (by omega) here here'
  obtain ⟨b, z, is_son, small, at_b, le⟩ := all _ _ _ first (len - 1) x y
    (by unfold Son; omega) (le_refl _) (by omega) here here' lt.le
  unfold Son at is_son
  have lt' := largest b z y (by omega) (by omega) at_b here'
  omega

/-- `0, 1, …, n - 1` -/
def ascending (n : Nat) : List Int := (List.range n).map Int.ofNat

theorem length_ascending (n : Nat) : (ascending n).length = n := by
  simp [ascending]

theorem peek_ascending {n : Nat} {k x : Int} (touched : List Int)
    (here : peek ⟨ascending n, touched⟩ k = some x) : x = k := by
  obtain ⟨nonneg, lt⟩ := bounds_of_peek here
  obtain ⟨m, rfl⟩ := Int.eq_ofNat_of_zero_le nonneg
  have inside : m < n := by
    rw [length_ascending] at lt
    omega
  rw [peek_ofNat] at here
  simpa [ascending, inside] using here.symm

theorem heap_sort_ascending_faults (large : 2 ^ 30 < len) (fits : len ≤ INT_MAX)
    (enough : len < fuel) : Faults (heap_sort fuel len) ⟨ascending len.toNat, []⟩ := by
  apply heap_sort_faults large fits ?_ enough
  · intro k x y nonneg lt at_k at_last
    rw [peek_ascending _ at_k, peek_ascending _ at_last]
    exact lt
  · rw [length_ascending]
    omega

/-- On an array, the index arithmetic of `heap_sort` overflows nowhere and every access is inside,
if and only if at every test of `max_heapify` that the run comes to the value stays. -/
theorem heap_sort_safe_iff (arr : List Int) (len : Int) (length : arr.length = len)
    (fits : len ≤ INT_MAX) (fuel : Nat) (enough : len < fuel) :
    (Ends (heap_sort fuel len) ⟨arr, []⟩ fun _ out => ∀ i ∈ out.touched, 0 ≤ i ∧ i < len) ↔
      ∀ last dad t, Comes fuel len ⟨arr, []⟩ last dad t → Stays last dad t := by
  apply EndsIff.ends_iff
  apply (heap_sort_endsIff (by omega) fits (by simp only; omega) enough).mono
  rintro _ out ⟨within, _⟩ i mem
  obtain ⟨new, touched, bounds⟩ := within.touches
  rw [List.append_nil] at touched
  have := bounds i (touched ▸ mem)
  omega

theorem heap_sort_safe_iff_nine :
    (Ends (heap_sort 10 9) ⟨[1, 3, 5, 6, 7, 8, 5, 2, 3], []⟩ fun _ out =>
      ∀ i ∈ out.touched, 0 ≤ i ∧ i < 9) ↔
      ∀ last dad t, Comes 10 9 ⟨[1, 3, 5, 6, 7, 8, 5, 2, 3], []⟩ last dad t → Stays last dad t :=
  heap_sort_safe_iff [1, 3, 5, 6, 7, 8, 5, 2, 3] 9 rfl (by decide) 10 (by decide)

theorem heap_sort_overflows :
    ¬ ∀ len : Int, 0 ≤ len → len ≤ INT_MAX → ∀ arr : List Int, arr.length = len →
      ∀ fuel : Nat, len < fuel →
        Ends (heap_sort fuel len) ⟨arr, []⟩ fun _ out => ∀ i ∈ out.touched, 0 ≤ i ∧ i < len := by
  intro safe
  have ends := safe (2 ^ 30 + 1) (by decide) (by decide) (ascending (2 ^ 30 + 1))
    (by rw [length_ascending]; rfl) (2 ^ 30 + 2) (by decide)
  exact ends.not_faults (heap_sort_ascending_faults (by decide) (by decide) (by decide))

end CFunc.HeapSort
