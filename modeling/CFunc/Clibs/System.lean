import CFunc.Lib.Memory
import Mathlib.Data.List.GetD

/-!
`clibs/system.c`: the output of a command.

The parent reads the output of the child from a pipe, which may deliver it in
any pieces. The test `count > len` of the loop is false at the start, so only
the first piece is stored.
-/

namespace CFunc.Clibs.System

open CFunc.Lib CFunc.Lib.Memory

/-! ### The code -/

/-- `while ((n = read(fd[0], buf + count, len)) > 0 && count > len)`, where the reads deliver
these pieces and then 0. -/
def readLoop (buf len : Nat) : List (List Byte) → Memory → Nat → Memory
  | [], m, _ => m
  | piece :: pieces, m, count =>
      if count > len then
        readLoop buf len pieces (write m (buf + count) piece) (count + piece.length)
      else write m (buf + count) piece

/-- What the calls of the parent return. -/
structure Calls where
  pipe : Int
  fork : Int
  reads : List (List Byte)
  waitpid : Int

/-- In the parent, where `fork` does not return 0. -/
def _system (m : Memory) (buf len : Nat) (calls : Calls) : Memory × Int :=
  let m := write m buf (List.replicate len 0)
  if calls.pipe < 0 then (m, -1)
  else if calls.fork < 0 then (m, -1)
  else (readLoop buf len calls.reads m 0, if calls.waitpid > 0 then -1 else 0)

/-! ### Deliveries -/

/-- A way to deliver the output to reads that ask for `len` bytes. -/
structure Delivery (len : Nat) (output : List Byte) where
  pieces : List (List Byte)
  sized : ∀ piece ∈ pieces, 0 < piece.length ∧ piece.length ≤ len
  whole : pieces.flatten = output

section Deliveries

variable {len : Nat} {output : List Byte}

/-- What the first read delivers. -/
def Delivery.first (d : Delivery len output) : List Byte := d.pieces.headD []

theorem Delivery.length_first_le (d : Delivery len output) : d.first.length ≤ len := by
  cases pieces : d.pieces with
  | nil =>
      rw [first, pieces]
      exact Nat.zero_le len
  | cons piece later =>
      have listed : piece ∈ d.pieces := pieces ▸ List.mem_cons_self
      rw [first, pieces]
      exact (d.sized piece listed).2

theorem headD_prefix_flatten (pieces : List (List Byte)) : pieces.headD [] <+: pieces.flatten := by
  cases pieces with
  | nil => exact List.nil_prefix
  | cons piece later => exact ⟨later.flatten, rfl⟩

/-- The output begins with the first piece. -/
theorem Delivery.first_prefix (d : Delivery len output) : d.first <+: output := by
  have begins := headD_prefix_flatten d.pieces
  rwa [d.whole] at begins

theorem Delivery.getD_first (d : Delivery len output) {i : Nat} (lt : i < d.first.length) :
    d.first.getD i 0 = output.getD i 0 := by
  obtain ⟨later, equal⟩ := d.first_prefix
  have part := List.getD_append d.first later 0 i lt
  rw [equal] at part
  exact part.symm

/-- A run of the parent with this delivery, after which `waitpid` returns `wait`. -/
def Delivery.calls (d : Delivery len output) (pid : Nat) (wait : Int) : Calls :=
  ⟨0, pid + 1, d.pieces, wait⟩

/-- Past the first piece, the buffer would hold zero bytes only. -/
def Covered (d : Delivery len output) : Prop :=
  ∀ i < min len output.length, d.first.length ≤ i → output.getD i 0 = 0

/-- The buffer holds as much of the output as it can, and nothing else is written. -/
structure Captures (m m' : Memory) (buf len : Nat) (output : List Byte) : Prop where
  held : ∀ i < min len output.length, m' (buf + i) = output.getD i 0
  outside : ∀ x, ¬ (buf ≤ x ∧ x < buf + len) → m' x = m x

variable {m : Memory} {buf pid : Nat} {wait : Int}

/-- Zero bytes, and the first piece on top of them. -/
theorem system_memory (d : Delivery len output) :
    (_system m buf len (d.calls pid wait)).1 =
      write (write m buf (List.replicate len 0)) buf d.first := by
  have started : ¬ ((0 : Int) < 0) := Int.lt_irrefl 0
  have forked : ¬ ((pid : Int) + 1 < 0) := by omega
  rw [_system, Delivery.calls, if_neg started, if_neg forked, Delivery.first]
  cases d.pieces with
  | nil =>
      funext x
      exact (write_outside (by simp)).symm
  | cons piece later => rw [readLoop, if_neg (Nat.not_lt_zero len)]; rfl

theorem system_inside (d : Delivery len output) {i : Nat} (lt : i < len) :
    (_system m buf len (d.calls pid wait)).1 (buf + i) = d.first.getD i 0 := by
  rw [system_memory]
  by_cases inside : i < d.first.length
  · exact write_inside inside
  · have zeros : i < (List.replicate len (0 : Byte)).length := by rwa [List.length_replicate]
    rw [write_outside (by omega), write_inside zeros, List.getD_replicate _ lt,
      List.getD_eq_default _ _ (Nat.le_of_not_lt inside)]

theorem system_outside (d : Delivery len output) {x : Nat} (outside : ¬ (buf ≤ x ∧ x < buf + len)) :
    (_system m buf len (d.calls pid wait)).1 x = m x := by
  have fits := d.length_first_le
  rw [system_memory, write_outside (by omega), write_outside]
  rwa [List.length_replicate]

theorem captures_iff (d : Delivery len output) :
    Captures m (_system m buf len (d.calls pid wait)).1 buf len output ↔ Covered d := by
  constructor
  · intro captures i lt past
    have held := captures.held i lt
    rw [system_inside d (Nat.lt_of_lt_of_le lt (Nat.min_le_left _ _)),
      List.getD_eq_default _ _ past] at held
    exact held.symm
  · intro covered
    constructor
    case held =>
      intro i lt
      rw [system_inside d (Nat.lt_of_lt_of_le lt (Nat.min_le_left _ _))]
      by_cases inside : i < d.first.length
      · exact d.getD_first inside
      · have past := Nat.le_of_not_lt inside
        rw [covered i lt past, List.getD_eq_default _ _ past]
    case outside => exact fun x outside => system_outside d outside

/-- What is captured is the output, with zero bytes behind it. -/
theorem getD_first_of_covered {d : Delivery len output} (covered : Covered d) {i : Nat}
    (lt : i < len) : d.first.getD i 0 = output.getD i 0 := by
  by_cases inside : i < d.first.length
  · exact d.getD_first inside
  · have past := Nat.le_of_not_lt inside
    rw [List.getD_eq_default _ _ past]
    by_cases more : i < output.length
    · exact (covered i (Nat.lt_min.mpr ⟨lt, more⟩) past).symm
    · exact (List.getD_eq_default _ _ (Nat.le_of_not_lt more)).symm

end Deliveries

/-- Two deliveries of one output are captured alike. -/
structure CapturesAlike (m : Memory) (buf len : Nat) (output : List Byte)
    (calls calls' : Calls) : Prop where
  left : Captures m (_system m buf len calls).1 buf len output
  right : Captures m (_system m buf len calls').1 buf len output
  same : ∀ i < len,
    (_system m buf len calls).1 (buf + i) = (_system m buf len calls').1 (buf + i)

/-- The output is captured whatever its pieces exactly when the first piece of each delivery
leaves out nothing but zero bytes. -/
theorem system_captures_iff (m : Memory) (buf : Nat) {len : Nat} {output : List Byte}
    (d d' : Delivery len output) (pid pid' : Nat) (wait wait' : Int) :
    CapturesAlike m buf len output (d.calls pid wait) (d'.calls pid' wait') ↔
      Covered d ∧ Covered d' := by
  constructor
  · intro alike
    exact ⟨(captures_iff d).mp alike.left, (captures_iff d').mp alike.right⟩
  · rintro ⟨covered, covered'⟩
    constructor
    case left => exact (captures_iff d).mpr covered
    case right => exact (captures_iff d').mpr covered'
    case same =>
      intro i lt
      rw [system_inside d lt, system_inside d' lt, getD_first_of_covered covered lt,
        getD_first_of_covered covered' lt]

/-- Of two bytes in two pieces the second is lost. -/
theorem second_piece_lost :
    ¬ CapturesAlike (fun _ => 0) 0 2 (bytes "ab") ⟨0, 1, [bytes "a", bytes "b"], 1⟩
      ⟨0, 1, [bytes "ab"], 1⟩ := by
  intro alike
  exact absurd (alike.left.held 1 (by decide)) (by decide)

end CFunc.Clibs.System
