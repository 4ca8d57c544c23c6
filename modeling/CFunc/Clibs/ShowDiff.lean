import CFunc.Lib.Byte
import CFunc.Lib.Loop
import CFunc.Lib.Subsequence

/-!
`clibs/showdiff.cxx`: the longest common subsequence of two strings by dynamic
programming, and the marked listing of their difference.

A `std::string` is its list of bytes. The table of `lcs` is a function of row
and column, filled by the two nested loops of the source; `table[i][j]` is the
answer for the last `i` bytes of `s1` and the last `j` of `s2`, which is what
the two reversed character arrays are for. `lcs_best` says so for the whole
table, and `showDiff_marks` what the two marker lines amount to.
-/

namespace CFunc.ShowDiff

open CFunc.Lib CFunc.Lib.Subsequence

/-- A `std::string`. -/
abbrev Str := List Byte

/-! ### `lcs` -/

/-- `rowChar` and `colChar`: position 0 holds the character constant `'/0'`,
which narrows to `'0'` and is never read; the bytes of the string follow from
its last to its first. -/
def fillChars (s : Str) : Nat → Byte :=
  Loop.count (fun cnt chars => Function.update chars (cnt + 1) (s.getD (s.length - 1 - cnt) 0#8))
    s.length fun _ => 0x30#8

/-- `string table[rowSize][colSize]`, by rows. -/
structure Table where
  rows : List (List Str)

/-- The strings of a fresh table are empty. -/
def Table.empty (rowSize colSize : Nat) : Table :=
  ⟨List.replicate rowSize (List.replicate colSize [])⟩

/-- `table[i][j]` -/
def Table.cell (t : Table) (i j : Nat) : Str := (t.rows.getD i []).getD j []

/-- `table[i][j] = s` -/
def Table.set (t : Table) (i j : Nat) (s : Str) : Table :=
  ⟨t.rows.set i ((t.rows.getD i []).set j s)⟩

/-- The body of the two loops. -/
def fillCell (rowChar colChar : Nat → Byte) (i j : Nat) (table : Table) : Table :=
  let ch1 := rowChar i
  let ch2 := colChar j
  if ch1 = ch2 then
    table.set i j (ch1 :: table.cell (i - 1) (j - 1))
  else
    let str1 := table.cell (i - 1) j
    let str2 := table.cell i (j - 1)
    if str1.length = str2.length then
      table.set i j (if str1 < str2 then str2 else str1)
    else
      table.set i j (if str1.length < str2.length then str2 else str1)

/-- The inner loop, for row `i`. -/
def fillRow (s2 : Str) (rowChar colChar : Nat → Byte) (i : Nat) (table : Table) : Table :=
  Loop.count (fun j => fillCell rowChar colChar i (j + 1)) s2.length table

def lcs (s1 s2 : Str) : Str :=
  let rowChar := fillChars s1
  let colChar := fillChars s2
  let table := Loop.count (fun i => fillRow s2 rowChar colChar (i + 1)) s1.length
    (.empty (s1.length + 1) (s2.length + 1))
  table.cell s1.length s2.length

/-! ### `showDiff` -/

/-- `sub[j]` on a constant string: the byte past the last one is `'\0'`, and
there is no byte after it. -/
def charAt (s : Str) (j : Nat) : Option Byte :=
  if j = s.length then some 0#8 else s[j]?

/-- One marker line from position `j` of `sub` on, and the final `j`. -/
def marks (sub : Str) (mark : Byte) : Str → Nat → Option (Str × Nat)
  | [], j => some ([], j)
  | c :: rest, j => do
      let d ← charAt sub j
      if c ≠ d then
        let (line, j') ← marks sub mark rest j
        return (mark :: line, j')
      else
        let (line, j') ← marks sub mark rest (j + 1)
        return (0x20#8 :: line, j')

/-- `'-'` -/
def minus : Byte := 0x2d#8

/-- `'+'` -/
def plus : Byte := 0x2b#8

/-- The lines `showDiff` writes, without their line ends. -/
def showDiff (s1 s2 sub : Str) : Option (List Str) := do
  let (line1, _) ← marks sub minus s1 0
  let (line2, _) ← marks sub plus s2 0
  return [bytes "LSP: " ++ sub, [], line1, s1, line2, s2]

/-! ### The table holds best answers -/

/-- The table has rows `0..n` of cells `0..m`. -/
def Table.HasSize (t : Table) (n m : Nat) : Prop :=
  t.rows.length = n + 1 ∧ ∀ i ≤ n, (t.rows.getD i []).length = m + 1

theorem Table.empty_size (n m : Nat) : (Table.empty (n + 1) (m + 1)).HasSize n m :=
  ⟨by simp [Table.empty], fun i i_le => by simp [Table.empty, Nat.lt_succ_of_le i_le]⟩

theorem Table.empty_cell (rowSize colSize i j : Nat) :
    (Table.empty rowSize colSize).cell i j = [] := by
  by_cases row : i < rowSize
  · by_cases col : j < colSize <;> simp [Table.empty, Table.cell, row, col]
  · simp [Table.empty, Table.cell, row]

theorem Table.HasSize.set {t : Table} {n m : Nat} (size : t.HasSize n m) (i j : Nat) (s : Str) :
    (t.set i j s).HasSize n m := by
  refine ⟨by simp [Table.set, size.1], ?_⟩
  intro i' i'_le
  have len := size.2 i' i'_le
  by_cases same : i = i'
  · subst same
    simpa [Table.set, size.1, Nat.lt_succ_of_le i'_le] using len
  · simpa [Table.set, same] using len

theorem Table.set_eq {t : Table} {n m : Nat} (size : t.HasSize n m) {i j : Nat} (i_le : i ≤ n)
    (j_le : j ≤ m) (s : Str) : (t.set i j s).cell i j = s := by
  have row : i < t.rows.length := by rw [size.1]; omega
  have col : j < t.rows[i].length := by
    have len := size.2 i i_le
    simp only [List.getD_eq_getElem?_getD, row, List.getElem?_eq_getElem, Option.getD_some] at len
    omega
  simp [Table.set, Table.cell, row, col]

theorem Table.set_of_ne (t : Table) {i j i' j' : Nat} (ne : i' ≠ i ∨ j' ≠ j) (s : Str) :
    (t.set i j s).cell i' j' = t.cell i' j' := by
  by_cases same : i = i'
  · subst same
    have ne : j ≠ j' := fun h => ne.elim (fun h => h rfl) fun k => k h.symm
    by_cases inside : i < t.rows.length
    · simp [Table.set, Table.cell, inside, ne]
    · simp [Table.set, Table.cell, inside]
  · simp [Table.set, Table.cell, same]

/-- `fillChars` reverses: position `cnt` is the `cnt`-th byte from the end. -/
theorem fillChars_eq (s : Str) {cnt : Nat} (pos : 0 < cnt) (le : cnt ≤ s.length) :
    fillChars s cnt = s.getD (s.length - cnt) 0#8 := by
  have filled := Loop.count_inv
    (fun cnt chars => Function.update chars (cnt + 1) (s.getD (s.length - 1 - cnt) 0#8))
    (fun k (chars : Nat → Byte) => ∀ c, 0 < c → c ≤ k → chars c = s.getD (s.length - c) 0#8)
    (n := s.length) (s := fun _ => 0x30#8) (by
      intro k _ chars inv c c_pos c_le
      by_cases last : c = k + 1
      · subst last
        simp only [Function.update_self]
        congr 1
        omega
      · rw [Function.update_of_ne last]
        exact inv c c_pos (by omega))
    (by intro c c_pos c_le; omega)
  exact filled cnt pos le

/-- A suffix grows by the byte `fillChars` holds for it. -/
theorem suffix_succ (s : Str) {k : Nat} (lt : k < s.length) :
    s.drop (s.length - (k + 1)) = fillChars s (k + 1) :: s.drop (s.length - k) := by
  have inside : s.length - (k + 1) < s.length := by omega
  rw [fillChars_eq s (by omega) lt, List.drop_eq_getElem_cons inside]
  congr 2
  · simp [inside]
  · omega

/-- The entry for the last `i` bytes of `s1` and the last `j` bytes of `s2`. -/
def Entry (s1 s2 : Str) (table : Table) (i j : Nat) : Prop :=
  Best (table.cell i j) (s1.drop (s1.length - i)) (s2.drop (s2.length - j))

/-- One pass of the loop body: the tie-break and the length test together pick
the preferred of the two candidates. -/
theorem fillCell_entry {s1 s2 : Str} {table : Table} (size : table.HasSize s1.length s2.length)
    {i j : Nat} (i_lt : i < s1.length) (j_lt : j < s2.length) (diag : Entry s1 s2 table i j)
    (up : Entry s1 s2 table i (j + 1))
    (left : Entry s1 s2 table (i + 1) j) :
    Entry s1 s2 (fillCell (fillChars s1) (fillChars s2) (i + 1) (j + 1) table) (i + 1) (j + 1) := by
  unfold Entry at *
  have row := suffix_succ s1 i_lt
  have col := suffix_succ s2 j_lt
  rw [row] at left ⊢
  rw [col] at up ⊢
  simp only [fillCell, Nat.add_sub_cancel]
  split
  · rename_i same
    rw [Table.set_eq size i_lt j_lt, same]
    exact diag.cons_cons _
  · rename_i ne
    split
    · rename_i tie
      rw [Table.set_eq size i_lt j_lt]
      split
      · rename_i lt
        exact Best.of_ne ne up left (.inr rfl) (.inr ⟨tie, lt.le⟩) (.refl _)
      · rename_i not_lt
        exact Best.of_ne ne up left (.inl rfl) (.refl _) (.inr ⟨tie.symm, le_of_not_gt not_lt⟩)
    · rename_i no_tie
      rw [Table.set_eq size i_lt j_lt]
      split
      · rename_i shorter
        exact Best.of_ne ne up left (.inr rfl) (.inl shorter) (.refl _)
      · exact Best.of_ne ne up left (.inl rfl) (.refl _) (.inl (by omega))

theorem fillCell_of_ne (rowChar colChar : Nat → Byte) (table : Table) {i j i' j' : Nat}
    (ne : i' ≠ i ∨ j' ≠ j) :
    (fillCell rowChar colChar i j table).cell i' j' = table.cell i' j' := by
  unfold fillCell
  dsimp only
  split
  · exact table.set_of_ne ne _
  · split <;> exact table.set_of_ne ne _

theorem fillCell_size (rowChar colChar : Nat → Byte) {table : Table} {n m : Nat}
    (size : table.HasSize n m) (i j : Nat) : (fillCell rowChar colChar i j table).HasSize n m := by
  unfold fillCell
  dsimp only
  split
  · exact size.set i j _
  · split <;> exact size.set i j _

/-- The table after `i` rows: column 0 is still empty and the rows up to `i`
are right. -/
structure Filled (s1 s2 : Str) (i : Nat) (table : Table) : Prop where
  size : table.HasSize s1.length s2.length
  column : ∀ i', table.cell i' 0 = []
  rows : ∀ i' ≤ i, ∀ j ≤ s2.length, Entry s1 s2 table i' j

theorem fillRow_filled {s1 s2 : Str} {i : Nat} (i_lt : i < s1.length) {table : Table}
    (filled : Filled s1 s2 i table) :
    Filled s1 s2 (i + 1) (fillRow s2 (fillChars s1) (fillChars s2) (i + 1) table) := by
  have row := Loop.count_inv
    (fun j => fillCell (fillChars s1) (fillChars s2) (i + 1) (j + 1))
    (fun j table => Filled s1 s2 i table ∧ ∀ j' ≤ j, Entry s1 s2 table (i + 1) j')
    (n := s2.length) (s := table) (by
      rintro j j_lt table ⟨filled, done⟩
      have kept : ∀ {i' j'}, i' ≠ i + 1 ∨ j' ≠ j + 1 →
          (fillCell (fillChars s1) (fillChars s2) (i + 1) (j + 1) table).cell i' j' =
            table.cell i' j' :=
        fun ne => fillCell_of_ne _ _ table ne
      refine ⟨⟨fillCell_size _ _ filled.size _ _, ?_, ?_⟩, ?_⟩
      · intro i'
        rw [kept (.inr (by omega))]
        exact filled.column i'
      · intro i' i'_le j' j'_le
        unfold Entry
        rw [kept (.inl (by omega))]
        exact filled.rows i' i'_le j' j'_le
      · intro j' j'_le
        by_cases new : j' = j + 1
        · subst new
          exact fillCell_entry filled.size i_lt j_lt (filled.rows i le_rfl j (by omega))
            (filled.rows i le_rfl (j + 1) (by omega)) (done j le_rfl)
        · unfold Entry
          rw [kept (.inr new)]
          exact done j' (by omega))
    ⟨filled, by
      intro j' j'_le
      obtain rfl : j' = 0 := by omega
      unfold Entry
      rw [filled.column]
      simpa using Best.nil_right _⟩
  refine ⟨row.1.size, row.1.column, ?_⟩
  intro i' i'_le j j_le
  by_cases last : i' = i + 1
  · subst last
    exact row.2 j j_le
  · exact row.1.rows i' (by omega) j j_le

/-- `lcs` computes the preferred common subsequence. -/
theorem lcs_best (s1 s2 : Str) : Best (lcs s1 s2) s1 s2 := by
  have filled := Loop.count_inv
    (fun i => fillRow s2 (fillChars s1) (fillChars s2) (i + 1)) (Filled s1 s2)
    (n := s1.length) (s := .empty (s1.length + 1) (s2.length + 1))
    (fun i i_lt table inv => fillRow_filled i_lt inv)
    { size := Table.empty_size s1.length s2.length
      column := fun i => Table.empty_cell _ _ i 0
      rows := by
        intro i i_le j _
        obtain rfl : i = 0 := by omega
        unfold Entry
        rw [Table.empty_cell]
        simpa using Best.nil_left _ }
  have last := filled.rows s1.length le_rfl s2.length le_rfl
  unfold Entry at last
  simpa [lcs] using last

/-- `lcs(s1, s2)` is a common subsequence of both strings, no common
subsequence is longer, it is the lexicographically greatest of the longest
ones, and so the order of the arguments does not matter. -/
theorem lcs_correct (s1 s2 : Str) :
    ((lcs s1 s2).Sublist s1 ∧ (lcs s1 s2).Sublist s2) ∧
      (∀ c : Str, c.Sublist s1 → c.Sublist s2 → c.length ≤ (lcs s1 s2).length) ∧
      (∀ c : Str, c.Sublist s1 → c.Sublist s2 → c.length = (lcs s1 s2).length →
        c ≠ lcs s1 s2 → c < lcs s1 s2) ∧
      lcs s1 s2 = lcs s2 s1 := by
  have best := lcs_best s1 s2
  refine ⟨⟨best.left, best.right⟩, ?_, ?_, best.unique (lcs_best s2 s1).symm⟩
  · intro c left right
    rcases best.preferred c left right with shorter | ⟨same, _⟩ <;> omega
  · intro c left right same ne
    rcases best.preferred c left right with shorter | ⟨_, le⟩
    · omega
    · exact lt_of_le_of_ne le ne

/-! ### The marker lines -/

/-- The characters of `s` whose marker is not `mark`. -/
def unmarked (mark : Byte) (s line : Str) : Str :=
  ((s.zip line).filter fun p => p.2 ≠ mark).map Prod.fst

/-- On a string without NUL the index into `sub` never moves past its end, so
every `sub[j]` has a meaning and the marker line is as long as the string. -/
theorem marks_total (sub : Str) (mark : Byte) (s : Str) (nul_free : 0#8 ∉ s) (j : Nat)
    (le : j ≤ sub.length) :
    ∃ line j', marks sub mark s j = some (line, j') ∧ line.length = s.length ∧
      j' ≤ sub.length := by
  induction s generalizing j with
  | nil => exact ⟨[], j, rfl, rfl, le⟩
  | cons c s ih =>
      have c_ne : c ≠ 0#8 := fun h => nul_free (h ▸ List.mem_cons_self)
      have ih := ih fun h => nul_free (List.mem_cons_of_mem _ h)
      by_cases at_end : j = sub.length
      · obtain ⟨line, j', marks_eq, len, le'⟩ := ih j le
        exact ⟨mark :: line, j', by simp [marks, charAt, at_end ▸ marks_eq, at_end, c_ne],
          by simp [len], le'⟩
      · have inside : j < sub.length := by omega
        by_cases same : c = sub[j]
        · obtain ⟨line, j', marks_eq, len, le'⟩ := ih (j + 1) inside
          exact ⟨0x20#8 :: line, j', by simp [marks, charAt, at_end, inside, same, marks_eq],
            by simp [len], le'⟩
        · obtain ⟨line, j', marks_eq, len, le'⟩ := ih j le
          exact ⟨mark :: line, j', by simp [marks, charAt, at_end, inside, same, marks_eq],
            by simp [len], le'⟩

/-- Leftmost greedy matching of what is left of `sub` consumes all of it when
it is a subsequence of the string, whatever other alignments there are. -/
theorem marks_sublist (sub : Str) {mark : Byte} (mark_ne : mark ≠ 0x20#8) (s : Str)
    (nul_free : 0#8 ∉ s) (j : Nat) (le : j ≤ sub.length) (sublist : (sub.drop j).Sublist s)
    {line : Str} {j' : Nat} (marks_eq : marks sub mark s j = some (line, j')) :
    j' = sub.length ∧ unmarked mark s line = sub.drop j ∧
      line.count mark + (sub.length - j) = s.length := by
  induction s generalizing j line j' with
  | nil =>
      obtain ⟨rfl, same⟩ : line = [] ∧ j' = j := by simpa [marks, eq_comm] using marks_eq
      have nil : sub.drop j = [] := List.sublist_nil.mp sublist
      have := List.drop_eq_nil_iff.mp nil
      exact ⟨by omega, by simp [unmarked, nil], by simp; omega⟩
  | cons c s ih =>
      have c_ne : c ≠ 0#8 := fun h => nul_free (h ▸ List.mem_cons_self)
      have nul_free' : 0#8 ∉ s := fun h => nul_free (List.mem_cons_of_mem _ h)
      have skip : ∀ {d}, charAt sub j = some d → c ≠ d → (sub.drop j).Sublist s →
          j' = sub.length ∧ unmarked mark (c :: s) line = sub.drop j ∧
            line.count mark + (sub.length - j) = (c :: s).length := by
        intro d at_j ne shorter
        obtain ⟨line', j'', rest_eq, _⟩ := marks_total sub mark s nul_free' j le
        obtain ⟨rfl, rfl⟩ : line = mark :: line' ∧ j' = j'' := by
          simpa [marks, at_j, ne, rest_eq, eq_comm] using marks_eq
        obtain ⟨consumed, kept, counted⟩ := ih nul_free' j le shorter rest_eq
        refine ⟨consumed, by simpa [unmarked] using kept, ?_⟩
        simp only [List.count_cons_self, List.length_cons]
        omega
      by_cases at_end : j = sub.length
      · exact skip (by simp [charAt, at_end]) c_ne (by simp [at_end])
      · have inside : j < sub.length := by omega
        have drop_eq : sub.drop j = sub[j] :: sub.drop (j + 1) := List.drop_eq_getElem_cons inside
        by_cases same : c = sub[j]
        · obtain ⟨line', j'', rest_eq, _⟩ := marks_total sub mark s nul_free' (j + 1) inside
          obtain ⟨rfl, rfl⟩ : line = 0x20#8 :: line' ∧ j' = j'' := by
            simpa [marks, charAt, at_end, inside, same, rest_eq, eq_comm] using marks_eq
          have shorter : (sub.drop (j + 1)).Sublist s := by
            rw [drop_eq, ← same] at sublist
            exact List.cons_sublist_cons.mp sublist
          obtain ⟨consumed, kept, counted⟩ := ih nul_free' (j + 1) inside shorter rest_eq
          refine ⟨consumed, ?_, ?_⟩
          · rw [drop_eq, ← same]
            simpa [unmarked, Ne.symm mark_ne] using kept
          · simp only [List.count_cons_of_ne (Ne.symm mark_ne), List.length_cons]
            omega
        · refine skip (by simp [charAt, at_end, inside]) same ?_
          rw [drop_eq] at sublist ⊢
          rcases List.sublist_cons_iff.mp sublist with dropped | ⟨r, r_eq, _⟩
          · exact dropped
          · exact absurd (List.cons.inj r_eq).1.symm same

/-- One marker line of a subsequence: its length, what it leaves, its number of
marks, and the index into `sub` along the way. -/
theorem marks_of_sublist {sub s : Str} {mark : Byte} (mark_ne : mark ≠ 0x20#8)
    (nul_free : 0#8 ∉ s) (sublist : sub.Sublist s) :
    ∃ line, marks sub mark s 0 = some (line, sub.length) ∧ line.length = s.length ∧
      unmarked mark s line = sub ∧ line.count mark + sub.length = s.length := by
  obtain ⟨line, j', marks_eq, len, _⟩ := marks_total sub mark s nul_free 0 (by omega)
  obtain ⟨rfl, kept, counted⟩ :=
    marks_sublist sub mark_ne s nul_free 0 (by omega) (by simpa using sublist) marks_eq
  exact ⟨line, marks_eq, len, by simpa using kept, by simpa using counted⟩

/-- The printed difference is faithful: the marker lines are as long as the
strings, removing what they mark leaves the common subsequence on both sides,
the marks are as few as insertions and deletions can be, and the index into the
common subsequence stays within it after every prefix of either string. -/
theorem showDiff_faithful (s1 s2 : Str) (nul_free1 : 0#8 ∉ s1) (nul_free2 : 0#8 ∉ s2) :
    ∃ line1 line2, showDiff s1 s2 (lcs s1 s2) =
        some [bytes "LSP: " ++ lcs s1 s2, [], line1, s1, line2, s2] ∧
      line1.length = s1.length ∧ line2.length = s2.length ∧
      unmarked minus s1 line1 = lcs s1 s2 ∧ unmarked plus s2 line2 = lcs s1 s2 ∧
      line1.count minus + line2.count plus = s1.length + s2.length - 2 * (lcs s1 s2).length ∧
      IsLeast {n | Edits n s1 s2} (line1.count minus + line2.count plus) ∧
      (∀ k, ∃ line j, marks (lcs s1 s2) minus (s1.take k) 0 = some (line, j) ∧
        j ≤ (lcs s1 s2).length) ∧
      (∀ k, ∃ line j, marks (lcs s1 s2) plus (s2.take k) 0 = some (line, j) ∧
        j ≤ (lcs s1 s2).length) := by
  have best := lcs_best s1 s2
  obtain ⟨line1, marks1, len1, kept1, count1⟩ :=
    marks_of_sublist (show minus ≠ 0x20#8 by decide) nul_free1 best.left
  obtain ⟨line2, marks2, len2, kept2, count2⟩ :=
    marks_of_sublist (show plus ≠ 0x20#8 by decide) nul_free2 best.right
  have count : line1.count minus + line2.count plus =
      s1.length + s2.length - 2 * (lcs s1 s2).length := by omega
  have prefixes : ∀ (mark : Byte) (s : Str), 0#8 ∉ s → ∀ k, ∃ line j,
      marks (lcs s1 s2) mark (s.take k) 0 = some (line, j) ∧ j ≤ (lcs s1 s2).length := by
    intro mark s nul_free k
    obtain ⟨line, j, marks_eq, _, le⟩ := marks_total (lcs s1 s2) mark (s.take k)
      (fun h => nul_free (List.mem_of_mem_take h)) 0 (by omega)
    exact ⟨line, j, marks_eq, le⟩
  refine ⟨line1, line2, ?_, len1, len2, kept1, kept2, count, ?_, prefixes minus s1 nul_free1,
    prefixes plus s2 nul_free2⟩
  · simp [showDiff, marks1, marks2]
  · rw [count]
    refine isLeast_edits best.left best.right ?_
    intro d left right
    rcases best.preferred d left right with shorter | ⟨same, _⟩ <;> omega

/-- `ab` against `cb`: one deletion and one insertion. -/
theorem showDiff_faithful_sample :
    ∃ line1 line2, showDiff [97, 98] [99, 98] (lcs [97, 98] [99, 98]) =
        some [bytes "LSP: " ++ lcs [97, 98] [99, 98], [], line1, [97, 98],
          line2, [99, 98]] ∧
      line1.length = 2 ∧ line2.length = 2 ∧
      unmarked minus [97, 98] line1 = lcs [97, 98] [99, 98] ∧
      unmarked plus [99, 98] line2 = lcs [97, 98] [99, 98] ∧
      line1.count minus + line2.count plus = 2 + 2 - 2 * (lcs [97, 98] [99, 98]).length ∧
      IsLeast {n | Edits n ([97, 98] : Str) [99, 98]} (line1.count minus + line2.count plus) ∧
      (∀ k, ∃ line j,
        marks (lcs [97, 98] [99, 98]) minus (List.take k [97, 98]) 0 = some (line, j) ∧
        j ≤ (lcs [97, 98] [99, 98]).length) ∧
      (∀ k, ∃ line j, marks (lcs [97, 98] [99, 98]) plus (List.take k [99, 98]) 0 = some (line, j) ∧
        j ≤ (lcs [97, 98] [99, 98]).length) :=
  showDiff_faithful [97, 98] [99, 98] (by decide) (by decide)

end CFunc.ShowDiff
