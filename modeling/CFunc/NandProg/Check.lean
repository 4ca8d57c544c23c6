import CFunc.NandProg.Lockstep
import CFunc.NandProg.Runs

/-!
The two modes of `do_prog_part` on a faithful chip, each over a whole run.

Programming leaves the chunks on the first good blocks and every other page as
it was. Checking reports no error when the blocks that look good to it, in
their order, compare equal to the chunks.
-/

namespace CFunc.NandProg

open CFunc.Lib CFunc.Lib.Buffer

section Runs

variable {g : Geometry} {parity : List Byte → Nat → Byte} {file : File}
  {start_block last_block : Nat}

theorem last_page (g : Geometry) (blk : Nat) :
    (blk + 1) * g.ppb - 1 = blk * g.ppb + (g.ppb - 1) := by
  have := g.some_pages
  rw [Nat.succ_mul]
  omega

theorem last_lt (g : Geometry) : g.ppb - 1 < g.ppb := Nat.sub_lt g.some_pages Nat.one_pos

/-- The mark is in the last page of the block. -/
theorem marked_congr {chip chip' : Chip} {blk : Nat}
    (same : chip (blk * g.ppb + (g.ppb - 1)) = chip' (blk * g.ppb + (g.ppb - 1))) :
    marked g chip blk = marked g chip' blk := by
  simp only [marked, last_page, same]

/-- Pages of different blocks are different. -/
theorem page_of_other {blk blk' p q : Nat} (other : blk ≠ blk') (page : p < g.ppb)
    (page' : q < g.ppb) : blk * g.ppb + p ≠ blk' * g.ppb + q := by
  intro same
  exact page_ne other.symm page ⟨by omega, by omega⟩

theorem finished_mem_finish {s : Prog Chip} :
    .finished ∈ (s.finish g file).printed ↔ .finished ∈ s.printed := by
  rw [Prog.finish]
  split <;> simp

theorem check_file_mem_finish {s : Prog Chip} {n e : Nat} :
    .check_file n e ∈ (s.finish g file).printed ↔ .check_file n e ∈ s.printed := by
  rw [Prog.finish]
  split <;> simp

theorem finish_flash (s : Prog Chip) : (s.finish g file).flash = s.flash := by
  rw [Prog.finish]
  split <;> rfl

/-! ### The program run -/

/-- The page of the flash that programming makes of page `q` of the file. -/
def written (g : Geometry) (parity : List Byte → Nat → Byte) (file : File) (q y : Nat) : Byte :=
  programmed g parity file.byte (q * g.stride) y

theorem programmed_eq_written {k p y : Nat} {buf : Nat → Byte} (holds : HoldsAll g file k buf)
    (page : p < pagesOf g file k) (inside : y < g.stride) :
    programmed g parity buf (p * g.stride) y = written g parity file (k * g.ppb + p) y :=
  programmed_congr (holds p page) inside

/-- The first `n` good blocks of `chip₀` hold the first `n` chunks, and all
other pages are those of `chip₀`. -/
structure Stored (g : Geometry) (parity : List Byte → Nat → Byte) (file : File)
    (start_block : Nat) (chip₀ : Chip) (n : Nat) (chip : Chip) : Prop where
  taken : ∀ c, start_block ≤ c → marked g chip₀ c = false →
    goods (marked g chip₀) start_block c < n →
    ∀ p < pagesOf g file (goods (marked g chip₀) start_block c), ∀ y < g.stride,
      chip (c * g.ppb + p) y =
        written g parity file (goods (marked g chip₀) start_block c * g.ppb + p) y
  others : ∀ c, ∀ p < g.ppb, (start_block ≤ c → marked g chip₀ c = false →
    goods (marked g chip₀) start_block c < n →
    pagesOf g file (goods (marked g chip₀) start_block c) ≤ p) →
      chip (c * g.ppb + p) = chip₀ (c * g.ppb + p)

theorem stored_start (chip₀ : Chip) : Stored g parity file start_block chip₀ 0 chip₀ where
  taken := fun _ _ _ => nofun
  others := fun _ _ _ _ => rfl

/-- The block that is due is as it was. -/
theorem Stored.untouched {chip₀ chip : Chip} {b : Nat}
    (stored : Stored g parity file start_block chip₀ (goods (marked g chip₀) start_block b) chip)
    {p : Nat} (page : p < g.ppb) : chip (b * g.ppb + p) = chip₀ (b * g.ppb + p) :=
  stored.others b p page fun _ _ less => absurd less (lt_irrefl _)

/-- One more block with its chunk. -/
theorem Stored.append {chip₀ chip chip' : Chip} {b : Nat} (le : start_block ≤ b)
    (fit : file.bytes.length % g.stride = 0)
    (stored : Stored g parity file start_block chip₀ (goods (marked g chip₀) start_block b) chip)
    (good : marked g chip₀ b = false)
    (done : ∀ p < pagesOf g file (goods (marked g chip₀) start_block b), ∀ y < g.stride,
      chip' (b * g.ppb + p) y =
        written g parity file (goods (marked g chip₀) start_block b * g.ppb + p) y)
    (elsewhere : ∀ a, (∀ p < pagesOf g file (goods (marked g chip₀) start_block b),
      a ≠ b * g.ppb + p) → chip' a = chip a) :
    Stored g parity file start_block chip₀ (goods (marked g chip₀) start_block b + 1) chip' := by
  have next : goods (marked g chip₀) start_block b + 1 =
      goods (marked g chip₀) start_block (b + 1) := by
    rw [goods_succ le, good]
    rfl
  have pages_le := pagesOf_le fit (goods (marked g chip₀) start_block b)
  refine ⟨fun c le' good' less p page y inside => ?_, fun c p page free => ?_⟩
  · rw [next, goods_lt_iff le' good'] at less
    rcases Nat.lt_succ_iff_lt_or_eq.mp less with earlier | rfl
    · have page' := lt_of_lt_of_le page (pagesOf_le fit _)
      rw [elsewhere _ fun q small => page_of_other (Nat.ne_of_lt earlier) page' (by omega)]
      exact stored.taken c le' good' ((goods_lt_iff le' good').mpr earlier) p page y inside
    · exact done p page y inside
  · by_cases here : c = b
    · subst here
      have outside := free le good (Nat.lt_succ_self _)
      rw [elsewhere _ fun q small => by omega, stored.untouched page]
    · rw [elsewhere _ fun q small => page_of_other here page (by omega)]
      exact stored.others c p page fun le' good' less => free le' good' (Nat.lt_succ_of_lt less)

/-- A round of programming, on a block that is erased unless it is marked. -/
theorem Stored.round {chip₀ : Chip} {s : Prog Chip} (fit : file.bytes.length % g.stride = 0)
    (lock : Lockstep g (marked g chip₀) file start_block s)
    (stored : Stored g parity file start_block chip₀ s.copyblks s.flash)
    (running : s.broke = false) (addressable : (s.curblk + 1) * g.ppb < 2 ^ 32)
    (erased : marked g chip₀ s.curblk = false → Erased g chip₀ s.curblk) :
    ∃ t, NandProg.round (faithful g parity) g false file s = t ∧
      Lockstep g (marked g chip₀) file start_block t ∧ t.curblk = s.curblk + 1 ∧
      Stored g parity file start_block chip₀ t.copyblks t.flash ∧
      (.finished ∈ t.printed ↔ .finished ∈ s.printed ∨ t.broke = true) := by
  rw [lock.copyblks] at stored
  have mark : marked g s.flash s.curblk = marked g chip₀ s.curblk :=
    marked_congr (stored.untouched (last_lt g))
  cases good : marked g chip₀ s.curblk with
  | true =>
      obtain ⟨t, eq, lock', curblk, copyblks, flash, _, broke, said⟩ :=
        lock.skip false fit running addressable (mark.trans good) good
      refine ⟨t, eq, lock', curblk, ?_, ?_⟩
      · rwa [copyblks, flash, lock.copyblks]
      · simp [said, broke]
  | false =>
      obtain ⟨buf, holds, tried⟩ := lock.tried parity fit running addressable
      rw [mark, good] at tried
      let s₁ := s.tried g file buf s.flash false
      obtain ⟨nand_buf, chip, calls, programs, done, elsewhere⟩ :=
        programBlock_faithful g parity s₁ addressable (pagesOf_le fit _) fun p page y inside =>
          (congrFun (stored.untouched page) y).trans (erased good p page y inside)
      let s₂ : Prog Chip := { s₁ with nand_buf := nand_buf, flash := chip, calls := calls }
      obtain ⟨check_buf, calls', reads, read⟩ :=
        readBlock_faithful g parity false s₂ addressable (pagesOf_le fit _)
      have passed : nand_check nand_buf check_buf (pagesOf g file s.copyblks * g.stride) =
          false := by
        refine nand_check_eq_false.mpr ((agree_iff_columns g.stride_pos).mpr ?_)
        intro p page y inside
        obtain ⟨in_buf, in_chip⟩ := done p page y inside
        rw [in_buf, read p page y inside]
        exact in_chip.symm
      obtain ⟨t, accepted, lock', curblk, copyblks, flash, _, said⟩ :=
        lock.accept (u := { s₂ with check_buf := check_buf, calls := calls' }) false fit running
          addressable good rfl rfl rfl rfl rfl
      refine ⟨t, ?_, lock', curblk, ?_, ?_⟩
      · rw [← accepted]
        simp only [NandProg.round, tried, Bool.false_eq_true, ↓reduceIte, goodBlock]
        change (if nand_check (readBlock _ g false (programBlock _ g s₁)).nand_buf _ _ then _
          else _) = _
        rw [programs, reads]
        exact if_neg fun differ => Bool.false_ne_true (passed.symm.trans differ)
      · have content : ∀ p < pagesOf g file s.copyblks, ∀ y < g.stride,
            chip (s.curblk * g.ppb + p) y = written g parity file (s.copyblks * g.ppb + p) y :=
          fun p page y inside =>
            (done p page y inside).2.trans (programmed_eq_written holds page inside)
        have rest : ∀ a, (∀ p < pagesOf g file s.copyblks, a ≠ s.curblk * g.ppb + p) →
            chip a = s.flash a := elsewhere
        rw [lock.copyblks] at content rest
        rw [copyblks, flash, lock.copyblks]
        exact stored.append lock.start_le fit good content rest
      · have said' : t.printed = s.printed ++ if t.broke then [.finished] else [] := said
        cases broke : t.broke <;> simp [said', broke]

/-- Where a round stays in step, the block it tries does not fail its check. -/
theorem Lockstep.no_failure {bad : Nat → Bool} {s : Prog Chip}
    (lock : Lockstep g bad file start_block s) (is_bad : bad s.curblk = true →
      marked g s.flash s.curblk = true) (addressable : (s.curblk + 1) * g.ppb < 2 ^ 32)
    (lock' : Lockstep g bad file start_block
      (NandProg.round (faithful g parity) g false file s))
    (next : (NandProg.round (faithful g parity) g false file s).curblk = s.curblk + 1) :
    outcome (faithful g parity) g file s ≠ .failed := by
  intro failed
  have taken := (stepped (faithful g parity) g file s).copyblks
  rw [lock'.copyblks, next, goods_succ lock.start_le, lock.copyblks, failed] at taken
  -- no chunk is taken, so the block is a bad one, and is found bad
  cases good : bad s.curblk with
  | true =>
      have skipped : outcome (faithful g parity) g file s = .bad := by
        rw [outcome_bad_iff, nand_check_badblock_faithful g parity addressable]
        exact is_bad good
      rw [failed] at skipped
      cases skipped
  | false => simp [good] at taken

/-- Programming ends, and marks no block; the image is finished exactly when the range has a good
block for every chunk, and then the good blocks hold the chunks in order. -/
theorem program_run (parity : List Byte → Nat → Byte) (start_block last_block : Nat)
    (fit : file.bytes.length % g.stride = 0) (some_bytes : 0 < file.bytes.length)
    (on_chip : (last_block + 1) * g.ppb < 2 ^ 32) (chip₀ : Chip)
    (erased : ∀ b, start_block ≤ b → b ≤ last_block → marked g chip₀ b = false →
      Erased g chip₀ b) (nand_buf check_buf : Nat → Byte) :
    ∃ t, do_prog_part (faithful g parity) g false (some file) start_block last_block chip₀
        nand_buf check_buf = .done (0, t) ∧
      (∀ blk, .mark_badblock blk ∉ t.calls) ∧
      (.finished ∈ t.printed ↔
        chunks g file ≤ goods (marked g chip₀) start_block (last_block + 1)) ∧
      (.finished ∈ t.printed → Stored g parity file start_block chip₀ (chunks g file) t.flash) := by
  obtain ⟨t, ran, lock, ⟨stored, said, unmarked⟩, enough⟩ := lockstep_run false fit some_bytes
    on_chip chip₀ nand_buf check_buf (fun s =>
      Stored g parity file start_block chip₀ s.copyblks s.flash ∧
        (.finished ∈ s.printed ↔ s.broke = true) ∧ ∀ blk, .mark_badblock blk ∉ s.calls)
    ⟨stored_start chip₀, by simp [Prog.start], by simp [Prog.start]⟩
    fun s lock ⟨stored, said, unmarked⟩ running in_range addressable => by
      obtain ⟨_, rfl, lock', curblk, stored', said'⟩ := stored.round fit lock
        running addressable (erased _ lock.start_le in_range)
      refine ⟨_, rfl, lock', curblk, stored', by simp [said', said, running], fun blk mark => ?_⟩
      rw [lock.copyblks] at stored
      have no_failure := lock.no_failure
        (marked_congr (stored.untouched (last_lt g))).trans addressable lock' curblk
      exact unmarked blk (round_marks no_failure mark)
  refine ⟨_, ran, ?_, ?_, fun finished => ?_⟩
  · rw [Prog.finish]
    split
    · exact unmarked
    · exact unmarked
  · rw [← enough, ← said, finished_mem_finish]
  · rw [finished_mem_finish, said, lock.track.broke] at finished
    rwa [finish_flash, ← finished]

/-! ### The check run -/

/-- What check mode looks at when block `b` is compared with chunk `k`. -/
def Compares (g : Geometry) (file : File) (chip : Chip) (k b : Nat) : Prop :=
  ∀ p < pagesOf g file k, ∀ y < g.stride,
    file.byte ((k * g.ppb + p) * g.stride + y) = restored g (chip (b * g.ppb + p)) y

variable (parity)

/-- A round of checking counts an error exactly when the block differs from its chunk. -/
theorem check_round {s : Prog Chip} (fit : file.bytes.length % g.stride = 0)
    (lock : Lockstep g (marked g s.flash) file start_block s) (running : s.broke = false)
    (addressable : (s.curblk + 1) * g.ppb < 2 ^ 32) (good : marked g s.flash s.curblk = false) :
    ∃ t, NandProg.round (faithful g parity) g true file s = t ∧
      Lockstep g (marked g s.flash) file start_block t ∧ t.curblk = s.curblk + 1 ∧
      t.flash = s.flash ∧ t.copyblks = s.copyblks + 1 ∧
      (Compares g file s.flash s.copyblks s.curblk → t.checkerr = s.checkerr) ∧
      (¬ Compares g file s.flash s.copyblks s.curblk → t.checkerr = s.checkerr + 1) ∧
      t.printed = s.printed ++
        if t.broke then [.check_file t.copyblks t.checkerr] else [] := by
  obtain ⟨buf, holds, tried⟩ := lock.tried parity fit running addressable
  rw [good] at tried
  let s₁ := s.tried g file buf s.flash false
  obtain ⟨check_buf, calls, reads, read⟩ :=
    readBlock_faithful g parity true s₁ addressable (pagesOf_le fit _)
  let s₂ : Prog Chip := { s₁ with check_buf := check_buf, calls := calls }
  have same : nand_check buf check_buf (pagesOf g file s.copyblks * g.stride) = false ↔
      Compares g file s.flash s.copyblks s.curblk := by
    rw [nand_check_eq_false, agree_iff_columns g.stride_pos]
    refine forall₄_congr fun p page y inside => ?_
    rw [holds p page y inside, read p page y inside]
    exact Iff.rfl
  have entered : NandProg.round (faithful g parity) g true file s =
      if nand_check buf check_buf (pagesOf g file s.copyblks * g.stride) then
        NandProg.accept g true file { s₂ with checkerr := s.checkerr + 1 }
      else NandProg.accept g true file s₂ := by
    simp only [NandProg.round, tried, Bool.false_eq_true, ↓reduceIte, goodBlock]
    rw [show readBlock _ g true _ = _ from reads]
    rfl
  cases differ : nand_check buf check_buf (pagesOf g file s.copyblks * g.stride) with
  | false =>
      obtain ⟨t, accepted, lock', curblk, copyblks, flash, checkerr, said⟩ :=
        lock.accept (u := s₂) true fit running addressable good rfl rfl rfl rfl rfl
      rw [entered, differ]
      exact ⟨t, accepted, lock', curblk, flash, copyblks, fun _ => checkerr,
        fun not => absurd (same.mp differ) not, said⟩
  | true =>
      obtain ⟨t, accepted, lock', curblk, copyblks, flash, checkerr, said⟩ :=
        lock.accept (u := { s₂ with checkerr := s.checkerr + 1 }) true fit running addressable
          good rfl rfl rfl rfl rfl
      rw [entered, differ]
      refine ⟨t, accepted, lock', curblk, flash, copyblks, fun equal => ?_, fun _ => checkerr, said⟩
      rw [same.mpr equal] at differ
      cases differ

/-- The first `n` good blocks, compared with the first `n` chunks, show no difference. -/
def AllCompare (g : Geometry) (file : File) (start_block : Nat) (chip : Chip) (n : Nat) : Prop :=
  ∀ b, start_block ≤ b → marked g chip b = false → goods (marked g chip) start_block b < n →
    Compares g file chip (goods (marked g chip) start_block b) b

/-- What checking has found so far. -/
structure Checked (g : Geometry) (file : File) (start_block : Nat) (chip : Chip)
    (s : Prog Chip) : Prop where
  flash : s.flash = chip
  no_error : s.checkerr = 0 ↔ AllCompare g file start_block chip s.copyblks
  said : ∀ n e, .check_file n e ∈ s.printed ↔ s.broke = true ∧ n = s.copyblks ∧ e = s.checkerr

theorem allCompare_succ {chip : Chip} {b : Nat} (le : start_block ≤ b)
    (good : marked g chip b = false) :
    AllCompare g file start_block chip (goods (marked g chip) start_block b + 1) ↔
      AllCompare g file start_block chip (goods (marked g chip) start_block b) ∧
        Compares g file chip (goods (marked g chip) start_block b) b := by
  constructor
  · intro all
    exact ⟨fun c le' good' less => all c le' good' (Nat.lt_succ_of_lt less),
      all b le good (Nat.lt_succ_self _)⟩
  · rintro ⟨earlier, last⟩ c le' good' less
    rcases Nat.lt_trichotomy c b with before | rfl | after
    · exact earlier c le' good' ((goods_lt_iff le' good').mpr before)
    · exact last
    · have := (goods_lt_iff le good).mpr after
      omega

theorem Checked.round {chip : Chip} {s : Prog Chip} (fit : file.bytes.length % g.stride = 0)
    (lock : Lockstep g (marked g chip) file start_block s)
    (checked : Checked g file start_block chip s) (running : s.broke = false)
    (addressable : (s.curblk + 1) * g.ppb < 2 ^ 32) :
    ∃ t, NandProg.round (faithful g parity) g true file s = t ∧
      Lockstep g (marked g chip) file start_block t ∧ t.curblk = s.curblk + 1 ∧
      Checked g file start_block chip t := by
  obtain ⟨rfl, no_error, said⟩ := checked
  cases good : marked g s.flash s.curblk with
  | true =>
      obtain ⟨t, eq, lock', curblk, copyblks, flash, checkerr, broke, said'⟩ :=
        lock.skip true fit running addressable good good
      refine ⟨t, eq, lock', curblk, flash, by rw [checkerr, copyblks, no_error], fun n e => ?_⟩
      simp [said', said, running, broke]
  | false =>
      obtain ⟨t, eq, lock', curblk, flash, copyblks, equal, differ, said'⟩ :=
        check_round parity fit lock running addressable good
      refine ⟨t, eq, lock', curblk, flash, ?_, fun n e => ?_⟩
      · rw [copyblks, lock.copyblks, allCompare_succ lock.start_le good, ← lock.copyblks,
          ← no_error]
        by_cases compares : Compares g file s.flash s.copyblks s.curblk
        · simp [equal compares, compares]
        · simp [differ compares, compares]
      · cases broke : t.broke <;> simp [said', said, running, broke]

/-- Checking ends; it reports no error exactly when the range has a good block
for every chunk and none of them differs. -/
theorem check_run (start_block last_block : Nat) (fit : file.bytes.length % g.stride = 0)
    (some_bytes : 0 < file.bytes.length) (on_chip : (last_block + 1) * g.ppb < 2 ^ 32)
    (chip : Chip) (nand_buf check_buf : Nat → Byte) :
    ∃ t, do_prog_part (faithful g parity) g true (some file) start_block last_block chip
        nand_buf check_buf = .done (0, t) ∧
      ((∃ n, .check_file n 0 ∈ t.printed) ↔
        chunks g file ≤ goods (marked g chip) start_block (last_block + 1) ∧
          AllCompare g file start_block chip (chunks g file)) := by
  obtain ⟨t, ran, lock, ⟨_, no_error, said⟩, enough⟩ := lockstep_run true fit some_bytes on_chip
    chip nand_buf check_buf (Checked g file start_block chip)
    ⟨rfl, by simp [Prog.start, AllCompare], by simp [Prog.start]⟩
    fun _ lock checked running _ addressable => checked.round parity fit lock running addressable
  refine ⟨_, ran, ?_⟩
  simp only [check_file_mem_finish, said, exists_and_left, exists_eq_left, enough]
  rw [eq_comm, no_error]
  refine and_congr_right fun all => ?_
  rw [lock.track.broke.mp (enough.mpr all)]

end Runs

end CFunc.NandProg
