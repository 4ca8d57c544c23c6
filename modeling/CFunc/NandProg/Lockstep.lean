import CFunc.NandProg.Chip

/-!
Runs of `do_prog_part` on a faithful chip, in either mode.

No block fails the check that follows its programming, and check mode goes on
after an error. So in either mode the good blocks take the chunks in order, a
block being good when its mark says so.
-/

namespace CFunc.NandProg

open CFunc.Lib CFunc.Lib.Buffer

/-- The good blocks of a pattern from `start_block` up to `b`. -/
def goods (bad : Nat → Bool) (start_block b : Nat) : Nat :=
  (List.range' start_block (b - start_block)).countP fun c => !bad c

section Goods

variable {bad : Nat → Bool} {start_block : Nat}

theorem goods_succ {b : Nat} (le : start_block ≤ b) :
    goods bad start_block (b + 1) = goods bad start_block b + if bad b then 0 else 1 := by
  have more : b + 1 - start_block = (b - start_block) + 1 := by omega
  rw [goods, more, List.range'_1_concat, List.countP_append, List.countP_singleton,
    Nat.add_sub_cancel' le]
  cases bad b <;> rfl

theorem goods_mono (bad : Nat → Bool) (start_block : Nat) {b c : Nat} (le : b ≤ c) :
    goods bad start_block b ≤ goods bad start_block c := by
  refine List.Sublist.countP_le ?_
  exact List.range'_sublist_right.mpr (by omega)

/-- The numbers of the good blocks are in the order of the blocks. -/
theorem goods_lt_iff {b c : Nat} (le : start_block ≤ c) (good : bad c = false) :
    goods bad start_block c < goods bad start_block b ↔ c < b := by
  constructor
  · intro lt
    by_contra not_lt
    have := goods_mono bad start_block (Nat.le_of_not_lt not_lt)
    omega
  · intro lt
    have next := goods_mono bad start_block (Nat.succ_le_of_lt lt)
    rw [Nat.succ_eq_add_one, goods_succ le, good] at next
    exact next

theorem exists_of_lt_goods {b k : Nat} (lt : k < goods bad start_block b) :
    ∃ c, start_block ≤ c ∧ c < b ∧ bad c = false ∧ goods bad start_block c = k := by
  induction b with
  | zero => simp [goods] at lt
  | succ b ih =>
      by_cases earlier : k < goods bad start_block b
      · obtain ⟨c, le, less, found⟩ := ih earlier
        exact ⟨c, le, by omega, found⟩
      · by_cases le : start_block ≤ b
        · rw [goods_succ le] at lt
          cases good : bad b with
          | true =>
              rw [good] at lt
              exact absurd lt earlier
          | false =>
              rw [good, if_neg Bool.false_ne_true] at lt
              exact ⟨b, le, by omega, good, by omega⟩
        · have none : b + 1 - start_block = 0 := by omega
          simp [goods, none] at lt

end Goods

/-- Where a run that accepts every good block stands. -/
structure Lockstep (g : Geometry) (bad : Nat → Bool) (file : File) (start_block : Nat)
    (s : Prog Chip) : Prop where
  start_le : start_block ≤ s.curblk
  copyblks : s.copyblks = goods bad start_block s.curblk
  track : OnTrack g file (HoldsAll g file) s

section Rounds

variable {g : Geometry} {parity : List Byte → Nat → Byte} {bad : Nat → Bool} {file : File}
  {start_block last_block : Nat}

theorem lockstep_start (fit : file.bytes.length % g.stride = 0)
    (some_bytes : 0 < file.bytes.length) (chip : Chip) (nand_buf check_buf : Nat → Byte) :
    Lockstep g bad file start_block (Prog.start g chip nand_buf check_buf start_block) where
  start_le := le_rfl
  copyblks := by simp [Prog.start, goods]
  track := onTrack_start fit some_bytes chip nand_buf check_buf start_block

theorem next_block {blk : Nat} (addressable : (blk + 1) * g.ppb < 2 ^ 32) :
    u32 (blk + 1) = blk + 1 :=
  u32_of_lt (lt_of_le_of_lt (Nat.le_mul_of_pos_right _ g.some_pages) addressable)

/-- A round begins with the chunk that is due and the mark of the block. -/
theorem Lockstep.tried (parity : List Byte → Nat → Byte) {s : Prog Chip}
    (fit : file.bytes.length % g.stride = 0) (lock : Lockstep g bad file start_block s)
    (running : s.broke = false) (addressable : (s.curblk + 1) * g.ppb < 2 ^ 32) :
    ∃ buf, HoldsAll g file s.copyblks buf ∧
      checkBad (faithful g parity) g (NandProg.load g file s) = (marked g s.flash s.curblk,
        s.tried g file buf s.flash (marked g s.flash s.curblk)) := by
  obtain ⟨buf, loaded, holds⟩ := lock.track.load fit (fun _ _ all => all) running
  refine ⟨buf, holds, ?_⟩
  simp only [loaded, checkBad, nand_check_badblock_faithful g parity addressable]
  rfl

/-- A marked block is skipped, with the chunk loaded. -/
theorem Lockstep.skip {s : Prog Chip} (check_only : Bool)
    (fit : file.bytes.length % g.stride = 0) (lock : Lockstep g bad file start_block s)
    (running : s.broke = false) (addressable : (s.curblk + 1) * g.ppb < 2 ^ 32)
    (mark : marked g s.flash s.curblk = true) (is_bad : bad s.curblk = true) :
    ∃ t, round (faithful g parity) g check_only file s = t ∧
      Lockstep g bad file start_block t ∧ t.curblk = s.curblk + 1 ∧ t.copyblks = s.copyblks ∧
      t.flash = s.flash ∧ t.checkerr = s.checkerr ∧ t.broke = false ∧
      t.printed = s.printed ++ [.bad_block_skipped s.curblk] := by
  obtain ⟨buf, holds, tried⟩ := lock.tried parity fit running addressable
  rw [mark] at tried
  refine ⟨skipBad (s.tried g file buf s.flash true), by simp only [round, tried, ↓reduceIte], ?_⟩
  have curblk : (skipBad (s.tried g file buf s.flash true)).curblk = s.curblk + 1 :=
    next_block addressable
  refine ⟨⟨?_, ?_, lock.track.waits rfl rfl rfl rfl holds rfl⟩, curblk, rfl, rfl, rfl, running,
    rfl⟩
  · rw [curblk]
    exact Nat.le_succ_of_le lock.start_le
  · rw [curblk, goods_succ lock.start_le, is_bad]
    exact lock.copyblks

/-- A good block takes the chunk that is due, whatever the mode made of the buffers. -/
theorem Lockstep.accept {s u : Prog Chip} (check_only : Bool)
    (fit : file.bytes.length % g.stride = 0) (lock : Lockstep g bad file start_block s)
    (running : s.broke = false) (addressable : (s.curblk + 1) * g.ppb < 2 ^ 32)
    (is_good : bad s.curblk = false) (curblk : u.curblk = s.curblk)
    (copyblks : u.copyblks = s.copyblks) (offset : u.offset = s.offset)
    (broke : u.broke = s.broke) (pages : u.actual_pages = pagesOf g file s.copyblks) :
    ∃ t, NandProg.accept g check_only file u = t ∧ Lockstep g bad file start_block t ∧
      t.curblk = s.curblk + 1 ∧ t.copyblks = s.copyblks + 1 ∧ t.flash = u.flash ∧
      t.checkerr = u.checkerr ∧
      t.printed = u.printed ++ if t.broke then
        [if check_only then .check_file t.copyblks t.checkerr else .finished] else [] := by
  obtain ⟨t, accepted, track, next, taken, flash, _, checkerr, said⟩ :=
    lock.track.accept check_only fit running copyblks broke offset pages
  rw [curblk, next_block addressable] at next
  refine ⟨t, accepted, ⟨?_, ?_, track⟩, next, taken, flash, checkerr, said⟩
  · rw [next]
    exact Nat.le_succ_of_le lock.start_le
  · rw [taken, next, goods_succ lock.start_le, is_good, lock.copyblks]
    rfl

/-- The rule for a whole run: what each round keeps holds in the end, and the
run takes every chunk exactly when the range has good blocks enough. -/
theorem lockstep_run (check_only : Bool) (fit : file.bytes.length % g.stride = 0)
    (some_bytes : 0 < file.bytes.length) (on_chip : (last_block + 1) * g.ppb < 2 ^ 32)
    (chip : Chip) (nand_buf check_buf : Nat → Byte) (R : Prog Chip → Prop)
    (start : R (Prog.start g chip nand_buf check_buf start_block))
    (step : ∀ s, Lockstep g bad file start_block s → R s → s.broke = false →
      s.curblk ≤ last_block → (s.curblk + 1) * g.ppb < 2 ^ 32 →
      ∃ t, round (faithful g parity) g check_only file s = t ∧
        Lockstep g bad file start_block t ∧ t.curblk = s.curblk + 1 ∧ R t) :
    ∃ t, do_prog_part (faithful g parity) g check_only (some file) start_block last_block chip
        nand_buf check_buf = .done (0, t.finish g file) ∧
      Lockstep g bad file start_block t ∧ R t ∧
      (t.broke = true ↔ chunks g file ≤ goods bad start_block (last_block + 1)) := by
  have round_keeps : ∀ (u : Unit) s, (Lockstep g bad file start_block s ∧ R s ∧
      s.copyblks ≤ goods bad start_block (last_block + 1)) → goOn last_block s = true →
      ∃ (u' : Unit) (t : Prog Chip),
        some (round (faithful g parity) g check_only file s) = some t ∧
        (Lockstep g bad file start_block t ∧ R t ∧
          t.copyblks ≤ goods bad start_block (last_block + 1)) ∧
        last_block + 1 - t.curblk < last_block + 1 - s.curblk := by
    rintro u s ⟨lock, kept, _⟩ go
    simp only [goOn, Bool.and_eq_true, decide_eq_true_eq, Bool.not_eq_true'] at go
    obtain ⟨in_range, running⟩ := go
    have addressable : (s.curblk + 1) * g.ppb < 2 ^ 32 :=
      lt_of_le_of_lt (Nat.mul_le_mul_right _ (by omega)) on_chip
    obtain ⟨t, eq, lock', curblk, kept'⟩ := step s lock kept running in_range addressable
    refine ⟨u, t, by rw [eq], ⟨lock', kept', ?_⟩, by omega⟩
    rw [lock'.copyblks, curblk]
    exact goods_mono bad start_block (by omega)
  obtain ⟨_, t, ran, ⟨lock, kept, in_range⟩, stop⟩ := Loop.run_total (goOn last_block) _ _ _
    round_keeps (last_block + 1 - start_block) ()
    (Prog.start g chip nand_buf check_buf start_block)
    ⟨lockstep_start fit some_bytes chip nand_buf check_buf, start, Nat.zero_le _⟩ le_rfl
  refine ⟨t, ?_, lock, kept, fun broke => lock.track.broke.mp broke ▸ in_range, fun enough => ?_⟩
  · simp only [do_prog_part, fit, ne_eq, not_true_eq_false, ↓reduceIte, ran]
  · by_contra not_broke
    have running : t.broke = false := by simpa using not_broke
    have tried : last_block < t.curblk := by
      simpa [goOn, running] using stop
    have due := lock.track.due running
    have number := lock.copyblks
    have more := goods_mono bad start_block (show last_block + 1 ≤ t.curblk from tried)
    omega

end Rounds

end CFunc.NandProg
