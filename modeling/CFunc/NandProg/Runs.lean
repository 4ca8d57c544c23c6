import CFunc.NandProg.ProgPartInv

/-!
All runs of `do_prog_part` in program mode, and what they write and report.

A run is as long as its loop lets it be: `curblk` starts again at 0 after a
`last_block` of `2 ^ 32 - 1`, and the chip answers as it likes. `Runs` lists
what became of the blocks tried, in order; the counters follow from it. The
stop condition is tested only when a block was accepted, so an empty file is
never found complete, and the report after the loop counts whole blocks only.
-/

namespace CFunc.NandProg

open CFunc.Lib CFunc.Lib.Buffer

variable {σ : Type} (flash : Flash σ) (g : Geometry) (file : File)

/-! ### Outcomes -/

/-- What becomes of the block that is tried next. -/
def outcome (s : Prog σ) : Outcome :=
  let (bad, s) := checkBad flash g (load g file s)
  let t := readBlock flash g false (programBlock flash g s)
  if bad then .bad
  else if nand_check t.nand_buf t.check_buf (t.actual_pages * g.stride) then .failed
  else .accepted

/-- The states at the head of the loop, with the outcomes of the rounds before. -/
inductive Runs (start_block last_block : Nat) (fl : σ) (nand_buf check_buf : Nat → Byte) :
    List Outcome → Prog σ → Prop where
  | entry : Runs start_block last_block fl nand_buf check_buf []
      (Prog.start g fl nand_buf check_buf start_block)
  | round {outs : List Outcome} {s : Prog σ} :
      Runs start_block last_block fl nand_buf check_buf outs s → goOn last_block s = true →
      Runs start_block last_block fl nand_buf check_buf (outs ++ [outcome flash g file s])
        (round flash g false file s)

/-- The blocks accepted as programmed. -/
def accepted (outs : List Outcome) : Nat := outs.count .accepted

/-- The round at `s` programs a page. -/
def ProgramsPage (s : Prog σ) : Prop :=
  ∃ pageaddr page, Call.program_page pageaddr page ∈
    (round flash g false file s).calls.drop s.calls.length

variable {flash g file}

theorem accepted_append (outs : List Outcome) (o : Outcome) :
    accepted (outs ++ [o]) = accepted outs + if o = .accepted then 1 else 0 := by
  rw [accepted, List.count_append, List.count_singleton, accepted]
  cases o <;> rfl

/-- What a loop ends in is the end of a run. -/
theorem runs_of_loop {start_block last_block : Nat} {fl : σ} {nand_buf check_buf : Nat → Byte}
    {fuel : Nat} {outs : List Outcome} {s t : Prog σ}
    (runs : Runs flash g file start_block last_block fl nand_buf check_buf outs s)
    (ended : Loop.run (goOn last_block) (fun s => some (round flash g false file s)) fuel s =
      .done t) :
    ∃ outs', Runs flash g file start_block last_block fl nand_buf check_buf outs' t ∧
      goOn last_block t = false := by
  obtain ⟨reached, stop⟩ := Loop.reached_of_done ended
  suffices ∃ outs', Runs flash g file start_block last_block fl nand_buf check_buf outs' t by
    obtain ⟨outs', runs'⟩ := this
    exact ⟨outs', runs', stop⟩
  clear ended stop
  induction reached with
  | refl => exact ⟨outs, runs⟩
  | next _ go step ih =>
      obtain ⟨outs', runs'⟩ := ih
      cases step
      exact ⟨_, runs'.round go⟩

/-- What `do_prog_part` returns is the end of a run, with the report after the loop. -/
theorem do_prog_part_runs {start_block last_block : Nat} {fl : σ} {nand_buf check_buf : Nat → Byte}
    (fit : file.bytes.length % g.stride = 0) {ret : Int} {t : Prog σ}
    (ended : do_prog_part flash g false (some file) start_block last_block fl nand_buf check_buf =
      .done (ret, t)) :
    ∃ outs s, Runs flash g file start_block last_block fl nand_buf check_buf outs s ∧
      goOn last_block s = false ∧ t = s.finish g file := by
  simp only [do_prog_part, fit, ne_eq, not_true_eq_false, ↓reduceIte] at ended
  split at ended
  case h_1 s ran =>
    obtain ⟨outs, runs, stop⟩ := runs_of_loop .entry ran
    rw [Loop.Result.done.injEq, Prod.mk.injEq] at ended
    exact ⟨outs, s, runs, stop, ended.2.symm⟩
  case h_2 => cases ended
  case h_3 => cases ended

/-! ### What a round changes -/

theorem load_eq (g : Geometry) (file : File) (s : Prog σ) : ∃ buf pages, load g file s = { s with
    nand_buf := buf
    actual_pages := pages
    curblk_done := false } ∧ (fpage g file = 0 → pages = s.actual_pages) := by
  rw [load]
  cases done : s.curblk_done with
  | false =>
      refine ⟨s.nand_buf, s.actual_pages, ?_, fun _ => rfl⟩
      rw [if_neg (by simp), ← done]
  | true =>
      rw [if_pos rfl]
      by_cases left : s.copyblks = fblk g file ∧ 0 < fpage g file
      · rw [if_pos left]
        exact ⟨_, _, rfl, fun none => absurd left.2 (by omega)⟩
      · rw [if_neg left]
        exact ⟨_, _, rfl, fun _ => rfl⟩

/-- The state in which a round looks at its block, and the answer. -/
theorem checkBad_eq (flash : Flash σ) (g : Geometry) (file : File) (s : Prog σ) :
    ∃ buf pages,
    checkBad flash g (load g file s) = ((nand_check_badblock flash g s.flash s.curblk).1, { s with
      nand_buf := buf
      actual_pages := pages
      curblk_done := false
      flash := (nand_check_badblock flash g s.flash s.curblk).2
      calls := s.calls ++
        [.check_badblock s.curblk (nand_check_badblock flash g s.flash s.curblk).1] }) ∧
      (fpage g file = 0 → pages = s.actual_pages) := by
  obtain ⟨buf, pages, loaded, same⟩ := load_eq g file s
  exact ⟨buf, pages, by rw [loaded]; rfl, same⟩

/-- The state in which a round judges its block: what was programmed and read back. -/
theorem readBlock_eq (flash : Flash σ) (g : Geometry) (file : File) (s : Prog σ) :
    ∃ nand_buf check_buf n fl,
    readBlock flash g false (programBlock flash g (checkBad flash g (load g file s)).2) = { s with
      nand_buf := nand_buf
      check_buf := check_buf
      actual_pages := n
      curblk_done := false
      flash := fl
      calls := s.calls ++
        (.check_badblock s.curblk (nand_check_badblock flash g s.flash s.curblk).1 ::
          (programCalls g s.curblk (pages nand_buf g.stride n) ++
            readCalls g s.curblk (pages check_buf g.stride n))) } ∧
      (fpage g file = 0 → n = s.actual_pages) := by
  obtain ⟨buf, n, looked, same⟩ := checkBad_eq flash g file s
  obtain ⟨nand_buf, fl, programmed, _⟩ := programBlock_spec flash g
    (checkBad flash g (load g file s)).2
  obtain ⟨check_buf, fl', readback⟩ := readBlock_spec flash g
    (programBlock flash g (checkBad flash g (load g file s)).2)
  refine ⟨nand_buf, check_buf, n, fl', ?_, same⟩
  rw [readback, programmed, looked]
  simp [List.append_assoc]

/-- A round ends in one of three ways. -/
theorem round_eq (s : Prog σ) : round flash g false file s =
    match outcome flash g file s with
    | .bad => skipBad (checkBad flash g (load g file s)).2
    | .failed =>
        let t := readBlock flash g false (programBlock flash g (checkBad flash g (load g file s)).2)
        reject flash { t with checkerr := t.checkerr + 1 }
    | .accepted => accept g false file
        (readBlock flash g false (programBlock flash g (checkBad flash g (load g file s)).2)) := by
  rw [round, outcome]
  obtain ⟨bad, u⟩ := checkBad flash g (load g file s)
  cases bad with
  | true => rfl
  | false =>
      simp only [Bool.false_eq_true, ↓reduceIte, goodBlock]
      cases nand_check (readBlock flash g false (programBlock flash g u)).nand_buf
          (readBlock flash g false (programBlock flash g u)).check_buf
          ((readBlock flash g false (programBlock flash g u)).actual_pages * g.stride) with
      | true => rfl
      | false => rfl

/-- Only a block that fails its check is marked. -/
theorem round_marks {s : Prog σ} (no_failure : outcome flash g file s ≠ .failed) {blk : Nat}
    (mark : .mark_badblock blk ∈ (round flash g false file s).calls) :
    .mark_badblock blk ∈ s.calls := by
  rw [round_eq] at mark
  cases is : outcome flash g file s with
  | bad =>
      obtain ⟨buf, n, looked, -⟩ := checkBad_eq flash g file s
      simpa [is, looked, skipBad] using mark
  | failed => exact absurd is no_failure
  | accepted =>
      obtain ⟨nand_buf, check_buf, n, fl, judged, -⟩ := readBlock_eq flash g file s
      simp only [is, judged, accept] at mark
      split at mark
      all_goals simpa [programCalls, readCalls, List.mem_mapIdx] using mark

/-- What a round does to the counters and the reports, by its outcome. -/
structure Stepped (flash : Flash σ) (g : Geometry) (file : File) (s t : Prog σ) : Prop where
  curblk : t.curblk = u32 (s.curblk + 1)
  copyblks : t.copyblks =
    if outcome flash g file s = .accepted then u32 (s.copyblks + 1) else s.copyblks
  broke : t.broke = true ↔ s.broke = true ∨
    outcome flash g file s = .accepted ∧ allCopied g file t.copyblks = true
  finished : .finished ∈ t.printed ↔ .finished ∈ s.printed ∨
    outcome flash g file s = .accepted ∧ allCopied g file t.copyblks = true
  not_finished : ∀ c r, .not_finished c r ∈ t.printed → .not_finished c r ∈ s.printed
  pages : fpage g file = 0 → t.actual_pages = s.actual_pages

theorem stepped_accept {s u : Prog σ} (is_accepted : outcome flash g file s = .accepted)
    (curblk : u.curblk = s.curblk) (copyblks : u.copyblks = s.copyblks)
    (broke : u.broke = s.broke) (printed : u.printed = s.printed)
    (pages : fpage g file = 0 → u.actual_pages = s.actual_pages) :
    Stepped flash g file s (accept g false file u) := by
  cases all : allCopied g file (u32 (u.copyblks + 1)) with
  | true =>
      have eq : accept g false file u = { u with
          curblk_done := true
          offset := u32 (u.offset + g.ppb * g.stride)
          curblk := u32 (u.curblk + 1)
          copyblks := u32 (u.copyblks + 1)
          printed := u.printed ++ [.finished]
          broke := true } := by
        rw [accept, if_pos all]
        rfl
      rw [eq]
      constructor
      case curblk => rw [← curblk]
      case copyblks => rw [if_pos is_accepted, ← copyblks]
      case broke => exact iff_of_true rfl (.inr ⟨is_accepted, all⟩)
      case finished => exact iff_of_true (by simp) (.inr ⟨is_accepted, all⟩)
      case not_finished =>
        intro c r mem
        rw [← printed]
        simpa using mem
      case pages => exact pages
  | false =>
      have eq : accept g false file u = { u with
          curblk_done := true
          offset := u32 (u.offset + g.ppb * g.stride)
          curblk := u32 (u.curblk + 1)
          copyblks := u32 (u.copyblks + 1) } := by
        rw [accept, if_neg (by simp [all])]
      rw [eq]
      constructor
      case curblk => rw [← curblk]
      case copyblks => rw [if_pos is_accepted, ← copyblks]
      case broke => simp [all, broke]
      case finished => simp [all, printed]
      case not_finished =>
        intro c r mem
        rwa [← printed]
      case pages => exact pages

theorem stepped (flash : Flash σ) (g : Geometry) (file : File) (s : Prog σ) :
    Stepped flash g file s (round flash g false file s) := by
  rw [round_eq]
  cases is : outcome flash g file s with
  | bad =>
      obtain ⟨buf, n, looked, n_eq⟩ := checkBad_eq flash g file s
      rw [looked]
      refine ⟨rfl, by simp [is, skipBad], by simp [is, skipBad], by simp [is, skipBad], ?_, n_eq⟩
      intro c r mem
      simpa [skipBad] using mem
  | failed =>
      obtain ⟨nand_buf, check_buf, n, fl, judged, n_eq⟩ :=
        readBlock_eq flash g file s
      simp only [judged]
      refine ⟨rfl, by simp [is, reject], by simp [is, reject], by simp [is, reject], ?_, n_eq⟩
      intro c r mem
      simpa [reject] using mem
  | accepted =>
      obtain ⟨nand_buf, check_buf, n, fl, judged, n_eq⟩ :=
        readBlock_eq flash g file s
      simp only [judged]
      exact stepped_accept is rfl rfl rfl rfl n_eq

/-! ### What a round programs -/

theorem outcome_bad_iff (s : Prog σ) :
    outcome flash g file s = .bad ↔ (nand_check_badblock flash g s.flash s.curblk).1 = true := by
  obtain ⟨buf, n, looked, _⟩ := checkBad_eq flash g file s
  rw [outcome, looked]
  simp only
  split
  case isTrue bad => exact iff_of_true rfl bad
  case isFalse good =>
    apply iff_of_false _ good
    split <;> simp

/-- On a bad block the chip is only asked for the marks. -/
theorem round_of_bad {s : Prog σ} (bad : outcome flash g file s = .bad) :
    (round flash g false file s).flash = (nand_check_badblock flash g s.flash s.curblk).2 ∧
      ¬ ProgramsPage flash g file s := by
  obtain ⟨buf, n, looked, _⟩ := checkBad_eq flash g file s
  have eq : round flash g false file s = skipBad (checkBad flash g (load g file s)).2 := by
    rw [round_eq, bad]
  rw [ProgramsPage, eq, looked]
  constructor
  · rfl
  · rintro ⟨pageaddr, page, mem⟩
    simp [skipBad] at mem

/-- A good block gets a page, if the chunk has one. -/
theorem programsPage_of_good {s : Prog σ} (good : outcome flash g file s ≠ .bad)
    (left : fpage g file = 0) (some_pages : 0 < s.actual_pages) : ProgramsPage flash g file s := by
  obtain ⟨nand_buf, check_buf, n, fl, judged, n_eq⟩ :=
    readBlock_eq flash g file s
  rw [n_eq left] at judged
  have first : Call.program_page (u32 (s.curblk * g.ppb + 0))
      (slice nand_buf (0 * g.stride) g.stride) ∈
      programCalls g s.curblk (pages nand_buf g.stride s.actual_pages) := by
    rw [programCalls, List.mem_mapIdx]
    exact ⟨0, by rw [length_pages]; exact some_pages, by simp [pages]⟩
  have more : ∃ rest, (round flash g false file s).calls = s.calls ++
      (.check_badblock s.curblk (nand_check_badblock flash g s.flash s.curblk).1 ::
        (programCalls g s.curblk (pages nand_buf g.stride s.actual_pages) ++ rest)) := by
    rw [round_eq]
    cases is : outcome flash g file s with
    | bad => exact absurd is good
    | failed =>
        simp only [judged, reject]
        exact ⟨readCalls g s.curblk (pages check_buf g.stride s.actual_pages) ++
          [.erase_block s.curblk, .mark_badblock s.curblk], by simp [List.append_assoc]⟩
    | accepted =>
        simp only [judged, accept]
        split
        all_goals exact ⟨_, rfl⟩
  obtain ⟨rest, calls⟩ := more
  refine ⟨u32 (s.curblk * g.ppb + 0), slice nand_buf (0 * g.stride) g.stride, ?_⟩
  rw [calls, List.drop_left]
  exact List.mem_cons_of_mem _ (List.mem_append_left _ first)

/-! ### Whole runs -/

section Whole

variable {start_block last_block : Nat} {fl : σ} {nand_buf check_buf : Nat → Byte}
  {outs : List Outcome} {s : Prog σ}

theorem goOn_eq_true : goOn last_block s = true ↔ s.curblk ≤ last_block ∧ s.broke = false := by
  simp [goOn]

/-- The loop is left with a report, and the other report is made after it. -/
theorem Runs.reported
    (runs : Runs flash g file start_block last_block fl nand_buf check_buf outs s) :
    (.finished ∈ s.printed ↔ s.broke = true) ∧ ∀ c r, .not_finished c r ∉ s.printed := by
  induction runs with
  | entry => simp [Prog.start]
  | @round outs s runs go ih =>
      have step := stepped flash g file s
      refine ⟨by rw [step.finished, step.broke, ih.1], ?_⟩
      intro c r mem
      exact ih.2 c r (step.not_finished c r mem)

/-- On a file that is not empty `copyblks` counts the accepted blocks, and the loop is left with
the last chunk. -/
theorem Runs.counted (fit : file.bytes.length % g.stride = 0) (some_bytes : 0 < file.bytes.length)
    (runs : Runs flash g file start_block last_block fl nand_buf check_buf outs s) :
    s.copyblks = accepted outs ∧ accepted outs ≤ chunks g file ∧
      (s.broke = true ↔ accepted outs = chunks g file) := by
  induction runs with
  | entry =>
      have positive := chunks_pos fit some_bytes
      refine ⟨rfl, Nat.zero_le _, ?_⟩
      simp [Prog.start, accepted]
      omega
  | @round outs s runs go ih =>
      obtain ⟨count, within, broke⟩ := ih
      have step := stepped flash g file s
      have running := (goOn_eq_true.mp go).2
      have due : accepted outs < chunks g file := by
        apply lt_of_le_of_ne within
        intro all
        rw [broke.mpr all] at running
        cases running
      have small := chunks_lt fit
      rw [accepted_append]
      by_cases is : outcome flash g file s = .accepted
      · have copyblks := step.copyblks
        rw [if_pos is, count, u32_of_lt (by omega)] at copyblks
        have last := allCopied_iff (show accepted outs + 1 ≤ chunks g file from due)
        rw [if_pos is]
        refine ⟨copyblks, due, ?_⟩
        rw [step.broke, running, copyblks, last]
        simp [is]
      · have copyblks := step.copyblks
        rw [if_neg is] at copyblks ⊢
        refine ⟨copyblks.trans count, within, ?_⟩
        rw [step.broke, Nat.add_zero, ← broke]
        simp [is]

/-! ### No more than the image -/

variable (flash g file start_block last_block fl nand_buf check_buf)

/-- Every block accepted takes a chunk of the image, and no page is programmed once all have been
taken. -/
def WritesNoMore : Prop :=
  ∀ outs s, Runs flash g file start_block last_block fl nand_buf check_buf outs s →
    accepted outs ≤ chunks g file ∧
      (goOn last_block s = true → ProgramsPage flash g file s → accepted outs < chunks g file)

/-- The chip after `k` checks of the blocks from `start_block` on. -/
def checked : Nat → σ
  | 0 => fl
  | k + 1 => (nand_check_badblock flash g (checked k) (u32 (start_block + k))).2

/-- No block of the range is found good. -/
def AllBad : Prop :=
  ∀ k, (∀ j ≤ k, u32 (start_block + j) ≤ last_block) →
    (nand_check_badblock flash g (checked flash g start_block fl k) (u32 (start_block + k))).1 =
      true

variable {flash g file start_block last_block fl nand_buf check_buf}

theorem u32_succ (n : Nat) : u32 (u32 n + 1) = u32 (n + 1) := by
  unfold u32
  omega

/-- As long as the blocks are bad, the run only checks. -/
theorem runs_of_bad (start_lt : start_block < 2 ^ 32) (left : fpage g file = 0) (k : Nat)
    (range : ∀ j < k, u32 (start_block + j) ≤ last_block)
    (bad : ∀ j < k, (nand_check_badblock flash g (checked flash g start_block fl j)
      (u32 (start_block + j))).1 = true) :
    ∃ s, Runs flash g file start_block last_block fl nand_buf check_buf
        (List.replicate k .bad) s ∧ s.flash = checked flash g start_block fl k ∧
      s.curblk = u32 (start_block + k) ∧ s.broke = false ∧ s.actual_pages = g.ppb := by
  induction k with
  | zero => exact ⟨_, .entry, rfl, (u32_of_lt start_lt).symm, rfl, rfl⟩
  | succ k ih =>
      obtain ⟨s, runs, flash_eq, curblk, running, pages⟩ :=
        ih (fun j lt => range j (by omega)) fun j lt => bad j (by omega)
      have go : goOn last_block s = true := goOn_eq_true.mpr ⟨curblk ▸ range k (by omega), running⟩
      have is : outcome flash g file s = .bad := by
        rw [outcome_bad_iff, flash_eq, curblk]
        exact bad k (by omega)
      have step := stepped flash g file s
      refine ⟨round flash g false file s, ?_, ?_, ?_, ?_, (step.pages left).trans pages⟩
      · have more := runs.round go
        rwa [is, ← List.replicate_succ'] at more
      · rw [(round_of_bad is).1, flash_eq, curblk]
        rfl
      · rw [step.curblk, curblk, u32_succ]
        rfl
      · have broke := step.broke
        simpa [is, running] using broke

/-- The block of a round that goes on is in the partition, as those before it were. -/
theorem range_of_goOn {n : Nat} (curblk : s.curblk = u32 (start_block + n))
    (go : goOn last_block s = true) (range : ∀ j < n, u32 (start_block + j) ≤ last_block) :
    ∀ j ≤ n, u32 (start_block + j) ≤ last_block := by
  intro j le
  by_cases last : j = n
  · rw [last, ← curblk]
    exact (goOn_eq_true.mp go).1
  · exact range j (by omega)

theorem runs_bad_of_allBad (start_lt : start_block < 2 ^ 32)
    (all_bad : AllBad flash g start_block last_block fl)
    (runs : Runs flash g file start_block last_block fl nand_buf check_buf outs s) :
    s.flash = checked flash g start_block fl outs.length ∧
      s.curblk = u32 (start_block + outs.length) ∧ accepted outs = 0 ∧
      (∀ j < outs.length, u32 (start_block + j) ≤ last_block) := by
  induction runs with
  | entry => exact ⟨rfl, (u32_of_lt start_lt).symm, rfl, fun j lt => absurd lt (Nat.not_lt_zero j)⟩
  | @round outs s runs go ih =>
      obtain ⟨flash_eq, curblk, none_accepted, range⟩ := ih
      have range' := range_of_goOn curblk go range
      have is : outcome flash g file s = .bad := by
        rw [outcome_bad_iff, flash_eq, curblk]
        exact all_bad _ range'
      have step := stepped flash g file s
      rw [List.length_append, List.length_singleton, accepted_append, is]
      refine ⟨?_, ?_, none_accepted, fun j lt => range' j (by omega)⟩
      · rw [(round_of_bad is).1, flash_eq, curblk]
        rfl
      · rw [step.curblk, curblk, u32_succ]
        rfl

theorem empty_chunks (empty : file.bytes.length = 0) :
    fblk g file = 0 ∧ fpage g file = 0 ∧ chunks g file = 0 := by
  simp [chunks, fblk, fpage, empty]

/-- `do_prog_part` writes no more than the image needs, on a file that is not empty; an empty one
is written to every good block of the range. -/
theorem writes_no_more_iff (flash : Flash σ) (g : Geometry) (file : File)
    (fit : file.bytes.length % g.stride = 0) (start_block last_block : Nat)
    (start_lt : start_block < 2 ^ 32) (fl : σ) (nand_buf check_buf : Nat → Byte) :
    WritesNoMore flash g file start_block last_block fl nand_buf check_buf ↔
      0 < file.bytes.length ∨ AllBad flash g start_block last_block fl := by
  by_cases some_bytes : 0 < file.bytes.length
  · refine iff_of_true ?_ (.inl some_bytes)
    intro outs s runs
    obtain ⟨_, within, broke⟩ := runs.counted fit some_bytes
    refine ⟨within, fun go _ => lt_of_le_of_ne within fun all => ?_⟩
    have running := (goOn_eq_true.mp go).2
    rw [broke.mpr all] at running
    cases running
  · have empty : file.bytes.length = 0 := by omega
    obtain ⟨_, left, none⟩ := empty_chunks (g := g) empty
    constructor
    · intro no_more
      right
      intro k
      induction k using Nat.strong_induction_on with
      | _ k ih =>
          intro range
          have bad_run : ∃ s, Runs flash g file start_block last_block fl nand_buf check_buf
              (List.replicate k .bad) s ∧ _ :=
            runs_of_bad start_lt left k (fun j lt => range j (by omega)) fun j lt =>
              ih j lt fun i le => range i (by omega)
          obtain ⟨s, runs, flash_eq, curblk, running, pages⟩ := bad_run
          have go : goOn last_block s = true :=
            goOn_eq_true.mpr ⟨curblk ▸ range k (le_refl k), running⟩
          rw [← flash_eq, ← curblk]
          by_contra good
          have is_good : outcome flash g file s ≠ .bad := fun bad =>
            good ((outcome_bad_iff s).mp bad)
          have programs := programsPage_of_good is_good left (by rw [pages]; exact g.some_pages)
          have due := (no_more _ s runs).2 go programs
          omega
    · intro condition
      have all_bad := condition.resolve_left some_bytes
      intro outs s runs
      obtain ⟨flash_eq, curblk, none_accepted, range⟩ := runs_bad_of_allBad start_lt all_bad runs
      refine ⟨by omega, fun go programs => ?_⟩
      have is : outcome flash g file s = .bad := by
        rw [outcome_bad_iff, flash_eq, curblk]
        exact all_bad _ (range_of_goOn curblk go range)
      exact absurd programs (round_of_bad is).2

/-! ### The reports -/

/-- Page `P` of the image was left on a block that passed verification: the block that took its
chunk. -/
def Left (g : Geometry) (outs : List Outcome) (P : Nat) : Prop :=
  ∃ i, outs[i]? = some .accepted ∧ accepted (outs.take i) = P / g.ppb

/-- `not finished` is said exactly when a page of the image was not left on a verified block, and
`finished` exactly when all were. -/
def ReportsRight (g : Geometry) (file : File) (outs : List Outcome) (t : Prog σ) : Prop :=
  ((∃ c r, .not_finished c r ∈ t.printed) ↔
    ¬ ∀ P < fblk g file * g.ppb + fpage g file, Left g outs P) ∧
  (.finished ∈ t.printed ↔ ∀ P < fblk g file * g.ppb + fpage g file, Left g outs P)

/-- The accepted blocks take the chunks one after the other. -/
theorem exists_accepted_iff (outs : List Outcome) (k : Nat) :
    (∃ i, outs[i]? = some .accepted ∧ accepted (outs.take i) = k) ↔ k < accepted outs := by
  induction outs using List.reverseRecOn with
  | nil => simp [accepted]
  | append_singleton outs o ih =>
      rw [accepted_append]
      constructor
      · rintro ⟨i, at_i, number⟩
        by_cases before : i < outs.length
        · rw [List.getElem?_append_left before] at at_i
          rw [List.take_append_of_le_length before.le] at number
          have lt := ih.mp ⟨i, at_i, number⟩
          omega
        · have inside := (List.getElem?_eq_some_iff.mp at_i).1
          rw [List.length_append, List.length_singleton] at inside
          obtain rfl : i = outs.length := by omega
          rw [List.getElem?_concat_length] at at_i
          rw [List.take_left] at number
          rw [if_pos (Option.some.inj at_i)]
          omega
      · intro lt
        by_cases before : k < accepted outs
        · obtain ⟨i, at_i, number⟩ := ih.mpr before
          have inside := (List.getElem?_eq_some_iff.mp at_i).1
          refine ⟨i, by rwa [List.getElem?_append_left inside], ?_⟩
          rwa [List.take_append_of_le_length inside.le]
        · by_cases is : o = .accepted
          · subst is
            rw [if_pos rfl] at lt
            refine ⟨outs.length, List.getElem?_concat_length, ?_⟩
            rw [List.take_left]
            omega
          · rw [if_neg is] at lt
            omega

/-- All pages are left on verified blocks when as many blocks are accepted as there are chunks. -/
theorem all_left_iff (fit : file.bytes.length % g.stride = 0) (outs : List Outcome) :
    (∀ P < fblk g file * g.ppb + fpage g file, Left g outs P) ↔
      chunks g file ≤ accepted outs := by
  have some_pages := g.some_pages
  have fpage_lt : fpage g file < g.ppb := by
    rw [(length_eq_pages fit).2]
    exact Nat.mod_lt _ some_pages
  have chunk_of {P : Nat} (lt : P < fblk g file * g.ppb + fpage g file) :
      P / g.ppb < chunks g file := by
    rw [chunks, Nat.div_lt_iff_lt_mul some_pages]
    split
    · rw [Nat.succ_mul]
      omega
    · rw [Nat.add_zero]
      omega
  constructor
  · intro all
    by_contra few
    have some_page : 0 < pagesOf g file (accepted outs) := by
      rw [pagesOf]
      rw [chunks] at few
      split
      · exact some_pages
      · split at few
        · assumption
        · omega
    have in_file := page_in_file (by omega) some_page
    have taken := (exists_accepted_iff outs _).mp (all _ in_file)
    rw [Nat.add_zero, Nat.mul_div_cancel _ some_pages] at taken
    exact absurd taken (Nat.lt_irrefl _)
  · intro enough P lt
    exact (exists_accepted_iff outs _).mpr ((chunk_of lt).trans_le enough)

theorem finished_report :
    .finished ∈ (s.finish g file).printed ↔ .finished ∈ s.printed := by
  rw [Prog.finish]
  split <;> simp

/-- The report after the loop looks at whole blocks only. -/
theorem not_finished_report (none : ∀ c r, .not_finished c r ∉ s.printed) :
    (∃ c r, .not_finished c r ∈ (s.finish g file).printed) ↔ s.copyblks < fblk g file := by
  rw [Prog.finish]
  split
  case isTrue few =>
    apply iff_of_true _ few
    exact ⟨s.copyblks, fblk g file, by simp⟩
  case isFalse enough =>
    apply iff_of_false _ enough
    rintro ⟨c, r, mem⟩
    exact none c r mem

/-- While the range does not end with the last block number, blocks are tried once. -/
theorem Runs.curblk_eq (start_lt : start_block < 2 ^ 32) (last_lt : last_block < 2 ^ 32 - 1)
    (runs : Runs flash g file start_block last_block fl nand_buf check_buf outs s) :
    s.curblk = start_block + outs.length ∧ s.curblk < 2 ^ 32 := by
  induction runs with
  | entry => exact ⟨rfl, start_lt⟩
  | @round outs s runs go ih =>
      have step := stepped flash g file s
      have in_range := (goOn_eq_true.mp go).1
      rw [step.curblk, u32_of_lt (by omega), List.length_append, List.length_singleton]
      omega

/-- The stop condition never holds for an empty file while `copyblks` does not overflow. -/
theorem Runs.empty_running (empty : file.bytes.length = 0) (start_lt : start_block < 2 ^ 32)
    (last_lt : last_block < 2 ^ 32 - 1)
    (runs : Runs flash g file start_block last_block fl nand_buf check_buf outs s) :
    s.copyblks = accepted outs ∧ s.broke = false := by
  obtain ⟨no_blocks, no_pages, _⟩ := empty_chunks (g := g) empty
  induction runs with
  | entry => exact ⟨rfl, rfl⟩
  | @round outs s runs go ih =>
      obtain ⟨count, running⟩ := ih
      have step := stepped flash g file s
      obtain ⟨curblk, curblk_lt⟩ := runs.curblk_eq start_lt last_lt
      have few : accepted outs ≤ outs.length := List.count_le_length
      have in_range := (goOn_eq_true.mp go).1
      have copyblks := step.copyblks
      have broke := step.broke
      rw [accepted_append]
      by_cases is : outcome flash g file s = .accepted
      · rw [if_pos is, count, u32_of_lt (by omega)] at copyblks
        rw [if_pos is]
        refine ⟨copyblks, ?_⟩
        rw [copyblks] at broke
        simpa [allCopied, no_blocks, no_pages, running] using broke
      · rw [if_neg is] at copyblks ⊢
        refine ⟨copyblks.trans count, ?_⟩
        simpa [is, running] using broke

theorem u32_lt (n : Nat) : u32 n < 2 ^ 32 := Nat.mod_lt _ (by decide)

theorem Runs.curblk_lt (start_lt : start_block < 2 ^ 32)
    (runs : Runs flash g file start_block last_block fl nand_buf check_buf outs s) :
    s.curblk < 2 ^ 32 := by
  cases runs with
  | entry => exact start_lt
  | round _ _ =>
      rw [(stepped _ _ _ _).curblk]
      exact u32_lt _

/-- At the end of a run the reports are right unless the blocks run out just before a partial last
chunk, or the file is empty (and `copyblks` cannot come round to 0). -/
theorem reports_right_iff (flash : Flash σ) (g : Geometry) (file : File)
    (fit : file.bytes.length % g.stride = 0) (start_block last_block : Nat)
    (start_lt : start_block < 2 ^ 32) (last_lt : last_block < 2 ^ 32) (fl : σ)
    (nand_buf check_buf : Nat → Byte) (outs : List Outcome) (s : Prog σ)
    (runs : Runs flash g file start_block last_block fl nand_buf check_buf outs s)
    (ended : goOn last_block s = false) :
    ReportsRight g file outs (s.finish g file) ↔
      0 < file.bytes.length ∧ (fpage g file = 0 ∨ accepted outs ≠ fblk g file) ∨
      file.bytes.length = 0 ∧ last_block = 2 ^ 32 - 1 := by
  obtain ⟨finished, not_finished⟩ := runs.reported
  rw [ReportsRight, not_finished_report not_finished, finished_report, finished, all_left_iff fit]
  have curblk_lt := runs.curblk_lt start_lt
  by_cases some_bytes : 0 < file.bytes.length
  · obtain ⟨count, within, broke⟩ := runs.counted fit some_bytes
    have blocks : chunks g file = fblk g file + if 0 < fpage g file then 1 else 0 := rfl
    rw [broke, count]
    by_cases left : 0 < fpage g file
    · rw [if_pos left] at blocks
      omega
    · rw [if_neg left] at blocks
      omega
  · have empty : file.bytes.length = 0 := by omega
    obtain ⟨no_blocks, no_pages, no_chunks⟩ := empty_chunks (g := g) empty
    rw [no_blocks, no_chunks, empty]
    by_cases last : last_block = 2 ^ 32 - 1
    · have broke : s.broke = true := by
        by_contra running
        have go : goOn last_block s = true :=
          goOn_eq_true.mpr ⟨by omega, Bool.eq_false_iff.mpr running⟩
        rw [go] at ended
        cases ended
      simp [broke, last]
    · have running := (runs.empty_running empty start_lt (by omega)).2
      apply iff_of_false
      · rintro ⟨_, finished⟩
        rw [running] at finished
        exact Bool.noConfusion (finished.mpr (Nat.zero_le _))
      · rintro (⟨some_bytes, _⟩ | ⟨_, is_last⟩)
        · omega
        · exact last is_last

end Whole

/-! ### The empty file -/

def empty_image : File := ⟨[], by decide⟩

theorem writes_no_more_sample :
    WritesNoMore (faithful test_geometry fun _ _ => 0) test_geometry (test_image 0) 512 1024
        (fun _ _ => 0xff) (fun _ => 0) (fun _ => 0) ↔
      0 < (test_image 0).bytes.length ∨
        AllBad (faithful test_geometry fun _ _ => 0) test_geometry 512 1024 (fun _ _ => 0xff) :=
  writes_no_more_iff _ _ _ (test_image_fit 0) _ _ (by decide) _ _ _

/-- The empty file is programmed onto an erased chip. -/
theorem empty_file_written :
    ¬ WritesNoMore (faithful test_geometry fun _ _ => 0) test_geometry empty_image 512 1024
      (fun _ _ => 0xff) (fun _ => 0) (fun _ => 0) := by
  intro no_more
  have good : outcome (faithful test_geometry fun _ _ => 0) test_geometry empty_image
      (Prog.start test_geometry (fun _ _ => 0xff) (fun _ => 0) (fun _ => 0) 512) ≠ .bad := by
    rw [Ne, outcome_bad_iff]
    decide
  have programs := programsPage_of_good good (by decide) (by decide)
  have due := (no_more _ _ .entry).2 (by decide) programs
  exact absurd due (by decide)

/-! ### A bad block before the last pages -/

/-- A chip on which block 512 is marked bad. -/
def marked_chip : Chip := fun a _ => if a = 513 * 64 - 1 then 0 else 0xff

/-- The end of the run of a single page onto block 512. -/
def marked_end : Prog Chip :=
  round (faithful test_geometry fun _ _ => 0) test_geometry false (test_image 0)
    (Prog.start test_geometry marked_chip (fun _ => 0) (fun _ => 0) 512)

theorem marked_runs :
    Runs (faithful test_geometry fun _ _ => 0) test_geometry (test_image 0) 512 512 marked_chip
      (fun _ => 0) (fun _ => 0) [.bad] marked_end := by
  have bad : outcome (faithful test_geometry fun _ _ => 0) test_geometry (test_image 0)
      (Prog.start test_geometry marked_chip (fun _ => 0) (fun _ => 0) 512) = .bad := by
    rw [outcome_bad_iff]
    decide
  have runs := Runs.round (.entry : Runs (faithful test_geometry fun _ _ => 0) test_geometry
    (test_image 0) 512 512 marked_chip (fun _ => 0) (fun _ => 0) [] _) (by decide)
  rwa [bad] at runs

theorem marked_ended : goOn 512 marked_end = false := by
  have curblk := (marked_runs.curblk_eq (by decide) (by decide)).1
  simp [goOn, curblk]

theorem reports_right_marked :
    ReportsRight test_geometry (test_image 0) [.bad]
        (marked_end.finish test_geometry (test_image 0)) ↔
      0 < (test_image 0).bytes.length ∧
        (fpage test_geometry (test_image 0) = 0 ∨
          accepted [.bad] ≠ fblk test_geometry (test_image 0)) ∨
      (test_image 0).bytes.length = 0 ∧ 512 = 2 ^ 32 - 1 :=
  reports_right_iff _ _ _ (test_image_fit 0) _ _ (by decide) (by decide) _ _ _ _ _ marked_runs
    marked_ended

/-- The page was not left on any block, and nothing is said. -/
theorem partial_chunk_not_reported :
    ¬ ∀ outs s, Runs (faithful test_geometry fun _ _ => 0) test_geometry (test_image 0) 512 512
        marked_chip (fun _ => 0) (fun _ => 0) outs s → goOn 512 s = false →
      ReportsRight test_geometry (test_image 0) outs (s.finish test_geometry (test_image 0)) := by
  have few : fblk test_geometry (test_image 0) = 0 := by
    rw [fblk, length_test_image]
    decide
  have some_bytes : 0 < (test_image 0).bytes.length :=
    length_test_image 0 ▸ test_geometry.stride_pos
  have positive := chunks_pos (test_image_fit 0) some_bytes
  intro right
  obtain ⟨report, _⟩ := right _ _ marked_runs marked_ended
  rw [not_finished_report marked_runs.reported.2, all_left_iff (test_image_fit 0), few] at report
  have none_accepted : accepted [.bad] = 0 := rfl
  exact Nat.not_lt_zero _ (report.mpr (by omega))

end CFunc.NandProg
