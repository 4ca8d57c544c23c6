import CFunc.NandProg.Chunks
import Mathlib.Data.List.Induction

/-!
Programming an image, round by round.

A round of the loop tries one block. The history of the rounds says what became
of each: the invariant is that a block which was not reported bad was
programmed with the first chunk that no earlier block took.
-/

namespace CFunc.NandProg

open CFunc.Lib CFunc.Lib.Buffer

/-! ### Histories of rounds -/

inductive Outcome where
  /-- reported bad and skipped -/
  | bad
  /-- programmed, failed the check, erased and marked bad -/
  | failed
  /-- programmed, passed the check -/
  | accepted
  deriving DecidableEq, Repr

structure Round where
  blk : Nat
  outcome : Outcome
  programmed : List (List Byte)
  readback : List (List Byte)
  deriving DecidableEq

def programCalls (g : Geometry) (blk : Nat) (pages : List (List Byte)) : List Call :=
  pages.mapIdx fun p page => .program_page (u32 (blk * g.ppb + p)) page

def readCalls (g : Geometry) (blk : Nat) (pages : List (List Byte)) : List Call :=
  pages.mapIdx fun p page => .read_page (u32 (blk * g.ppb + p)) page

/-- The driver calls a round makes. -/
def Round.calls (g : Geometry) (r : Round) : List Call :=
  match r.outcome with
  | .bad => [.check_badblock r.blk true]
  | .failed =>
      .check_badblock r.blk false :: (programCalls g r.blk r.programmed ++
        readCalls g r.blk r.readback ++ [.erase_block r.blk, .mark_badblock r.blk])
  | .accepted =>
      .check_badblock r.blk false :: (programCalls g r.blk r.programmed ++
        readCalls g r.blk r.readback)

/-- The blocks taken so far. -/
def taken (rounds : List Round) : Nat := rounds.countP (·.outcome = .accepted)

theorem taken_append (rounds : List Round) (r : Round) :
    taken (rounds ++ [r]) = taken rounds + if r.outcome = .accepted then 1 else 0 := by
  simp [taken, List.countP_append, List.countP_cons]

/-- Every chunk taken was taken once: `taken` of the rounds before numbers the chunks. -/
theorem taken_unique (rounds : List Round) {k : Nat} (lt : k < taken rounds) :
    ∃! i, ∃ r, rounds[i]? = some r ∧ r.outcome = .accepted ∧ taken (rounds.take i) = k := by
  induction rounds using List.reverseRecOn with
  | nil => simp [taken] at lt
  | append_singleton rounds r ih =>
      have at_old : ∀ {i r'}, rounds[i]? = some r' → (rounds ++ [r])[i]? = some r' ∧
          (rounds ++ [r]).take i = rounds.take i := fun found => by
        have inside := (List.getElem?_eq_some_iff.mp found).1
        exact ⟨(List.getElem?_append_left inside).trans found,
          List.take_append_of_le_length (le_of_lt inside)⟩
      have old_or_last : ∀ {i r'}, (rounds ++ [r])[i]? = some r' →
          rounds[i]? = some r' ∨ (i = rounds.length ∧ r' = r) := by
        intro i r' found
        rcases Nat.lt_trichotomy i rounds.length with less | rfl | more
        · exact .inl ((List.getElem?_append_left less).symm.trans found)
        · exact .inr ⟨rfl, by simpa using found.symm⟩
        · rw [List.getElem?_eq_none (by simp; omega)] at found
          cases found
      rw [taken_append] at lt
      by_cases earlier : k < taken rounds
      · obtain ⟨i, ⟨r', found, accepted, number⟩, unique⟩ := ih earlier
        refine ⟨i, ⟨r', (at_old found).1, accepted, (at_old found).2 ▸ number⟩, ?_⟩
        rintro j ⟨r'', found', accepted', number'⟩
        rcases old_or_last found' with old | ⟨rfl, rfl⟩
        · exact unique j ⟨r'', old, accepted', (at_old old).2 ▸ number'⟩
        · rw [List.take_left'] at number'
          · omega
          · rfl
      · split at lt
        · rename_i accepted
          refine ⟨rounds.length, ⟨r, by simp, accepted, ?_⟩, ?_⟩
          · rw [List.take_left' rfl]
            omega
          · rintro j ⟨r'', found', accepted', number'⟩
            rcases old_or_last found' with old | ⟨rfl, rfl⟩
            · rw [(at_old old).2] at number'
              have split := congrArg taken (List.take_append_drop (j + 1) rounds)
              rw [List.take_add_one, old] at split
              simp only [Option.toList_some, taken, List.countP_append, List.countP_singleton,
                accepted', decide_true, ↓reduceIte] at split number'
              simp only [taken] at earlier
              omega
            · rfl
        · omega

/-- A round on a good block programs the pages of chunk `k`, in order, and
judges the block by what it reads back. -/
structure Programs (g : Geometry) (file : File) (k : Nat) (r : Round) : Prop where
  in_file : k < chunks g file
  length_programmed : r.programmed.length = pagesOf g file k
  length_readback : r.readback.length = pagesOf g file k
  content : ∀ p < pagesOf g file k, ∀ y < g.stride, ¬ g.Filled y →
    ∃ page, r.programmed[p]? = some page ∧
      page[y]? = some (file.byte ((k * g.ppb + p) * g.stride + y))
  verified : r.outcome = .accepted ↔ r.readback = r.programmed

/-! ### What the pieces of a round do -/

section Pieces

variable {σ : Type} {flash : Flash σ} {g : Geometry} {file : File}

theorem programCalls_pages (blk n : Nat) (buf : Nat → Byte) :
    programCalls g blk (pages buf g.stride (n + 1)) =
      programCalls g blk (pages buf g.stride n) ++
        [.program_page (u32 (blk * g.ppb + n)) (slice buf (n * g.stride) g.stride)] := by
  simp [programCalls, pages_succ, List.mapIdx_append]

theorem readCalls_pages (blk n : Nat) (buf : Nat → Byte) :
    readCalls g blk (pages buf g.stride (n + 1)) =
      readCalls g blk (pages buf g.stride n) ++
        [.read_page (u32 (blk * g.ppb + n)) (slice buf (n * g.stride) g.stride)] := by
  simp [readCalls, pages_succ, List.mapIdx_append]

variable (flash g)

/-- Programming a block sends out the pages of the final `nand_buf`, which
differs from the buffer before in filled offsets only. -/
theorem programBlock_spec (s : Prog σ) :
    ∃ buf fl, programBlock flash g s = { s with
        nand_buf := buf
        flash := fl
        calls := s.calls ++ programCalls g s.curblk (pages buf g.stride s.actual_pages) } ∧
      ∀ q, ∀ y < g.stride, ¬ g.Filled y →
        buf (q * g.stride + y) = s.nand_buf (q * g.stride + y) := by
  have inv := Loop.count_inv (programPage flash g)
    (fun n t => ∃ buf fl, t = { s with
        nand_buf := buf
        flash := fl
        calls := s.calls ++ programCalls g s.curblk (pages buf g.stride n) } ∧
      ∀ q, ∀ y < g.stride, ¬ g.Filled y →
        buf (q * g.stride + y) = s.nand_buf (q * g.stride + y))
    (n := s.actual_pages) ?_ (s := s) ⟨s.nand_buf, s.flash, by simp [pages, programCalls], by simp⟩
  · exact inv
  · rintro n _ _ ⟨buf, fl, rfl, same⟩
    have outside : ∀ q, ∀ y < g.stride, ¬ (n = q ∧ g.Filled y) →
        (nand_program_page flash g buf (n * g.stride) (u32 (s.curblk * g.ppb + n)) fl).1
          (q * g.stride + y) = buf (q * g.stride + y) := by
      intro q y inside spared
      refine nand_program_page_outside fun inside_filled => ?_
      obtain ⟨below, filled⟩ := inside_filled
      by_cases here : n = q
      · subst here
        rw [Nat.add_sub_cancel_left] at filled
        exact spared ⟨rfl, filled⟩
      · refine page_ne here inside ⟨below, ?_⟩
        have := filled.lt_stride
        omega
    have earlier : pages (nand_program_page flash g buf (n * g.stride)
        (u32 (s.curblk * g.ppb + n)) fl).1 g.stride n = pages buf g.stride n :=
      pages_congr fun q lt y inside => outside q y inside fun here => Nat.ne_of_gt lt here.1
    refine ⟨_, (nand_program_page flash g buf (n * g.stride) (u32 (s.curblk * g.ppb + n)) fl).2,
      ?_, fun q y inside spared =>
        (outside q y inside fun here => spared here.2).trans (same q y inside spared)⟩
    simp only [programPage]
    rw [programCalls_pages, earlier, List.append_assoc]

/-- Reading a block back leaves its pages in `check_buf`. -/
theorem readBlock_spec (s : Prog σ) :
    ∃ buf fl, readBlock flash g false s = { s with
        check_buf := buf
        flash := fl
        calls := s.calls ++ readCalls g s.curblk (pages buf g.stride s.actual_pages) } := by
  refine Loop.count_inv (readPage flash g false)
    (fun n t => ∃ buf fl, t = { s with
        check_buf := buf
        flash := fl
        calls := s.calls ++ readCalls g s.curblk (pages buf g.stride n) })
    (n := s.actual_pages) ?_ (s := s) ⟨s.check_buf, s.flash, by simp [pages, readCalls]⟩
  rintro n _ _ ⟨buf, fl, rfl⟩
  let page := (flash.read_page fl (u32 (s.curblk * g.ppb + n))).1
  have earlier : pages (blit buf (n * g.stride) page g.stride) g.stride n =
      pages buf g.stride n :=
    pages_congr fun q lt y inside => blit_outside (page_ne (Nat.ne_of_gt lt) inside)
  have here : slice (blit buf (n * g.stride) page g.stride) (n * g.stride) g.stride =
      slice page 0 g.stride := by
    refine slice_eq_slice.mpr fun i inside => ?_
    rw [blit_inside (by omega) (by omega), Nat.add_sub_cancel_left, Nat.zero_add]
  refine ⟨blit buf (n * g.stride) page g.stride,
    (flash.read_page fl (u32 (s.curblk * g.ppb + n))).2, ?_⟩
  simp only [readPage, Bool.false_eq_true, ↓reduceIte]
  rw [readCalls_pages, earlier, here, List.append_assoc]

variable (file)

/-- Programming a good block: its pages go out, come back, and decide. -/
theorem goodBlock_spec (s : Prog σ) :
    ∃ nand_buf check_buf fl,
      (∀ q, ∀ y < g.stride, ¬ g.Filled y →
        nand_buf (q * g.stride + y) = s.nand_buf (q * g.stride + y)) ∧
      goodBlock flash g false file s =
        let programmed := pages nand_buf g.stride s.actual_pages
        let readback := pages check_buf g.stride s.actual_pages
        let t := { s with
          nand_buf := nand_buf
          check_buf := check_buf
          flash := fl
          calls := s.calls ++ (programCalls g s.curblk programmed ++
            readCalls g s.curblk readback) }
        if readback = programmed then accept g false file t
        else reject flash { t with checkerr := t.checkerr + 1 } := by
  obtain ⟨nand_buf, fl, programmed, same⟩ := programBlock_spec flash g s
  obtain ⟨check_buf, fl', readback⟩ :=
    readBlock_spec flash g (programBlock flash g s)
  rw [programmed] at readback
  refine ⟨nand_buf, check_buf, fl', same, ?_⟩
  simp only [goodBlock, Bool.false_eq_true, ↓reduceIte, programmed, readback, List.append_assoc]
  cases differ : nand_check nand_buf check_buf (s.actual_pages * g.stride) with
  | false =>
      have equal := (agree_iff_pages g.stride_pos).mp (nand_check_eq_false.mp differ)
      rw [if_neg (by simp), if_pos equal.symm]
  | true =>
      have not_equal : pages check_buf g.stride s.actual_pages ≠
          pages nand_buf g.stride s.actual_pages := by
        intro equal
        have agree := nand_check_eq_false.mpr ((agree_iff_pages g.stride_pos).mpr equal.symm)
        rw [differ] at agree
        cases agree
      rw [if_pos rfl, if_neg not_equal]

end Pieces

/-! ### The invariant of the loop -/

/-- What the rounds so far did, and what the variables record of it. -/
structure Inv {σ : Type} (g : Geometry) (file : File) (start_block : Nat) (rounds : List Round)
    (s : Prog σ) : Prop where
  calls : s.calls = rounds.flatMap (Round.calls g)
  blocks : ∀ (i : Nat) (r : Round), rounds[i]? = some r → r.blk = start_block + i
  programs : ∀ (i : Nat) (r : Round), rounds[i]? = some r → r.outcome ≠ .bad →
    Programs g file (taken (rounds.take i)) r
  curblk : s.curblk = start_block + rounds.length
  copyblks : s.copyblks = taken rounds
  track : OnTrack g file (Holds g file) s

section Rounds

variable {σ : Type} {flash : Flash σ} {g : Geometry} {file : File} {start_block last_block : Nat}

theorem inv_start (fit : file.bytes.length % g.stride = 0) (some_bytes : 0 < file.bytes.length)
    (fl : σ) (nand_buf check_buf : Nat → Byte) :
    Inv g file start_block [] (Prog.start g fl nand_buf check_buf start_block) where
  calls := rfl
  blocks := by simp
  programs := by simp
  curblk := rfl
  copyblks := rfl
  track := onTrack_start fit some_bytes fl nand_buf check_buf start_block

/-- One more round in the history. -/
theorem history_append {rounds : List Round} {r : Round} {P : Nat → Round → Prop}
    (earlier : ∀ i r, rounds[i]? = some r → P i r) (last : P rounds.length r) :
    ∀ i r', (rounds ++ [r])[i]? = some r' → P i r' := by
  intro i r' at_i
  rcases Nat.lt_trichotomy i rounds.length with less | rfl | more
  · rw [List.getElem?_append_left less] at at_i
    exact earlier i r' at_i
  · obtain rfl : r = r' := by simpa using at_i
    exact last
  · rw [List.getElem?_eq_none (by simp; omega)] at at_i
    cases at_i

/-- The next round of a history, on the block that is due. -/
theorem Inv.append {rounds : List Round} {s t : Prog σ} {r : Round}
    (inv : Inv g file start_block rounds s) (in_range : s.curblk + 1 < 2 ^ 32)
    (blk : r.blk = s.curblk) (calls : t.calls = s.calls ++ Round.calls g r)
    (programs : r.outcome ≠ .bad → Programs g file s.copyblks r)
    (curblk : t.curblk = u32 (s.curblk + 1))
    (copyblks : t.copyblks = s.copyblks + if r.outcome = .accepted then 1 else 0)
    (track : OnTrack g file (Holds g file) t) :
    Inv g file start_block (rounds ++ [r]) t where
  calls := by simp [calls, inv.calls]
  blocks := history_append (P := fun i r => r.blk = start_block + i) inv.blocks
    (blk.trans inv.curblk)
  programs := by
    have earlier : ∀ i r', rounds[i]? = some r' → r'.outcome ≠ .bad →
        Programs g file (taken ((rounds ++ [r]).take i)) r' := by
      intro i r' at_i
      rw [List.take_append_of_le_length (le_of_lt (List.getElem?_eq_some_iff.mp at_i).1)]
      exact inv.programs i r' at_i
    refine history_append (P := fun i r' => r'.outcome ≠ .bad →
      Programs g file (taken ((rounds ++ [r]).take i)) r') earlier ?_
    rw [List.take_left', ← inv.copyblks]
    · exact programs
    · rfl
  curblk := by
    rw [curblk, u32_of_lt in_range, inv.curblk, List.length_append, List.length_singleton]
    omega
  copyblks := by rw [copyblks, inv.copyblks, taken_append]
  track := track

/-- A round up to the answer about the block: the chunk that is due is in `buf`. -/
def Prog.tried {σ : Type} (g : Geometry) (file : File) (s : Prog σ) (buf : Nat → Byte) (fl : σ)
    (bad : Bool) : Prog σ :=
  { s with
    nand_buf := buf
    actual_pages := pagesOf g file s.copyblks
    curblk_done := false
    flash := fl
    calls := s.calls ++ [.check_badblock s.curblk bad] }

/-- A bad block is skipped, and its chunk stays due. -/
theorem Inv.skipBad {rounds : List Round} {s : Prog σ} (inv : Inv g file start_block rounds s)
    (in_range : s.curblk + 1 < 2 ^ 32) {buf : Nat → Byte} (holds : Holds g file s.copyblks buf)
    (fl : σ) :
    ∃ r, Inv g file start_block (rounds ++ [r])
      (NandProg.skipBad (s.tried g file buf fl true)) := by
  refine ⟨⟨s.curblk, .bad, [], []⟩, inv.append in_range rfl rfl ?_ rfl rfl ?_⟩
  · exact fun not_bad => absurd rfl not_bad
  · exact inv.track.waits rfl rfl rfl rfl holds rfl

variable (flash)

/-- A good block is programmed with the chunk that is due, and takes it when it
passes the check. -/
theorem Inv.goodBlock (fit : file.bytes.length % g.stride = 0) {rounds : List Round} {s : Prog σ}
    (inv : Inv g file start_block rounds s) (running : s.broke = false)
    (in_range : s.curblk + 1 < 2 ^ 32) {buf : Nat → Byte} (holds : Holds g file s.copyblks buf)
    (fl : σ) :
    ∃ r, Inv g file start_block (rounds ++ [r])
      (NandProg.goodBlock flash g false file (s.tried g file buf fl false)) := by
  obtain ⟨nand_buf, check_buf, fl', same, result⟩ :=
    goodBlock_spec flash g file (s.tried g file buf fl false)
  have holds' : Holds g file s.copyblks nand_buf := fun p page y inside spared =>
    (same p y inside spared).trans (holds p page y inside spared)
  let programmed := pages nand_buf g.stride (pagesOf g file s.copyblks)
  let readback := pages check_buf g.stride (pagesOf g file s.copyblks)
  have programs : ∀ outcome, (outcome = .accepted ↔ readback = programmed) →
      Programs g file s.copyblks ⟨s.curblk, outcome, programmed, readback⟩ := by
    intro outcome verified
    refine ⟨inv.track.due running, length_pages _ _ _, length_pages _ _ _, ?_, verified⟩
    intro p page y inside spared
    refine ⟨_, getElem?_pages _ _ page, ?_⟩
    rw [getElem?_slice _ _ inside, holds' p page y inside spared]
  by_cases equal : readback = programmed
  · obtain ⟨t, accepted, track, curblk, copyblks, _, calls, _⟩ :=
      inv.track.accept (u := { s.tried g file buf fl false with
        nand_buf := nand_buf
        check_buf := check_buf
        flash := fl'
        calls := (s.tried g file buf fl false).calls ++ (programCalls g s.curblk programmed ++
          readCalls g s.curblk readback) }) false fit running rfl rfl rfl rfl
    rw [result.trans ((if_pos equal).trans accepted)]
    refine ⟨⟨s.curblk, .accepted, programmed, readback⟩, inv.append in_range rfl ?_
      (fun _ => programs _ (by simp [equal])) curblk copyblks track⟩
    rw [calls]
    simp [Round.calls, Prog.tried]
  · rw [result.trans (if_neg equal)]
    refine ⟨⟨s.curblk, .failed, programmed, readback⟩, inv.append in_range rfl ?_
      (fun _ => programs _ (by simp [equal])) rfl rfl
      (inv.track.waits rfl rfl rfl rfl holds' rfl)⟩
    simp [reject, Round.calls, Prog.tried, programmed, readback]

/-- One round of programming keeps the invariant, and tells what became of its block. -/
theorem Inv.round (fit : file.bytes.length % g.stride = 0) {rounds : List Round} {s : Prog σ}
    (inv : Inv g file start_block rounds s) (running : s.broke = false)
    (in_range : s.curblk + 1 < 2 ^ 32) :
    ∃ r, Inv g file start_block (rounds ++ [r]) (NandProg.round flash g false file s) := by
  obtain ⟨buf, loaded, holds⟩ := inv.track.load fit
    (fun _ _ all p page y inside _ => all p page y inside) running
  simp only [NandProg.round, loaded, checkBad]
  cases (nand_check_badblock flash g s.flash s.curblk).1 with
  | true => exact inv.skipBad in_range holds _
  | false => exact inv.goodBlock flash fit running in_range holds _

/-! ### The whole run -/

/-- The loop ends within one round on each block of the range: all chunks are
taken, or every block was tried. -/
theorem loop_inv (fit : file.bytes.length % g.stride = 0) (some_bytes : 0 < file.bytes.length)
    (ordered : start_block ≤ last_block) (last_lt : last_block < 2 ^ 32 - 1) (fl : σ)
    (nand_buf check_buf : Nat → Byte) :
    ∃ rounds t, Loop.run (goOn last_block)
        (fun s => some (NandProg.round flash g false file s)) (last_block + 1 - start_block)
        (Prog.start g fl nand_buf check_buf start_block) = .done t ∧
      Inv g file start_block rounds t ∧ goOn last_block t = false ∧
      t.curblk ≤ last_block + 1 := by
  have step : ∀ rounds (s : Prog σ), (Inv g file start_block rounds s ∧ s.curblk ≤ last_block + 1) →
      goOn last_block s = true → ∃ rounds' s',
        some (NandProg.round flash g false file s) = some s' ∧
        (Inv g file start_block rounds' s' ∧ s'.curblk ≤ last_block + 1) ∧
        last_block + 1 - s'.curblk < last_block + 1 - s.curblk := by
    rintro rounds s ⟨inv, _⟩ go
    simp only [goOn, Bool.and_eq_true, decide_eq_true_eq, Bool.not_eq_true'] at go
    obtain ⟨in_range, running⟩ := go
    obtain ⟨r, inv'⟩ := inv.round flash fit running (by omega)
    have moved : (NandProg.round flash g false file s).curblk = s.curblk + 1 := by
      have := inv.curblk
      have := inv'.curblk
      rw [List.length_append, List.length_singleton] at this
      omega
    exact ⟨rounds ++ [r], _, rfl, ⟨inv', by omega⟩, by omega⟩
  obtain ⟨rounds, t, ran, ⟨inv, within⟩, stop⟩ := Loop.run_total (goOn last_block) _ _ _ step
    (last_block + 1 - start_block) [] (Prog.start g fl nand_buf check_buf start_block)
    ⟨inv_start fit some_bytes fl nand_buf check_buf, by simp only [Prog.start]; omega⟩ le_rfl
  exact ⟨rounds, t, ran, inv, stop, within⟩

/-- In program mode, whatever the chip answers: one round tries one block, in
increasing order; a block reported bad is only skipped; any other block is
programmed with the pages of the chunk that is due, in order, and takes the
chunk exactly when it reads back as programmed, and is otherwise erased and
marked bad with the chunk still due. The run ends with every chunk taken, or
with every block of the range tried. -/
theorem chunks_onto_good_blocks (flash : Flash σ) (g : Geometry) (file : File)
    (fit : file.bytes.length % g.stride = 0) (some_bytes : 0 < file.bytes.length)
    (start_block last_block : Nat) (ordered : start_block ≤ last_block)
    (last_lt : last_block < 2 ^ 32 - 1) (fl : σ) (nand_buf check_buf : Nat → Byte) :
    ∃ (rounds : List Round) (t : Prog σ),
      do_prog_part flash g false (some file) start_block last_block fl nand_buf check_buf =
        .done (0, t) ∧
      t.calls = rounds.flatMap (Round.calls g) ∧
      rounds.length ≤ last_block - start_block + 1 ∧
      (∀ (i : Nat) (r : Round), rounds[i]? = some r → r.blk = start_block + i) ∧
      (∀ (i : Nat) (r : Round), rounds[i]? = some r → r.outcome ≠ .bad →
        Programs g file (taken (rounds.take i)) r) ∧
      (∀ k < taken rounds, ∃! i, ∃ r,
        rounds[i]? = some r ∧ r.outcome = .accepted ∧ taken (rounds.take i) = k) ∧
      (taken rounds = chunks g file ∨
        taken rounds < chunks g file ∧ rounds.length = last_block - start_block + 1) := by
  obtain ⟨rounds, t, ran, inv, stop, within⟩ :=
    loop_inv flash fit some_bytes ordered last_lt fl nand_buf check_buf
  have curblk := inv.curblk
  refine ⟨rounds, t.finish g file, ?_, ?_, by omega, inv.blocks, inv.programs,
    fun _ => taken_unique rounds, ?_⟩
  · simp only [do_prog_part, fit, ne_eq, not_true_eq_false, ↓reduceIte, ran]
  · rw [← inv.calls, Prog.finish]
    split <;> rfl
  · rw [← inv.copyblks]
    by_cases all : t.copyblks = chunks g file
    · exact .inl all
    · right
      have running : t.broke = false := by
        cases broke : t.broke with
        | false => rfl
        | true => exact absurd (inv.track.broke.mp broke) all
      have tried : ¬ t.curblk ≤ last_block := by
        simpa [goOn, running] using stop
      have := inv.track.within
      exact ⟨by omega, by omega⟩

end Rounds

/-! ### A page of 2048 bytes -/

/-- The parameters that `main` was written for. -/
def test_geometry : Geometry where
  ecccnt := 4
  oobsize := 64
  ppb := 64
  ecc_pos := 28
  some_data := by decide
  some_pages := by decide
  ecc_fits := by decide
  ecc_buf_holds := by decide
  nand_buf_holds := by decide

/-- One page with the same byte in all tags before the ECC bytes. -/
def test_image (tag : Byte) : File where
  bytes := List.replicate 2048 0 ++ (List.replicate 28 tag ++ List.replicate 36 0xff)
  small := by
    simp only [List.length_append, List.length_replicate]
    omega

theorem length_test_image (tag : Byte) : (test_image tag).bytes.length = test_geometry.stride := by
  simp only [test_image, List.length_append, List.length_replicate]
  rfl

theorem test_image_fit (tag : Byte) :
    (test_image tag).bytes.length % test_geometry.stride = 0 := by
  rw [length_test_image, Nat.mod_self]

/-- An image of two chunks of 64 pages. -/
def two_chunks : File where
  bytes := List.replicate (128 * 2112) 0
  small := by
    rw [List.length_replicate]
    decide

theorem length_two_chunks : two_chunks.bytes.length = 128 * 2112 := List.length_replicate

/-- An erased chip, but for the mark of block 513. -/
def one_bad : Chip := fun pageaddr _ => if pageaddr = 513 * 64 + 63 then 0 else 0xff

/-- Of the three blocks of the range the second one is bad. -/
theorem chunks_onto_good_blocks_sample :
    chunks test_geometry two_chunks = 2 ∧
    (nand_check_badblock (faithful test_geometry fun _ _ => 0) test_geometry one_bad 513).1 = true ∧
    ∃ (rounds : List Round) (t : Prog Chip),
      do_prog_part (faithful test_geometry fun _ _ => 0) test_geometry false (some two_chunks)
        512 514 one_bad (fun _ => 0) (fun _ => 0) = .done (0, t) ∧
      t.calls = rounds.flatMap (Round.calls test_geometry) ∧
      (∀ (i : Nat) (r : Round), rounds[i]? = some r → r.blk = 512 + i) ∧
      (∀ (i : Nat) (r : Round), rounds[i]? = some r → r.outcome ≠ .bad →
        Programs test_geometry two_chunks (taken (rounds.take i)) r) ∧
      (taken rounds = 2 ∨ taken rounds < 2 ∧ rounds.length = 3) := by
  have full : fblk test_geometry two_chunks = 2 := by
    rw [fblk, length_two_chunks]
    rfl
  have left : fpage test_geometry two_chunks = 0 := by
    rw [fpage, full, length_two_chunks]
    decide
  have count : chunks test_geometry two_chunks = 2 := by
    rw [chunks, full, left]
    rfl
  obtain ⟨rounds, t, ran, calls, _, blocks, programs, _, end_of_run⟩ :=
    chunks_onto_good_blocks (faithful test_geometry fun _ _ => 0) test_geometry two_chunks
      (by rw [length_two_chunks]; decide) (by rw [length_two_chunks]; decide) 512 514 (by decide)
      (by decide) one_bad (fun _ => 0) (fun _ => 0)
  rw [count] at end_of_run
  exact ⟨count, by decide, rounds, t, ran, calls, blocks, programs, end_of_run⟩

end CFunc.NandProg
