import CFunc.NandProg.Driver

/-!
Histories of driver calls.

What a history shows at the ports is what it shows on the pages. Programming
clears bits and writes 0xff over the place of the mark, so that a block is found
bad by what was last done to it as a whole: marked or erased.
-/

namespace CFunc.NandProg

open CFunc.Lib CFunc.Lib.Buffer

section Runs

variable {part : FlashPart} {emc : Emc} {g : Geometry} {row : Nat}
  {errors : List Byte → List Byte → Errors} {calls : List ProgCall} {d : Device}

/-- Whatever calls are made in whatever order, each shows at the ports of the flash and the EMC
what it shows on the pages. -/
theorem driver_shows_pages {chip : Chip} (suited : Suited part emc g row errors)
    (fits : ∀ c ∈ calls, c.Fits g row) (stores : Stores g d chip) :
    (Reactive.run (drive part emc g row) calls d).map Reactive.Response.seen =
      (Reactive.run (perform (paged g emc.parity errors) g) calls chip).map
        Reactive.Response.seen :=
  Reactive.seen_eq (calls_rel suited fits stores)

/-- A decoder that never reports an error. -/
theorem plainEmc_suited : Suited clearingPart plainEmc test_geometry 3 fun _ _ => [] where
  suits := ⟨rfl, rfl, rfl⟩
  clears _ _ := rfl
  reports _ _ := by
    have none_found : Reports 0 (fun _ => 0) [] := by
      constructor
      · decide
      · exact fun found => absurd rfl found
      · decide
      · decide
      · exact fun e member => absurd member List.not_mem_nil
      · intro n e there
        cases there
    exact none_found

/-- A block is marked, one of its pages programmed, and then it is erased. -/
def marking_calls : List ProgCall :=
  [.mark_badblock 5, .program_page (fun _ => 0x5a) 0 321, .read_page (fun _ => 0) 0 321,
    .erase_block 5]

theorem marking_calls_fit : ∀ c ∈ marking_calls, c.Fits test_geometry 3 := by
  have block : Fits (test_geometry.params 3) 5 := ⟨by decide, by decide⟩
  have page : 321 < 256 ^ 3 := by decide
  have addressed : ∀ c ∈ marking_calls, c.Addressed test_geometry 3 := by
    simp only [marking_calls, List.forall_mem_cons]
    exact ⟨block, page, page, block, fun c member => absurd member List.not_mem_nil⟩
  exact fun c member => ⟨addressed c member, fun _ _ => .inr rfl⟩

theorem driver_shows_pages_sample :
    (Reactive.run (drive clearingPart plainEmc test_geometry 3) marking_calls blankDevice).map
        Reactive.Response.seen =
      (Reactive.run (perform (paged test_geometry plainEmc.parity fun _ _ => []) test_geometry)
        marking_calls fun _ _ => 0xff).map Reactive.Response.seen :=
  driver_shows_pages plainEmc_suited marking_calls_fit fun _ _ _ => rfl

/-! ### Marks -/

/-- Whether the block is bad once the call is made. -/
def ProgCall.marks (blk : Nat) (bad : Bool) : ProgCall → Bool
  | .mark_badblock b => if b = blk then true else bad
  | .erase_block b => if b = blk then false else bad
  | .check_badblock _ _ | .program_page _ _ _ | .read_page _ _ _ => bad

theorem lastPage_div (g : Geometry) (blk : Nat) : ((blk + 1) * g.ppb - 1) / g.ppb = blk := by
  have some_pages := g.some_pages
  rw [Nat.succ_mul, Nat.add_sub_assoc some_pages, Nat.mul_comm, Nat.mul_add_div some_pages,
    Nat.div_eq_of_lt (by omega), Nat.add_zero]

theorem marked_of_cells {chip chip' : Chip} {blk : Nat}
    (first : chip' ((blk + 1) * g.ppb - 1) g.pagesize = chip ((blk + 1) * g.ppb - 1) g.pagesize)
    (second : chip' ((blk + 1) * g.ppb - 1) (g.pagesize + 1) =
      chip ((blk + 1) * g.ppb - 1) (g.pagesize + 1)) : marked g chip' blk = marked g chip blk := by
  rw [marked, marked, first, second]

/-- The last page of the block is filled with one byte, or left. -/
theorem marked_ite {chip chip' : Chip} {blk : Nat} {p : Prop} [Decidable p] {b : Byte}
    (cells : ∀ y, chip' ((blk + 1) * g.ppb - 1) y =
      if p then b else chip ((blk + 1) * g.ppb - 1) y) :
    marked g chip' blk = if p then decide (b ≠ 0xff) else marked g chip blk := by
  rw [marked, cells, cells]
  split
  · exact Bool.or_self _
  · rfl

/-- A call leaves the marks of a block as it says. -/
theorem perform_marks (past_mark : 2 ≤ g.ecc_pos) {parity : List Byte → Nat → Byte} (blk : Nat)
    (c : ProgCall) {chip : Chip} {r : Reactive.Response Chip Call}
    (ran : perform (paged g parity errors) g c chip = some r) :
    marked g r.state blk = c.marks blk (marked g chip blk) := by
  cases c with
  | check_badblock oob_buf b =>
      obtain rfl := Option.some.inj ran
      rfl
  | read_page buf start pageaddr =>
      obtain rfl := Option.some.inj ran
      rfl
  | program_page buf start pageaddr =>
      obtain rfl := Option.some.inj ran
      have fits := g.ecc_fits
      have kept (y : Nat) (lt : y < 2) :
          (nand_program_page (paged g parity errors) g buf start pageaddr chip).2
            ((blk + 1) * g.ppb - 1) (g.pagesize + y) =
              chip ((blk + 1) * g.ppb - 1) (g.pagesize + y) := by
        have inside : g.pagesize + y < g.stride := by
          rw [Geometry.stride]
          omega
        have ones : programmed g parity buf start (g.pagesize + y) = 0xff := by
          rw [programmed, if_neg (by omega), if_pos (by omega)]
        rw [program_pages buf start pageaddr _ inside, ones]
        split
        · exact BitVec.and_allOnes
        · rfl
      exact marked_of_cells (kept 0 (by decide)) (kept 1 (by decide))
  | erase_block b =>
      obtain rfl := Option.some.inj ran
      refine marked_ite (p := b = blk) (b := 0xff) fun y => ?_
      change (if ((blk + 1) * g.ppb - 1) / g.ppb = b then (fun _ => 0xff)
        else chip ((blk + 1) * g.ppb - 1)) y = _
      rw [lastPage_div, if_congr eq_comm rfl rfl]
      split <;> rfl
  | mark_badblock b =>
      obtain rfl := Option.some.inj ran
      have same : (blk + 1) * g.ppb - 1 = (b + 1) * g.ppb - 1 ↔ b = blk := by
        constructor
        · intro same
          rw [← lastPage_div g blk, same, lastPage_div]
        · rintro rfl
          rfl
      refine marked_ite (p := b = blk) (b := 0) fun y => ?_
      change (if (blk + 1) * g.ppb - 1 = (b + 1) * g.ppb - 1 then (fun _ => 0)
        else chip ((blk + 1) * g.ppb - 1)) y = _
      rw [if_congr same rfl rfl]
      split <;> rfl

theorem perform_goes_on {σ : Type} (flash : Flash σ) (c : ProgCall) (s : σ) :
    ∃ r, perform flash g c s = some r ∧ r.stopped = false := by
  cases c <;> exact ⟨_, rfl, rfl⟩

/-- A check on the pages finds the block as it is marked. -/
theorem perform_check {parity : List Byte → Nat → Byte} {blk : Nat}
    (fits : Fits (g.params row) blk) (oob_buf : Nat → Byte) (chip : Chip) :
    perform (paged g parity errors) g (.check_badblock oob_buf blk) chip =
      some { state := chip, output := [.check_badblock blk (marked g chip blk)],
             stopped := false } := by
  have last : (g.params row).lastPage blk = (blk + 1) * g.ppb - 1 := lastPage_eq g.some_pages fits
  have found : nand_check_badblock (paged g parity errors) g chip blk =
      (chip ((g.params row).lastPage blk) (g.pagesize + 0) ≠ 0xff ||
        chip ((g.params row).lastPage blk) (g.pagesize + 1) ≠ 0xff, chip) := rfl
  rw [last] at found
  simp only [perform, found]
  rfl

/-- After whatever calls in whatever order, a check at the ports finds a block bad when it was
marked after its last erase, or was bad before and never erased. -/
theorem bad_mark_follows (suited : Suited part emc g row errors) (past_mark : 2 ≤ g.ecc_pos)
    (fits : ∀ c ∈ calls, c.Fits g row) {blk : Nat} (fits_blk : Fits (g.params row) blk)
    (oob_buf : Nat → Byte) :
    ∃ r, Reactive.run (drive part emc g row) (calls ++ [.check_badblock oob_buf blk]) d = some r ∧
      r.output.getLast? =
        some (.check_badblock blk (calls.foldl (ProgCall.marks blk) (marked g d.pages blk))) := by
  let flash := paged g emc.parity errors
  -- the calls on the pages, which always go on
  obtain ⟨done, ran⟩ : ∃ done, Reactive.run (perform flash g) calls d.pages = some done := by
    obtain ⟨done, ran, -⟩ := Reactive.exists_run (fun _ _ => True)
      (fun c _ s _ => (perform_goes_on flash c s).imp fun _ taken => ⟨taken.1, trivial⟩)
      (fun _ _ _ _ => trivial) (trivial : (fun _ _ => True) calls d.pages)
    exact ⟨done, ran⟩
  have tracks (c : ProgCall) (chip : Chip) (r : Reactive.Response Chip Call)
      (taken : perform flash g c chip = some r) :
      r.stopped = false ∧ marked g r.state blk = c.marks blk (marked g chip blk) := by
    obtain ⟨r', taken', goes_on⟩ := perform_goes_on flash c chip
    obtain rfl := Option.some.inj (taken.symm.trans taken')
    exact ⟨goes_on, perform_marks past_mark blk c taken⟩
  obtain ⟨goes_on, marks⟩ := Reactive.run_tracks (fun chip => marked g chip blk) tracks ran
  have checked : Reactive.run (perform flash g) [.check_badblock oob_buf blk] done.state = some
      { state := done.state, output := [.check_badblock blk (marked g done.state blk)],
        stopped := false } := by
    simp [Reactive.run, flash, perform_check fits_blk]
  have whole := Reactive.run_append ran goes_on checked
  -- and so at the ports
  have fits_all : ∀ c ∈ calls ++ [.check_badblock oob_buf blk], c.Fits g row := by
    intro c member
    rcases List.mem_append.mp member with earlier | last
    · exact fits c earlier
    · obtain rfl := List.mem_singleton.mp last
      refine ⟨fits_blk, fun _ mark => ?_⟩
      cases mark
  have related := calls_rel suited fits_all (fun _ _ _ => rfl : Stores g d d.pages)
  rw [whole] at related
  obtain ⟨r, ran_ports, agree⟩ := Reactive.Agree.exists_left related
  refine ⟨r, ran_ports, ?_⟩
  rw [agree.output, List.getLast?_concat, marks]

theorem bad_mark_follows_sample :
    ∃ r, Reactive.run (drive clearingPart plainEmc test_geometry 3)
        (marking_calls ++ [.check_badblock (fun _ => 0) 5]) blankDevice = some r ∧
      r.output.getLast? = some (.check_badblock 5
        (marking_calls.foldl (ProgCall.marks 5) (marked test_geometry blankDevice.pages 5))) :=
  bad_mark_follows plainEmc_suited (by decide) marking_calls_fit ⟨by decide, by decide⟩ _

end Runs

end CFunc.NandProg
