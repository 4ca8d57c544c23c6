import CFunc.NandProg.Check
import CFunc.NandProg.DriverRuns
import CFunc.NandProg.Runs

/-!
`do_prog_part` at the ports.

Whatever the flash answers, the calls of `do_prog_part` stay within the range. A
run over the pages is then a run at the ports of the flash and the EMC, with the
same answers, and what it tells of the pages holds of the device.
-/

namespace CFunc.NandProg

open CFunc.Lib CFunc.Lib.Buffer

section Made

variable {σ : Type} {flash : Flash σ} {g : Geometry} {row : Nat} {s₀ : σ} {s : Prog σ}

/-- The calls logged are calls of the driver, made over `flash` from `s₀` on. -/
def Made (flash : Flash σ) (g : Geometry) (row : Nat) (s₀ : σ) (s : Prog σ) : Prop :=
  ∃ calls, (∀ c ∈ calls, ProgCall.Addressed g row c) ∧ Reactive.run (perform flash g) calls s₀ =
    some { state := s.flash, output := s.calls, stopped := false }

theorem Made.call (made : Made flash g row s₀ s) {t : Prog σ} {calls : List Call} (c : ProgCall)
    (fits : c.Addressed g row)
    (performed : perform flash g c s.flash =
      some { state := t.flash, output := calls, stopped := false })
    (logged : t.calls = s.calls ++ calls) : Made flash g row s₀ t := by
  obtain ⟨earlier, all_fit, ran⟩ := made
  have last : Reactive.run (perform flash g) [c] s.flash =
      some { state := t.flash, output := calls, stopped := false } := by
    simp [Reactive.run, performed]
  refine ⟨earlier ++ [c], ?_, ?_⟩
  · exact List.forall_mem_append.mpr ⟨all_fit, List.forall_mem_singleton.mpr fits⟩
  · rw [logged]
    exact Reactive.run_append ran rfl last

/-- What is neither the flash nor the log does not matter. -/
theorem Made.congr (made : Made flash g row s₀ s) {t : Prog σ} (same : t.flash = s.flash)
    (logged : t.calls = s.calls) : Made flash g row s₀ t := by
  rwa [Made, same, logged]

/-! ### Addresses -/

theorem Fits.of_le {p : Params} {blk last_block : Nat} (fits : Fits p last_block)
    (le : blk ≤ last_block) : Fits p blk := by
  have blocks := Nat.mul_le_mul_right p.ppb (Nat.succ_le_succ le)
  exact ⟨blocks.trans fits.rows, blocks.trans fits.addresses⟩

/-- A page of a block that fits. -/
theorem Fits.page {blk p : Nat} (fits : Fits (g.params row) blk) (page : p < g.ppb) :
    u32 (blk * g.ppb + p) < 256 ^ row := by
  have rows : (blk + 1) * g.ppb ≤ 256 ^ row := fits.rows
  have addresses : (blk + 1) * g.ppb ≤ 2 ^ 32 := fits.addresses
  rw [Nat.succ_mul] at rows addresses
  rw [u32_of_lt (by omega)]
  omega

theorem fpage_lt (g : Geometry) (file : File) : fpage g file < g.ppb := by
  have stride := g.stride_pos
  have chunk : 0 < g.ppb * g.stride := Nat.mul_pos g.some_pages stride
  have rest := Nat.mod_lt file.bytes.length chunk
  rw [Nat.mod_eq_sub_div_mul] at rest
  exact (Nat.div_lt_iff_lt_mul stride).mpr rest

/-! ### The calls of a round -/

theorem made_check (made : Made flash g row s₀ s) (fits : Fits (g.params row) s.curblk) :
    Made flash g row s₀ (checkBad flash g s).2 :=
  made.call (.check_badblock (fun _ => 0) s.curblk) fits rfl rfl

/-- A page after the other, the block staying. -/
theorem made_pages (fits : Fits (g.params row) s.curblk) (pages : s.actual_pages ≤ g.ppb)
    (page_call : Nat → Prog σ → Prog σ)
    (keeps : ∀ p t, (page_call p t).curblk = t.curblk ∧
      (page_call p t).actual_pages = t.actual_pages)
    (makes : ∀ p t, u32 (t.curblk * g.ppb + p) < 256 ^ row → Made flash g row s₀ t →
      Made flash g row s₀ (page_call p t)) (made : Made flash g row s₀ s) :
    Made flash g row s₀ (Loop.count page_call s.actual_pages s) ∧
      (Loop.count page_call s.actual_pages s).curblk = s.curblk ∧
      (Loop.count page_call s.actual_pages s).actual_pages = s.actual_pages := by
  refine Loop.count_inv page_call (fun _ t => Made flash g row s₀ t ∧ t.curblk = s.curblk ∧
    t.actual_pages = s.actual_pages) (n := s.actual_pages) ?_ ⟨made, rfl, rfl⟩
  rintro p lt t ⟨made, curblk, actual_pages⟩
  obtain ⟨curblk', actual_pages'⟩ := keeps p t
  have page : p < g.ppb := lt_of_lt_of_le lt pages
  refine ⟨makes p t ?_ made, curblk'.trans curblk, actual_pages'.trans actual_pages⟩
  rw [curblk]
  exact fits.page page

theorem made_program (made : Made flash g row s₀ s) (fits : Fits (g.params row) s.curblk)
    (pages : s.actual_pages ≤ g.ppb) : Made flash g row s₀ (programBlock flash g s) ∧
      (programBlock flash g s).curblk = s.curblk ∧
      (programBlock flash g s).actual_pages = s.actual_pages := by
  refine made_pages fits pages (programPage flash g) (fun _ _ => ⟨rfl, rfl⟩) ?_ made
  intro p t address made
  exact made.call (.program_page t.nand_buf (p * g.stride) (u32 (t.curblk * g.ppb + p))) address
    rfl rfl

theorem made_read (check_only : Bool) (made : Made flash g row s₀ s)
    (fits : Fits (g.params row) s.curblk) (pages : s.actual_pages ≤ g.ppb) :
    Made flash g row s₀ (readBlock flash g check_only s) ∧
      (readBlock flash g check_only s).curblk = s.curblk ∧
      (readBlock flash g check_only s).actual_pages = s.actual_pages := by
  refine made_pages fits pages (readPage flash g check_only) (fun _ _ => ⟨rfl, rfl⟩) ?_ made
  intro p t address made
  exact made.call (.read_page t.check_buf (p * g.stride) (u32 (t.curblk * g.ppb + p))) address
    rfl rfl

theorem made_reject (made : Made flash g row s₀ s) (fits : Fits (g.params row) s.curblk) :
    Made flash g row s₀ (reject flash s) := by
  have erased : Made flash g row s₀ { s with
      flash := flash.erase_block s.flash s.curblk
      calls := s.calls ++ [.erase_block s.curblk] } :=
    made.call (.erase_block s.curblk) fits rfl rfl
  refine erased.call (.mark_badblock s.curblk) fits rfl ?_
  rw [List.append_assoc]
  rfl

variable (check_only : Bool) (file : File)

theorem accept_keeps (s : Prog σ) : (accept g check_only file s).flash = s.flash ∧
    (accept g check_only file s).calls = s.calls ∧
    (accept g check_only file s).curblk = u32 (s.curblk + 1) ∧
    (accept g check_only file s).actual_pages = s.actual_pages := by
  simp only [accept]
  split <;> exact ⟨rfl, rfl, rfl, rfl⟩

/-- The calls so far can be made, and there are no more pages to a chunk than to a block. -/
structure Driven (flash : Flash σ) (g : Geometry) (row : Nat) (s₀ : σ) (s : Prog σ) : Prop where
  made : Made flash g row s₀ s
  pages : s.actual_pages ≤ g.ppb

theorem Driven.accept {check_only : Bool} {file : File} (driven : Driven flash g row s₀ s) :
    Driven flash g row s₀ (accept g check_only file s) ∧
      (NandProg.accept g check_only file s).curblk = u32 (s.curblk + 1) := by
  obtain ⟨same, logged, curblk, pages⟩ := accept_keeps (g := g) check_only file s
  exact ⟨⟨driven.made.congr same logged, pages ▸ driven.pages⟩, curblk⟩

/-- On a good block. -/
theorem Driven.goodBlock (driven : Driven flash g row s₀ s) (fits : Fits (g.params row) s.curblk) :
    Driven flash g row s₀ (goodBlock flash g check_only file s) ∧
      (NandProg.goodBlock flash g check_only file s).curblk = u32 (s.curblk + 1) := by
  obtain ⟨t, programmed, made, curblk, pages⟩ : ∃ t,
      (if check_only then s else programBlock flash g s) = t ∧ Made flash g row s₀ t ∧
        t.curblk = s.curblk ∧ t.actual_pages = s.actual_pages := by
    refine ⟨_, rfl, ?_⟩
    cases check_only with
    | false => exact made_program driven.made fits driven.pages
    | true => exact ⟨driven.made, rfl, rfl⟩
  have fits' : Fits (g.params row) t.curblk := by rwa [curblk]
  obtain ⟨made', curblk', pages'⟩ :=
    made_read check_only made fits' (pages.trans_le driven.pages)
  have driven' : Driven flash g row s₀ (readBlock flash g check_only t) :=
    ⟨made', (pages'.trans pages).trans_le driven.pages⟩
  have moved := congrArg (fun blk => u32 (blk + 1)) (curblk'.trans curblk)
  simp only [NandProg.goodBlock, programmed]
  generalize readBlock flash g check_only t = u at *
  have differing : Driven flash g row s₀ { u with checkerr := u.checkerr + 1 } :=
    ⟨driven'.made.congr rfl rfl, driven'.pages⟩
  split
  · split
    · exact ⟨differing.accept.1, differing.accept.2.trans moved⟩
    · refine ⟨⟨made_reject differing.made ?_, driven'.pages⟩, moved⟩
      rwa [show u.curblk = s.curblk from curblk'.trans curblk]
  · exact ⟨driven'.accept.1, driven'.accept.2.trans moved⟩

/-- A round makes its calls on the block that is due, and goes on to the next. -/
theorem Driven.round (driven : Driven flash g row s₀ s) (fits : Fits (g.params row) s.curblk) :
    Driven flash g row s₀ (round flash g check_only file s) ∧
      (NandProg.round flash g check_only file s).curblk = u32 (s.curblk + 1) := by
  obtain ⟨loaded, curblk⟩ : Driven flash g row s₀ (load g file s) ∧
      (load g file s).curblk = s.curblk := by
    have few := (fpage_lt g file).le
    simp only [load]
    split
    · split
      · exact ⟨⟨driven.made.congr rfl rfl, few⟩, rfl⟩
      · exact ⟨⟨driven.made.congr rfl rfl, driven.pages⟩, rfl⟩
    · exact ⟨driven, rfl⟩
  have checked : Driven flash g row s₀ (checkBad flash g (load g file s)).2 := by
    refine ⟨made_check loaded.made ?_, loaded.pages⟩
    rwa [curblk]
  have curblk' : (checkBad flash g (load g file s)).2.curblk = s.curblk := curblk
  simp only [NandProg.round]
  generalize checkBad flash g (load g file s) = u at *
  obtain ⟨bad, u⟩ := u
  cases bad with
  | true =>
      refine ⟨⟨checked.made.congr rfl rfl, checked.pages⟩, ?_⟩
      exact congrArg (fun blk => u32 (blk + 1)) curblk'
  | false =>
      rw [← show u.curblk = s.curblk from curblk'] at fits ⊢
      exact checked.goodBlock check_only file fits

/-- Whatever the flash answers, a run ends, and its calls are calls of the driver. -/
theorem do_prog_part_made (flash : Flash σ) (check_only : Bool) (file : Option File)
    {last_block : Nat} (fits : Fits (g.params row) last_block) (last_lt : last_block < 2 ^ 32 - 1)
    (start_block : Nat) (nand_buf check_buf : Nat → Byte) :
    ∃ n t, do_prog_part flash g check_only file start_block last_block s₀ nand_buf check_buf =
        .done (n, t) ∧ Made flash g row s₀ t := by
  have none_yet {t : Prog σ} (same : t.flash = s₀) (logged : t.calls = []) :
      Made flash g row s₀ t := by
    refine ⟨[], fun c member => absurd member List.not_mem_nil, ?_⟩
    rw [same, logged]
    rfl
  cases file with
  | none => exact ⟨_, _, rfl, none_yet rfl rfl⟩
  | some file =>
      simp only [do_prog_part]
      split
      · exact ⟨_, _, rfl, none_yet rfl rfl⟩
      · obtain ⟨-, t, ran, driven, -⟩ := Loop.run_total (goOn last_block)
          (fun s => some (round flash g check_only file s))
          (fun (_ : Unit) s => Driven flash g row s₀ s) (fun _ s => last_block + 1 - s.curblk)
          (fun x s driven go => by
            have in_range := (goOn_eq_true.mp go).1
            obtain ⟨driven', curblk⟩ :=
              driven.round check_only file (fits.of_le in_range)
            rw [u32_of_lt (by omega)] at curblk
            exact ⟨x, _, rfl, driven', by omega⟩)
          (last_block + 1 - start_block) () (Prog.start g s₀ nand_buf check_buf start_block)
          ⟨none_yet rfl rfl, le_rfl⟩ le_rfl
        rw [ran]
        refine ⟨_, _, rfl, ?_⟩
        rw [Prog.finish]
        split
        · exact driven.made.congr rfl rfl
        · exact driven.made

end Made

/-- A mark that is made is shown. -/
theorem mark_shown {σ : Type} {flash : Flash σ} {g : Geometry} {calls : List ProgCall} {s : σ}
    {r : Reactive.Response σ Call} (ran : Reactive.run (perform flash g) calls s = some r)
    {blk : Nat} (made : .mark_badblock blk ∈ calls) : .mark_badblock blk ∈ r.output := by
  induction calls generalizing s r with
  | nil => cases made
  | cons c calls ih =>
      obtain ⟨first, taken, ended⟩ := Reactive.run_cons ran
      obtain ⟨first', taken', goes_on⟩ := perform_goes_on flash c s
      obtain rfl := Option.some.inj (taken.symm.trans taken')
      rcases ended with ⟨stopped, -⟩ | ⟨-, rest, more, rfl⟩
      · rw [goes_on] at stopped
        cases stopped
      · rcases List.mem_cons.mp made with rfl | later
        · obtain rfl := Option.some.inj taken
          exact List.mem_append_left _ List.mem_cons_self
        · exact List.mem_append_right _ (ih more later)

/-! ### The device -/

section Ports

variable {part : FlashPart} {emc : Emc} {g : Geometry} {row : Nat}
  {errors : List Byte → List Byte → Errors} {d : Device} {chip : Chip} {last_block : Nat}

/-- A run of `do_prog_part`, in either mode and for any image, ends. Where it marks no block, or a
mark reaches its page, it is a run at the ports: the driver gives there the answers that the run
over the pages got, and the device is left with the pages that the run ends with. -/
theorem prog_part_at_ports (suited : Suited part emc g row errors)
    (fits : Fits (g.params row) last_block) (last_lt : last_block < 2 ^ 32 - 1)
    (stores : Stores g d chip) (check_only : Bool) (file : Option File) (start_block : Nat)
    (nand_buf check_buf : Nat → Byte) :
    ∃ n t, do_prog_part (paged g emc.parity errors) g check_only file start_block last_block chip
        nand_buf check_buf = .done (n, t) ∧
      (g.Markable ∨ (∀ blk, .mark_badblock blk ∉ t.calls) → ∃ calls d',
        Reactive.run (drive part emc g row) calls d =
          some { state := d', output := t.calls, stopped := false } ∧ Stores g d' t.flash) := by
  obtain ⟨n, t, ended, calls, all_fit, ran⟩ := do_prog_part_made (paged g emc.parity errors)
    check_only file fits last_lt start_block nand_buf check_buf
  refine ⟨n, t, ended, fun reaches => ?_⟩
  have fit_marks : ∀ c ∈ calls, c.Fits g row := by
    refine fun c member => ⟨all_fit c member, fun blk mark => ?_⟩
    rcases reaches with size | none
    · exact size
    · exact absurd (mark_shown ran (mark ▸ member)) (none blk)
  have related := calls_rel suited fit_marks stores
  rw [ran] at related
  obtain ⟨r, ran_ports, agree⟩ := Reactive.Agree.exists_left related
  refine ⟨calls, r.state, ?_, agree.state⟩
  rw [ran_ports, ← show r.output = t.calls from agree.output,
    ← show r.stopped = false from agree.stopped]

/-- A page onto an erased flash. -/
theorem prog_part_at_ports_sample : ∃ n t calls d',
    do_prog_part (paged test_geometry plainEmc.parity fun _ _ => []) test_geometry false
        (some (test_image 0)) 512 1024 blankDevice.pages (fun _ => 0) (fun _ => 0) = .done (n, t) ∧
      Reactive.run (drive clearingPart plainEmc test_geometry 3) calls blankDevice =
        some { state := d', output := t.calls, stopped := false } ∧
      Stores test_geometry d' t.flash := by
  have range : Fits (test_geometry.params 3) 1024 := ⟨by decide, by decide⟩
  obtain ⟨n, t, ended, at_ports⟩ := prog_part_at_ports plainEmc_suited range (by decide)
    (fun _ _ _ => rfl : Stores test_geometry blankDevice blankDevice.pages) false
    (some (test_image 0)) 512 (fun _ => 0) (fun _ => 0)
  obtain ⟨calls, d', ran, stores⟩ := at_ports (.inl (.inr rfl))
  exact ⟨n, t, calls, d', ended, ran, stores⟩

theorem paged_nil (g : Geometry) (parity : List Byte → Nat → Byte) :
    paged g parity (fun _ _ => []) = faithful g parity := by
  have no_error (b : Byte) (m : Nat) : b ^^^ errorByte [] m = b := BitVec.xor_zero
  simp only [paged, no_error, ite_self]
  rfl

/-- Where the good blocks of the range are erased, an image is finished exactly when there is a good
block for every chunk, and then each page of it comes back through the ports, from its place in the
good block of its chunk, with its parities. -/
theorem image_at_ports (suited : Suited part emc g row fun _ _ => [])
    (fits : Fits (g.params row) last_block) (on_chip : (last_block + 1) * g.ppb < 2 ^ 32)
    {file : File} (fit : file.bytes.length % g.stride = 0) (some_bytes : 0 < file.bytes.length)
    (start_block : Nat)
    (erased : ∀ b, start_block ≤ b → b ≤ last_block → marked g d.pages b = false →
      Erased g d.pages b) (nand_buf check_buf : Nat → Byte) :
    let good := goods (marked g d.pages) start_block
    ∃ t calls d', do_prog_part (faithful g emc.parity) g false (some file) start_block last_block
        d.pages nand_buf check_buf = .done (0, t) ∧
      Reactive.run (drive part emc g row) calls d =
        some { state := d', output := t.calls, stopped := false } ∧
      (.finished ∈ t.printed ↔ chunks g file ≤ good (last_block + 1)) ∧
      (.finished ∈ t.printed → ∀ k < chunks g file, ∃ b, start_block ≤ b ∧ b ≤ last_block ∧
        marked g d.pages b = false ∧ good b = k ∧ ∀ p < pagesOf g file k, ∀ buf start,
          ∃ d'', drive part emc g row (.read_page buf start (b * g.ppb + p)) d' = some
            { state := d''
              output := [.read_page (b * g.ppb + p)
                (slice (written g emc.parity file (k * g.ppb + p)) 0 g.stride)]
              stopped := false }) := by
  intro good
  have blocks : last_block + 1 ≤ (last_block + 1) * g.ppb := Nat.le_mul_of_pos_right _ g.some_pages
  obtain ⟨t, ended, unmarked, finished, stored⟩ := program_run emc.parity start_block last_block fit
    some_bytes on_chip d.pages erased nand_buf check_buf
  obtain ⟨n, t', ended', at_ports⟩ := prog_part_at_ports suited fits (by omega)
    (fun _ _ _ => rfl : Stores g d d.pages) false (some file) start_block nand_buf check_buf
  rw [paged_nil, ended] at ended'
  obtain ⟨rfl, rfl⟩ := Prod.mk.inj (Loop.Result.done.inj ended')
  obtain ⟨calls, d', ran, stores⟩ := at_ports (.inr unmarked)
  refine ⟨t, calls, d', ended, ran, finished, fun done k chunk => ?_⟩
  obtain ⟨b, from_start, before, unmarked, number⟩ :=
    exists_of_lt_goods (chunk.trans_le (finished.mp done))
  have in_range : b ≤ last_block := by omega
  refine ⟨b, from_start, in_range, unmarked, number, fun p page buf start => ?_⟩
  have page_lt : p < g.ppb := page.trans_le (pagesOf_le fit k)
  have inside : (b + 1) * g.ppb < 2 ^ 32 :=
    lt_of_le_of_lt (Nat.mul_le_mul_right _ (Nat.succ_le_succ in_range)) on_chip
  have address := pageaddr_eq g inside page_lt
  have addressed : b * g.ppb + p < 256 ^ row := by
    rw [← address]
    exact (fits.of_le in_range).page page_lt
  -- on the pages it is what was stored
  have content : slice (t.flash (b * g.ppb + p)) 0 g.stride =
      slice (written g emc.parity file (k * g.ppb + p)) 0 g.stride := by
    refine slice_eq_slice.mpr fun y inside => ?_
    rw [Nat.zero_add, ← number]
    refine (stored done).taken b from_start unmarked ?_ p ?_ y inside
    · rwa [number]
    · rwa [number]
  have related := read_rel suited stores buf start addressed
  rw [paged_nil] at related
  obtain ⟨r, read, agree⟩ := Reactive.Agree.exists_left related
  refine ⟨r.state, ?_⟩
  rw [read, ← content]
  exact congrArg some (congrArg₂ (Reactive.Response.mk r.state) agree.output agree.stopped)

theorem image_at_ports_sample : ∃ t calls d',
    do_prog_part (faithful test_geometry plainEmc.parity) test_geometry false
        (some (test_image 0)) 512 1024 blankDevice.pages (fun _ => 0) (fun _ => 0) = .done (0, t) ∧
      Reactive.run (drive clearingPart plainEmc test_geometry 3) calls blankDevice =
        some { state := d', output := t.calls, stopped := false } ∧
      (.finished ∈ t.printed ↔ chunks test_geometry (test_image 0) ≤
        goods (marked test_geometry blankDevice.pages) 512 1025) := by
  have range : Fits (test_geometry.params 3) 1024 := ⟨by decide, by decide⟩
  obtain ⟨t, calls, d', ended, ran, finished, -⟩ := image_at_ports (d := blankDevice)
    plainEmc_suited range (by decide) (test_image_fit 0)
    (length_test_image 0 ▸ test_geometry.stride_pos) 512 (fun _ _ _ _ _ _ _ _ => rfl)
    (fun _ => 0) (fun _ => 0)
  exact ⟨t, calls, d', ended, ran, finished⟩

end Ports

end CFunc.NandProg
