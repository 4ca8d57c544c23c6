import CFunc.Lib.Reactive
import CFunc.NandProg.MarkBad
import CFunc.NandProg.ReadBack

/-!
Calls of the driver, at the ports and on the pages.

`do_prog_part` asks five things of the driver. A history of such calls runs at
the ports of a flash and an EMC, cycle by cycle, and on the pages alone, and the
two show the same results. An erase has row cycles only, and takes the block
that the row lies in. The flash listens whether it is enabled or not, as it has
to for `nand_read_page`, and a mark reaches its page at two page sizes only.
-/

namespace CFunc.NandProg

open CFunc.Lib CFunc.Lib.Buffer

/-- The globals that go with a geometry. -/
def Geometry.params (g : Geometry) (row : Nat) : Params :=
  { row := row, pagesize := g.pagesize, oobsize := g.oobsize, ppb := g.ppb }

/-- A call, with what its buffers hold before. A page is passed as its data, at offset `start` of
`buf`, and the OOB behind it. -/
inductive ProgCall where
  | check_badblock (oob_buf : Nat → Byte) (blk : Nat)
  | program_page (buf : Nat → Byte) (start pageaddr : Nat)
  | read_page (buf : Nat → Byte) (start pageaddr : Nat)
  | erase_block (blk : Nat)
  | mark_badblock (blk : Nat)

/-- The row cycles carry the address, which is an `unsigned int`. -/
def ProgCall.Addressed (g : Geometry) (row : Nat) : ProgCall → Prop
  | .check_badblock _ blk | .erase_block blk | .mark_badblock blk =>
      NandProg.Fits (g.params row) blk
  | .program_page _ _ pageaddr | .read_page _ _ pageaddr => pageaddr < 256 ^ row

/-- The page sizes for which `nand_mark_badblock` sends the column cycles that a flash takes. -/
def Geometry.Markable (g : Geometry) : Prop := g.pagesize = 512 ∨ g.pagesize = 2048

/-- The call reaches what it names. -/
structure ProgCall.Fits (g : Geometry) (row : Nat) (c : ProgCall) : Prop where
  addressed : c.Addressed g row
  marks : ∀ blk, c = .mark_badblock blk → g.Markable

/-! ### At the ports -/

namespace Device

/-- The row of an erase. -/
def row (part : FlashPart) (d : Device) : Nat :=
  littleEndian (fun i => d.cycles.getD i (part.unsent i)) 0 part.rows

/-- The pages of the block that the row lies in are erased. -/
def erase (part : FlashPart) (ppb : Nat) (d : Device) : Nat → Nat → Byte := fun a =>
  if a / ppb = d.row part / ppb then fun _ => 0xff else d.pages a

/-- The ports of a flash that erases blocks of `ppb` pages. -/
def ports (part : FlashPart) (emc : Emc) (ppb : Nat) : Bus Device :=
  { bus part emc with
    cmd := fun n d =>
      if n = CMD_ERASE then { d.cmd part n with pages := d.erase part ppb } else d.cmd part n }

end Device

section Ports

variable (part : FlashPart) (emc : Emc) (g : Geometry) (row : Nat)

/-- A call at the ports, and what it gives. -/
def drive (c : ProgCall) (d : Device) : Option (Reactive.Response Device Call) :=
  let ports := Device.ports part emc g.ppb
  let params := g.params row
  match c with
  | .check_badblock oob_buf blk =>
      let (bad, d) := ports.nand_check_badblock params oob_buf blk d
      some { state := d, output := [.check_badblock blk (bad ≠ 0)], stopped := false }
  | .program_page buf start pageaddr =>
      let databuf := fun x => buf (start + x)
      let (_, oobbuf, d) := ports.nand_program_page params databuf
        (fun x => buf (start + g.pagesize + x)) pageaddr g.ecc_pos d
      let page := slice databuf 0 g.pagesize ++ slice oobbuf 0 g.oobsize
      some { state := d, output := [.program_page pageaddr page], stopped := false }
  | .read_page buf start pageaddr =>
      let (databuf, oobbuf, d) := ports.nand_read_page params (fun x => buf (start + x))
        (fun x => buf (start + g.pagesize + x)) pageaddr g.ecc_pos d
      let page := slice databuf 0 g.pagesize ++ slice oobbuf 0 g.oobsize
      some { state := d, output := [.read_page pageaddr page], stopped := false }
  | .erase_block blk =>
      let (_, d) := ports.nand_erase_block params blk d
      some { state := d, output := [.erase_block blk], stopped := false }
  | .mark_badblock blk =>
      let (_, d) := ports.nand_mark_badblock params blk d
      some { state := d, output := [.mark_badblock blk], stopped := false }

end Ports

/-! ### On the pages -/

/-- A call, by what the flash is asked for. -/
def perform {σ : Type} (flash : Flash σ) (g : Geometry) (c : ProgCall) (s : σ) :
    Option (Reactive.Response σ Call) :=
  match c with
  | .check_badblock _ blk =>
      let (bad, s) := nand_check_badblock flash g s blk
      some { state := s, output := [.check_badblock blk bad], stopped := false }
  | .program_page buf start pageaddr =>
      let (buf, s) := nand_program_page flash g buf start pageaddr s
      some { state := s, output := [.program_page pageaddr (slice buf start g.stride)],
             stopped := false }
  | .read_page _ _ pageaddr =>
      let (page, s) := flash.read_page s pageaddr
      some { state := s, output := [.read_page pageaddr (slice page 0 g.stride)],
             stopped := false }
  | .erase_block blk =>
      some { state := flash.erase_block s blk, output := [.erase_block blk], stopped := false }
  | .mark_badblock blk =>
      some { state := flash.mark_badblock s blk, output := [.mark_badblock blk], stopped := false }

/-- The faithful chip with a decoder that finds the symbols `errors` in an ECC block with its
parities. -/
def paged (g : Geometry) (parity : List Byte → Nat → Byte)
    (errors : List Byte → List Byte → Errors) : Flash Chip :=
  { faithful g parity with
    read_page := fun chip pageaddr =>
      (fun y =>
        if y < g.pagesize then
          let chunk := Device.presentation (g.params 0) (chip pageaddr) g.ecc_pos (y / ECC_BLOCK)
          chip pageaddr y ^^^ errorByte (errors chunk.1 chunk.2) (y % ECC_BLOCK)
        else chip pageaddr y, chip) }

/-- A flash whose programming clears bits, and an EMC whose decoder reports the symbols `errors`. -/
structure Suited (part : FlashPart) (emc : Emc) (g : Geometry) (row : Nat)
    (errors : List Byte → List Byte → Errors) : Prop where
  suits : part.Suits (g.params row)
  clears : ∀ old b, part.store old b = old &&& b
  reports : ∀ block pars, Reports (emc.decoder block pars).1 (emc.decoder block pars).2
    (errors block pars)

/-- The device has the pages of the chip. -/
def Stores (g : Geometry) (d : Device) (chip : Chip) : Prop :=
  ∀ a, ∀ y < g.stride, d.pages a y = chip a y

/-! ### Commands other than the erase -/

namespace Bus

variable {σ : Type} (b : Bus σ) (c : Byte → σ → σ)

theorem rowCycles_cmd : ({ b with cmd := c } : Bus σ).rowCycles = b.rowCycles := by
  funext row rowaddr s
  induction row generalizing rowaddr s with
  | zero => rfl
  | succ row ih => exact ih _ _

theorem write8_cmd : ({ b with cmd := c } : Bus σ).nand_data_write8 = b.nand_data_write8 := rfl

theorem read8_cmd : ({ b with cmd := c } : Bus σ).nand_data_read8 = b.nand_data_read8 := rfl

theorem programChunk_cmd : ({ b with cmd := c } : Bus σ).programChunk = b.programChunk := by
  funext databuf i t
  simp only [programChunk, write8_cmd]

theorem readChunk_cmd : ({ b with cmd := c } : Bus σ).readChunk = b.readChunk := by
  funext oobbuf ecc_pos i t
  simp only [readChunk, read8_cmd]

variable {c} (same : ∀ n ≠ CMD_ERASE, c n = b.cmd n)

include same

theorem finish_cmd : ({ b with cmd := c } : Bus σ).finish = b.finish := by
  funext s
  simp only [finish, same CMD_READ_STATUS (by decide)]

variable (g : Params)

theorem read_oob_cmd : ({ b with cmd := c } : Bus σ).read_oob g = b.read_oob g := by
  funext buf size pg s
  simp only [read_oob, rowCycles_cmd, read8_cmd, same CMD_READA (by decide),
    same CMD_READC (by decide), same CMD_CONFIRM (by decide)]

theorem check_badblock_cmd :
    ({ b with cmd := c } : Bus σ).nand_check_badblock g = b.nand_check_badblock g := by
  funext oob_buf blk s
  simp only [nand_check_badblock, read_oob_cmd b same]

theorem mark_badblock_cmd :
    ({ b with cmd := c } : Bus σ).nand_mark_badblock g = b.nand_mark_badblock g := by
  funext blk s
  simp only [nand_mark_badblock, rowCycles_cmd, write8_cmd, finish_cmd b same,
    same CMD_READA (by decide), same CMD_SEQIN (by decide), same CMD_PGPROG (by decide)]

theorem program_page_cmd :
    ({ b with cmd := c } : Bus σ).nand_program_page g = b.nand_program_page g := by
  funext databuf oobbuf pageaddr ecc_pos s
  simp only [nand_program_page, rowCycles_cmd, write8_cmd, programChunk_cmd, finish_cmd b same,
    same CMD_READA (by decide), same CMD_SEQIN (by decide), same CMD_PGPROG (by decide)]

theorem read_page_cmd :
    ({ b with cmd := c } : Bus σ).nand_read_page g = b.nand_read_page g := by
  funext databuf oobbuf pageaddr ecc_pos s
  simp only [nand_read_page, rowCycles_cmd, readChunk_cmd, read_oob_cmd b same,
    same CMD_READA (by decide), same CMD_CONFIRM (by decide)]

end Bus

/-! ### What the calls do to the pages -/

namespace Device

variable (part : FlashPart) (emc : Emc) (d : Device) {g : Params}

theorem ports_cmd (ppb : Nat) : ∀ n ≠ CMD_ERASE,
    (ports part emc ppb).cmd n = (bus part emc).cmd n := by
  intro n other
  funext d
  exact if_neg other

/-- The block of the addressed row is erased, and nothing else. -/
theorem erase_block_eq (suits : part.Suits g) (blk : Nat) :
    ((ports part emc g.ppb).nand_erase_block g blk d).2.pages = fun a =>
      if a / g.ppb = u32 (blk * g.ppb) % 256 ^ g.row / g.ppb then fun _ => 0xff
      else d.pages a := by
  have cycles : (ports part emc g.ppb).rowCycles g.row (u32 (blk * g.ppb))
      ((ports part emc g.ppb).cmd CMD_ERASE_SETUP ((ports part emc g.ppb).enable d)) =
        { d.opened CMD_ERASE_SETUP d.area with cycles := rowBytes g.row (u32 (blk * g.ppb)) } := by
    rw [ports, Bus.rowCycles_cmd, rowCycles_eq]
    rfl
  have finish := Bus.finish_cmd (bus part emc) (ports_cmd part emc g.ppb)
  have row : ({ d.opened CMD_ERASE_SETUP d.area with
      cycles := rowBytes g.row (u32 (blk * g.ppb)) } : Device).row part =
        u32 (blk * g.ppb) % 256 ^ g.row := by
    rw [Device.row, suits.rows]
    exact littleEndian_rowBytes g.row (u32 (blk * g.ppb)) part.unsent
  rw [Bus.nand_erase_block, cycles, show (ports part emc g.ppb).finish = _ from finish, finish_eq]
  funext a
  rw [← row]
  rfl

/-- Chunks that come in leave the pages as they are. -/
theorem readChunks_keep (oobbuf : Nat → Byte) (ecc_pos n : Nat) (databuf : Nat → Byte)
    (reading : d.command ≠ CMD_READ_STATUS) :
    ∃ databuf' d', Loop.count ((bus part emc).readChunk oobbuf ecc_pos) n (databuf, d) =
      (databuf', d') ∧ d'.pages = d.pages ∧ d'.command = d.command := by
  induction n with
  | zero => exact ⟨databuf, d, rfl, rfl, rfl⟩
  | succ n ih =>
      obtain ⟨databuf', d', looped, pages, command⟩ := ih
      obtain ⟨d'', chunk, further, -⟩ :=
        readChunk_eq part emc d' (by rwa [command]) databuf' oobbuf ecc_pos n
      exact ⟨_, d'', by rw [Loop.count, looped, chunk], further.pages.trans pages,
        further.command.trans command⟩

/-- Reading a page changes no page, and fills the OOB buffer. -/
theorem read_page_keeps (suits : part.Suits g) (small : g.pagesize < 65536)
    (databuf oobbuf : Nat → Byte) (pageaddr ecc_pos : Nat) :
    ((bus part emc).nand_read_page g databuf oobbuf pageaddr ecc_pos d).2.1 =
        blit oobbuf 0 (fun i => d.pages (pageaddr % 256 ^ g.row) (g.pagesize + i)) g.oobsize ∧
      ((bus part emc).nand_read_page g databuf oobbuf pageaddr ecc_pos d).2.2.pages = d.pages := by
  obtain ⟨d', read, pages, -⟩ :=
    read_oob_eq part emc d suits small oobbuf g.oobsize pageaddr
  have enabled : (bus part emc).enable d = d := rfl
  by_cases size512 : g.pagesize = 512
  · have reads := reads_small part emc d' suits size512 (cmd_READA part emc d') (by decide) pageaddr
    obtain ⟨databuf', d'', looped, kept, -⟩ := readChunks_keep part emc _
      (blit oobbuf 0 (fun i => d.pages (pageaddr % 256 ^ g.row) (g.pagesize + i)) g.oobsize) ecc_pos
      (g.pagesize / ECC_BLOCK) databuf reads.reading
    rw [Bus.nand_read_page, enabled, read]
    simp only [size512, ne_eq, not_true, if_false] at looped ⊢
    rw [looped]
    exact ⟨trivial, kept.trans (reads.pages.trans pages)⟩
  · have reads := reads_large part emc d' suits size512 (by decide : 0 < 65536) pageaddr
    obtain ⟨databuf', d'', looped, kept, -⟩ := readChunks_keep part emc _
      (blit oobbuf 0 (fun i => d.pages (pageaddr % 256 ^ g.row) (g.pagesize + i)) g.oobsize) ecc_pos
      (g.pagesize / ECC_BLOCK) databuf reads.reading
    rw [Bus.nand_read_page, enabled, read]
    simp only [size512, ne_eq, not_false_eq_true, if_true]
    exact ⟨trivial, (congrArg (fun t => t.2.pages) looped).trans
      (kept.trans (reads.pages.trans pages))⟩

theorem check_badblock_keeps (suits : part.Suits g) (small : g.pagesize < 65536)
    (oob_buf : Nat → Byte) (blk : Nat) :
    ((bus part emc).nand_check_badblock g oob_buf blk d).2.pages = d.pages := by
  obtain ⟨d', read, pages, -⟩ :=
    read_oob_eq part emc d suits small oob_buf g.oobsize (g.lastPage blk)
  simp only [Bus.nand_check_badblock, read]
  split <;> exact pages

/-- The OOB buffer as programming leaves it. -/
theorem program_page_oob {k : Nat} (size : g.pagesize = ECC_BLOCK * k) (databuf oobbuf : Nat → Byte)
    (pageaddr ecc_pos : Nat) :
    ((bus part emc).nand_program_page g databuf oobbuf pageaddr ecc_pos d).2.1 =
      storedOob emc.parity k ecc_pos databuf oobbuf := by
  have ecccnt : g.pagesize / ECC_BLOCK = k := by
    rw [size]
    exact Nat.mul_div_cancel_left k (by decide)
  have copied (s : Device) (j : Nat) : blit (blit oobbuf 0 (fun _ => 0xff) ecc_pos) ecc_pos
      (Loop.count ((bus part emc).programChunk databuf) k (fun _ => 0, s)).1 (k * PAR_SIZE) j =
        storedOob emc.parity k ecc_pos databuf oobbuf j := by
    obtain ⟨ecc_buf, s', looped, -, parities⟩ :=
      programChunks part emc databuf (fun _ => 0) k (d := s)
    rw [looped]
    exact oob_eq oobbuf parities j
  funext j
  simp only [Bus.nand_program_page, ecccnt]
  exact copied _ j

end Device

section Pages

variable {g : Geometry} {parity : List Byte → Nat → Byte}
  {errors : List Byte → List Byte → Errors} {part : FlashPart} {emc : Emc} {row : Nat}
  {d : Device} {chip : Chip}

/-- The page that goes out, as its data and its OOB. -/
theorem programmed_eq (buf : Nat → Byte) (start y : Nat) :
    programmed g parity buf start y =
      if y < g.pagesize then buf (start + y)
      else storedOob parity g.ecccnt g.ecc_pos (fun x => buf (start + x))
        (fun x => buf (start + g.pagesize + x)) (y - g.pagesize) := by
  have parities (x : Nat) : parityAt parity (fun x => buf (start + x)) 0 x =
      parityAt parity buf start x := by
    rw [parityAt, parityAt, slice_eq_slice.mpr]
    intro i _
    rw [Nat.zero_add, Nat.add_assoc]
  rw [programmed, storedOob]
  by_cases data : y < g.pagesize
  · rw [if_pos data, if_pos data]
  · have offset : start + g.pagesize + (y - g.pagesize) = start + y := by omega
    have before : y - g.pagesize < g.ecc_pos ↔ y < g.pagesize + g.ecc_pos := by omega
    have ecc : y - g.pagesize < g.ecc_pos + PAR_SIZE * g.ecccnt ↔
        y < g.pagesize + g.ecc_pos + PAR_SIZE * g.ecccnt := by omega
    rw [if_neg data, if_neg data, if_congr before rfl rfl, if_congr ecc rfl rfl, parities, offset]

/-- What is on the chip has no part in the page that goes out. -/
theorem program_content (buf : Nat → Byte) (start pageaddr : Nat) {y : Nat}
    (inside : y < g.stride) :
    (nand_program_page (paged g parity errors) g buf start pageaddr chip).1 (start + y) =
      programmed g parity buf start y := by
  obtain ⟨-, parities⟩ := encodeBlocks_faithful g parity buf start chip
  obtain ⟨-, parities'⟩ := encodeBlocks_faithful g parity buf start fun _ _ => 0xff
  obtain ⟨buf', chip', ran, content, -⟩ :=
    nand_program_page_faithful g parity buf start pageaddr (fun _ _ => 0xff) fun _ _ => rfl
  have same : (nand_program_page (paged g parity errors) g buf start pageaddr chip).1 =
      (nand_program_page (faithful g parity) g buf start pageaddr fun _ _ => 0xff).1 := by
    funext x
    simp only [nand_program_page]
    by_cases ecc : start + g.pagesize + g.ecc_pos ≤ x ∧
        x < start + g.pagesize + g.ecc_pos + g.ecccnt * PAR_SIZE
    · rw [blit_inside ecc.1 ecc.2, blit_inside ecc.1 ecc.2, parities' _ (by omega)]
      exact parities _ (by omega)
    · rw [blit_outside ecc, blit_outside ecc]
  rw [same, ran]
  exact content y inside

theorem program_pages (buf : Nat → Byte) (start pageaddr a : Nat) {y : Nat}
    (inside : y < g.stride) :
    (nand_program_page (paged g parity errors) g buf start pageaddr chip).2 a y =
      if a = pageaddr then chip a y &&& programmed g parity buf start y else chip a y := by
  have kept := (encodeBlocks_faithful g parity buf start chip).1
  have byte : (slice (nand_program_page (paged g parity errors) g buf start pageaddr chip).1
      start g.stride).getD y 0xff = programmed g parity buf start y := by
    rw [List.getD_eq_getElem?_getD, getElem?_slice _ _ inside, Option.getD_some,
      program_content buf start pageaddr inside]
  have programs : (nand_program_page (paged g parity errors) g buf start pageaddr chip).2 a =
      if a = pageaddr then fun y => (encodeBlocks (faithful g parity) g buf start chip).2 a y &&&
        (slice (nand_program_page (paged g parity errors) g buf start pageaddr chip).1
          start g.stride).getD y 0xff
      else (encodeBlocks (faithful g parity) g buf start chip).2 a := rfl
  rw [programs, kept, ← byte]
  split <;> rfl

theorem oobsize_gt_one (g : Geometry) : 1 < g.oobsize := by
  have fits := g.ecc_fits
  have some_data := g.some_data
  have nine : PAR_SIZE = 9 := rfl
  rw [nine] at fits
  omega

/-- The parities of a larger page would not fit in `ecc_buf`. -/
theorem Geometry.small (g : Geometry) : g.pagesize < 65536 := by
  have holds := g.ecc_buf_holds
  simp only [PAR_SIZE] at holds
  simp only [pagesize, ECC_BLOCK]
  omega

/-- A page is its data and its OOB. -/
theorem slice_stride (page databuf oobbuf : Nat → Byte)
    (same : ∀ y < g.stride, page y =
      if y < g.pagesize then databuf y else oobbuf (y - g.pagesize)) (start : Nat)
    (buf : Nat → Byte) (content : ∀ y < g.stride, buf (start + y) = page y) :
    slice databuf 0 g.pagesize ++ slice oobbuf 0 g.oobsize = slice buf start g.stride := by
  rw [Geometry.stride, slice_add]
  congr 1
  · refine slice_eq_slice.mpr fun y lt => ?_
    have inside : y < g.stride := lt_of_lt_of_le lt (Nat.le_add_right _ _)
    rw [content y inside, same y inside, if_pos lt, Nat.zero_add]
  · refine slice_eq_slice.mpr fun y lt => ?_
    have inside : g.pagesize + y < g.stride := Nat.add_lt_add_left lt _
    rw [Nat.add_assoc, content _ inside, same _ inside, if_neg (by omega), Nat.add_sub_cancel_left,
      Nat.zero_add]

theorem check_rel (suited : Suited part emc g row errors) (stores : Stores g d chip)
    (oob_buf : Nat → Byte) {blk : Nat} (fits : Fits (g.params row) blk) :
    Option.Rel (Reactive.Agree (Stores g)) (drive part emc g row (.check_badblock oob_buf blk) d)
      (perform (paged g emc.parity errors) g (.check_badblock oob_buf blk) chip) := by
  have ports := Bus.check_badblock_cmd (Device.bus part emc) (Device.ports_cmd part emc g.ppb)
    (g.params row)
  have found := d.check_badblock_eq part emc suited.suits g.small oob_buf blk
  have kept := d.check_badblock_keeps part emc suited.suits g.small oob_buf blk
  have two := oobsize_gt_one g
  have marks (i : Nat) (lt : i < g.oobsize) : blit oob_buf 0 (fun i =>
      d.pages ((g.params row).lastPage blk % 256 ^ (g.params row).row) (g.pagesize + i))
        g.oobsize i = chip ((g.params row).lastPage blk) (g.pagesize + i) := by
    rw [blit_inside (Nat.zero_le _) (by omega), Nat.sub_zero, lastPage_mod g.some_pages fits,
      lastPage_eq g.some_pages fits]
    exact stores _ _ (Nat.add_lt_add_left lt _)
  have bad : (((Device.bus part emc).nand_check_badblock (g.params row) oob_buf blk d).1 ≠ 0) =
      ((nand_check_badblock (paged g emc.parity errors) g chip blk).1 = true) := by
    rw [found]
    simp only [show (g.params row).pagesize = g.pagesize from rfl,
      show (g.params row).oobsize = g.oobsize from rfl, marks 0 (by omega), marks 1 two]
    have seen : (nand_check_badblock (paged g emc.parity errors) g chip blk).1 =
        (chip ((g.params row).lastPage blk) (g.pagesize + 0) ≠ 0xff ||
          chip ((g.params row).lastPage blk) (g.pagesize + 1) ≠ 0xff) := rfl
    rw [seen]
    simp [or_iff_not_imp_left]
  rw [drive, perform]
  simp only [show (Device.ports part emc g.ppb).nand_check_badblock (g.params row) = _ from ports]
  refine .some ⟨?_, ?_, rfl⟩
  · intro a y inside
    rw [kept]
    exact stores a y inside
  · simp only [bad, Bool.decide_eq_true]

theorem program_rel (suited : Suited part emc g row errors) (stores : Stores g d chip)
    (buf : Nat → Byte) (start : Nat) {pageaddr : Nat} (fits : pageaddr < 256 ^ row) :
    Option.Rel (Reactive.Agree (Stores g))
      (drive part emc g row (.program_page buf start pageaddr) d)
      (perform (paged g emc.parity errors) g (.program_page buf start pageaddr) chip) := by
  have ports := Bus.program_page_cmd (Device.bus part emc) (Device.ports_cmd part emc g.ppb)
    (g.params row)
  have size : (g.params row).pagesize = ECC_BLOCK * g.ecccnt := rfl
  have addressed : pageaddr % 256 ^ (g.params row).row = pageaddr := Nat.mod_eq_of_lt fits
  have oob := d.program_page_oob part emc size (fun x => buf (start + x))
    (fun x => buf (start + g.pagesize + x)) pageaddr g.ecc_pos
  have pages := d.program_page_eq part emc suited.suits size (fun x => buf (start + x))
    (fun x => buf (start + g.pagesize + x)) pageaddr g.ecc_pos
  have content (y : Nat) (inside : y < g.stride) :
      (nand_program_page (paged g emc.parity errors) g buf start pageaddr chip).1 (start + y) =
        programmed g emc.parity buf start y := program_content buf start pageaddr inside
  rw [drive, perform]
  simp only [show (Device.ports part emc g.ppb).nand_program_page (g.params row) = _ from ports]
  refine .some ⟨?_, ?_, rfl⟩
  · intro a y inside
    have after : (nand_program_page (paged g emc.parity errors) g buf start pageaddr chip).2 a y =
        if a = pageaddr then chip a y &&& programmed g emc.parity buf start y else chip a y :=
      program_pages buf start pageaddr a inside
    refine (pages a y).trans (Eq.trans ?_ after.symm)
    rw [suited.clears, stores a y inside, addressed, programmed_eq]
    exact if_congr (and_iff_left inside) rfl rfl
  · rw [oob]
    refine congrArg (fun page => [Call.program_page pageaddr page]) ?_
    exact slice_stride _ _ _ (fun y _ => programmed_eq buf start y) start _ content

/-- The decoder is given what is on the chip. -/
theorem presentation_stores (stores : Stores g d chip) (pageaddr : Nat) {i : Nat}
    (lt : i < g.ecccnt) :
    Device.presentation (g.params row) (d.pages pageaddr) g.ecc_pos i =
      Device.presentation (g.params 0) (chip pageaddr) g.ecc_pos i := by
  have chunks := Nat.mul_le_mul_right ECC_BLOCK (Nat.succ_le_of_lt lt)
  have parities := Nat.mul_le_mul_right PAR_SIZE (Nat.succ_le_of_lt lt)
  have fits := g.ecc_fits
  have size : g.ecccnt * ECC_BLOCK = g.pagesize := Nat.mul_comm _ _
  rw [Nat.succ_mul] at chunks parities
  rw [Nat.mul_comm PAR_SIZE] at fits
  rw [Device.presentation, Device.presentation, Prod.mk.injEq, slice_eq_slice, slice_eq_slice]
  constructor
  · intro x inside
    refine stores _ _ ?_
    rw [Geometry.stride]
    omega
  · intro x inside
    refine stores _ _ ?_
    change g.pagesize + (g.ecc_pos + i * PAR_SIZE) + x < g.pagesize + g.oobsize
    omega

theorem read_rel (suited : Suited part emc g row errors) (stores : Stores g d chip)
    (buf : Nat → Byte) (start : Nat) {pageaddr : Nat} (fits : pageaddr < 256 ^ row) :
    Option.Rel (Reactive.Agree (Stores g)) (drive part emc g row (.read_page buf start pageaddr) d)
      (perform (paged g emc.parity errors) g (.read_page buf start pageaddr) chip) := by
  have ports := Bus.read_page_cmd (Device.bus part emc) (Device.ports_cmd part emc g.ppb)
    (g.params row)
  have size : (g.params row).pagesize = ECC_BLOCK * g.ecccnt := rfl
  have addressed : pageaddr % 256 ^ (g.params row).row = pageaddr := Nat.mod_eq_of_lt fits
  obtain ⟨oob, kept⟩ := d.read_page_keeps part emc suited.suits g.small
    (fun x => buf (start + x)) (fun x => buf (start + g.pagesize + x)) pageaddr g.ecc_pos
  have data := (d.read_page_eq part emc suited.suits g.small size g.ecc_fits
    (fun x => buf (start + x)) (fun x => buf (start + g.pagesize + x)) pageaddr).2
  rw [drive, perform]
  simp only [show (Device.ports part emc g.ppb).nand_read_page (g.params row) = _ from ports]
  refine .some ⟨?_, ?_, rfl⟩
  · intro a y inside
    exact (congrFun (congrFun kept a) y).trans (stores a y inside)
  · rw [oob]
    refine congrArg (fun page => [Call.read_page pageaddr page]) ?_
    refine slice_stride (paged g emc.parity errors |>.read_page chip pageaddr).1 _ _
      (fun y inside => ?_) 0 _ fun y _ => by rw [Nat.zero_add]
    simp only [paged]
    split
    next lt =>
      rw [data _ (fun i _ => suited.reports _ _) y lt, addressed, stores _ y inside,
        presentation_stores stores pageaddr (Nat.div_lt_of_lt_mul lt)]
    next past =>
      have in_oob : y - g.pagesize < 0 + (g.params row).oobsize := by
        rw [Geometry.stride] at inside
        change y - g.pagesize < 0 + g.oobsize
        omega
      have offset : (g.params row).pagesize + (y - g.pagesize) = y :=
        Nat.add_sub_cancel' (Nat.le_of_not_lt past)
      rw [blit_inside (Nat.zero_le _) in_oob, addressed, Nat.sub_zero, offset]
      exact (stores _ y inside).symm

theorem erase_rel (suited : Suited part emc g row errors) (stores : Stores g d chip) {blk : Nat}
    (fits : Fits (g.params row) blk) :
    Option.Rel (Reactive.Agree (Stores g)) (drive part emc g row (.erase_block blk) d)
      (perform (paged g emc.parity errors) g (.erase_block blk) chip) := by
  have erased := d.erase_block_eq part emc suited.suits blk
  have block : u32 (blk * g.ppb) % 256 ^ row / g.ppb = blk := by
    have some_pages := g.some_pages
    have rows : (blk + 1) * g.ppb ≤ 256 ^ row := fits.rows
    have addresses : (blk + 1) * g.ppb ≤ 2 ^ 32 := fits.addresses
    rw [Nat.succ_mul] at rows addresses
    rw [u32_of_lt (by omega), Nat.mod_eq_of_lt (by omega), Nat.mul_div_cancel _ some_pages]
  refine .some ⟨?_, rfl, rfl⟩
  intro a y inside
  refine (congrFun (congrFun erased a) y).trans ?_
  change (if a / g.ppb = u32 (blk * g.ppb) % 256 ^ row / g.ppb then (fun _ => 0xff)
    else d.pages a) y = (if a / g.ppb = blk then (fun _ => 0xff) else chip a) y
  rw [block]
  split
  · rfl
  · exact stores a y inside

theorem mark_rel (suited : Suited part emc g row errors) (size : g.Markable)
    (stores : Stores g d chip) {blk : Nat} (fits : Fits (g.params row) blk) :
    Option.Rel (Reactive.Agree (Stores g)) (drive part emc g row (.mark_badblock blk) d)
      (perform (paged g emc.parity errors) g (.mark_badblock blk) chip) := by
  have ports := Bus.mark_badblock_cmd (Device.bus part emc) (Device.ports_cmd part emc g.ppb)
    (g.params row)
  obtain ⟨d', marked, pages⟩ := d.mark_badblock_eq part emc suited.suits blk
  obtain ⟨page, column⟩ := d.markAddressed_right part suited.suits size blk
  rw [drive, perform]
  simp only [show (Device.ports part emc g.ppb).nand_mark_badblock (g.params row) = _ from ports,
    marked]
  refine .some ⟨?_, rfl, rfl⟩
  intro a y inside
  refine (pages a y).trans ?_
  rw [page, column, lastPage_mod g.some_pages fits, stores a y inside]
  change (if a = (blk + 1) * g.ppb - 1 ∧ 0 ≤ y ∧ y < g.stride then 0 else chip a y) =
    (if a = (blk + 1) * g.ppb - 1 then (fun _ => 0) else chip a) y
  rw [if_congr (and_iff_left ⟨Nat.zero_le y, inside⟩) rfl rfl]
  by_cases last : a = (blk + 1) * g.ppb - 1
  · rw [if_pos last, if_pos last]
  · rw [if_neg last, if_neg last]

theorem drive_rel (suited : Suited part emc g row errors) (c : ProgCall) (fits : c.Fits g row)
    (stores : Stores g d chip) :
    Option.Rel (Reactive.Agree (Stores g)) (drive part emc g row c d)
      (perform (paged g emc.parity errors) g c chip) := by
  cases c with
  | check_badblock oob_buf blk => exact check_rel suited stores oob_buf fits.addressed
  | program_page buf start pageaddr => exact program_rel suited stores buf start fits.addressed
  | read_page buf start pageaddr => exact read_rel suited stores buf start fits.addressed
  | erase_block blk => exact erase_rel suited stores fits.addressed
  | mark_badblock blk => exact mark_rel suited (fits.marks blk rfl) stores fits.addressed

theorem calls_rel (suited : Suited part emc g row errors) {calls : List ProgCall}
    (fits : ∀ c ∈ calls, c.Fits g row) (stores : Stores g d chip) :
    Option.Rel (Reactive.Agree (Stores g)) (Reactive.run (drive part emc g row) calls d)
      (Reactive.run (perform (paged g emc.parity errors) g) calls chip) :=
  Reactive.run_rel (fun c member _ _ stores => drive_rel suited c (fits c member) stores) stores

end Pages

end CFunc.NandProg
