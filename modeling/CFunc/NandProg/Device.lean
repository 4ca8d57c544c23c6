import CFunc.NandProg.Bus

/-!
A NAND flash and an EMC behind the ports.

The flash decodes its column cycles and then its row cycles, low byte first.
The EMC sees the data that passes while its ECC is on. The chip enable is left
out: the flash always listens.
-/

namespace CFunc.NandProg

open CFunc.Lib CFunc.Lib.Buffer

/-! ### Address cycles -/

/-- `n` bytes from index `start` on, low byte first. -/
def littleEndian (byte : Nat → Byte) : Nat → Nat → Nat
  | _, 0 => 0
  | start, n + 1 => (byte start).toNat + 256 * littleEndian byte (start + 1) n

/-- What `rowCycles` sends. -/
def rowBytes : Nat → Nat → List Byte
  | 0, _ => []
  | row + 1, rowaddr => BitVec.ofNat 8 rowaddr :: rowBytes row (rowaddr >>> 8)

theorem length_rowBytes (row rowaddr : Nat) : (rowBytes row rowaddr).length = row := by
  induction row generalizing rowaddr with
  | zero => rfl
  | succ row ih => rw [rowBytes, List.length_cons, ih]

theorem littleEndian_congr {byte byte' : Nat → Byte} {start start' n : Nat}
    (same : ∀ i < n, byte (start + i) = byte' (start' + i)) :
    littleEndian byte start n = littleEndian byte' start' n := by
  induction n generalizing start start' with
  | zero => rfl
  | succ n ih =>
      have rest : littleEndian byte (start + 1) n = littleEndian byte' (start' + 1) n := by
        refine ih fun i lt => ?_
        rw [Nat.add_right_comm, Nat.add_right_comm start']
        exact same (i + 1) (Nat.succ_lt_succ lt)
      rw [littleEndian, littleEndian, rest, show byte start = byte' start' from same 0 n.succ_pos]

/-- The rows a flash decodes are those sent, as far as the cycles carry them. -/
theorem littleEndian_rowBytes (row rowaddr : Nat) (unsent : Nat → Byte) :
    littleEndian (fun i => (rowBytes row rowaddr).getD i (unsent i)) 0 row =
      rowaddr % 256 ^ row := by
  induction row generalizing rowaddr unsent with
  | zero => exact (Nat.mod_one _).symm
  | succ row ih =>
      have rest := ih (rowaddr >>> 8) fun i => unsent (i + 1)
      have shifted : littleEndian (fun i => (rowBytes (row + 1) rowaddr).getD i (unsent i)) 1 row =
          littleEndian (fun i => (rowBytes row (rowaddr >>> 8)).getD i (unsent (i + 1))) 0 row := by
        refine littleEndian_congr fun i _ => ?_
        rw [Nat.add_comm 1 i, Nat.zero_add, rowBytes, List.getD_cons_succ]
      have byte : 2 ^ 8 = 256 := rfl
      rw [littleEndian, Nat.zero_add, shifted, rest, rowBytes, List.getD_cons_zero,
        BitVec.toNat_ofNat, Nat.shiftRight_eq_div_pow, byte, Nat.pow_succ', Nat.mod_mul]

/-! ### The flash and the EMC -/

/-- How a flash is built. `store` is what becomes of a cell's byte when another
is programmed over it, `unsent` what is taken for an address cycle not sent. -/
structure FlashPart where
  columns : Nat
  rows : Nat
  /-- bytes of a page, the OOB included -/
  width : Nat
  store : Byte → Byte → Byte
  store_zero : ∀ b, store b 0 = 0
  unsent : Nat → Byte
  status : Byte

/-- One column cycle for pages of 512 bytes, two for larger ones. -/
structure FlashPart.Suits (part : FlashPart) (g : Params) : Prop where
  columns : part.columns = if g.pagesize = 512 then 1 else 2
  rows : part.rows = g.row
  width : part.width = g.pagesize + g.oobsize

/-- `decoder` gives `EMC_NFINTS` and the error registers for a block and its parities. -/
structure Emc where
  parity : List Byte → Nat → Byte
  decoder : List Byte → List Byte → Word × (Nat → Word)

inductive EccMode where
  | off
  | encoding
  | decoding
  deriving DecidableEq, Repr

structure Device where
  pages : Nat → Nat → Byte
  /-- where the area begins that a command of a small page points to -/
  area : Nat
  command : Byte
  cycles : List Byte
  written : List Byte
  /-- bytes read since the command -/
  moved : Nat
  ecc : EccMode
  /-- the data since the ECC was switched on -/
  block : List Byte
  par : Nat → Byte
  /-- the blocks the decoder was given, each with its parities -/
  presented : List (List Byte × List Byte)
  ints : Word
  errs : Nat → Word

/-- An erased flash. -/
def blankDevice : Device where
  pages _ _ := 0xff
  area := 0
  command := CMD_READA
  cycles := []
  written := []
  moved := 0
  ecc := .off
  block := []
  par _ := 0
  presented := []
  ints := 0
  errs _ := 0

namespace Device

variable (part : FlashPart) (emc : Emc) (d : Device)

def column : Nat :=
  (if part.columns = 1 then d.area else 0) +
    littleEndian (fun i => d.cycles.getD i (part.unsent i)) 0 part.columns

def page : Nat :=
  littleEndian (fun i => d.cycles.getD i (part.unsent i)) part.columns part.rows

/-- The cells of the addressed page take the data written. -/
def program : Nat → Nat → Byte := fun a y =>
  if a = d.page part ∧ d.column part ≤ y ∧ y < d.column part + d.written.length ∧ y < part.width
  then part.store (d.pages a y) (d.written.getD (y - d.column part) 0)
  else d.pages a y

/-- A command begins a new address phase, unless it ends one. -/
def cmd (n : Byte) : Device :=
  if n = CMD_CONFIRM then { d with command := n }
  else if n = CMD_PGPROG then { d with command := n, pages := d.program part }
  else
    { d with
      command := n
      cycles := []
      written := []
      moved := 0
      area := if n = CMD_READA then 0 else if n = CMD_READC then 512 else d.area }

/-- While it is on the ECC takes in what passes on the data port. -/
def passed (data : List Byte) : List Byte :=
  match d.ecc with
  | .off => d.block
  | .encoding => d.block ++ data
  | .decoding => d.block ++ data

/-- The cell the `i`-th read since the command gives. -/
def cell (i : Nat) : Byte := d.pages (d.page part) (d.column part + i)

def put (b : Byte) : Device := { d with written := d.written ++ [b], block := d.passed [b] }

def get : Byte × Device :=
  if d.command = CMD_READ_STATUS then (part.status, d)
  else
    let b := d.cell part d.moved
    (b, { d with moved := d.moved + 1, block := d.passed [b] })

def ecc_disable : Device :=
  match d.ecc with
  | .encoding => { d with ecc := .off, par := emc.parity d.block }
  | _ => { d with ecc := .off }

/-- With its parities ready the decoder takes the block. -/
def prdy : Device :=
  let pars := slice d.par 0 PAR_SIZE
  { d with
    presented := d.presented ++ [(d.block, pars)]
    ints := (emc.decoder d.block pars).1
    errs := (emc.decoder d.block pars).2 }

def bus : Bus Device where
  enable := id
  disable := id
  cmd n d := d.cmd part n
  addr n d := { d with cycles := d.cycles ++ [n] }
  put b d := d.put b
  get d := d.get part
  rs_encoding d := { d with ecc := .encoding, block := [], ints := 0 }
  rs_decoding d := { d with ecc := .decoding, block := [], ints := 0 }
  ecc_disable d := d.ecc_disable emc
  par d := d.par
  set_par j b d := { d with par := fun x => if x = j then b else d.par x }
  prdy d := d.prdy emc
  NFINTS d := d.ints
  NFERR d := d.errs

/-! ### What loops of the driver do to the device -/

@[simp] theorem passed_nil : d.passed [] = d.block := by
  cases ecc : d.ecc <;> simp [passed, ecc]

theorem passed_passed (data more : List Byte) (written : List Byte) (moved : Nat) :
    { d with written := written, moved := moved, block := d.passed data }.passed more =
      d.passed (data ++ more) := by
  cases ecc : d.ecc <;> simp [passed, ecc]

theorem rowCycles_eq (row rowaddr : Nat) :
    (bus part emc).rowCycles row rowaddr d =
      { d with cycles := d.cycles ++ rowBytes row rowaddr } := by
  induction row generalizing rowaddr d with
  | zero => rw [Bus.rowCycles, rowBytes, List.append_nil]
  | succ row ih =>
      rw [Bus.rowCycles, ih, rowBytes]
      simp [bus]

theorem write8_eq (buf : Nat → Byte) (start count : Nat) :
    (bus part emc).nand_data_write8 buf start count d =
      { d with
        written := d.written ++ slice buf start count
        block := d.passed (slice buf start count) } := by
  induction count with
  | zero => simp [Bus.nand_data_write8, Loop.count, slice]
  | succ n ih =>
      rw [Bus.nand_data_write8] at ih ⊢
      rw [Loop.count, ih, slice_succ, ← List.append_assoc, ← d.passed_passed _ _
        (d.written ++ slice buf start n) d.moved]
      rfl

theorem read8_eq (reading : d.command ≠ CMD_READ_STATUS) (buf : Nat → Byte) (start count : Nat) :
    (bus part emc).nand_data_read8 start count (buf, d) =
      (blit buf start (fun i => d.cell part (d.moved + i)) count,
        { d with
          moved := d.moved + count
          block := d.passed (slice (d.cell part) d.moved count) }) := by
  induction count with
  | zero => simp [Bus.nand_data_read8, Loop.count, slice, blit_zero]
  | succ n ih =>
      rw [Bus.nand_data_read8] at ih ⊢
      rw [Loop.count, ih, slice_succ, ← d.passed_passed _ _ d.written (d.moved + n), blit_succ]
      have next : (bus part emc).get { d with
          moved := d.moved + n
          block := d.passed (slice (d.cell part) d.moved n) } = (d.cell part (d.moved + n), _) :=
        if_neg reading
      simp only [next]
      rfl

/-! ### Addresses -/

variable {part emc d}

/-- The rows follow the column cycles. -/
theorem page_of_cycles (cols : List Byte) {rowaddr : Nat} (count : cols.length = part.columns)
    (sent : d.cycles = cols ++ rowBytes part.rows rowaddr) :
    d.page part = rowaddr % 256 ^ part.rows := by
  rw [page, ← littleEndian_rowBytes part.rows rowaddr fun i => part.unsent (part.columns + i)]
  refine littleEndian_congr fun i _ => ?_
  rw [sent, ← count, Nat.zero_add, List.getD_eq_getElem?_getD, List.getD_eq_getElem?_getD,
    List.getElem?_append_right (Nat.le_add_right _ _), Nat.add_sub_cancel_left]

theorem column_of_one_cycle {c : Byte} {rows : List Byte} (count : part.columns = 1)
    (sent : d.cycles = c :: rows) : d.column part = d.area + c.toNat := by
  rw [column, if_pos count, count, sent]
  rfl

theorem column_of_two_cycles {c c' : Byte} {rows : List Byte} (count : part.columns = 2)
    (sent : d.cycles = c :: c' :: rows) : d.column part = c.toNat + 256 * c'.toNat := by
  rw [column, if_neg (by rw [count]; decide), count, sent, Nat.zero_add]
  rfl

/-- The column cycles of a page size that two of them address. -/
theorem two_cycles {n : Nat} (small : n < 65536) :
    (BitVec.ofNat 8 n).toNat + 256 * (BitVec.ofNat 8 (n >>> 8)).toNat = n := by
  rw [BitVec.toNat_ofNat, BitVec.toNat_ofNat, Nat.shiftRight_eq_div_pow]
  omega

/-- A device that reads from column `column` of page `page` on. -/
structure Reads (part : FlashPart) (before d : Device) (page column : Nat) : Prop where
  reading : d.command ≠ CMD_READ_STATUS
  at_page : d.page part = page
  at_column : d.column part = column
  at_start : d.moved = 0
  pages : d.pages = before.pages
  presented : d.presented = before.presented

variable {g : Params}

/-- The device after a command that begins an address phase. -/
def opened (d : Device) (n : Byte) (area : Nat) : Device :=
  { d with command := n, cycles := [], written := [], moved := 0, area := area }

variable (part emc d)

theorem cmd_READA : (bus part emc).cmd CMD_READA d = d.opened CMD_READA 0 := rfl

theorem cmd_READC : (bus part emc).cmd CMD_READC d = d.opened CMD_READC 512 := rfl

/-- The status read that ends a program. -/
theorem finish_eq :
    (bus part emc).finish d =
      (if part.status &&& 0x01 ≠ 0 then 1 else 0, d.opened CMD_READ_STATUS d.area) := by
  have got : (bus part emc).get ((bus part emc).cmd CMD_READ_STATUS d) =
      (part.status, d.opened CMD_READ_STATUS d.area) := rfl
  simp only [Bus.finish, got]
  by_cases failed : part.status &&& 0x01 ≠ 0
  · rw [if_pos failed, if_pos failed]
    rfl
  · rw [if_neg failed, if_neg failed]
    rfl

/-- A read command of a large page, its addresses and its confirmation. -/
theorem reads_large (suits : part.Suits g) (large : g.pagesize ≠ 512) {col : Nat}
    (small : col < 65536) (pg : Nat) :
    Reads part d
      ((bus part emc).cmd CMD_CONFIRM ((bus part emc).rowCycles g.row pg
        ((bus part emc).addr (BitVec.ofNat 8 (col >>> 8))
          ((bus part emc).addr (BitVec.ofNat 8 col) ((bus part emc).cmd CMD_READA d)))))
      (pg % 256 ^ g.row) col := by
  have two : part.columns = 2 := suits.columns.trans (if_neg large)
  rw [rowCycles_eq]
  constructor
  · exact (by decide : CMD_CONFIRM ≠ CMD_READ_STATUS)
  · rw [← suits.rows]
    refine page_of_cycles [BitVec.ofNat 8 col, BitVec.ofNat 8 (col >>> 8)] two.symm ?_
    rw [suits.rows]
    rfl
  · exact (column_of_two_cycles two rfl).trans (two_cycles small)
  · rfl
  · rfl
  · rfl

/-- A read command of a page of 512 bytes, for the area at column `area`. -/
theorem reads_small (suits : part.Suits g) (size : g.pagesize = 512) {n : Byte} {area : Nat}
    (opens : (bus part emc).cmd n d = d.opened n area) (reading : n ≠ CMD_READ_STATUS)
    (pg : Nat) :
    Reads part d
      ((bus part emc).rowCycles g.row pg ((bus part emc).addr 0 ((bus part emc).cmd n d)))
      (pg % 256 ^ g.row) area := by
  have one : part.columns = 1 := suits.columns.trans (if_pos size)
  rw [opens, rowCycles_eq]
  constructor
  · exact reading
  · rw [← suits.rows]
    refine page_of_cycles [0] one.symm ?_
    rw [suits.rows]
    rfl
  · exact column_of_one_cycle one (show _ = (0 : Byte) :: rowBytes g.row pg from rfl)
  · rfl
  · rfl
  · rfl

/-- `read_oob` gets the OOB of the page the row cycles address. -/
theorem read_oob_eq (suits : part.Suits g) (small : g.pagesize < 65536) (buf : Nat → Byte)
    (size pg : Nat) :
    ∃ d', (bus part emc).read_oob g buf size pg d =
        (blit buf 0 (fun i => d.pages (pg % 256 ^ g.row) (g.pagesize + i)) size, d') ∧
      d'.pages = d.pages ∧ d'.presented = d.presented := by
  have got {r : Device} (reads : Reads part d r (pg % 256 ^ g.row) g.pagesize) :
      ((bus part emc).nand_data_read8 0 size (buf, r)).1 =
          blit buf 0 (fun i => d.pages (pg % 256 ^ g.row) (g.pagesize + i)) size ∧
        ((bus part emc).nand_data_read8 0 size (buf, r)).2.pages = d.pages ∧
        ((bus part emc).nand_data_read8 0 size (buf, r)).2.presented = d.presented := by
    rw [read8_eq _ _ _ reads.reading]
    refine ⟨?_, reads.pages, reads.presented⟩
    simp only [cell, reads.at_page, reads.at_column, reads.at_start, reads.pages, Nat.zero_add]
  by_cases size512 : g.pagesize = 512
  · have reads := reads_small part emc d suits size512 (cmd_READC part emc d) (by decide) pg
    obtain ⟨read, kept⟩ := got (size512 ▸ reads)
    refine ⟨_, ?_, kept⟩
    rw [← read]
    simp only [Bus.read_oob, size512, if_true, ne_eq, not_true, if_false]
    rfl
  · have reads := reads_large part emc d suits size512 small pg
    obtain ⟨read, kept⟩ := got reads
    refine ⟨_, ?_, kept⟩
    rw [← read]
    simp only [Bus.read_oob, size512, if_false, ne_eq, not_false_eq_true, if_true]
    rfl

end Device

end CFunc.NandProg
