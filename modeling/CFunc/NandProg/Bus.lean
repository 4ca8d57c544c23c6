import CFunc.NandProg.Flash

/-!
The driver of `nand_prog/nandflash_4740.c` at the ports of the chip and the
registers of the EMC.

A bus is whatever answers there. Waiting for the chip and for the EMC is left
out, and so is what a read of a write-only port would do. `nand_init_4740` sets
an eight bit bus, so that `write_proc` and `read_proc` are the byte loops.
-/

namespace CFunc.NandProg

open CFunc.Lib CFunc.Lib.Buffer

abbrev Word := BitVec 32

def CMD_READA : Byte := 0x00
def CMD_READC : Byte := 0x50
def CMD_ERASE_SETUP : Byte := 0x60
def CMD_ERASE : Byte := 0xD0
def CMD_READ_STATUS : Byte := 0x70
def CMD_CONFIRM : Byte := 0x30
def CMD_SEQIN : Byte := 0x80
def CMD_PGPROG : Byte := 0x10

/-- The ports and registers, each an operation of the state behind them. -/
structure Bus (σ : Type) where
  /-- `__nand_enable` -/
  enable : σ → σ
  /-- `__nand_disable` -/
  disable : σ → σ
  /-- `__nand_cmd` -/
  cmd : Byte → σ → σ
  /-- `__nand_addr` -/
  addr : Byte → σ → σ
  /-- a write to `__nand_data8` -/
  put : Byte → σ → σ
  /-- a read from `__nand_data8` -/
  get : σ → Byte × σ
  /-- `REG_EMC_NFINTS = 0x0` and `__nand_ecc_rs_encoding` -/
  rs_encoding : σ → σ
  /-- `REG_EMC_NFINTS = 0x0` and `__nand_ecc_rs_decoding` -/
  rs_decoding : σ → σ
  /-- `__nand_ecc_disable` -/
  ecc_disable : σ → σ
  /-- the byte at `EMC_NFPAR0 + j` -/
  par : σ → Nat → Byte
  /-- a write to the byte at `EMC_NFPAR0 + j` -/
  set_par : Nat → Byte → σ → σ
  /-- `REG_EMC_NFECR |= EMC_NFECR_PRDY` -/
  prdy : σ → σ
  /-- `REG_EMC_NFINTS` -/
  NFINTS : σ → Word
  /-- `REG_EMC_NFERR0` to `REG_EMC_NFERR3` -/
  NFERR : σ → Nat → Word

/-- The globals that describe the flash. -/
structure Params where
  row : Nat
  pagesize : Nat
  oobsize : Nat
  ppb : Nat
  deriving DecidableEq, Repr

/-- What `nand_init_4740` sets them to. It sends nothing to the chip. -/
def nand_init_4740 : Params := { row := 3, pagesize := 2048, oobsize := 64, ppb := 128 }

/-- `(blk + 1) * ppb - 1`, the last page of the block, as an `unsigned int`. -/
def Params.lastPage (g : Params) (blk : Nat) : Nat :=
  u32 (u32 (u32 (blk + 1) * g.ppb) + (2 ^ 32 - 1))

/-! ### Corrections -/

/-- Nine bits of `d`, from bit `j` on, xored with the mask. -/
def correctedWord (d : BitVec 16) (j mask : Nat) : BitVec 16 :=
  let d1 := (d >>> j) &&& 0x1ff
  let d1 := d1 ^^^ BitVec.ofNat 16 mask
  let dm := ~~~((0x1ff : BitVec 16) <<< j)
  (d &&& dm) ||| (d1 <<< j)

/-- A chunk starts at offset `dat` of `buf`. Index 0, which no decoder reports,
would reach before the chunk. -/
def rs_correct (buf : Nat → Byte) (dat idx mask : Nat) : Nat → Byte :=
  let i : Int := ((idx * 9) >>> 3 : Nat)
  let j := (idx * 9) &&& 0x7
  let i := if j = 0 then i - 1 else i
  let j := if j = 0 then 7 else j - 1
  if i > 512 then buf
  else
    let low := (dat + i - 1).toNat
    let high := (dat + i).toNat
    let d : BitVec 16 :=
      if i = 512 then (buf low).setWidth 16
      else ((buf high).setWidth 16 <<< 8) ||| (buf low).setWidth 16
    let d := correctedWord d j mask
    let buf := fun x => if x = low then (d &&& 0xff).setWidth 8 else buf x
    if i < 512 then fun x => if x = high then ((d >>> 8) &&& 0xff).setWidth 8 else buf x
    else buf

/-- The correction an error register asks for. -/
def correct (buf : Nat → Byte) (dat : Nat) (err : Word) : Nat → Byte :=
  rs_correct buf dat ((err &&& ((0x1ff : Word) <<< 16)) >>> 16).toNat (err &&& 0x1ff).toNat

/-- `switch (errcnt)`, whose cases fall through. -/
def correctErrors (errcnt : Nat) (err : Nat → Word) (buf : Nat → Byte) (dat : Nat) :
    Nat → Byte :=
  let buf := if errcnt = 4 then correct buf dat (err 3) else buf
  let buf := if errcnt = 4 ∨ errcnt = 3 then correct buf dat (err 2) else buf
  let buf := if errcnt = 4 ∨ errcnt = 3 ∨ errcnt = 2 then correct buf dat (err 1) else buf
  if errcnt = 4 ∨ errcnt = 3 ∨ errcnt = 2 ∨ errcnt = 1 then correct buf dat (err 0) else buf

/-- The check of the decoding of one chunk. -/
def checkDecoding (stat : Word) (err : Nat → Word) (buf : Nat → Byte) (dat : Nat) : Nat → Byte :=
  if stat &&& 1 ≠ 0 then
    if stat &&& 2 ≠ 0 then buf
    else correctErrors ((stat &&& ((0x7 : Word) <<< 29)) >>> 29).toNat err buf dat
  else buf

namespace Bus

variable {σ : Type} (bus : Bus σ) (g : Params)

/-! ### Cycles -/

/-- `for (i = 0; i < row; i++) { __nand_addr(rowaddr & 0xff); rowaddr >>= 8; }` -/
def rowCycles : Nat → Nat → σ → σ
  | 0, _, s => s
  | row + 1, rowaddr, s => rowCycles row (rowaddr >>> 8) (bus.addr (BitVec.ofNat 8 rowaddr) s)

/-- The bytes of `buf` from offset `start` on. -/
def nand_data_write8 (buf : Nat → Byte) (start count : Nat) (s : σ) : σ :=
  Loop.count (fun i s => bus.put (buf (start + i)) s) count s

def nand_data_read8 (start count : Nat) (t : (Nat → Byte) × σ) : (Nat → Byte) × σ :=
  Loop.count (fun i (buf, s) =>
    let (b, s) := bus.get s
    (fun x => if x = start + i then b else buf x, s)) count t

/-- The wait, the status read and the disabling that end a program or an erase. -/
def finish (s : σ) : Nat × σ :=
  let s := bus.cmd CMD_READ_STATUS s
  let (status, s) := bus.get s
  if status &&& 0x01 ≠ 0 then (1, bus.disable s) else (0, bus.disable s)

/-! ### The driver's functions -/

def read_oob (buf : Nat → Byte) (size pg : Nat) (s : σ) : (Nat → Byte) × σ :=
  let s := bus.enable s
  let coladdr := if g.pagesize = 512 then 0 else g.pagesize
  let s := if g.pagesize = 512 then bus.cmd CMD_READC s else bus.cmd CMD_READA s
  let s := bus.addr (BitVec.ofNat 8 coladdr) s
  let s := if g.pagesize ≠ 512 then bus.addr (BitVec.ofNat 8 (coladdr >>> 8)) s else s
  let s := bus.rowCycles g.row pg s
  let s := if g.pagesize ≠ 512 then bus.cmd CMD_CONFIRM s else s
  let (buf, s) := bus.nand_data_read8 0 size (buf, s)
  (buf, bus.disable s)

/-- `oob_buf` is what the local buffer holds before it is read. -/
def nand_check_badblock (oob_buf : Nat → Byte) (blk : Nat) (s : σ) : Nat × σ :=
  let (oob_buf, s) := bus.read_oob g oob_buf g.oobsize (g.lastPage blk) s
  if oob_buf 0 ≠ 0xff ∨ oob_buf 1 ≠ 0xff then (1, s) else (0, s)

def nand_mark_badblock (blk : Nat) (s : σ) : Nat × σ :=
  let s := bus.enable s
  let badbuf : Nat → Byte := fun _ => 0
  let s := if g.pagesize ≠ 2048 then bus.cmd CMD_READA s else s
  let s := bus.cmd CMD_SEQIN s
  let s := bus.addr 0 s
  let s := if g.pagesize = 2048 then bus.addr 0 s else s
  let s := bus.rowCycles g.row (g.lastPage blk) s
  let s := bus.nand_data_write8 badbuf 0 (g.pagesize + g.oobsize) s
  bus.finish (bus.cmd CMD_PGPROG s)

def nand_erase_block (blk : Nat) (s : σ) : Nat × σ :=
  let s := bus.enable s
  let s := bus.cmd CMD_ERASE_SETUP s
  let s := bus.rowCycles g.row (u32 (blk * g.ppb)) s
  bus.finish (bus.cmd CMD_ERASE s)

/-- One round of the write loop: a chunk goes out, and its parities come in. -/
def programChunk (databuf : Nat → Byte) (i : Nat) (t : (Nat → Byte) × σ) : (Nat → Byte) × σ :=
  let (ecc_buf, s) := t
  let s := bus.rs_encoding s
  let s := bus.nand_data_write8 databuf (i * ECC_BLOCK) ECC_BLOCK s
  let s := bus.ecc_disable s
  (blit ecc_buf (i * PAR_SIZE) (bus.par s) PAR_SIZE, s)

/-- The result, and the OOB buffer as it is rewritten in place. -/
def nand_program_page (databuf oobbuf : Nat → Byte) (pageaddr ecc_pos : Nat) (s : σ) :
    Nat × (Nat → Byte) × σ :=
  let s := bus.enable s
  let ecccnt := g.pagesize / ECC_BLOCK
  let s := if g.pagesize = 512 then bus.cmd CMD_READA s else s
  let s := bus.cmd CMD_SEQIN s
  let s := bus.addr 0 s
  let s := if g.pagesize ≠ 512 then bus.addr 0 s else s
  let s := bus.rowCycles g.row pageaddr s
  let (ecc_buf, s) := Loop.count (bus.programChunk databuf) ecccnt (fun _ => 0, s)
  let oobbuf := blit oobbuf 0 (fun _ => 0xff) ecc_pos
  let oobbuf := blit oobbuf ecc_pos ecc_buf (ecccnt * PAR_SIZE)
  let s := bus.nand_data_write8 oobbuf 0 g.oobsize s
  let (ret, s) := bus.finish (bus.cmd CMD_PGPROG s)
  (ret, oobbuf, s)

/-- One round of the read loop: a chunk comes in, its parities go to the
decoder, and what the decoder reports is corrected. -/
def readChunk (oobbuf : Nat → Byte) (ecc_pos i : Nat) (t : (Nat → Byte) × σ) :
    (Nat → Byte) × σ :=
  let (databuf, s) := t
  let s := bus.rs_decoding s
  let (databuf, s) := bus.nand_data_read8 (i * ECC_BLOCK) ECC_BLOCK (databuf, s)
  let s := Loop.count (fun j s => bus.set_par j (oobbuf (ecc_pos + i * PAR_SIZE + j)) s) PAR_SIZE s
  let s := bus.prdy s
  let s := bus.ecc_disable s
  (checkDecoding (bus.NFINTS s) (bus.NFERR s) databuf (i * ECC_BLOCK), s)

/-- What is left in `databuf` and in `oobbuf`. -/
def nand_read_page (databuf oobbuf : Nat → Byte) (pageaddr ecc_pos : Nat) (s : σ) :
    (Nat → Byte) × (Nat → Byte) × σ :=
  let s := bus.enable s
  let ecccnt := g.pagesize / ECC_BLOCK
  let (oobbuf, s) := bus.read_oob g oobbuf g.oobsize pageaddr s
  let s := bus.cmd CMD_READA s
  let s := bus.addr 0 s
  let s := if g.pagesize ≠ 512 then bus.addr 0 s else s
  let s := bus.rowCycles g.row pageaddr s
  let s := if g.pagesize ≠ 512 then bus.cmd CMD_CONFIRM s else s
  let (databuf, s) := Loop.count (bus.readChunk oobbuf ecc_pos) ecccnt (databuf, s)
  (databuf, oobbuf, bus.disable s)

end Bus

end CFunc.NandProg
