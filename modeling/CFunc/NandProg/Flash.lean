import CFunc.Lib.Buffer
import CFunc.Lib.Byte
import CFunc.Lib.Loop
import Mathlib.Tactic.Ring

/-!
Pages of a NAND flash, as `nand_prog/nandflash_4740.c` programs and reads them.

What the chip and the EMC answer is a parameter, a state with one operation for
each thing the driver asks of them. Command and address cycles are left out.
-/

namespace CFunc.NandProg

open CFunc.Lib CFunc.Lib.Buffer

/-- Arithmetic at type `unsigned int`. -/
def u32 (n : Nat) : Nat := n % 2 ^ 32

theorem u32_of_lt {n : Nat} (small : n < 2 ^ 32) : u32 n = n := Nat.mod_eq_of_lt small

def ECC_BLOCK : Nat := 512

def PAR_SIZE : Nat := 9

/-- `sizeof(nand_buf)` -/
def NAND_BUF_SIZE : Nat := (2048 + 64) * 128

/-- The flash parameters and the place of the ECC bytes in the OOB. A chunk
fits in `nand_buf`, and the parities of a page in `ecc_buf` and in the OOB. -/
structure Geometry where
  /-- `pagesize / ECC_BLOCK` -/
  ecccnt : Nat
  oobsize : Nat
  ppb : Nat
  ecc_pos : Nat
  some_data : 0 < ecccnt
  some_pages : 0 < ppb
  ecc_fits : ecc_pos + PAR_SIZE * ecccnt ≤ oobsize
  ecc_buf_holds : PAR_SIZE * ecccnt ≤ 128
  nand_buf_holds : ppb * (ECC_BLOCK * ecccnt + oobsize) ≤ NAND_BUF_SIZE

namespace Geometry

variable (g : Geometry)

def pagesize : Nat := ECC_BLOCK * g.ecccnt

/-- `pagesize + oobsize`, the bytes of a page in a file and in `nand_buf`. -/
def stride : Nat := g.pagesize + g.oobsize

theorem stride_pos : 0 < g.stride := by
  have := g.some_data
  simp only [stride, pagesize, ECC_BLOCK]
  omega

/-- The offsets of a page that `nand_program_page` fills in: its OOB up to the
end of the ECC bytes. -/
def Filled (y : Nat) : Prop :=
  g.pagesize ≤ y ∧ y < g.pagesize + g.ecc_pos + PAR_SIZE * g.ecccnt

instance (y : Nat) : Decidable (g.Filled y) :=
  inferInstanceAs (Decidable (_ ∧ _))

theorem Filled.lt_stride {g : Geometry} {y : Nat} (filled : g.Filled y) : y < g.stride := by
  have := g.ecc_fits
  have := filled.2
  simp only [stride]
  omega

end Geometry

/-- What the driver asks of the chip and the EMC. `encode` is the nine parity
registers after an ECC block was written; `read_page` is what `nand_read_page`
leaves in its two buffers, the decoder's corrections made. -/
structure Flash (σ : Type) where
  read_oob : σ → Nat → (Nat → Byte) × σ
  encode : σ → List Byte → (Nat → Byte) × σ
  program : σ → Nat → List Byte → σ
  read_page : σ → Nat → (Nat → Byte) × σ
  erase_block : σ → Nat → σ
  mark_badblock : σ → Nat → σ

/-- Pages by their address, each a function of the column. -/
abbrev Chip := Nat → Nat → Byte

/-- No read errors, and the parity of an ECC block is a function of the block. -/
def faithful (g : Geometry) (parity : List Byte → Nat → Byte) : Flash Chip where
  read_oob chip pg := (fun z => chip pg (g.pagesize + z), chip)
  encode chip block := (parity block, chip)
  program chip pageaddr page := fun a =>
    if a = pageaddr then fun y => chip a y &&& page.getD y 0xff else chip a
  read_page chip pageaddr := (chip pageaddr, chip)
  erase_block chip blk := fun a => if a / g.ppb = blk then fun _ => 0xff else chip a
  mark_badblock chip blk := fun a =>
    if a = (blk + 1) * g.ppb - 1 then fun _ => 0 else chip a

variable {σ : Type} (flash : Flash σ) (g : Geometry)

/-- The marks stand in the OOB of the last page of the block. -/
def nand_check_badblock (s : σ) (blk : Nat) : Bool × σ :=
  let pg := u32 (u32 (u32 (blk + 1) * g.ppb) + (2 ^ 32 - 1))
  let (oob_buf, s) := flash.read_oob s pg
  (oob_buf 0 ≠ 0xff || oob_buf 1 ≠ 0xff, s)

/-- The parities of the ECC blocks of the page at offset `start`, one after the other. -/
def encodeBlocks (buf : Nat → Byte) (start : Nat) (s : σ) : (Nat → Byte) × σ :=
  Loop.count (fun i (ecc_buf, s) =>
    let (par, s) := flash.encode s (slice buf (start + i * ECC_BLOCK) ECC_BLOCK)
    (blit ecc_buf (i * PAR_SIZE) par PAR_SIZE, s)) g.ecccnt (fun _ => 0, s)

/-- `databuf` is at offset `start`, `oobbuf` at `start + pagesize`. The OOB is
rewritten in place before it goes out: 0xff up to the ECC bytes, then the parities. -/
def nand_program_page (buf : Nat → Byte) (start pageaddr : Nat) (s : σ) : (Nat → Byte) × σ :=
  let oobbuf := start + g.pagesize
  let (ecc_buf, s) := encodeBlocks flash g buf start s
  let buf := blit buf oobbuf (fun _ => 0xff) g.ecc_pos
  let buf := blit buf (oobbuf + g.ecc_pos) ecc_buf (g.ecccnt * PAR_SIZE)
  (buf, flash.program s pageaddr (slice buf start g.stride))

variable {flash g}

/-- Programming a page changes its own filled offsets and nothing else. -/
theorem nand_program_page_outside {buf : Nat → Byte} {start pageaddr : Nat} {s : σ} {x : Nat}
    (outside : ¬ (start ≤ x ∧ g.Filled (x - start))) :
    (nand_program_page flash g buf start pageaddr s).1 x = buf x := by
  have mul := Nat.mul_comm g.ecccnt PAR_SIZE
  simp only [nand_program_page]
  rw [blit_outside, blit_outside]
  · rintro ⟨below, above⟩
    refine outside ⟨by omega, by omega, by omega⟩
  · rintro ⟨below, above⟩
    refine outside ⟨by omega, by omega, by omega⟩

end CFunc.NandProg
