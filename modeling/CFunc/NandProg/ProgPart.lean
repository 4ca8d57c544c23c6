import CFunc.NandProg.Flash

/-!
`do_prog_part` of `nand_prog/main.c`: a file onto the good blocks of a range.

The file is cut into chunks of one block each. A chunk stays in `nand_buf`
until some block takes it, so the loop moves on the file only when
`curblk_done` is set. The two static buffers keep what earlier calls left.
-/

namespace CFunc.NandProg

open CFunc.Lib CFunc.Lib.Buffer

/-- An image whose length fits in `flen`, an `unsigned int`. -/
structure File where
  bytes : List Byte
  small : bytes.length < 2 ^ 32

/-- `fseek` to `offset` and `fread` of `n` bytes into a buffer. -/
def File.fread (file : File) (offset n : Nat) (buf : Nat → Byte) : Nat → Byte := fun x =>
  if x < n then (file.bytes[offset + x]?).getD (buf x) else buf x

/-- The driver calls, in the order in which they are made. -/
inductive Call where
  | check_badblock (blk : Nat) (bad : Bool)
  | program_page (pageaddr : Nat) (page : List Byte)
  | read_page (pageaddr : Nat) (page : List Byte)
  | erase_block (blk : Nat)
  | mark_badblock (blk : Nat)
  deriving DecidableEq

inductive Message where
  | can_not_open
  | filelength_is_not_fit
  | bad_block_skipped (blk : Nat)
  | check_error_mark_it_bad (blk : Nat)
  | check_file (totol_blocks error_blocks : Nat)
  | finished
  | not_finished (copied required : Nat)
  deriving DecidableEq

/-- The variables of the loop, `broke` after its `break`. -/
structure Prog (σ : Type) where
  flash : σ
  calls : List Call
  printed : List Message
  nand_buf : Nat → Byte
  check_buf : Nat → Byte
  offset : Nat
  curblk : Nat
  copyblks : Nat
  badblks : Nat
  curblk_done : Bool
  checkerr : Nat
  actual_pages : Nat
  broke : Bool

/-- Whether `nand_check` finds a difference. -/
def nand_check (buf1 buf2 : Nat → Byte) (len : Nat) : Bool :=
  (List.range len).any fun i => buf1 i != buf2 i

theorem nand_check_eq_false {buf1 buf2 : Nat → Byte} {len : Nat} :
    nand_check buf1 buf2 len = false ↔ ∀ x < len, buf1 x = buf2 x := by
  simp [nand_check]

variable {σ : Type} (flash : Flash σ) (g : Geometry) (check_only : Bool) (file : File)

/-- Total blocks needed. -/
def fblk : Nat := file.bytes.length / (g.ppb * g.stride)

/-- Left pages. -/
def fpage : Nat := (file.bytes.length - fblk g file * (g.ppb * g.stride)) / g.stride

/-- Read block data from the file. -/
def load (s : Prog σ) : Prog σ :=
  if s.curblk_done then
    if s.copyblks = fblk g file ∧ 0 < fpage g file then
      { s with
        nand_buf := file.fread s.offset (fpage g file * g.stride)
          (blit s.nand_buf 0 (fun _ => 0xff) (g.ppb * g.stride))
        actual_pages := fpage g file
        curblk_done := false }
    else
      { s with
        nand_buf := file.fread s.offset (g.ppb * g.stride) s.nand_buf
        curblk_done := false }
  else s

def checkBad (s : Prog σ) : Bool × Prog σ :=
  let (bad, fl) := nand_check_badblock flash g s.flash s.curblk
  (bad, { s with flash := fl, calls := s.calls ++ [.check_badblock s.curblk bad] })

def skipBad (s : Prog σ) : Prog σ :=
  { s with
    printed := s.printed ++ [.bad_block_skipped s.curblk]
    curblk := u32 (s.curblk + 1)
    badblks := u32 (s.badblks + 1) }

def programPage (p : Nat) (s : Prog σ) : Prog σ :=
  let pageaddr := u32 (s.curblk * g.ppb + p)
  let (nand_buf, fl) := nand_program_page flash g s.nand_buf (p * g.stride) pageaddr s.flash
  { s with
    nand_buf := nand_buf
    flash := fl
    calls := s.calls ++ [.program_page pageaddr (slice nand_buf (p * g.stride) g.stride)] }

/-- Program a good block. -/
def programBlock (s : Prog σ) : Prog σ :=
  Loop.count (programPage flash g) s.actual_pages s

/-- With `check_only`, 0xff is put back over 36 bytes at the place of the ECC. -/
def readPage (p : Nat) (s : Prog σ) : Prog σ :=
  let pageaddr := u32 (s.curblk * g.ppb + p)
  let (page, fl) := flash.read_page s.flash pageaddr
  let check_buf := blit s.check_buf (p * g.stride) page g.stride
  { s with
    check_buf :=
      if check_only then
        blit check_buf (p * g.stride + g.pagesize + g.ecc_pos) (fun _ => 0xff) 36
      else check_buf
    flash := fl
    calls := s.calls ++ [.read_page pageaddr (slice page 0 g.stride)] }

/-- Read block data from the flash for check. -/
def readBlock (s : Prog σ) : Prog σ :=
  Loop.count (readPage flash g check_only) s.actual_pages s

/-- The block is erased and marked bad; its chunk stays in `nand_buf`. -/
def reject (s : Prog σ) : Prog σ :=
  { s with
    printed := s.printed ++ [.check_error_mark_it_bad s.curblk]
    flash := flash.mark_badblock (flash.erase_block s.flash s.curblk) s.curblk
    calls := s.calls ++ [.erase_block s.curblk, .mark_badblock s.curblk]
    curblk := u32 (s.curblk + 1)
    badblks := u32 (s.badblks + 1) }

/-- The whole file is on the flash when `copyblks` blocks are. -/
def allCopied (copyblks : Nat) : Bool :=
  (copyblks = fblk g file && fpage g file = 0) || (fblk g file < copyblks && 0 < fpage g file)

/-- The chunk is done: on to the next one, unless it was the last. -/
def accept (s : Prog σ) : Prog σ :=
  let copyblks := u32 (s.copyblks + 1)
  let s :=
    { s with
      curblk_done := true
      offset := u32 (s.offset + g.ppb * g.stride)
      curblk := u32 (s.curblk + 1)
      copyblks := copyblks }
  if allCopied g file copyblks then
    { s with
      printed := s.printed ++
        [if check_only then .check_file copyblks s.checkerr else .finished]
      broke := true }
  else s

/-- What follows the check for a bad block, on a good one. -/
def goodBlock (s : Prog σ) : Prog σ :=
  let s := if check_only then s else programBlock flash g s
  let s := readBlock flash g check_only s
  if nand_check s.nand_buf s.check_buf (s.actual_pages * g.stride) then
    let s := { s with checkerr := s.checkerr + 1 }
    if check_only then accept g check_only file s else reject flash s
  else accept g check_only file s

/-- One round of the loop over the blocks. -/
def round (s : Prog σ) : Prog σ :=
  let (bad, s) := checkBad flash g (load g file s)
  if bad then skipBad s else goodBlock flash g check_only file s

/-- The variables at the entry of the loop. -/
def Prog.start (s : σ) (nand_buf check_buf : Nat → Byte) (start_block : Nat) : Prog σ :=
  { flash := s
    calls := []
    printed := []
    nand_buf := nand_buf
    check_buf := check_buf
    offset := 0
    curblk := start_block
    copyblks := 0
    badblks := 0
    curblk_done := true
    checkerr := 0
    actual_pages := g.ppb
    broke := false }

/-- `while (curblk <= last_block)`, which a `break` leaves too. -/
def goOn (last_block : Nat) (s : Prog σ) : Bool :=
  s.curblk ≤ last_block && !s.broke

/-- What is said after the loop. -/
def Prog.finish (s : Prog σ) : Prog σ :=
  if s.copyblks < fblk g file then
    { s with printed := s.printed ++ [.not_finished s.copyblks (fblk g file)] }
  else s

/-- The return value with the final state. A file that does not open is `none`.
The loop has fuel for one round on each block of the range. -/
def do_prog_part (file : Option File) (start_block last_block : Nat) (s : σ)
    (nand_buf check_buf : Nat → Byte) : Loop.Result (Int × Prog σ) :=
  let entry := Prog.start g s nand_buf check_buf start_block
  match file with
  | none => .done (-1, { entry with printed := [.can_not_open] })
  | some file =>
      if file.bytes.length % g.stride ≠ 0 then
        .done (-1, { entry with printed := [.filelength_is_not_fit] })
      else
        match Loop.run (goOn last_block) (fun s => some (round flash g check_only file s))
            (last_block + 1 - start_block) entry with
        | .done s => .done (0, s.finish g file)
        | .fault => .fault
        | .outOfFuel => .outOfFuel

end CFunc.NandProg
