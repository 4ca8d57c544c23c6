import CFunc.NandProg.ProgPartInv

/-!
The faithful chip under the driver.

Programming a page only clears bits, so an erased page reads back as it went out.
What goes out has 0xff before the ECC bytes and nine parities for every ECC
block; check mode puts 0xff over 36 bytes from the first parity on.
-/

namespace CFunc.NandProg

open CFunc.Lib CFunc.Lib.Buffer

/-- Whether a block carries the mark of a bad block. -/
def marked (g : Geometry) (chip : Chip) (blk : Nat) : Bool :=
  chip ((blk + 1) * g.ppb - 1) g.pagesize ≠ 0xff ||
    chip ((blk + 1) * g.ppb - 1) (g.pagesize + 1) ≠ 0xff

def Erased (g : Geometry) (chip : Chip) (blk : Nat) : Prop :=
  ∀ p < g.ppb, ∀ y < g.stride, chip (blk * g.ppb + p) y = 0xff

/-- Byte `x` of the parities of the page at offset `start`. -/
def parityAt (parity : List Byte → Nat → Byte) (buf : Nat → Byte) (start x : Nat) : Byte :=
  parity (slice buf (start + x / PAR_SIZE * ECC_BLOCK) ECC_BLOCK) (x % PAR_SIZE)

/-- Column `y` of a page as programming the page at offset `start` makes it. -/
def programmed (g : Geometry) (parity : List Byte → Nat → Byte) (buf : Nat → Byte)
    (start y : Nat) : Byte :=
  if y < g.pagesize then buf (start + y)
  else if y < g.pagesize + g.ecc_pos then 0xff
  else if y < g.pagesize + g.ecc_pos + PAR_SIZE * g.ecccnt then
    parityAt parity buf start (y - g.pagesize - g.ecc_pos)
  else buf (start + y)

/-- Column `y` of a page as check mode compares it. -/
def restored (g : Geometry) (page : Nat → Byte) (y : Nat) : Byte :=
  if g.pagesize + g.ecc_pos ≤ y ∧ y < g.pagesize + g.ecc_pos + 36 then 0xff else page y

section Driver

variable {g : Geometry} {parity : List Byte → Nat → Byte}

/-- Up to the end of the ECC bytes the page programmed depends on the data only. -/
theorem programmed_congr_data {buf buf' : Nat → Byte} {start start' : Nat}
    (same : ∀ y < g.pagesize, buf (start + y) = buf' (start' + y)) {y : Nat}
    (ecc : y < g.pagesize + g.ecc_pos + PAR_SIZE * g.ecccnt) :
    programmed g parity buf start y = programmed g parity buf' start' y := by
  unfold programmed
  split
  · rename_i data
    exact same y data
  split
  · rfl
  have block : (y - g.pagesize - g.ecc_pos) / PAR_SIZE < g.ecccnt :=
    Nat.div_lt_of_lt_mul (by omega)
  have bytes := Nat.mul_le_mul_right ECC_BLOCK block
  have pagesize : g.ecccnt * ECC_BLOCK = g.pagesize := Nat.mul_comm _ _
  rw [Nat.succ_mul, pagesize] at bytes
  rw [parityAt, parityAt, slice_eq_slice.mpr]
  intro i lt
  rw [Nat.add_assoc, Nat.add_assoc]
  exact same _ (by omega)

/-- The page programmed depends on the bytes of the page only. -/
theorem programmed_congr {buf buf' : Nat → Byte} {start start' : Nat}
    (same : ∀ y < g.stride, buf (start + y) = buf' (start' + y)) {y : Nat} (inside : y < g.stride) :
    programmed g parity buf start y = programmed g parity buf' start' y := by
  by_cases ecc : y < g.pagesize + g.ecc_pos + PAR_SIZE * g.ecccnt
  · exact programmed_congr_data
      (fun y lt => same y (lt_of_lt_of_le lt (Nat.le_add_right _ _))) ecc
  · unfold programmed
    split
    · exact same y inside
    · rw [if_neg (by omega), if_neg (by omega)]
      exact same y inside

/-- The parities of one more ECC block behind those of the blocks before. -/
theorem parityAt_blit (buf : Nat → Byte) (start : Nat) {ecc_buf : Nat → Byte} {n : Nat}
    (so_far : ∀ x < n * PAR_SIZE, ecc_buf x = parityAt parity buf start x) :
    ∀ x < (n + 1) * PAR_SIZE, blit ecc_buf (n * PAR_SIZE)
      (parity (slice buf (start + n * ECC_BLOCK) ECC_BLOCK)) PAR_SIZE x =
        parityAt parity buf start x := by
  intro x lt
  by_cases here : n * PAR_SIZE ≤ x
  · have block : x / PAR_SIZE = n := Nat.div_eq_of_lt_le here lt
    have byte : x - n * PAR_SIZE = x % PAR_SIZE := by
      rw [Nat.mod_eq_sub_div_mul, block]
    rw [Nat.succ_mul] at lt
    rw [blit_inside here lt, byte, parityAt, block]
  · rw [blit_outside (by omega)]
    exact so_far x (by omega)

variable (g parity)

theorem encodeBlocks_faithful (buf : Nat → Byte) (start : Nat) (chip : Chip) :
    (encodeBlocks (faithful g parity) g buf start chip).2 = chip ∧
      ∀ x < g.ecccnt * PAR_SIZE, (encodeBlocks (faithful g parity) g buf start chip).1 x =
        parityAt parity buf start x := by
  refine Loop.count_inv _ (fun n (t : (Nat → Byte) × Chip) => t.2 = chip ∧
    ∀ x < n * PAR_SIZE, t.1 x = parityAt parity buf start x) (n := g.ecccnt) ?_ ⟨rfl, by simp⟩
  rintro n _ ⟨ecc_buf, _⟩ ⟨rfl, so_far⟩
  refine ⟨rfl, ?_⟩
  simp only [faithful]
  exact parityAt_blit buf start so_far

/-- An erased page takes what is programmed. -/
theorem program_erased {chip : Chip} {pageaddr start y : Nat} (buf : Nat → Byte)
    (erased : chip pageaddr y = 0xff) (inside : y < g.stride) :
    (faithful g parity).program chip pageaddr (slice buf start g.stride) pageaddr y =
      buf (start + y) := by
  simp only [faithful, ↓reduceIte]
  rw [List.getD_eq_getElem?_getD, getElem?_slice _ _ inside, erased]
  exact BitVec.allOnes_and

theorem nand_program_page_faithful (buf : Nat → Byte) (start pageaddr : Nat) (chip : Chip)
    (erased : ∀ y < g.stride, chip pageaddr y = 0xff) :
    ∃ buf' chip', nand_program_page (faithful g parity) g buf start pageaddr chip =
        (buf', chip') ∧
      (∀ y < g.stride, buf' (start + y) = programmed g parity buf start y) ∧
      (∀ y < g.stride, chip' pageaddr y = programmed g parity buf start y) ∧
      ∀ a, a ≠ pageaddr → chip' a = chip a := by
  obtain ⟨same, parities⟩ := encodeBlocks_faithful g parity buf
    start chip
  have mul := Nat.mul_comm g.ecccnt PAR_SIZE
  have content : ∀ y < g.stride,
      (nand_program_page (faithful g parity) g buf start pageaddr chip).1 (start + y) =
        programmed g parity buf start y := by
    intro y inside
    simp only [nand_program_page, programmed]
    by_cases data : y < g.pagesize
    · rw [if_pos data, blit_outside (by omega), blit_outside (by omega)]
    · rw [if_neg data]
      by_cases before : y < g.pagesize + g.ecc_pos
      · rw [if_pos before, blit_outside (by omega), blit_inside (by omega) (by omega)]
      · rw [if_neg before]
        by_cases ecc : y < g.pagesize + g.ecc_pos + PAR_SIZE * g.ecccnt
        · rw [if_pos ecc, blit_inside (by omega) (by omega), parities _ (by omega)]
          congr 1
          omega
        · rw [if_neg ecc, blit_outside (by omega), blit_outside (by omega)]
  refine ⟨_, _, rfl, content, fun y inside => ?_, fun a other => ?_⟩
  · rw [← content y inside]
    exact program_erased g parity _ ((congrFun (congrFun same _) _).trans (erased y inside)) inside
  · exact (if_neg other).trans (congrFun same a)

/-- The address of a page of a block that the flash addresses without wrapping. -/
theorem pageaddr_eq {blk p : Nat} (addressable : (blk + 1) * g.ppb < 2 ^ 32) (page : p < g.ppb) :
    u32 (blk * g.ppb + p) = blk * g.ppb + p := by
  rw [Nat.succ_mul] at addressable
  exact u32_of_lt (by omega)

/-- Programming a block makes its pages those of `nand_buf`, with the filled
offsets filled in, and touches no other page. -/
theorem programBlock_faithful (s : Prog Chip) (addressable : (s.curblk + 1) * g.ppb < 2 ^ 32)
    (pages : s.actual_pages ≤ g.ppb) (erased : Erased g s.flash s.curblk) :
    ∃ buf chip calls, programBlock (faithful g parity) g s = { s with
        nand_buf := buf
        flash := chip
        calls := calls } ∧
      (∀ p < s.actual_pages, ∀ y < g.stride,
        buf (p * g.stride + y) = programmed g parity s.nand_buf (p * g.stride) y ∧
        chip (s.curblk * g.ppb + p) y = programmed g parity s.nand_buf (p * g.stride) y) ∧
      ∀ a, (∀ p < s.actual_pages, a ≠ s.curblk * g.ppb + p) → chip a = s.flash a := by
  have inv := Loop.count_inv (programPage (faithful g parity) g)
    (fun n t => ∃ buf chip calls, t = { s with nand_buf := buf, flash := chip, calls := calls } ∧
      (∀ p < n, ∀ y < g.stride,
        buf (p * g.stride + y) = programmed g parity s.nand_buf (p * g.stride) y ∧
        chip (s.curblk * g.ppb + p) y = programmed g parity s.nand_buf (p * g.stride) y) ∧
      (∀ p, n ≤ p → ∀ y < g.stride,
        buf (p * g.stride + y) = s.nand_buf (p * g.stride + y)) ∧
      ∀ a, (∀ p < n, a ≠ s.curblk * g.ppb + p) → chip a = s.flash a)
    (n := s.actual_pages) ?_ (s := s)
    ⟨s.nand_buf, s.flash, s.calls, rfl, by simp, by simp, by simp⟩
  · obtain ⟨buf, chip, calls, eq, done, _, others⟩ := inv
    exact ⟨buf, chip, calls, eq, done, others⟩
  · rintro n lt _ ⟨buf, chip, calls, rfl, done, due, others⟩
    have page : n < g.ppb := by omega
    obtain ⟨buf', chip', result, in_buf, in_chip, elsewhere⟩ :=
      nand_program_page_faithful g parity buf (n * g.stride) (s.curblk * g.ppb + n) chip
        fun y inside => by rw [others _ fun p lt => by omega, erased n page y inside]
    have raw : ∀ y < g.stride, programmed g parity buf (n * g.stride) y =
        programmed g parity s.nand_buf (n * g.stride) y :=
      fun y inside => programmed_congr (due n le_rfl) inside
    have outside : ∀ q, n ≠ q → ∀ y < g.stride,
        buf' (q * g.stride + y) = buf (q * g.stride + y) := by
      intro q other y inside
      have spared : ¬ (n * g.stride ≤ q * g.stride + y ∧
          g.Filled (q * g.stride + y - n * g.stride)) := fun ⟨below, filled⟩ =>
        page_ne other inside ⟨below, by have := filled.lt_stride; omega⟩
      have kept : (nand_program_page (faithful g parity) g buf (n * g.stride)
          (s.curblk * g.ppb + n) chip).1 (q * g.stride + y) = buf (q * g.stride + y) :=
        nand_program_page_outside spared
      rwa [result] at kept
    refine ⟨buf', chip', calls ++
      [.program_page (s.curblk * g.ppb + n) (slice buf' (n * g.stride) g.stride)], ?_, ?_, ?_, ?_⟩
    · simp only [programPage, pageaddr_eq g addressable page, result]
    · intro p at_most y inside
      rcases Nat.lt_succ_iff_lt_or_eq.mp at_most with earlier | rfl
      · obtain ⟨buf_eq, chip_eq⟩ := done p earlier y inside
        refine ⟨(outside p (by omega) y inside).trans buf_eq, ?_⟩
        rw [elsewhere _ (by omega), chip_eq]
      · exact ⟨(in_buf y inside).trans (raw y inside), (in_chip y inside).trans (raw y inside)⟩
    · intro p later y inside
      exact (outside p (by omega) y inside).trans (due p (by omega) y inside)
    · intro a away
      rw [elsewhere a (away n (by omega)), others a fun p lt => away p (by omega)]

/-- Reading a block leaves its pages in `check_buf`, as the mode compares them. -/
theorem readBlock_faithful (check_only : Bool) (s : Prog Chip)
    (addressable : (s.curblk + 1) * g.ppb < 2 ^ 32) (pages : s.actual_pages ≤ g.ppb) :
    ∃ buf calls, readBlock (faithful g parity) g check_only s = { s with
        check_buf := buf
        calls := calls } ∧
      ∀ p < s.actual_pages, ∀ y < g.stride, buf (p * g.stride + y) =
        if check_only then restored g (s.flash (s.curblk * g.ppb + p)) y
        else s.flash (s.curblk * g.ppb + p) y := by
  refine Loop.count_inv (readPage (faithful g parity) g check_only)
    (fun n t => ∃ buf calls, t = { s with check_buf := buf, calls := calls } ∧
      ∀ p < n, ∀ y < g.stride, buf (p * g.stride + y) =
        if check_only then restored g (s.flash (s.curblk * g.ppb + p)) y
        else s.flash (s.curblk * g.ppb + p) y)
    (n := s.actual_pages) ?_ (s := s) ⟨s.check_buf, s.calls, rfl, by simp⟩
  rintro n lt _ ⟨buf, calls, rfl, done⟩
  have page : n < g.ppb := by omega
  let page_buf := blit buf (n * g.stride) (s.flash (s.curblk * g.ppb + n)) g.stride
  have read : ∀ y < g.stride, page_buf (n * g.stride + y) = s.flash (s.curblk * g.ppb + n) y := by
    intro y inside
    simp only [page_buf]
    rw [blit_inside (by omega) (by omega), Nat.add_sub_cancel_left]
  have earlier : ∀ p < n, ∀ y < g.stride, p * g.stride + y < n * g.stride := by
    intro p less y inside
    have := Nat.mul_le_mul_right g.stride less
    rw [Nat.succ_mul] at this
    omega
  refine ⟨if check_only then
      blit page_buf (n * g.stride + g.pagesize + g.ecc_pos) (fun _ => 0xff) 36 else page_buf,
    calls ++ [.read_page (s.curblk * g.ppb + n)
      (slice (s.flash (s.curblk * g.ppb + n)) 0 g.stride)], ?_, ?_⟩
  · simp only [readPage, pageaddr_eq g addressable page]
    rfl
  · intro p at_most y inside
    rcases Nat.lt_succ_iff_lt_or_eq.mp at_most with less | rfl
    · have := earlier p less y inside
      rw [← done p less y inside]
      have kept : page_buf (p * g.stride + y) = buf (p * g.stride + y) :=
        blit_outside (by omega)
      split
      · rw [blit_outside (by omega), kept]
      · exact kept
    · split
      · unfold restored
        split
        · rw [blit_inside (by omega) (by omega)]
        · rw [blit_outside (by omega), read y inside]
      · exact read y inside

/-- The mark is looked for where it stands, as long as the address does not wrap. -/
theorem nand_check_badblock_faithful {chip : Chip} {blk : Nat}
    (addressable : (blk + 1) * g.ppb < 2 ^ 32) :
    nand_check_badblock (faithful g parity) g chip blk = (marked g chip blk, chip) := by
  have blocks : blk + 1 ≤ (blk + 1) * g.ppb := Nat.le_mul_of_pos_right _ g.some_pages
  have last : u32 (u32 (u32 (blk + 1) * g.ppb) + (2 ^ 32 - 1)) = (blk + 1) * g.ppb - 1 := by
    rw [u32_of_lt (n := blk + 1) (by omega), u32_of_lt addressable, u32]
    omega
  simp only [nand_check_badblock, last, faithful, marked, Nat.add_zero]

end Driver

end CFunc.NandProg
