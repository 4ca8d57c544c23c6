import CFunc.NandProg.Device

/-!
Marking a block bad, and looking for the mark.

`nand_mark_badblock` sends its second column cycle for pages of 2048 bytes only,
where `read_oob` and `nand_program_page` send it for all but pages of 512. On
any other page size the flash takes the first row cycle for a column.
-/

namespace CFunc.NandProg

open CFunc.Lib CFunc.Lib.Buffer

/-- The row cycles carry the addresses of the block's pages, as `unsigned int`s. -/
structure Fits (g : Params) (blk : Nat) : Prop where
  rows : (blk + 1) * g.ppb ≤ 256 ^ g.row
  addresses : (blk + 1) * g.ppb ≤ 2 ^ 32

/-- Marking `b` stays within `badbuf` and checking within `oob_buf`. On every
flash of the geometry, and whatever `oob_buf` holds before, a mark that went
well is seen in `b`, and every other block is found as before. -/
def MarkSeen (g : Params) (b : Nat) : Prop :=
  g.pagesize + g.oobsize ≤ 4096 + 128 ∧ g.oobsize ≤ 128 ∧
    ∀ (part : FlashPart) (emc : Emc) (d : Device), part.Suits g →
      ((Device.bus part emc).nand_mark_badblock g b d).1 = 0 →
      let marked := ((Device.bus part emc).nand_mark_badblock g b d).2
      (∀ oob_buf, ((Device.bus part emc).nand_check_badblock g oob_buf b marked).1 = 1) ∧
      ∀ c, c ≠ b → Fits g c → ∀ oob_buf oob_buf',
        ((Device.bus part emc).nand_check_badblock g oob_buf' c marked).1 =
          ((Device.bus part emc).nand_check_badblock g oob_buf c d).1

section Addresses

variable {g : Params}

theorem lastPage_eq {blk : Nat} (some_pages : 0 < g.ppb) (fits : Fits g blk) :
    g.lastPage blk = (blk + 1) * g.ppb - 1 := by
  have blocks : blk + 1 ≤ (blk + 1) * g.ppb := Nat.le_mul_of_pos_right _ some_pages
  have pages := fits.addresses
  rcases Nat.lt_or_ge (blk + 1) (2 ^ 32) with less | all
  · rw [Params.lastPage, u32_of_lt less, u32, u32]
    omega
  · have one : g.ppb = 1 := by
      refine Nat.le_antisymm (Nat.le_of_mul_le_mul_left ?_ blk.succ_pos) some_pages
      exact (pages.trans all).trans (Nat.mul_one _).ge
    rw [one] at pages ⊢
    have whole : blk + 1 = 2 ^ 32 := by omega
    rw [Params.lastPage, whole, one]
    rfl

theorem lastPage_mod {blk : Nat} (some_pages : 0 < g.ppb) (fits : Fits g blk) :
    g.lastPage blk % 256 ^ g.row = (blk + 1) * g.ppb - 1 := by
  have blocks : blk + 1 ≤ (blk + 1) * g.ppb := Nat.le_mul_of_pos_right _ some_pages
  have rows := fits.rows
  rw [lastPage_eq some_pages fits]
  exact Nat.mod_eq_of_lt (by omega)

theorem lastPage_ne {b c : Nat} (some_pages : 0 < g.ppb) (fits_b : Fits g b) (fits_c : Fits g c)
    (other : c ≠ b) : g.lastPage c % 256 ^ g.row ≠ g.lastPage b % 256 ^ g.row := by
  rw [lastPage_mod some_pages fits_b, lastPage_mod some_pages fits_c]
  intro same
  have blocks_b := Nat.le_mul_of_pos_right (b + 1) some_pages
  have blocks_c := Nat.le_mul_of_pos_right (c + 1) some_pages
  have equal : (c + 1) * g.ppb = (b + 1) * g.ppb := by omega
  exact other (Nat.succ_injective (Nat.eq_of_mul_eq_mul_right some_pages equal))

/-- The last of the bytes weighs most. -/
theorem littleEndian_succ (byte : Nat → Byte) (start n : Nat) :
    littleEndian byte start (n + 1) =
      littleEndian byte start n + 256 ^ n * (byte (start + n)).toNat := by
  induction n generalizing start with
  | zero => simp [littleEndian]
  | succ n ih =>
      rw [littleEndian, ih, littleEndian, Nat.add_right_comm start 1 n, ← Nat.add_assoc start n 1]
      ring

end Addresses

namespace Device

variable (part : FlashPart) (emc : Emc) (d : Device) {g : Params}

/-- The device as `nand_mark_badblock` has addressed it. -/
def markAddressed (g : Params) (blk : Nat) : Device :=
  { d.opened CMD_SEQIN (if g.pagesize = 2048 then d.area else 0) with
    cycles := (if g.pagesize = 2048 then [0, 0] else [0]) ++ rowBytes g.row (g.lastPage blk) }

/-- Marking programs zeros from the addressed column to the end of the page. -/
theorem mark_badblock_eq (suits : part.Suits g) (blk : Nat) :
    ∃ d', (bus part emc).nand_mark_badblock g blk d =
        (if part.status &&& 0x01 ≠ 0 then 1 else 0, d') ∧
      ∀ a y, d'.pages a y =
        if a = (d.markAddressed g blk).page part ∧ (d.markAddressed g blk).column part ≤ y ∧
          y < g.pagesize + g.oobsize then 0 else d.pages a y := by
  let zeros := slice (fun _ => (0 : Byte)) 0 (g.pagesize + g.oobsize)
  let addressed := d.markAddressed g blk
  let full : Device := { addressed with
    written := [] ++ zeros
    block := addressed.passed zeros }
  have sent : (bus part emc).nand_mark_badblock g blk d =
      (bus part emc).finish ((bus part emc).cmd CMD_PGPROG full) := by
    simp only [Bus.nand_mark_badblock, write8_eq, rowCycles_eq, full, zeros, addressed,
      markAddressed]
    by_cases size : g.pagesize = 2048
    · simp only [size, ne_eq, not_true, if_false, if_true]
      rfl
    · simp only [size, ne_eq, not_false_eq_true, if_false, if_true]
      rfl
  rw [sent, finish_eq]
  refine ⟨_, rfl, fun a y => ?_⟩
  have programmed : (((bus part emc).cmd CMD_PGPROG full).opened CMD_READ_STATUS
      ((bus part emc).cmd CMD_PGPROG full).area).pages = full.program part := rfl
  have page : full.page part = addressed.page part := rfl
  have column : full.column part = addressed.column part := rfl
  have pages : full.pages = d.pages := rfl
  have written : full.written = zeros := rfl
  have no_byte (i : Nat) : zeros.getD i 0 = 0 := by
    rw [List.getD_eq_getElem?_getD]
    rcases Nat.lt_or_ge i (g.pagesize + g.oobsize) with inside | outside
    · rw [getElem?_slice _ _ inside]
      rfl
    · rw [List.getElem?_eq_none (by rwa [length_slice])]
      rfl
  rw [programmed, program, page, column, pages, written, length_slice, no_byte, part.store_zero,
    suits.width]
  refine if_congr ?_ rfl rfl
  constructor
  · rintro ⟨there, from_column, _, inside⟩
    exact ⟨there, from_column, inside⟩
  · rintro ⟨there, from_column, inside⟩
    exact ⟨there, from_column, by omega, inside⟩

/-- On pages of 512 and of 2048 bytes the cycles designate the last page of the
block, from its first column on. -/
theorem markAddressed_right (suits : part.Suits g) (size : g.pagesize = 512 ∨ g.pagesize = 2048)
    (blk : Nat) :
    (d.markAddressed g blk).page part = g.lastPage blk % 256 ^ g.row ∧
      (d.markAddressed g blk).column part = 0 := by
  have columns := suits.columns
  rw [← suits.rows]
  rcases size with size | size
  · have not_2048 : g.pagesize ≠ 2048 := by omega
    rw [if_pos size] at columns
    have sent : (d.markAddressed g blk).cycles = [0] ++ rowBytes part.rows (g.lastPage blk) := by
      simp only [markAddressed, suits.rows, if_neg not_2048]
    refine ⟨page_of_cycles [0] columns.symm sent, ?_⟩
    rw [column_of_one_cycle columns sent, markAddressed, if_neg not_2048]
    rfl
  · have not_512 : g.pagesize ≠ 512 := by omega
    rw [if_neg not_512] at columns
    have sent : (d.markAddressed g blk).cycles = [0, 0] ++ rowBytes part.rows (g.lastPage blk) := by
      simp only [markAddressed, suits.rows, if_pos size]
    exact ⟨page_of_cycles [0, 0] columns.symm sent, column_of_two_cycles columns sent⟩

/-- Checking returns 1 exactly when one of the two bytes of the mark is not 0xff. -/
theorem check_badblock_eq (suits : part.Suits g) (small : g.pagesize < 65536)
    (oob_buf : Nat → Byte) (blk : Nat) :
    ((bus part emc).nand_check_badblock g oob_buf blk d).1 =
      let oob := blit oob_buf 0 (fun i =>
        d.pages (g.lastPage blk % 256 ^ g.row) (g.pagesize + i)) g.oobsize
      if oob 0 ≠ 0xff ∨ oob 1 ≠ 0xff then 1 else 0 := by
  obtain ⟨d', read, _⟩ := read_oob_eq part emc d suits small oob_buf g.oobsize (g.lastPage blk)
  simp only [Bus.nand_check_badblock, read]
  split
  · rfl
  · rfl

end Device

section Law

variable {g : Params} {b : Nat}

/-- On pages of 512 and of 2048 bytes the law holds when `oob_buf` holds the
OOB, and the mark is in it. -/
theorem markSeen_of_size (some_pages : 0 < g.ppb) (fits : Fits g b)
    (size : g.pagesize = 512 ∨ g.pagesize = 2048) (held : g.oobsize ≤ 128)
    (mark : 2 ≤ g.oobsize ∨ g.oobsize = 1 ∧ ∀ c, Fits g c → c = b) : MarkSeen g b := by
  have some_oob : 0 < g.oobsize := by omega
  have small : g.pagesize < 65536 := by omega
  refine ⟨by omega, held, fun part emc d suits returned => ?_⟩
  obtain ⟨d', marked, pages⟩ := d.mark_badblock_eq part emc suits b
  obtain ⟨page, column⟩ := d.markAddressed_right part suits size b
  rw [page, column] at pages
  simp only [marked]
  constructor
  · intro oob_buf
    rw [Device.check_badblock_eq part emc d' suits small]
    refine if_pos (.inl ?_)
    rw [blit_inside (Nat.zero_le _) (by omega), pages, if_pos ⟨rfl, Nat.zero_le _, by omega⟩]
    decide
  · intro c other fits_c oob_buf oob_buf'
    rcases mark with two | ⟨_, only⟩
    · have elsewhere := lastPage_ne some_pages fits fits_c other
      have same (y : Nat) : d'.pages (g.lastPage c % 256 ^ g.row) y =
          d.pages (g.lastPage c % 256 ^ g.row) y := by
        rw [pages, if_neg fun there => elsewhere there.1]
      rw [Device.check_badblock_eq part emc d' suits small,
        Device.check_badblock_eq part emc d suits small]
      simp only [same]
      rw [blit_inside (Nat.zero_le _) (by omega), blit_inside (Nat.zero_le _) (by omega),
        blit_inside (Nat.zero_le _) (by omega), blit_inside (Nat.zero_le _) (by omega)]
    · exact absurd (only c fits_c) other

end Law

/-! ### The other page sizes -/

/-- A flash that cells are written over in, and that takes `u` for a cycle not sent. -/
def plainPart (g : Params) (u : Byte) : FlashPart where
  columns := if g.pagesize = 512 then 1 else 2
  rows := g.row
  width := g.pagesize + g.oobsize
  store _ b := b
  store_zero _ := rfl
  unsent _ := u
  status := 0

theorem plainPart_suits (g : Params) (u : Byte) : (plainPart g u).Suits g := ⟨rfl, rfl, rfl⟩

def plainEmc : Emc where
  parity _ _ := 0
  decoder _ _ := (0, fun _ => 0)

section Stray

variable {g : Params} {b : Nat}

/-- One column cycle where two are expected: for some byte in the place of the
cycle not sent, the zeros miss the OOB of the last page of the block. -/
theorem markAddressed_stray (size : g.pagesize ≠ 512) (size' : g.pagesize ≠ 2048)
    (small : g.pagesize ≤ 4096 + 128) (p blk : Nat) :
    ∃ u, ¬ ((blankDevice.markAddressed g blk).page (plainPart g u) = p ∧
      (blankDevice.markAddressed g blk).column (plainPart g u) ≤ g.pagesize + 1) := by
  have cycles : (blankDevice.markAddressed g blk).cycles =
      0 :: rowBytes g.row (g.lastPage blk) := by
    simp only [Device.markAddressed, if_neg size', List.cons_append, List.nil_append]
  have two (u : Byte) : (plainPart g u).columns = 2 := if_neg size
  cases rows : g.row with
  | zero =>
      refine ⟨0xff, fun both => ?_⟩
      have column : (blankDevice.markAddressed g blk).column (plainPart g 0xff) = 65280 := by
        rw [Device.column, cycles, two, rows]
        simp [rowBytes, littleEndian, plainPart]
      omega
  | succ r =>
      -- all the row cycles but the last are sent, whatever stands for that one
      have page (u : Byte) : (blankDevice.markAddressed g blk).page (plainPart g u) =
          littleEndian (fun i => (0 :: rowBytes g.row (g.lastPage blk)).getD i 0) 2 r +
            256 ^ r * u.toNat := by
        have sent : (0 :: rowBytes g.row (g.lastPage blk)).length = 2 + r := by
          rw [List.length_cons, length_rowBytes, rows]
          omega
        have at_rows : (plainPart g u).rows = r + 1 := rows
        rw [Device.page, cycles, two, at_rows, littleEndian_succ]
        congr 1
        · refine littleEndian_congr fun i lt => ?_
          rw [List.getD_eq_getElem?_getD, List.getD_eq_getElem?_getD,
            List.getElem?_eq_getElem (by omega)]
          rfl
        · rw [List.getD_eq_getElem?_getD, List.getElem?_eq_none (by omega)]
          rfl
      by_contra every
      have zero := (not_not.mp (not_exists.mp every 0)).1
      have one := (not_not.mp (not_exists.mp every 1)).1
      rw [page] at zero one
      have weight : 0 < 256 ^ r := Nat.pow_pos (by decide)
      have digits : (0 : Byte).toNat = 0 ∧ (1 : Byte).toNat = 1 := ⟨rfl, rfl⟩
      rw [digits.1] at zero
      rw [digits.2] at one
      omega

theorem mark_plain_returns (g : Params) (u : Byte) (blk : Nat) :
    ((Device.bus (plainPart g u) plainEmc).nand_mark_badblock g blk blankDevice).1 = 0 := by
  obtain ⟨d', marked, _⟩ :=
    blankDevice.mark_badblock_eq (plainPart g u) plainEmc (plainPart_suits g u) blk
  have no_error : ¬ ((0 : Byte) &&& 0x01 ≠ 0) := by decide
  rw [marked]
  exact if_neg no_error

/-- What checking `b` finds after marking it on an erased flash, the rest of
`oob_buf` being 0xff. -/
theorem check_after_missed {u : Byte} (small : g.pagesize < 65536) (fewer : g.oobsize = 0 ∨
    ¬ ((blankDevice.markAddressed g b).page (plainPart g u) = g.lastPage b % 256 ^ g.row ∧
      (blankDevice.markAddressed g b).column (plainPart g u) ≤ g.pagesize + 1)) :
    ¬ MarkSeen g b := by
  rintro ⟨_, _, seen⟩
  obtain ⟨d', marked, pages⟩ :=
    blankDevice.mark_badblock_eq (plainPart g u) plainEmc (plainPart_suits g u) b
  have found := (seen (plainPart g u) plainEmc blankDevice (plainPart_suits g u)
    (mark_plain_returns g u b)).1 fun _ => 0xff
  rw [marked, Device.check_badblock_eq _ _ _ (plainPart_suits g u) small] at found
  have kept (y : Nat) (inside : y < g.oobsize) (mark : y ≤ 1) :
      d'.pages (g.lastPage b % 256 ^ g.row) (g.pagesize + y) = 0xff := by
    rw [pages, if_neg]
    · rfl
    · rintro ⟨there, from_column, _⟩
      rcases fewer with none | missed
      · omega
      · exact missed ⟨there.symm, by omega⟩
  have clean (y : Nat) (mark : y ≤ 1) : blit (fun _ => 0xff) 0 (fun i =>
      d'.pages (g.lastPage b % 256 ^ g.row) (g.pagesize + i)) g.oobsize y = 0xff := by
    rcases Nat.lt_or_ge y g.oobsize with inside | outside
    · rw [blit_inside (Nat.zero_le _) (by omega)]
      exact kept _ (by omega) (by omega)
    · exact blit_outside (by omega)
  simp only [clean 0 (by omega), clean 1 (by omega)] at found
  exact absurd found (by decide)

/-- The law of the mark, for every geometry and every block: it holds exactly
for pages of 512 and of 2048 bytes, with an OOB that `oob_buf` holds and that
has the two bytes of the mark. One byte will do if no other block fits. -/
theorem markSeen_iff (some_pages : 0 < g.ppb) (fits : Fits g b) :
    MarkSeen g b ↔ (g.pagesize = 512 ∨ g.pagesize = 2048) ∧ g.oobsize ≤ 128 ∧
      (2 ≤ g.oobsize ∨ g.oobsize = 1 ∧ ∀ c, Fits g c → c = b) := by
  constructor
  · intro seen
    obtain ⟨bad_held, held, law⟩ := id seen
    have size : g.pagesize = 512 ∨ g.pagesize = 2048 := by
      by_contra other
      obtain ⟨not_512, not_2048⟩ := not_or.mp other
      obtain ⟨u, missed⟩ := markAddressed_stray not_512 not_2048 (by omega)
        (g.lastPage b % 256 ^ g.row) b
      exact check_after_missed (by omega) (.inr missed) seen
    refine ⟨size, held, ?_⟩
    by_contra no_mark
    obtain ⟨not_two, not_one⟩ := not_or.mp no_mark
    have some_oob : g.oobsize ≠ 0 := fun none =>
      check_after_missed (u := 0) (by omega) (.inl none) seen
    have one : g.oobsize = 1 := by omega
    -- the second byte of another block's mark is whatever `oob_buf` held
    refine not_one ⟨one, fun c fits_c => ?_⟩
    by_contra other
    have same := (law (plainPart g 0) plainEmc blankDevice (plainPart_suits g 0)
      (mark_plain_returns g 0 b)).2 c other fits_c (fun _ => 0xff) fun _ => 0
    rw [Device.check_badblock_eq _ _ _ (plainPart_suits g 0) (by omega),
      Device.check_badblock_eq _ _ _ (plainPart_suits g 0) (by omega)] at same
    have before : blit (fun _ => (0xff : Byte)) 0 (fun i =>
        blankDevice.pages (g.lastPage c % 256 ^ g.row) (g.pagesize + i)) g.oobsize =
          fun _ => 0xff := by
      funext y
      unfold blit
      split <;> rfl
    have second (source : Nat → Byte) : blit (fun _ => 0) 0 source g.oobsize 1 = 0 :=
      blit_outside (by omega)
    rw [before] at same
    simp only [ne_eq, not_true, or_self, if_false, ite_eq_right_iff, Nat.one_ne_zero, imp_false,
      not_or, not_not] at same
    exact absurd ((second _).symm.trans same.2) (by decide)
  · rintro ⟨size, held, mark⟩
    exact markSeen_of_size some_pages fits size held mark

end Stray

theorem markSeen_iff_sample : MarkSeen nand_init_4740 511 :=
  (markSeen_iff (by decide) ⟨by decide, by decide⟩).mpr ⟨.inr rfl, by decide, .inl (by decide)⟩

/-- The geometry of `main`, with pages of 4096 bytes. -/
theorem mark_of_4096_not_seen :
    ¬ ∀ (g : Params) (b : Nat), 512 ∣ g.pagesize → 0 < g.pagesize → 0 < g.ppb → Fits g b →
      MarkSeen g b := by
  intro always
  let g : Params := { row := 3, pagesize := 4096, oobsize := 128, ppb := 128 }
  obtain ⟨u, missed⟩ := markAddressed_stray (g := g) (by decide) (by decide) (by decide)
    (g.lastPage 1103 % 256 ^ g.row) 1103
  exact check_after_missed (by decide) (.inr missed)
    (always g 1103 (by decide) (by decide) (by decide) ⟨by decide, by decide⟩)

end CFunc.NandProg
