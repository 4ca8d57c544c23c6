import CFunc.NandProg.ProgPart

/-!
The chunks of a file, and the variables of the loop that follow them.

`offset`, `copyblks`, `curblk_done` and `actual_pages` go through bad blocks,
failed checks and accepted blocks in step (`OnTrack`), in both modes.
-/

namespace CFunc.NandProg

open CFunc.Lib CFunc.Lib.Buffer

section Chunks

variable (g : Geometry) (file : File)

/-- Whole blocks, and one more for the pages left. -/
def chunks : Nat := fblk g file + if 0 < fpage g file then 1 else 0

/-- The number of pages of chunk `k`. -/
def pagesOf (k : Nat) : Nat := if k < fblk g file then g.ppb else fpage g file

def File.byte (file : File) (x : Nat) : Byte := (file.bytes[x]?).getD 0

variable {g file}

theorem length_eq_pages (fit : file.bytes.length % g.stride = 0) :
    fblk g file = file.bytes.length / g.stride / g.ppb ∧
      fpage g file = file.bytes.length / g.stride % g.ppb := by
  obtain ⟨m, len⟩ := Nat.dvd_of_mod_eq_zero fit
  have stride_pos := g.stride_pos
  have blocks : fblk g file = m / g.ppb := by
    rw [fblk, len, Nat.mul_comm g.ppb, Nat.mul_div_mul_left _ _ stride_pos]
  refine ⟨by rw [blocks, len, Nat.mul_div_cancel_left _ stride_pos], ?_⟩
  rw [fpage, blocks, len, Nat.mul_div_cancel_left _ stride_pos]
  have regroup : g.stride * m - m / g.ppb * (g.ppb * g.stride) =
      g.stride * (m - g.ppb * (m / g.ppb)) := by
    rw [Nat.mul_sub]
    congr 1
    ring
  rw [regroup, Nat.mul_div_cancel_left _ stride_pos, Nat.mod_eq_sub_mul_div]

/-- The pages of whole blocks and the pages left make up the file. -/
theorem length_eq (fit : file.bytes.length % g.stride = 0) :
    file.bytes.length = (fblk g file * g.ppb + fpage g file) * g.stride := by
  obtain ⟨blocks, left⟩ := length_eq_pages fit
  rw [blocks, left, Nat.mul_comm _ g.ppb, Nat.div_add_mod,
    Nat.div_mul_cancel (Nat.dvd_of_mod_eq_zero fit)]

theorem chunks_pos (fit : file.bytes.length % g.stride = 0) (some_bytes : 0 < file.bytes.length) :
    0 < chunks g file := by
  have len := length_eq fit
  rw [chunks]
  by_contra none
  have no_block : fblk g file = 0 := by omega
  have no_page : fpage g file = 0 := by
    by_contra some
    rw [if_pos (Nat.pos_of_ne_zero some)] at none
    omega
  rw [no_block, no_page] at len
  omega

/-- Page `p` of chunk `k` is a page of the file. -/
theorem page_in_file {k p : Nat} (chunk : k < chunks g file) (page : p < pagesOf g file k) :
    k * g.ppb + p < fblk g file * g.ppb + fpage g file := by
  rw [pagesOf] at page
  rw [chunks] at chunk
  split at page
  · rename_i whole
    have := Nat.mul_le_mul_right g.ppb whole
    rw [Nat.succ_mul] at this
    omega
  · rename_i not_whole
    split at chunk
    · obtain rfl : k = fblk g file := by omega
      omega
    · omega

theorem chunks_lt (fit : file.bytes.length % g.stride = 0) : chunks g file < 2 ^ 32 := by
  have len := length_eq fit
  have small := file.small
  have blocks : fblk g file ≤ fblk g file * g.ppb := Nat.le_mul_of_pos_right _ g.some_pages
  have pages : fblk g file * g.ppb + fpage g file ≤ file.bytes.length :=
    len ▸ Nat.le_mul_of_pos_right _ g.stride_pos
  rw [chunks]
  split <;> omega

theorem pagesOf_le (fit : file.bytes.length % g.stride = 0) (k : Nat) :
    pagesOf g file k ≤ g.ppb := by
  have left := (length_eq_pages fit).2
  have := Nat.mod_lt (file.bytes.length / g.stride) g.some_pages
  rw [pagesOf]
  split <;> omega

/-- The chunks before another one are whole, and their bytes are bytes of the file. -/
theorem before_chunk {k : Nat}
    (next : k + 1 < chunks g file) :
    pagesOf g file k = g.ppb ∧ (k + 1) * (g.ppb * g.stride) < 2 ^ 32 := by
  have whole : k + 1 ≤ fblk g file := by
    rw [chunks] at next
    split at next <;> omega
  refine ⟨by rw [pagesOf, if_pos (by omega)], ?_⟩
  have := Nat.mul_le_mul_right (g.ppb * g.stride) whole
  have : fblk g file * (g.ppb * g.stride) ≤ file.bytes.length := Nat.div_mul_le_self _ _
  have := file.small
  omega

theorem byte_in_file (fit : file.bytes.length % g.stride = 0) {k p y : Nat}
    (chunk : k < chunks g file) (page : p < pagesOf g file k) (inside : y < g.stride) :
    (k * g.ppb + p) * g.stride + y < file.bytes.length := by
  have := Nat.mul_le_mul_right g.stride (page_in_file chunk page)
  rw [Nat.succ_mul] at this
  rw [length_eq fit]
  omega

theorem allCopied_iff {c : Nat} (within : c ≤ chunks g file) :
    allCopied g file c = true ↔ c = chunks g file := by
  rw [chunks] at *
  simp only [allCopied, Bool.or_eq_true, Bool.and_eq_true, decide_eq_true_eq]
  split at within
  · rename_i left
    rw [if_pos left]
    omega
  · rename_i no_left
    rw [if_neg no_left]
    omega

/-- `nand_buf` holds chunk `k` as the file has it. -/
def HoldsAll (g : Geometry) (file : File) (k : Nat) (buf : Nat → Byte) : Prop :=
  ∀ p < pagesOf g file k, ∀ y < g.stride,
    buf (p * g.stride + y) = file.byte ((k * g.ppb + p) * g.stride + y)

/-- `nand_buf` holds chunk `k`, but for the bytes that programming fills in. -/
def Holds (g : Geometry) (file : File) (k : Nat) (buf : Nat → Byte) : Prop :=
  ∀ p < pagesOf g file k, ∀ y < g.stride, ¬ g.Filled y →
    buf (p * g.stride + y) = file.byte ((k * g.ppb + p) * g.stride + y)

end Chunks

/-! ### The chunk that is due -/

section OnTrack

variable {σ : Type} {g : Geometry} {file : File}

theorem fread_byte {offset n x : Nat} {buf : Nat → Byte} (inside : x < n)
    (in_file : offset + x < file.bytes.length) :
    file.fread offset n buf x = file.byte (offset + x) := by
  simp [File.fread, File.byte, inside, List.getElem?_eq_getElem in_file]

/-- How far the file is: the variables agree on the chunk that is due, and
`nand_buf` holds it, as `P` says, unless it is still to be read. -/
structure OnTrack (g : Geometry) (file : File) (P : Nat → (Nat → Byte) → Prop) (s : Prog σ) :
    Prop where
  within : s.copyblks ≤ chunks g file
  broke : s.broke = true ↔ s.copyblks = chunks g file
  offset : s.copyblks < chunks g file → s.offset = s.copyblks * (g.ppb * g.stride)
  whole : s.copyblks < chunks g file → s.curblk_done = true → s.actual_pages = g.ppb
  loaded : s.copyblks < chunks g file → s.curblk_done = false →
    P s.copyblks s.nand_buf ∧ s.actual_pages = pagesOf g file s.copyblks

variable {P : Nat → (Nat → Byte) → Prop}

theorem onTrack_start (fit : file.bytes.length % g.stride = 0) (some_bytes : 0 < file.bytes.length)
    (fl : σ) (nand_buf check_buf : Nat → Byte) (start_block : Nat) :
    OnTrack g file P (Prog.start g fl nand_buf check_buf start_block) where
  within := Nat.zero_le _
  broke := by
    have := chunks_pos fit some_bytes
    simp only [Prog.start, Bool.false_eq_true, false_iff]
    omega
  offset := by simp [Prog.start]
  whole := fun _ _ => rfl
  loaded := by simp [Prog.start]

theorem OnTrack.due {s : Prog σ} (track : OnTrack g file P s) (running : s.broke = false) :
    s.copyblks < chunks g file := by
  refine lt_of_le_of_ne track.within fun all => ?_
  rw [track.broke.mpr all] at running
  cases running

/-- At the top of a round `nand_buf` gets the chunk that is due, unless it holds it already. -/
theorem OnTrack.load (fit : file.bytes.length % g.stride = 0)
    (from_file : ∀ k buf, HoldsAll g file k buf → P k buf) {s : Prog σ}
    (track : OnTrack g file P s) (running : s.broke = false) :
    ∃ buf, NandProg.load g file s = { s with
        nand_buf := buf
        actual_pages := pagesOf g file s.copyblks
        curblk_done := false } ∧ P s.copyblks buf := by
  have due := track.due running
  have fresh : ∀ n buf, pagesOf g file s.copyblks ≤ n →
      P s.copyblks (file.fread s.offset (n * g.stride) buf) := by
    refine fun n buf enough => from_file _ _ fun p page y inside => ?_
    have below : p * g.stride + y < n * g.stride := by
      have := Nat.mul_le_mul_right g.stride (Nat.succ_le_of_lt (lt_of_lt_of_le page enough))
      rw [Nat.succ_mul] at this
      omega
    have place : s.offset + (p * g.stride + y) =
        (s.copyblks * g.ppb + p) * g.stride + y := by
      rw [track.offset due]
      ring
    rw [fread_byte below (place ▸ byte_in_file fit due page inside), place]
  unfold NandProg.load
  cases done : s.curblk_done with
  | false =>
      obtain ⟨holds, pages⟩ := track.loaded due done
      refine ⟨s.nand_buf, ?_, holds⟩
      rw [if_neg (by simp), ← pages, ← done]
  | true =>
      rw [if_pos rfl]
      by_cases partial_chunk : s.copyblks = fblk g file ∧ 0 < fpage g file
      · rw [if_pos partial_chunk]
        have pages : pagesOf g file s.copyblks = fpage g file := by
          rw [pagesOf, if_neg (by omega)]
        exact ⟨_, by rw [pages], fresh _ _ (le_of_eq pages)⟩
      · rw [if_neg partial_chunk]
        have pages : pagesOf g file s.copyblks = g.ppb := by
          rw [pagesOf, if_pos]
          rw [chunks] at due
          split at due <;> omega
        exact ⟨_, by rw [pages, ← track.whole due done], fresh _ _ (le_of_eq pages)⟩

/-- A block that does not take the chunk leaves it in `nand_buf`. -/
theorem OnTrack.waits {s t : Prog σ} (track : OnTrack g file P s)
    (copyblks : t.copyblks = s.copyblks) (broke : t.broke = s.broke)
    (offset : t.offset = s.offset) (loaded : t.curblk_done = false)
    (holds : P s.copyblks t.nand_buf) (pages : t.actual_pages = pagesOf g file s.copyblks) :
    OnTrack g file P t where
  within := copyblks ▸ track.within
  broke := by rw [broke, copyblks, track.broke]
  offset := by rw [offset, copyblks]; exact track.offset
  whole := fun _ done => by rw [loaded] at done; cases done
  loaded := fun _ _ => copyblks ▸ ⟨holds, pages⟩

/-- An accepted block takes its chunk; the loop ends with the last one. -/
theorem OnTrack.accept {s u : Prog σ} (check_only : Bool) (fit : file.bytes.length % g.stride = 0)
    (track : OnTrack g file P s) (running : s.broke = false) (copyblks : u.copyblks = s.copyblks)
    (broke : u.broke = s.broke) (offset : u.offset = s.offset)
    (pages : u.actual_pages = pagesOf g file s.copyblks) :
    ∃ t, NandProg.accept g check_only file u = t ∧ OnTrack g file P t ∧
      t.curblk = u32 (u.curblk + 1) ∧ t.copyblks = s.copyblks + 1 ∧ t.flash = u.flash ∧
      t.calls = u.calls ∧ t.checkerr = u.checkerr ∧
      t.printed = u.printed ++ if t.broke then
        [if check_only then .check_file t.copyblks t.checkerr else .finished] else [] := by
  have due := track.due running
  have count : u32 (s.copyblks + 1) = s.copyblks + 1 :=
    u32_of_lt (lt_of_le_of_lt due (chunks_lt fit))
  have next_offset : s.copyblks + 1 < chunks g file →
      u32 (s.offset + g.ppb * g.stride) = (s.copyblks + 1) * (g.ppb * g.stride) := by
    intro next
    have := (before_chunk next).2
    rw [track.offset due, Nat.succ_mul] at *
    exact u32_of_lt (by omega)
  have last := allCopied_iff (show s.copyblks + 1 ≤ chunks g file from due)
  have accepted : NandProg.accept g check_only file u = { u with
      curblk_done := true
      offset := u32 (s.offset + g.ppb * g.stride)
      curblk := u32 (u.curblk + 1)
      copyblks := s.copyblks + 1
      broke := allCopied g file (s.copyblks + 1)
      printed := u.printed ++ if allCopied g file (s.copyblks + 1) then
        [if check_only then .check_file (s.copyblks + 1) u.checkerr else .finished] else [] } := by
    rw [NandProg.accept, copyblks, count, offset]
    cases all : allCopied g file (s.copyblks + 1) with
    | true => rfl
    | false => simp [broke, running]
  refine ⟨_, accepted, ⟨due, last, next_offset, ?_, fun _ done => Bool.noConfusion done⟩,
    rfl, rfl, rfl, rfl, rfl, rfl⟩
  exact fun next _ => pages.trans (before_chunk next).1

end OnTrack

end CFunc.NandProg
