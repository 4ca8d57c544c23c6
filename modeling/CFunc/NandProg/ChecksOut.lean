import CFunc.NandProg.Check

/-!
When an image that was programmed passes the check.

Programming puts 0xff before the ECC bytes, so tags there are lost; check mode
puts 0xff over 36 bytes, whatever the number of the parities. Where the parities
reach the first two bytes of the OOB, the last page of a block may moreover
take a mark, and checking skips the block.
-/

namespace CFunc.NandProg

open CFunc.Lib CFunc.Lib.Buffer

section Condition

variable (g : Geometry) (parity : List Byte → Nat → Byte) (file : File)

/-- The pages of the image. -/
def imagePages : Nat := file.bytes.length / g.stride

/-- The place of the ECC bytes is left 0xff in a yaffs2 image. -/
def Yaffs2 : Prop :=
  ∀ q < imagePages g file, ∀ z, g.ecc_pos ≤ z → z < g.ecc_pos + PAR_SIZE * g.ecccnt →
    file.byte (q * g.stride + g.pagesize + z) = 0xff

/-- Page `q` survives programming and the 36 bytes of 0xff: its tags before the
ECC bytes and in the rest of the 36 bytes are 0xff, and so are the parities
from the 37th on. -/
structure SurvivesCheck (q : Nat) : Prop where
  before : ∀ z < g.ecc_pos, file.byte (q * g.stride + g.pagesize + z) = 0xff
  covered : ∀ z < g.oobsize, g.ecc_pos + PAR_SIZE * g.ecccnt ≤ z → z < g.ecc_pos + 36 →
    file.byte (q * g.stride + g.pagesize + z) = 0xff
  uncovered : ∀ x < PAR_SIZE * g.ecccnt, 36 ≤ x →
    parityAt parity file.byte (q * g.stride) x = 0xff

/-- The last page of whole chunk `k` leaves its block unmarked. -/
def KeepsMark (k : Nat) : Prop :=
  written g parity file (k * g.ppb + (g.ppb - 1)) g.pagesize = 0xff ∧
    written g parity file (k * g.ppb + (g.ppb - 1)) (g.pagesize + 1) = 0xff

def Blank (q : Nat) : Prop :=
  ∀ y < g.stride, file.byte (q * g.stride + y) = 0xff

/-- The image passes the check. Every whole chunk before `m` keeps its mark and
none from `m` on does; the pages survive, but for those of the chunks that lost
their block. In their place, and for all that follows, the image must be blank
and the range must have as many blocks to spare. Usually `m` is the number of
the whole chunks. -/
structure ChecksOut (spare m : Nat) : Prop where
  within : m ≤ fblk g file
  kept : ∀ k < m, KeepsMark g parity file k
  lost : ∀ k, m ≤ k → k < fblk g file → ¬ KeepsMark g parity file k
  blank : m < fblk g file → ∀ q < imagePages g file, m * g.ppb ≤ q → Blank g file q
  survives : ∀ q < imagePages g file, q < m * g.ppb ∨ fblk g file * g.ppb ≤ q →
    SurvivesCheck g parity file q
  spare_blocks : fblk g file - m ≤ spare

end Condition

section Pages

variable {g : Geometry} {parity : List Byte → Nat → Byte} {file : File}

/-- Marks are kept when the ECC bytes start behind them. -/
theorem keepsMark_of_two_le (behind : 2 ≤ g.ecc_pos) (k : Nat) : KeepsMark g parity file k := by
  constructor <;>
  · rw [written, programmed, if_neg (by omega), if_pos (by omega)]

/-- With the ECC bytes behind the marks, the image passes when all its pages survive. -/
theorem checksOut_iff_of_two_le (behind : 2 ≤ g.ecc_pos) {spare : Nat} :
    (∃ m, ChecksOut g parity file spare m) ↔
      ∀ q < imagePages g file, SurvivesCheck g parity file q := by
  constructor
  · rintro ⟨m, out⟩ q inside
    have whole : m = fblk g file := by
      refine le_antisymm out.within (Nat.le_of_not_lt fun less => ?_)
      exact out.lost m le_rfl less (keepsMark_of_two_le behind m)
    exact out.survives q inside (whole ▸ Nat.lt_or_ge q _)
  · intro all
    exact ⟨fblk g file, le_rfl, fun k _ => keepsMark_of_two_le behind k,
      fun k le less => absurd less (Nat.not_lt.mpr le), fun less => absurd less (lt_irrefl _),
      fun q inside _ => all q inside, by simp⟩

theorem imagePages_eq (fit : file.bytes.length % g.stride = 0) :
    imagePages g file = fblk g file * g.ppb + fpage g file := by
  obtain ⟨blocks, left⟩ := length_eq_pages fit
  rw [imagePages, blocks, left, Nat.mul_comm _ g.ppb, Nat.div_add_mod]

theorem page_lt (fit : file.bytes.length % g.stride = 0) {k p : Nat} (chunk : k < chunks g file)
    (page : p < pagesOf g file k) : k * g.ppb + p < imagePages g file :=
  imagePages_eq fit ▸ page_in_file chunk page

theorem le_page {m k p : Nat} (le : m ≤ k) : m * g.ppb ≤ k * g.ppb + p :=
  le_trans (Nat.mul_le_mul_right _ le) (Nat.le_add_right _ _)

theorem page_lt_iff {m k p : Nat} (page : p < g.ppb) :
    k * g.ppb + p < m * g.ppb ↔ k < m := by
  constructor
  · intro lt
    by_contra ge
    have := Nat.mul_le_mul_right g.ppb (Nat.le_of_not_lt ge)
    omega
  · intro lt
    have := Nat.mul_le_mul_right g.ppb lt
    rw [Nat.succ_mul] at this
    omega

/-- Every page of the image is a page of a chunk. -/
theorem exists_chunk (fit : file.bytes.length % g.stride = 0) {q : Nat}
    (inside : q < imagePages g file) :
    ∃ k p, k < chunks g file ∧ p < pagesOf g file k ∧ p < g.ppb ∧ q = k * g.ppb + p := by
  have split := Nat.div_add_mod' q g.ppb
  have small := Nat.mod_lt q g.some_pages
  rw [imagePages_eq fit] at inside
  refine ⟨q / g.ppb, q % g.ppb, ?_, ?_, small, split.symm⟩
  · rw [chunks]
    by_cases whole : q / g.ppb < fblk g file
    · omega
    · have := Nat.mul_le_mul_right g.ppb (Nat.le_of_not_lt whole)
      have left : 0 < fpage g file := by omega
      have : q / g.ppb < fblk g file + 1 := by
        refine (Nat.div_lt_iff_lt_mul g.some_pages).mpr ?_
        have := (length_eq_pages fit).2
        have := Nat.mod_lt (file.bytes.length / g.stride) g.some_pages
        rw [Nat.succ_mul]
        omega
      rw [if_pos left]
      exact this
  · rw [pagesOf]
    split
    · exact small
    · rename_i not_whole
      have := Nat.mul_le_mul_right g.ppb (Nat.le_of_not_lt not_whole)
      omega

/-- From the 37th on the parities are what check mode sees. -/
theorem restored_parity {q x : Nat} (ecc : x < PAR_SIZE * g.ecccnt) (uncovered : 36 ≤ x) :
    restored g (written g parity file q) (g.pagesize + (g.ecc_pos + x)) =
      parityAt parity file.byte (q * g.stride) x := by
  rw [restored, if_neg (by omega), written, programmed, if_neg (by omega), if_neg (by omega),
    if_pos (by omega)]
  congr 1
  omega

/-- What check mode makes of a programmed page of a yaffs2 image is the page of
the image exactly when the page survives. -/
theorem survivesCheck_iff (yaffs2 : Yaffs2 g file) {q : Nat} (inside : q < imagePages g file) :
    SurvivesCheck g parity file q ↔ ∀ y < g.stride,
      file.byte (q * g.stride + y) = restored g (written g parity file q) y := by
  have ecc := yaffs2 q inside
  have fits := g.ecc_fits
  constructor
  · rintro ⟨before, covered, uncovered⟩ y lt
    by_cases data : y < g.pagesize
    · rw [restored, if_neg (by omega), written, programmed, if_pos data]
    obtain ⟨z, rfl⟩ := Nat.exists_eq_add_of_le (Nat.le_of_not_lt data)
    rw [Geometry.stride] at lt
    rw [← Nat.add_assoc]
    by_cases early : z < g.ecc_pos
    · rw [before z early, restored, if_neg (by omega), written, programmed, if_neg data,
        if_pos (by omega)]
    by_cases restore : z < g.ecc_pos + 36
    · rw [restored, if_pos (by omega)]
      by_cases is_parity : z < g.ecc_pos + PAR_SIZE * g.ecccnt
      · exact ecc z (by omega) is_parity
      · exact covered z (by omega) (by omega) restore
    by_cases is_parity : z < g.ecc_pos + PAR_SIZE * g.ecccnt
    · obtain ⟨x, rfl⟩ := Nat.exists_eq_add_of_le (show g.ecc_pos ≤ z by omega)
      rw [ecc _ (by omega) is_parity, restored_parity (by omega) (by omega),
        uncovered x (by omega) (by omega)]
    · rw [restored, if_neg (by omega), written, programmed, if_neg data, if_neg (by omega),
        if_neg (by omega), Nat.add_assoc]
  · intro same
    refine ⟨fun z lt => ?_, fun z lt above below => ?_, fun x lt above => ?_⟩
    · have at_z := same (g.pagesize + z) (by rw [Geometry.stride]; omega)
      rw [restored, if_neg (by omega), written, programmed, if_neg (by omega),
        if_pos (by omega), ← Nat.add_assoc] at at_z
      exact at_z
    · have at_z := same (g.pagesize + z) (by rw [Geometry.stride]; omega)
      rw [restored, if_pos (by omega), ← Nat.add_assoc] at at_z
      exact at_z
    · have at_x := same (g.pagesize + (g.ecc_pos + x)) (by rw [Geometry.stride]; omega)
      rw [restored_parity lt above, ← Nat.add_assoc, ecc _ (by omega) (by omega)] at at_x
      exact at_x.symm

end Pages

/-! ### What checking sees of the blocks -/

section Marks

variable {g : Geometry} {parity : List Byte → Nat → Byte} {file : File} {start_block : Nat}
  {chip₀ chip : Chip}

/-- After programming a block is marked when it was before, or when it holds a
whole chunk that does not keep the mark. -/
theorem marked_stored (fit : file.bytes.length % g.stride = 0)
    (stored : Stored g parity file start_block chip₀ (chunks g file) chip) {b : Nat}
    (le : start_block ≤ b) : marked g chip b = true ↔ marked g chip₀ b = true ∨
      goods (marked g chip₀) start_block b < fblk g file ∧
        ¬ KeepsMark g parity file (goods (marked g chip₀) start_block b) := by
  have oob : g.pagesize + 1 < g.stride := by
    have fits := g.ecc_fits
    have some := g.some_data
    simp only [Geometry.stride, PAR_SIZE] at *
    omega
  by_cases whole : marked g chip₀ b = false ∧ goods (marked g chip₀) start_block b < fblk g file
  · obtain ⟨good, less⟩ := whole
    have due : goods (marked g chip₀) start_block b < chunks g file :=
      lt_of_lt_of_le less (Nat.le_add_right _ _)
    have last : g.ppb - 1 < pagesOf g file (goods (marked g chip₀) start_block b) := by
      rw [pagesOf, if_pos less]
      exact last_lt g
    have content := stored.taken b le good due _ last
    simp only [marked, last_page, content _ oob, content _ (by omega : g.pagesize < g.stride),
      KeepsMark] at good ⊢
    simp only [good, Bool.false_eq_true, false_or, less, true_and, Bool.or_eq_true,
      decide_eq_true_eq]
    tauto
  · have same : marked g chip b = marked g chip₀ b := by
      refine marked_congr (stored.others b _ (last_lt g) fun _ good due => ?_)
      have not_whole : ¬ goods (marked g chip₀) start_block b < fblk g file :=
        fun less => whole ⟨good, less⟩
      have left := (length_eq_pages fit).2
      have := Nat.mod_lt (file.bytes.length / g.stride) g.some_pages
      rw [pagesOf, if_neg not_whole]
      omega
    rw [same]
    constructor
    · exact .inl
    · rintro (is_marked | ⟨less, _⟩)
      · exact is_marked
      · by_contra good
        exact whole ⟨by simpa using good, less⟩

/-- The number of a block among those that still look good, when the chunks
from `m` on lose their marks, up to `h`. -/
theorem goods_stored (fit : file.bytes.length % g.stride = 0)
    (stored : Stored g parity file start_block chip₀ (chunks g file) chip) {m h : Nat}
    (ordered : m ≤ h) (whole : h ≤ fblk g file) (kept : ∀ k < m, KeepsMark g parity file k)
    (lost : ∀ k, m ≤ k → k < h → ¬ KeepsMark g parity file k) {b : Nat} (le : start_block ≤ b)
    (within : h = fblk g file ∨ goods (marked g chip₀) start_block b ≤ h) :
    goods (marked g chip) start_block b = min (goods (marked g chip₀) start_block b) m +
      (goods (marked g chip₀) start_block b - h) := by
  induction b, le using Nat.le_induction with
  | base => simp [goods]
  | succ b le ih =>
      have mono := goods_mono (marked g chip₀) start_block (Nat.le_succ b)
      have before := ih (within.imp_right fun bound => le_trans mono bound)
      have seen := marked_stored fit stored le
      rw [goods_succ le, before, goods_succ le]
      rw [goods_succ le] at within
      cases good : marked g chip₀ b with
      | true =>
          rw [seen.mpr (.inl good)]
          simp
      | false =>
          rw [good] at within
          simp only [Bool.false_eq_true, ↓reduceIte, good, false_or] at within seen ⊢
          by_cases in_between : m ≤ goods (marked g chip₀) start_block b ∧
              goods (marked g chip₀) start_block b < h
          · rw [if_pos (seen.mpr ⟨by omega, lost _ in_between.1 in_between.2⟩)]
            omega
          · have unmarked : ¬ marked g chip b = true := by
              rw [seen]
              rintro ⟨less, not_kept⟩
              refine not_kept (kept _ ?_)
              omega
            rw [if_neg unmarked]
            omega

end Marks

end CFunc.NandProg
