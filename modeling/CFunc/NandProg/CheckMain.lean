import CFunc.NandProg.ChecksOut

/-!
Checking after programming.

Blocks that took a mark are skipped, so chunks may be compared with blocks of
other chunks, or with erased ones. Equal data make equal marks, which leaves
few ways for such a comparison to succeed.
-/

namespace CFunc.NandProg

open CFunc.Lib CFunc.Lib.Buffer

section Agreement

variable {g : Geometry} {parity : List Byte → Nat → Byte} {file : File}
  {start_block last_block : Nat} {chip₀ chip : Chip}

theorem restored_congr {page page' : Nat → Byte} {y : Nat} (same : page y = page' y) :
    restored g page y = restored g page' y := by
  unfold restored
  rw [same]

theorem range_of_finished {bad : Nat → Bool} (fit : file.bytes.length % g.stride = 0)
    (some_bytes : 0 < file.bytes.length)
    (finished : chunks g file ≤ goods bad start_block (last_block + 1)) :
    start_block ≤ last_block + 1 := by
  obtain ⟨b, le, less, -⟩ :=
    exists_of_lt_goods (lt_of_lt_of_le (chunks_pos fit some_bytes) finished)
  omega

/-- A page that programming left alone is restored to 0xff. -/
theorem Stored.restored_free (stored : Stored g parity file start_block chip₀ (chunks g file) chip)
    {b p y : Nat} (page : p < g.ppb) (inside : y < g.stride) (erased : Erased g chip₀ b)
    (free : goods (marked g chip₀) start_block b < chunks g file →
      pagesOf g file (goods (marked g chip₀) start_block b) ≤ p) :
    restored g (chip (b * g.ppb + p)) y = 0xff := by
  rw [stored.others b p page fun _ _ => free, restored, erased p page y inside, ite_self]

/-- A block agrees with the chunk it holds exactly when the pages of the chunk survive. -/
theorem Stored.compares_iff (fit : file.bytes.length % g.stride = 0) (yaffs2 : Yaffs2 g file)
    (stored : Stored g parity file start_block chip₀ (chunks g file) chip) {b k : Nat}
    (le : start_block ≤ b) (good : marked g chip₀ b = false)
    (number : goods (marked g chip₀) start_block b = k) (chunk : k < chunks g file) :
    Compares g file chip k b ↔
      ∀ p < pagesOf g file k, SurvivesCheck g parity file (k * g.ppb + p) := by
  refine forall₂_congr fun p page => ?_
  rw [survivesCheck_iff yaffs2 (page_lt fit chunk page)]
  refine forall₂_congr fun y inside => ?_
  subst number
  rw [restored_congr (stored.taken b le good chunk p page y inside)]

/-- With the blocks to spare, checking finds enough blocks that look good. -/
theorem ChecksOut.enough {m : Nat} (out : ChecksOut g parity file
      (goods (marked g chip₀) start_block (last_block + 1) - chunks g file) m)
    (fit : file.bytes.length % g.stride = 0) (some_bytes : 0 < file.bytes.length)
    (stored : Stored g parity file start_block chip₀ (chunks g file) chip)
    (finished : chunks g file ≤ goods (marked g chip₀) start_block (last_block + 1)) :
    chunks g file ≤ goods (marked g chip) start_block (last_block + 1) := by
  rw [goods_stored fit stored out.within le_rfl out.kept out.lost
    (range_of_finished fit some_bytes finished) (.inl rfl)]
  have spare := out.spare_blocks
  have within := out.within
  have whole : fblk g file ≤ chunks g file := Nat.le_add_right _ _
  omega

/-- An image that checks out is reported without errors. -/
theorem ChecksOut.allCompare {spare m : Nat} (out : ChecksOut g parity file spare m)
    (fit : file.bytes.length % g.stride = 0) (yaffs2 : Yaffs2 g file)
    (stored : Stored g parity file start_block chip₀ (chunks g file) chip)
    (erased : ∀ b, start_block ≤ b → b ≤ last_block → marked g chip₀ b = false →
      Erased g chip₀ b)
    (enough : chunks g file ≤ goods (marked g chip) start_block (last_block + 1)) :
    AllCompare g file start_block chip (chunks g file) := by
  intro b le unmarked less
  have in_range : b < last_block + 1 := (goods_lt_iff le unmarked).mp (lt_of_lt_of_le less enough)
  have seen := marked_stored fit stored le
  rw [unmarked] at seen
  simp only [Bool.false_eq_true, false_iff, not_or, not_and, not_not] at seen
  obtain ⟨not_marked, keeps⟩ := seen
  have good : marked g chip₀ b = false := by simpa using not_marked
  have number := goods_stored fit stored out.within le_rfl out.kept out.lost le (.inl rfl)
  rw [number] at less ⊢
  have within := out.within
  have side : goods (marked g chip₀) start_block b < m ∨
      fblk g file ≤ goods (marked g chip₀) start_block b := by
    by_contra between
    exact out.lost _ (by omega) (by omega) (keeps (by omega))
  by_cases moved : m < fblk g file ∧ fblk g file ≤ goods (marked g chip₀) start_block b
  · -- a chunk that lost its block, or follows one that did
    obtain ⟨some_lost, behind⟩ := moved
    have chunk : m ≤ min (goods (marked g chip₀) start_block b) m +
        (goods (marked g chip₀) start_block b - fblk g file) := by omega
    intro p page y inside
    rw [out.blank some_lost _ (page_lt fit less page) (le_page chunk) y inside]
    by_cases held : goods (marked g chip₀) start_block b < chunks g file ∧
        p < pagesOf g file (goods (marked g chip₀) start_block b)
    · obtain ⟨due, page'⟩ := held
      have in_image := page_lt fit due page'
      have survives := out.survives _ in_image (.inr (le_page behind))
      rw [restored_congr (stored.taken b le good due p page' y inside),
        ← (survivesCheck_iff yaffs2 in_image).mp survives y inside]
      exact (out.blank some_lost _ in_image (le_page (by omega)) y inside).symm
    · exact (stored.restored_free (lt_of_lt_of_le page (pagesOf_le fit _)) inside
        (erased b le (Nat.le_of_lt_succ in_range) good) fun due => by
          by_contra page'
          exact held ⟨due, by omega⟩).symm
  · -- the chunk and its own block
    have own : min (goods (marked g chip₀) start_block b) m +
        (goods (marked g chip₀) start_block b - fblk g file) =
          goods (marked g chip₀) start_block b := by omega
    rw [own] at less ⊢
    refine (stored.compares_iff fit yaffs2 le good rfl less).mpr fun p page => ?_
    have page' := lt_of_lt_of_le page (pagesOf_le fit _)
    exact out.survives _ (page_lt fit less page) (side.imp (page_lt_iff page').mpr le_page)

theorem keepsMark_congr {k m : Nat} (same : ∀ y < g.pagesize,
    file.byte ((m * g.ppb + (g.ppb - 1)) * g.stride + y) =
      file.byte ((k * g.ppb + (g.ppb - 1)) * g.stride + y))
    (keeps : KeepsMark g parity file k) : KeepsMark g parity file m := by
  have some := g.some_data
  have marks : ∀ y < g.pagesize + 2, written g parity file (m * g.ppb + (g.ppb - 1)) y =
      written g parity file (k * g.ppb + (g.ppb - 1)) y := fun y lt =>
    programmed_congr_data same (by simp only [PAR_SIZE]; omega)
  exact ⟨(marks _ (by omega)).trans keeps.1, (marks _ (by omega)).trans keeps.2⟩

/-- After the first chunk that loses its block no whole chunk keeps its own: the
two would be compared, and equal data make equal marks. -/
theorem not_keepsMark (fit : file.bytes.length % g.stride = 0)
    (stored : Stored g parity file start_block chip₀ (chunks g file) chip)
    (enough : chunks g file ≤ goods (marked g chip₀) start_block (last_block + 1))
    (all : AllCompare g file start_block chip (chunks g file)) {m : Nat}
    (kept : ∀ k < m, KeepsMark g parity file k) (first : ¬ KeepsMark g parity file m) :
    ∀ k, m ≤ k → k < fblk g file → ¬ KeepsMark g parity file k := by
  intro k
  induction k using Nat.strong_induction_on with
  | _ k ih =>
      intro le less keeps
      have lost : ∀ i, m ≤ i → i < k → ¬ KeepsMark g parity file i :=
        fun i le' less' => ih i less' le' (lt_trans less' less)
      have m_lt : m < k := lt_of_le_of_ne le fun same => first (same ▸ keeps)
      have whole : fblk g file ≤ chunks g file := Nat.le_add_right _ _
      obtain ⟨b, start_le, -, good, number⟩ :=
        exists_of_lt_goods (lt_of_lt_of_le less (le_trans whole enough))
      have unmarked : marked g chip b = false := by
        have seen := marked_stored fit stored start_le
        rw [good, number] at seen
        simpa [keeps] using seen
      have number' : goods (marked g chip) start_block b = m := by
        rw [goods_stored fit stored le (le_of_lt less) kept lost start_le (.inr number.le), number]
        omega
      have compares := all b start_le unmarked (by omega)
      rw [number'] at compares
      refine first (keepsMark_congr (fun y data => ?_) keeps)
      have last : ∀ i < fblk g file, g.ppb - 1 < pagesOf g file i := fun i whole => by
        rw [pagesOf, if_pos whole]
        exact last_lt g
      have inside : y < g.stride := lt_of_lt_of_le data (Nat.le_add_right _ _)
      rw [compares _ (last m (by omega)) y inside,
        restored_congr (stored.taken b start_le good (by omega) _ (number ▸ last k less) y inside),
        number, restored, if_neg (by omega), written, programmed, if_pos data]

/-- The first chunk that loses its block, if a whole chunk does. -/
theorem exists_first_lost (g : Geometry) (parity : List Byte → Nat → Byte) (file : File) :
    ∃ m ≤ fblk g file, (∀ k < m, KeepsMark g parity file k) ∧
    (m < fblk g file → ¬ KeepsMark g parity file m) := by
  classical
  by_cases some : ∃ k, k < fblk g file ∧ ¬ KeepsMark g parity file k
  · obtain ⟨less, loses⟩ := Nat.find_spec some
    refine ⟨Nat.find some, le_of_lt less, fun k before => ?_, fun _ => loses⟩
    by_contra not
    exact Nat.find_min some before ⟨lt_trans before less, not⟩
  · refine ⟨fblk g file, le_rfl, fun k less => ?_, fun less => absurd less (lt_irrefl _)⟩
    by_contra not
    exact some ⟨k, less, not⟩

/-- Block `b` of the range, good before programming, was compared with chunk `k`. -/
structure Compared (g : Geometry) (file : File) (start_block last_block : Nat) (chip₀ chip : Chip)
    (k b : Nat) : Prop where
  le : start_block ≤ b
  in_range : b ≤ last_block
  good : marked g chip₀ b = false
  same : Compares g file chip k b

/-- Each chunk was compared with a block: its own, if no chunk before lost one. -/
theorem exists_compared (fit : file.bytes.length % g.stride = 0)
    (stored : Stored g parity file start_block chip₀ (chunks g file) chip)
    (enough : chunks g file ≤ goods (marked g chip) start_block (last_block + 1))
    (all : AllCompare g file start_block chip (chunks g file)) {m : Nat}
    (within : m ≤ fblk g file) (kept : ∀ k < m, KeepsMark g parity file k)
    (lost : ∀ k, m ≤ k → k < fblk g file → ¬ KeepsMark g parity file k) {k : Nat}
    (chunk : k < chunks g file) :
    ∃ b, Compared g file start_block last_block chip₀ chip k b ∧
      (k < m ∧ goods (marked g chip₀) start_block b = k ∨
        m ≤ k ∧ goods (marked g chip₀) start_block b + m = k + fblk g file) := by
  obtain ⟨b, le, less, unmarked, number⟩ := exists_of_lt_goods (lt_of_lt_of_le chunk enough)
  have compares := all b le unmarked (number ▸ chunk)
  have marks := marked_stored fit stored le
  rw [unmarked] at marks
  simp only [Bool.false_eq_true, false_iff, not_or, not_and, not_not] at marks
  obtain ⟨not_marked, keeps⟩ := marks
  have side : goods (marked g chip₀) start_block b < m ∨
      fblk g file ≤ goods (marked g chip₀) start_block b := by
    by_contra between
    exact lost _ (by omega) (by omega) (keeps (by omega))
  have formula := goods_stored fit stored within le_rfl kept lost le (.inl rfl)
  exact ⟨b, ⟨le, by omega, by simpa using not_marked, number ▸ compares⟩, by omega⟩

/-- A page compared with one that programming left alone is blank. -/
theorem Compared.blank {k b p : Nat} (fit : file.bytes.length % g.stride = 0)
    (stored : Stored g parity file start_block chip₀ (chunks g file) chip)
    (erased : ∀ b, start_block ≤ b → b ≤ last_block → marked g chip₀ b = false →
      Erased g chip₀ b)
    (compared : Compared g file start_block last_block chip₀ chip k b)
    (page : p < pagesOf g file k)
    (free : goods (marked g chip₀) start_block b < chunks g file →
      pagesOf g file (goods (marked g chip₀) start_block b) ≤ p) :
    Blank g file (k * g.ppb + p) := by
  intro y inside
  rw [compared.same p page y inside]
  exact stored.restored_free (lt_of_lt_of_le page (pagesOf_le fit _)) inside
    (erased b compared.le compared.in_range compared.good) free

/-- A blank page survives when it was compared with a page of the image, and so
that page is blank too: the parities that check mode sees are 0xff there. -/
theorem Compared.survives_of_blank {k n b p : Nat} (fit : file.bytes.length % g.stride = 0)
    (yaffs2 : Yaffs2 g file)
    (stored : Stored g parity file start_block chip₀ (chunks g file) chip)
    (compared : Compared g file start_block last_block chip₀ chip k b)
    (chunk : k < chunks g file) (page : p < pagesOf g file k)
    (number : goods (marked g chip₀) start_block b = n) (chunk' : n < chunks g file)
    (page' : p < pagesOf g file n) (blank : Blank g file (n * g.ppb + p)) :
    SurvivesCheck g parity file (n * g.ppb + p) ∧ Blank g file (k * g.ppb + p) := by
  subst number
  have seen : ∀ y < g.stride, file.byte ((k * g.ppb + p) * g.stride + y) = restored g
      (written g parity file (goods (marked g chip₀) start_block b * g.ppb + p)) y := by
    intro y inside
    rw [compared.same p page y inside]
    exact restored_congr (stored.taken b compared.le compared.good chunk' p page' y inside)
  have fits := g.ecc_fits
  have survives : SurvivesCheck g parity file
      (goods (marked g chip₀) start_block b * g.ppb + p) := by
    refine ⟨fun z lt => ?_, fun z lt _ _ => ?_, fun x lt uncovered => ?_⟩
    · rw [Nat.add_assoc, blank _ (by rw [Geometry.stride]; omega)]
    · rw [Nat.add_assoc, blank _ (by rw [Geometry.stride]; omega)]
    · rw [← restored_parity lt uncovered, ← seen _ (by rw [Geometry.stride]; omega),
        ← Nat.add_assoc]
      exact yaffs2 _ (page_lt fit chunk page) _ (by omega) (by omega)
  refine ⟨survives, fun y inside => ?_⟩
  rw [seen y inside, ← (survivesCheck_iff yaffs2 (page_lt fit chunk' page')).mp survives y inside,
    blank y inside]

/-- An image that is reported without errors checks out. -/
theorem checksOut_of_allCompare (fit : file.bytes.length % g.stride = 0)
    (some_bytes : 0 < file.bytes.length) (yaffs2 : Yaffs2 g file)
    (stored : Stored g parity file start_block chip₀ (chunks g file) chip)
    (erased : ∀ b, start_block ≤ b → b ≤ last_block → marked g chip₀ b = false →
      Erased g chip₀ b)
    (finished : chunks g file ≤ goods (marked g chip₀) start_block (last_block + 1))
    (enough : chunks g file ≤ goods (marked g chip) start_block (last_block + 1))
    (all : AllCompare g file start_block chip (chunks g file)) :
    ∃ m, ChecksOut g parity file
      (goods (marked g chip₀) start_block (last_block + 1) - chunks g file) m := by
  obtain ⟨m, within, kept, first⟩ := exists_first_lost g parity file
  have lost : ∀ k, m ≤ k → k < fblk g file → ¬ KeepsMark g parity file k := fun k le less =>
    not_keepsMark fit stored finished all kept (first (lt_of_le_of_lt le less)) k le less
  have compared := fun {k} => exists_compared (k := k) fit stored enough all within kept lost
  have whole : fblk g file ≤ chunks g file := Nat.le_add_right _ _
  have at_most_one : chunks g file ≤ fblk g file + 1 := by
    rw [chunks]
    split <;> omega
  have spare : fblk g file - m ≤
      goods (marked g chip₀) start_block (last_block + 1) - chunks g file := by
    rw [goods_stored fit stored within le_rfl kept lost
      (range_of_finished fit some_bytes finished) (.inl rfl)] at enough
    omega
  -- a chunk that is compared with its own block
  have own : ∀ k < chunks g file, k < m ∨ m = fblk g file →
      ∀ p < pagesOf g file k, SurvivesCheck g parity file (k * g.ppb + p) := by
    intro k chunk same
    obtain ⟨b, with_b, place⟩ := compared chunk
    exact (stored.compares_iff fit yaffs2 with_b.le with_b.good (by omega) chunk).mp with_b.same
  -- a chunk that is compared with a block to spare
  have beyond : ∀ k < chunks g file, m ≤ k → chunks g file + m ≤ k + fblk g file →
      ∀ p < pagesOf g file k, Blank g file (k * g.ppb + p) := by
    intro k chunk le far p page
    obtain ⟨b, with_b, place⟩ := compared chunk
    exact with_b.blank fit stored erased page fun due => by omega
  -- the pages left, with which chunk `m` is compared
  have left : m < fblk g file → fblk g file < chunks g file →
      ∀ p < pagesOf g file (fblk g file), SurvivesCheck g parity file (fblk g file * g.ppb + p) ∧
        Blank g file (m * g.ppb + p) := by
    intro some_lost chunk p page
    obtain ⟨b, with_b, place⟩ := compared (show m < chunks g file by omega)
    refine with_b.survives_of_blank fit yaffs2 stored (by omega) ?_ (by omega) chunk page
      (beyond _ chunk within (by omega) p page)
    rw [pagesOf, if_pos some_lost]
    exact lt_of_lt_of_le page (pagesOf_le fit _)
  refine ⟨m, within, kept, lost, fun some_lost q inside from_m => ?_, fun q inside place => ?_,
    spare⟩
  · obtain ⟨k, p, chunk, page, page', rfl⟩ := exists_chunk fit inside
    have le : m ≤ k := Nat.le_of_not_lt fun less =>
      absurd ((page_lt_iff page').mpr less) (Nat.not_lt.mpr from_m)
    by_cases far : chunks g file + m ≤ k + fblk g file
    · exact beyond k chunk le far p page
    obtain rfl : k = m := by omega
    by_cases page_left : p < pagesOf g file (fblk g file)
    · exact (left some_lost (by omega) p page_left).2
    · obtain ⟨b, with_b, place⟩ := compared chunk
      refine with_b.blank fit stored erased page fun _ => ?_
      rw [show goods (marked g chip₀) start_block b = fblk g file by omega]
      omega
  · obtain ⟨k, p, chunk, page, page', rfl⟩ := exists_chunk fit inside
    by_cases same : k < m ∨ m = fblk g file
    · exact own k chunk same p page
    · have behind : fblk g file ≤ k := Nat.le_of_not_lt fun less => by
        have := (page_lt_iff page').mpr less
        have := place.imp_left (page_lt_iff page').mp
        omega
      obtain rfl : k = fblk g file := by omega
      exact (left (by omega) chunk p page).1

end Agreement

/-- On a faithful chip whose good blocks are erased: when programming finishes a
yaffs2 image, checking it over the same blocks reports no error exactly when
the image checks out. -/
theorem check_reports_no_error_iff (g : Geometry) (parity : List Byte → Nat → Byte) (file : File)
    (fit : file.bytes.length % g.stride = 0) (some_bytes : 0 < file.bytes.length)
    (yaffs2 : Yaffs2 g file) (start_block last_block : Nat)
    (on_chip : (last_block + 1) * g.ppb < 2 ^ 32) (chip₀ : Chip)
    (erased : ∀ b, start_block ≤ b → b ≤ last_block → marked g chip₀ b = false →
      Erased g chip₀ b)
    (nand_buf check_buf nand_buf' check_buf' : Nat → Byte) (t : Prog Chip)
    (programmed : do_prog_part (faithful g parity) g false (some file) start_block last_block chip₀
      nand_buf check_buf = .done (0, t))
    (finished : .finished ∈ t.printed) :
    ∃ t', do_prog_part (faithful g parity) g true (some file) start_block last_block t.flash
        nand_buf' check_buf' = .done (0, t') ∧
      ((∃ n, .check_file n 0 ∈ t'.printed) ↔ ∃ m, ChecksOut g parity file
        (goods (marked g chip₀) start_block (last_block + 1) - chunks g file) m) := by
  obtain ⟨u, ran, -, finished_iff, stored⟩ :=
    program_run parity start_block last_block fit some_bytes on_chip chip₀ erased nand_buf check_buf
  obtain rfl : t = u := by
    rw [ran] at programmed
    exact (Prod.mk.inj (Loop.Result.done.inj programmed)).2.symm
  have enough := finished_iff.mp finished
  replace stored := stored finished
  obtain ⟨t', checked, no_error⟩ :=
    check_run parity start_block last_block fit some_bytes on_chip t.flash nand_buf' check_buf'
  refine ⟨t', checked, no_error.trans ⟨fun ⟨enough', all⟩ => ?_, fun ⟨m, out⟩ => ?_⟩⟩
  · exact checksOut_of_allCompare fit some_bytes yaffs2 stored erased enough enough' all
  · have enough' := out.enough fit some_bytes stored enough
    exact ⟨enough', out.allCompare fit yaffs2 stored erased enough'⟩

/-! ### A page of 2048 bytes -/

theorem test_image_oob (tag : Byte) (z : Nat) : (test_image tag).byte (2048 + z) =
    (((List.replicate 28 tag ++ List.replicate 36 0xff)[z]?).getD 0) := by
  have data : (List.replicate 2048 (0 : Byte)).length = 2048 := List.length_replicate
  rw [File.byte, test_image, List.getElem?_append_right (by rw [data]; omega), data,
    Nat.add_sub_cancel_left]

theorem test_image_tag (tag : Byte) {z : Nat} (lt : z < 28) :
    (test_image tag).byte (2048 + z) = tag := by
  rw [test_image_oob, List.getElem?_append_left (by rwa [List.length_replicate]),
    List.getElem?_replicate_of_lt lt]
  rfl

theorem test_image_ecc (tag : Byte) {z : Nat} (le : 28 ≤ z) (lt : z < 64) :
    (test_image tag).byte (2048 + z) = 0xff := by
  rw [test_image_oob, List.getElem?_append_right (by rwa [List.length_replicate]),
    List.length_replicate, List.getElem?_replicate_of_lt (by omega)]
  rfl

theorem erased_everywhere (g : Geometry) (b : Nat) :
    marked g (fun _ _ => 0xff) b = false ∧ Erased g (fun _ _ => 0xff) b := by
  simp [marked, Erased]


theorem test_image_pages (tag : Byte) : imagePages test_geometry (test_image tag) = 1 := by
  rw [imagePages, length_test_image]
  exact Nat.div_self test_geometry.stride_pos

theorem test_image_chunks (tag : Byte) : chunks test_geometry (test_image tag) = 1 := by
  rw [chunks, fpage, fblk, length_test_image]
  rfl

theorem test_image_yaffs2 (tag : Byte) : Yaffs2 test_geometry (test_image tag) := by
  intro q inside z le lt
  rw [test_image_pages] at inside
  obtain rfl : q = 0 := by omega
  rw [Nat.zero_mul, Nat.zero_add]
  exact test_image_ecc tag le lt

/-- All blocks of an erased chip are good. -/
theorem goods_erased (g : Geometry) (start_block b : Nat) :
    goods (marked g fun _ _ => 0xff) start_block b = b - start_block := by
  have unmarked : (marked g fun _ _ => 0xff) = fun _ => false :=
    funext fun c => (erased_everywhere g c).1
  rw [unmarked]
  simp [goods]

/-- Programming finishes the page on an erased chip. -/
theorem test_image_finished (parity : List Byte → Nat → Byte) (tag : Byte) :
    ∃ t, do_prog_part (faithful test_geometry parity) test_geometry false
        (some (test_image tag)) 512 1024 (fun _ _ => 0xff) (fun _ => 0) (fun _ => 0) =
          .done (0, t) ∧ .finished ∈ t.printed ∧
      Stored test_geometry parity (test_image tag) 512 (fun _ _ => 0xff)
        (chunks test_geometry (test_image tag)) t.flash := by
  obtain ⟨t, ran, -, finished, stored⟩ := program_run parity 512 1024 (test_image_fit tag)
    (length_test_image tag ▸ test_geometry.stride_pos) (by decide) (fun _ _ => 0xff)
    (fun b _ _ _ => (erased_everywhere _ b).2) (fun _ => 0) (fun _ => 0)
  rw [test_image_chunks, goods_erased] at finished
  have done := finished.mpr (by decide)
  exact ⟨t, ran, done, stored done⟩

/-- Without tags before the ECC bytes the page passes the check. -/
theorem check_reports_no_error_sample : ∃ t t',
    do_prog_part (faithful test_geometry fun _ _ => 0) test_geometry false
        (some (test_image 0xff)) 512 1024 (fun _ _ => 0xff) (fun _ => 0) (fun _ => 0) =
      .done (0, t) ∧
    do_prog_part (faithful test_geometry fun _ _ => 0) test_geometry true
        (some (test_image 0xff)) 512 1024 t.flash (fun _ => 0) (fun _ => 0) = .done (0, t') ∧
    ∃ n, .check_file n 0 ∈ t'.printed := by
  obtain ⟨t, ran, finished, -⟩ := test_image_finished (fun _ _ => 0) 0xff
  obtain ⟨t', checked, no_error⟩ := check_reports_no_error_iff test_geometry (fun _ _ => 0)
    (test_image 0xff) (test_image_fit _) (length_test_image _ ▸ test_geometry.stride_pos)
    (test_image_yaffs2 _) 512 1024 (by decide) (fun _ _ => 0xff)
    (fun b _ _ _ => (erased_everywhere _ b).2) (fun _ => 0) (fun _ => 0) (fun _ => 0) (fun _ => 0)
    t ran finished
  refine ⟨t, t', ran, checked, no_error.mpr ((checksOut_iff_of_two_le (by decide)).mpr ?_)⟩
  intro q inside
  rw [test_image_pages] at inside
  obtain rfl : q = 0 := by omega
  refine ⟨fun z lt => ?_, fun z lt above below => ?_, fun x lt above => ?_⟩
  · rw [Nat.zero_mul, Nat.zero_add]
    exact test_image_tag _ lt
  · have := above.trans_lt below
    simp [test_geometry, PAR_SIZE] at this
  · exact absurd lt (Nat.not_lt.mpr above)

/-- A tag before the ECC bytes is lost, and checking the page reports an error. -/
theorem tags_lost : ∃ t t',
    do_prog_part (faithful test_geometry fun _ _ => 0) test_geometry false
        (some (test_image 0)) 512 1024 (fun _ _ => 0xff) (fun _ => 0) (fun _ => 0) =
      .done (0, t) ∧ .finished ∈ t.printed ∧ Yaffs2 test_geometry (test_image 0) ∧
    do_prog_part (faithful test_geometry fun _ _ => 0) test_geometry true
        (some (test_image 0)) 512 1024 t.flash (fun _ => 0) (fun _ => 0) = .done (0, t') ∧
    ¬ ∃ n, .check_file n 0 ∈ t'.printed := by
  obtain ⟨t, ran, finished, stored⟩ := test_image_finished (fun _ _ => 0) 0
  obtain ⟨t', checked, no_error⟩ := check_run (fun _ _ => 0) 512 1024 (test_image_fit 0)
    (length_test_image _ ▸ test_geometry.stride_pos) (by decide) t.flash (fun _ => 0) (fun _ => 0)
  refine ⟨t, t', ran, finished, test_image_yaffs2 0, checked, fun reported => ?_⟩
  obtain ⟨enough, all⟩ := no_error.mp reported
  have out := checksOut_of_allCompare (test_image_fit 0)
    (length_test_image _ ▸ test_geometry.stride_pos) (test_image_yaffs2 0) stored
    (fun b _ _ _ => (erased_everywhere _ b).2)
    (by rw [test_image_chunks, goods_erased]; decide) enough all
  have survives := (checksOut_iff_of_two_le (by decide)).mp out 0 (by rw [test_image_pages]; decide)
  have tag := survives.before 0 (by decide)
  rw [Nat.zero_mul, Nat.zero_add] at tag
  exact absurd ((test_image_tag 0 (by decide)).symm.trans tag) (by decide)

end CFunc.NandProg
