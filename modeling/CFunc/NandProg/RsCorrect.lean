import CFunc.NandProg.Bus

/-!
What the driver corrects when the decoder reports errors.

The decoder counts symbols of nine bits from 1 on, so the symbol `idx` begins at
bit `9 * (idx - 1)` of its chunk and lies in two bytes. The symbols from the
456th on reach past the 4096 bits of the chunk.
-/

namespace CFunc.NandProg

/-- What xoring `mask` into symbol `idx` does to byte `m` of the chunk. -/
def symbolByte (idx mask m : Nat) : Byte :=
  BitVec.ofNat 8 ((mask <<< (9 * (idx - 1))) >>> (8 * m))

theorem getLsbD_symbolByte (idx mask m l : Nat) :
    (symbolByte idx mask m).getLsbD l =
      (decide (l < 8) && decide (9 * (idx - 1) ≤ 8 * m + l) &&
        mask.testBit (8 * m + l - 9 * (idx - 1))) := by
  simp [symbolByte, BitVec.getLsbD_ofNat, Nat.testBit_shiftRight, Nat.testBit_shiftLeft,
    Bool.and_assoc]

theorem testBit_of_ge {mask k : Nat} (mask_lt : mask < 512) (big : 9 ≤ k) :
    mask.testBit k = false :=
  Nat.testBit_lt_two_pow (lt_of_lt_of_le mask_lt (Nat.pow_le_pow_right (n := 2) (by decide) big))

theorem correctedWord_eq (d : BitVec 16) {mask : Nat} (mask_lt : mask < 512) (r : Nat) :
    correctedWord d r mask = d ^^^ (BitVec.ofNat 16 mask <<< r) := by
  have ones (k : Nat) : (0x1ff : BitVec 16).getLsbD k = decide (k < 9) := by
    have literal : (0x1ff : BitVec 16) = BitVec.ofNat 16 (2 ^ 9 - 1) := rfl
    rw [literal, BitVec.getLsbD_ofNat, Nat.testBit_two_pow_sub_one, ← Bool.decide_and]
    exact decide_eq_decide.mpr ⟨fun both => both.2, fun lt => ⟨by omega, lt⟩⟩
  refine BitVec.eq_of_getLsbD_eq fun k lt => ?_
  simp only [correctedWord, BitVec.getLsbD_or, BitVec.getLsbD_and, BitVec.getLsbD_not,
    BitVec.getLsbD_xor, BitVec.getLsbD_shiftLeft, BitVec.getLsbD_ushiftRight,
    BitVec.getLsbD_ofNat, ones]
  by_cases below : k < r
  · simp [lt, below]
  · have back : r + (k - r) = k := by omega
    by_cases nine : k - r < 9
    · have small : k - r < 16 := by omega
      simp [lt, below, back, nine, small]
    · simp [lt, below, nine, testBit_of_ge mask_lt (Nat.le_of_not_lt nine)]

theorem rs_correct_position {idx : Nat} (one_based : 1 ≤ idx) :
    let i : Int := (idx * 9) >>> 3
    let j := (idx * 9) &&& 0x7
    (if j = 0 then i - 1 else i) = ((9 * (idx - 1) / 8 + 1 : Nat) : Int) ∧
      (if j = 0 then 7 else j - 1) = 9 * (idx - 1) % 8 := by
  have low : idx * 9 &&& 0x7 = idx * 9 % 8 := Nat.and_two_pow_sub_one_eq_mod _ 3
  simp only [low, Nat.shiftRight_eq_div_pow]
  obtain ⟨n, rfl⟩ : ∃ n, idx = n + 1 := ⟨idx - 1, by omega⟩
  split <;> omega

section Symbol

variable {idx mask : Nat}

/-- The mask where the symbol's bits stand in its first two bytes. -/
def symbolWord (idx mask : Nat) : BitVec 16 := BitVec.ofNat 16 mask <<< (9 * (idx - 1) % 8)

theorem symbolByte_low :
    symbolByte idx mask (9 * (idx - 1) / 8) = (symbolWord idx mask).setWidth 8 := by
  refine BitVec.eq_of_getLsbD_eq fun l lt => ?_
  rw [getLsbD_symbolByte]
  simp only [symbolWord, BitVec.getLsbD_setWidth, BitVec.getLsbD_shiftLeft, BitVec.getLsbD_ofNat]
  have start := Nat.div_add_mod (9 * (idx - 1)) 8
  have small : l < 16 := by omega
  by_cases below : l < 9 * (idx - 1) % 8
  · have outside : ¬ 9 * (idx - 1) ≤ 8 * (9 * (idx - 1) / 8) + l := by omega
    simp [below, outside]
  · have inside : 9 * (idx - 1) ≤ 8 * (9 * (idx - 1) / 8) + l := by omega
    have bit : 8 * (9 * (idx - 1) / 8) + l - 9 * (idx - 1) = l - 9 * (idx - 1) % 8 := by omega
    have small' : l - 9 * (idx - 1) % 8 < 16 := by omega
    simp [lt, below, inside, bit, small, small']

theorem symbolByte_high :
    symbolByte idx mask (9 * (idx - 1) / 8 + 1) = (symbolWord idx mask >>> 8).setWidth 8 := by
  refine BitVec.eq_of_getLsbD_eq fun l lt => ?_
  rw [getLsbD_symbolByte]
  simp only [symbolWord, BitVec.getLsbD_setWidth, BitVec.getLsbD_ushiftRight,
    BitVec.getLsbD_shiftLeft, BitVec.getLsbD_ofNat]
  have start := Nat.div_add_mod (9 * (idx - 1)) 8
  have rest := Nat.mod_lt (9 * (idx - 1)) (by decide : 0 < 8)
  have inside : 9 * (idx - 1) ≤ 8 * (9 * (idx - 1) / 8 + 1) + l := by omega
  have bit : 8 * (9 * (idx - 1) / 8 + 1) + l - 9 * (idx - 1) = 8 + l - 9 * (idx - 1) % 8 := by omega
  have small : 8 + l < 16 := by omega
  have small' : 8 + l - 9 * (idx - 1) % 8 < 16 := by omega
  have above : ¬ 8 + l < 9 * (idx - 1) % 8 := by omega
  simp [lt, inside, bit, small, small', above]

theorem symbolByte_other (mask_lt : mask < 512) {m : Nat} (not_low : m ≠ 9 * (idx - 1) / 8)
    (not_high : m ≠ 9 * (idx - 1) / 8 + 1) : symbolByte idx mask m = 0 := by
  refine BitVec.eq_of_getLsbD_eq fun l lt => ?_
  rw [getLsbD_symbolByte]
  have start := Nat.div_add_mod (9 * (idx - 1)) 8
  have rest := Nat.mod_lt (9 * (idx - 1)) (by decide : 0 < 8)
  by_cases inside : 9 * (idx - 1) ≤ 8 * m + l
  · rw [testBit_of_ge mask_lt (by omega)]
    simp
  · simp [inside]

theorem setWidth_low (d : BitVec 16) : (d &&& 0xff).setWidth 8 = d.setWidth 8 := by
  refine BitVec.eq_of_getLsbD_eq fun l lt => ?_
  have literal : (0xff : BitVec 16) = BitVec.ofNat 16 (2 ^ 8 - 1) := rfl
  have wide : l < 16 := by omega
  rw [literal, BitVec.getLsbD_setWidth, BitVec.getLsbD_setWidth, BitVec.getLsbD_and,
    BitVec.getLsbD_ofNat, Nat.testBit_two_pow_sub_one]
  simp [lt, wide]

theorem setWidth_pair_low (high low : Byte) :
    ((high.setWidth 16 <<< 8) ||| low.setWidth 16 : BitVec 16).setWidth 8 = low := by
  refine BitVec.eq_of_getLsbD_eq fun l lt => ?_
  simp [lt]

theorem setWidth_pair_high (high low : Byte) :
    (((high.setWidth 16 <<< 8) ||| low.setWidth 16 : BitVec 16) >>> 8).setWidth 8 = high := by
  refine BitVec.eq_of_getLsbD_eq fun l lt => ?_
  have wide : 8 + l < 16 := by omega
  have above : ¬ 8 + l < 8 := by omega
  simp [lt, wide]

/-- `rs_correct` xors the mask into the bits of the symbol, as far as they are in the chunk. -/
theorem rs_correct_eq (one_based : 1 ≤ idx) (mask_lt : mask < 512) (buf : Nat → Byte)
    (dat x : Nat) :
    rs_correct buf dat idx mask x =
      if dat ≤ x ∧ x < dat + 512 then buf x ^^^ symbolByte idx mask (x - dat) else buf x := by
  obtain ⟨at_i, at_j⟩ := rs_correct_position one_based
  have low_byte : symbolByte idx mask (9 * (idx - 1) / 8) = (symbolWord idx mask).setWidth 8 :=
    symbolByte_low
  have high_byte : symbolByte idx mask (9 * (idx - 1) / 8 + 1) =
      (symbolWord idx mask >>> 8).setWidth 8 := symbolByte_high
  have untouched (off_low : x - dat ≠ 9 * (idx - 1) / 8)
      (off_high : x - dat ≠ 9 * (idx - 1) / 8 + 1) :
      buf x = buf x ^^^ symbolByte idx mask (x - dat) := by
    rw [symbolByte_other mask_lt off_low off_high]
    exact BitVec.xor_zero.symm
  have word (d : BitVec 16) :
      correctedWord d (9 * (idx - 1) % 8) mask = d ^^^ symbolWord idx mask :=
    correctedWord_eq d mask_lt _
  simp only [rs_correct]
  rw [at_i, at_j]
  simp only [word]
  generalize 9 * (idx - 1) / 8 = q at *
  have low : ((dat : Int) + (q + 1 : Nat) - 1).toNat = dat + q := by omega
  have high : ((dat : Int) + (q + 1 : Nat)).toNat = dat + q + 1 := by omega
  rw [low, high]
  rcases Nat.lt_trichotomy q 511 with less | rfl | more
  · have inside : ((q + 1 : Nat) : Int) < 512 := by omega
    rw [if_neg (not_lt.mpr inside.le), if_pos inside, if_neg inside.ne]
    by_cases at_high : x = dat + q + 1
    · have offset : x - dat = q + 1 := by omega
      rw [if_pos at_high, if_pos (by omega), offset, high_byte, BitVec.ushiftRight_xor_distrib,
        setWidth_low, BitVec.setWidth_xor, setWidth_pair_high, at_high]
    · rw [if_neg at_high]
      by_cases at_low : x = dat + q
      · have offset : x - dat = q := by omega
        rw [if_pos at_low, if_pos (by omega), offset, low_byte, setWidth_low,
          BitVec.setWidth_xor, setWidth_pair_low, at_low]
      · rw [if_neg at_low]
        split
        · exact untouched (by omega) (by omega)
        · rfl
  · have last : ((511 + 1 : Nat) : Int) = 512 := rfl
    rw [last, if_neg (lt_irrefl _), if_neg (lt_irrefl _), if_pos rfl]
    by_cases at_low : x = dat + 511
    · have offset : x - dat = 511 := by omega
      rw [if_pos at_low, if_pos (by omega), offset, low_byte, setWidth_low, BitVec.setWidth_xor,
        BitVec.setWidth_setWidth_of_le, BitVec.setWidth_eq, at_low]
      decide
    · rw [if_neg at_low]
      split
      · exact untouched (by omega) (by omega)
      · rfl
  · rw [if_pos (by omega)]
    split
    · exact untouched (by omega) (by omega)
    · rfl

end Symbol

/-! ### A report of up to four symbols -/

/-- Symbols by their index and mask. -/
abbrev Errors := List (Nat × Nat)

/-- What the masks of all the symbols do to byte `m` of the chunk. -/
def errorByte (errs : Errors) (m : Nat) : Byte :=
  errs.foldr (fun e acc => symbolByte e.1 e.2 m ^^^ acc) 0

/-- The chunk at offset `dat`, with the symbols xored. -/
def corrupted (errs : Errors) (buf : Nat → Byte) (dat : Nat) : Nat → Byte := fun x =>
  if dat ≤ x ∧ x < dat + 512 then buf x ^^^ errorByte errs (x - dat) else buf x

theorem corrupted_nil (buf : Nat → Byte) (dat : Nat) : corrupted [] buf dat = buf := by
  funext x
  unfold corrupted
  split
  · exact BitVec.xor_zero
  · rfl

theorem corrupted_cons (e : Nat × Nat) (errs : Errors) (buf : Nat → Byte) (dat : Nat) :
    corrupted [e] (corrupted errs buf dat) dat = corrupted (e :: errs) buf dat := by
  funext x
  unfold corrupted
  split
  · have one : errorByte [e] (x - dat) = symbolByte e.1 e.2 (x - dat) := BitVec.xor_zero
    have more : errorByte (e :: errs) (x - dat) =
        symbolByte e.1 e.2 (x - dat) ^^^ errorByte errs (x - dat) := rfl
    rw [one, more, BitVec.xor_assoc, BitVec.xor_comm (errorByte errs _)]
  · rfl

theorem corrupted_comm (errs errs' : Errors) (buf : Nat → Byte) (dat : Nat) :
    corrupted errs' (corrupted errs buf dat) dat =
      corrupted errs (corrupted errs' buf dat) dat := by
  funext x
  unfold corrupted
  split
  · rw [BitVec.xor_assoc, BitVec.xor_assoc, BitVec.xor_comm (errorByte errs _)]
  · rfl

/-- The interrupt status and the error registers report the symbols `errs`. -/
structure Reports (stat : Word) (err : Nat → Word) (errs : Errors) : Prop where
  few : errs.length ≤ 4
  flagged : errs ≠ [] → stat &&& 1 ≠ 0
  correctable : stat &&& 2 = 0
  counted : ((stat &&& ((0x7 : Word) <<< 29)) >>> 29).toNat = errs.length
  one_based : ∀ e ∈ errs, 1 ≤ e.1
  registers : ∀ n e, errs[n]? = some e →
    ((err n &&& ((0x1ff : Word) <<< 16)) >>> 16).toNat = e.1 ∧ (err n &&& 0x1ff).toNat = e.2

theorem Reports.correct_eq {stat : Word} {err : Nat → Word} {errs : Errors}
    (reports : Reports stat err errs) {n : Nat} {e : Nat × Nat} (there : errs[n]? = some e)
    (buf : Nat → Byte) (dat : Nat) : correct buf dat (err n) = corrupted [e] buf dat := by
  obtain ⟨idx, mask⟩ := reports.registers n e there
  have mask_lt : e.2 < 512 := by
    rw [← mask, BitVec.toNat_and]
    exact lt_of_le_of_lt Nat.and_le_right (by decide)
  funext x
  rw [correct, idx, mask, rs_correct_eq (reports.one_based e (List.mem_of_getElem? there)) mask_lt]
  simp [corrupted, errorByte]

/-- The driver xors exactly the symbols reported. -/
theorem Reports.checkDecoding_eq {stat : Word} {err : Nat → Word} {errs : Errors}
    (reports : Reports stat err errs) (buf : Nat → Byte) (dat : Nat) :
    checkDecoding stat err buf dat = corrupted errs buf dat := by
  have counted := reports.counted
  have correct_eq {n : Nat} {e : Nat × Nat} := reports.correct_eq (n := n) (e := e)
  by_cases flagged : stat &&& 1 ≠ 0
  · rw [checkDecoding, if_pos flagged, if_neg (not_not.mpr reports.correctable)]
    rw [counted]
    match errs, reports.few with
    | [], _ => exact (corrupted_nil _ _).symm
    | [a], _ =>
        have only : correctErrors 1 err buf dat = correct buf dat (err 0) := rfl
        rw [List.length_singleton, only, correct_eq rfl]
    | [a, b], _ =>
        have two :
            correctErrors 2 err buf dat = correct (correct buf dat (err 1)) dat (err 0) := rfl
        rw [List.length_cons, List.length_singleton, two, correct_eq rfl, correct_eq rfl,
          corrupted_cons]
    | [a, b, c], _ =>
        have three : correctErrors 3 err buf dat =
          correct (correct (correct buf dat (err 2)) dat (err 1)) dat (err 0) := rfl
        rw [List.length_cons, List.length_cons, List.length_singleton, three, correct_eq rfl,
          correct_eq rfl, correct_eq rfl, corrupted_cons b, corrupted_cons a]
    | [a, b, c, d], _ =>
        have four : correctErrors 4 err buf dat =
          correct (correct (correct (correct buf dat (err 3)) dat (err 2)) dat (err 1)) dat
            (err 0) := rfl
        rw [List.length_cons, List.length_cons, List.length_cons, List.length_singleton, four,
          correct_eq rfl, correct_eq rfl, correct_eq rfl, correct_eq rfl, corrupted_cons c,
          corrupted_cons b, corrupted_cons a]
  · have none : errs = [] := not_not.mp fun some_errs => flagged (reports.flagged some_errs)
    rw [checkDecoding, if_neg flagged, none, corrupted_nil]

/-! ### The chunk as a stream of bits -/

/-- Bit `k` of the chunk at offset `dat`, the least significant bit of its first byte first. -/
def streamBit (buf : Nat → Byte) (dat k : Nat) : Bool := (buf (dat + k / 8)).getLsbD (k % 8)

/-- An index of a decoder and a mask of nine bits. -/
structure IsReport (e : Nat × Nat) : Prop where
  one_based : 1 ≤ e.1
  nine_bits : e.1 ≤ 511
  mask_lt : e.2 < 512

/-- The corrections of a list of reports, one after the other. -/
def correctAll (dat : Nat) (errs : Errors) (buf : Nat → Byte) : Nat → Byte :=
  errs.foldl (fun buf e => rs_correct buf dat e.1 e.2) buf

theorem IsReport.rs_correct_eq {e : Nat × Nat} (report : IsReport e) (buf : Nat → Byte)
    (dat : Nat) : rs_correct buf dat e.1 e.2 = corrupted [e] buf dat := by
  funext x
  rw [NandProg.rs_correct_eq report.one_based report.mask_lt]
  simp [corrupted, errorByte]

/-- Corrections one after the other are one correction with all symbols. -/
theorem correctAll_eq {errs : Errors} (reports : ∀ e ∈ errs, IsReport e) (buf : Nat → Byte)
    (dat : Nat) : correctAll dat errs buf = corrupted errs buf dat := by
  induction errs generalizing buf with
  | nil => exact (corrupted_nil buf dat).symm
  | cons e errs ih =>
      have later := ih (fun e' mem => reports e' (List.mem_cons_of_mem _ mem))
        (rs_correct buf dat e.1 e.2)
      have first := (reports e List.mem_cons_self).rs_correct_eq buf dat
      calc correctAll dat (e :: errs) buf
          = correctAll dat errs (rs_correct buf dat e.1 e.2) := rfl
        _ = corrupted errs (corrupted [e] buf dat) dat := by rw [later, first]
        _ = corrupted [e] (corrupted errs buf dat) dat := corrupted_comm [e] errs buf dat
        _ = corrupted (e :: errs) buf dat := corrupted_cons e errs buf dat

/-- Correcting twice changes nothing. -/
theorem corrupted_twice (errs : Errors) (buf : Nat → Byte) (dat : Nat) :
    corrupted errs (corrupted errs buf dat) dat = buf := by
  funext x
  unfold corrupted
  split
  · rw [BitVec.xor_assoc, BitVec.xor_self, BitVec.xor_zero]
  · rfl

/-- `rs_correct` flips exactly the bits of the reported symbol that are in the chunk, from the
bytes of the chunk alone; corrections commute, and made twice they undo each other. -/
theorem rs_correct_flips (buf : Nat → Byte) (dat : Nat) :
    (∀ idx mask, IsReport (idx, mask) →
      (∀ k < 4096, streamBit (rs_correct buf dat idx mask) dat k =
        (streamBit buf dat k ^^
          (decide (9 * (idx - 1) ≤ k) && mask.testBit (k - 9 * (idx - 1))))) ∧
      (∀ x, x < dat ∨ dat + 512 ≤ x → rs_correct buf dat idx mask x = buf x) ∧
      ∀ buf', (∀ x, dat ≤ x → x < dat + 512 → buf' x = buf x) → ∀ x, dat ≤ x → x < dat + 512 →
        rs_correct buf' dat idx mask x = rs_correct buf dat idx mask x) ∧
    ∀ errs : Errors, (∀ e ∈ errs, IsReport e) →
      (∀ errs', errs.Perm errs' → correctAll dat errs buf = correctAll dat errs' buf) ∧
      correctAll dat errs (correctAll dat errs buf) = buf := by
  constructor
  · intro idx mask report
    have at_byte : ∀ (buf : Nat → Byte) x, _ :=
      fun buf x => rs_correct_eq report.one_based report.mask_lt buf dat x
    refine ⟨?bits, ?outside, ?alone⟩
    case bits =>
      intro k lt
      have inside : dat ≤ dat + k / 8 ∧ dat + k / 8 < dat + 512 := by omega
      have place : 8 * (k / 8) + k % 8 = k := Nat.div_add_mod k 8
      have bit : k % 8 < 8 := Nat.mod_lt k (by decide)
      rw [streamBit, at_byte, if_pos inside, BitVec.getLsbD_xor, Nat.add_sub_cancel_left,
        getLsbD_symbolByte, place, decide_eq_true bit, Bool.true_and, streamBit]
    case outside =>
      intro x outside
      rw [at_byte, if_neg (by omega)]
    case alone =>
      intro buf' same x lower upper
      rw [at_byte, at_byte, same x lower upper]
  · intro errs reports
    refine ⟨fun errs' perm => ?_, ?_⟩
    · apply perm.foldl_eq'
      intro a a_mem b b_mem buf
      have report_a := reports a a_mem
      have report_b := reports b b_mem
      rw [report_a.rs_correct_eq, report_b.rs_correct_eq, report_b.rs_correct_eq,
        report_a.rs_correct_eq]
      exact corrupted_comm _ _ _ _
    · rw [correctAll_eq reports, correctAll_eq reports, corrupted_twice]

/-- The symbol that the end of the chunk cuts. -/
theorem rs_correct_flips_last :
    (∀ k < 4096, streamBit (rs_correct (fun _ => 0x5a) 64 456 0x1ff) 64 k =
      (streamBit (fun _ => 0x5a) 64 k ^^
        (decide (9 * (456 - 1) ≤ k) && Nat.testBit 0x1ff (k - 9 * (456 - 1))))) ∧
    correctAll 64 [(456, 0x1ff), (1, 3)] (correctAll 64 [(456, 0x1ff), (1, 3)] fun _ => 0x5a) =
      fun _ => 0x5a :=
  ⟨((rs_correct_flips _ _).1 456 0x1ff ⟨by decide, by decide, by decide⟩).1,
    ((rs_correct_flips _ _).2 [(456, 0x1ff), (1, 3)] (by
      intro e mem
      simp only [List.mem_cons, List.not_mem_nil, or_false] at mem
      rcases mem with rfl | rfl
      · exact ⟨by decide, by decide, by decide⟩
      · exact ⟨by decide, by decide, by decide⟩)).2⟩

end CFunc.NandProg
