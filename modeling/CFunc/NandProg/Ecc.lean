import CFunc.Lib.Byte
import CFunc.Lib.Bits

/-!
The software ECC of `nand_prog/nandflash_4740.c`: `yaffs_ECCCalculateOther` and
`yaffs_ECCCorrectOther`.

The code word is the data together with the stored `yaffs_ECCOther`. Everything
is linear over xor: flipping one bit of the code word changes the difference
between the stored and the recomputed parities, its syndrome, by a value that
depends on the position only (`syndrome_flip`). The correction routine reads
nothing but the syndrome, so its behaviour on one or two flips is a case
analysis over positions (`correct_one`, `undecodable_two`).
-/

namespace CFunc.NandProg.Ecc

open CFunc.Lib

/-! ### The code -/

structure yaffs_ECCOther where
  colParity : Byte
  lineParity : BitVec 32
  lineParityPrime : BitVec 32
  deriving DecidableEq, Repr

def column_parity_table : List Byte := [
    0x00, 0x55, 0x59, 0x0c, 0x65, 0x30, 0x3c, 0x69,
    0x69, 0x3c, 0x30, 0x65, 0x0c, 0x59, 0x55, 0x00,
    0x95, 0xc0, 0xcc, 0x99, 0xf0, 0xa5, 0xa9, 0xfc,
    0xfc, 0xa9, 0xa5, 0xf0, 0x99, 0xcc, 0xc0, 0x95,
    0x99, 0xcc, 0xc0, 0x95, 0xfc, 0xa9, 0xa5, 0xf0,
    0xf0, 0xa5, 0xa9, 0xfc, 0x95, 0xc0, 0xcc, 0x99,
    0x0c, 0x59, 0x55, 0x00, 0x69, 0x3c, 0x30, 0x65,
    0x65, 0x30, 0x3c, 0x69, 0x00, 0x55, 0x59, 0x0c,
    0xa5, 0xf0, 0xfc, 0xa9, 0xc0, 0x95, 0x99, 0xcc,
    0xcc, 0x99, 0x95, 0xc0, 0xa9, 0xfc, 0xf0, 0xa5,
    0x30, 0x65, 0x69, 0x3c, 0x55, 0x00, 0x0c, 0x59,
    0x59, 0x0c, 0x00, 0x55, 0x3c, 0x69, 0x65, 0x30,
    0x3c, 0x69, 0x65, 0x30, 0x59, 0x0c, 0x00, 0x55,
    0x55, 0x00, 0x0c, 0x59, 0x30, 0x65, 0x69, 0x3c,
    0xa9, 0xfc, 0xf0, 0xa5, 0xcc, 0x99, 0x95, 0xc0,
    0xc0, 0x95, 0x99, 0xcc, 0xa5, 0xf0, 0xfc, 0xa9,
    0xa9, 0xfc, 0xf0, 0xa5, 0xcc, 0x99, 0x95, 0xc0,
    0xc0, 0x95, 0x99, 0xcc, 0xa5, 0xf0, 0xfc, 0xa9,
    0x3c, 0x69, 0x65, 0x30, 0x59, 0x0c, 0x00, 0x55,
    0x55, 0x00, 0x0c, 0x59, 0x30, 0x65, 0x69, 0x3c,
    0x30, 0x65, 0x69, 0x3c, 0x55, 0x00, 0x0c, 0x59,
    0x59, 0x0c, 0x00, 0x55, 0x3c, 0x69, 0x65, 0x30,
    0xa5, 0xf0, 0xfc, 0xa9, 0xc0, 0x95, 0x99, 0xcc,
    0xcc, 0x99, 0x95, 0xc0, 0xa9, 0xfc, 0xf0, 0xa5,
    0x0c, 0x59, 0x55, 0x00, 0x69, 0x3c, 0x30, 0x65,
    0x65, 0x30, 0x3c, 0x69, 0x00, 0x55, 0x59, 0x0c,
    0x99, 0xcc, 0xc0, 0x95, 0xfc, 0xa9, 0xa5, 0xf0,
    0xf0, 0xa5, 0xa9, 0xfc, 0x95, 0xc0, 0xcc, 0x99,
    0x95, 0xc0, 0xcc, 0x99, 0xf0, 0xa5, 0xa9, 0xfc,
    0xfc, 0xa9, 0xa5, 0xf0, 0x99, 0xcc, 0xc0, 0x95,
    0x00, 0x55, 0x59, 0x0c, 0x65, 0x30, 0x3c, 0x69,
    0x69, 0x3c, 0x30, 0x65, 0x0c, 0x59, 0x55, 0x00]

/-- `column_parity_table[b]` -/
def column (b : Byte) : Byte := column_parity_table.getD b.toNat 0#8

/-- One round of the loop of `yaffs_ECCCalculateOther`: the running parities
`col_parity`, `line_parity` and `line_parity_prime` at the data byte `d`, whose
index is `i`. -/
def calculateStep (acc : yaffs_ECCOther) (d : Byte × Nat) : yaffs_ECCOther :=
  let i := BitVec.ofNat 32 d.2
  let b := column d.1
  let col_parity := acc.colParity ^^^ b
  if b &&& 0x01#8 ≠ 0#8 then
    ⟨col_parity, acc.lineParity ^^^ i, acc.lineParityPrime ^^^ ~~~i⟩
  else
    ⟨col_parity, acc.lineParity, acc.lineParityPrime⟩

def yaffs_ECCCalculateOther (data : List Byte) (nBytes : BitVec 32) : yaffs_ECCOther :=
  let acc := (data.take nBytes.toNat).zipIdx.foldl calculateStep ⟨0#8, 0#32, 0#32⟩
  ⟨(acc.colParity >>> 2) &&& 0x3f#8, acc.lineParity, acc.lineParityPrime⟩

/-- `yaffs_CountBits`: the loop ends within the width of an `unsigned char`. -/
def yaffs_CountBits (x : Byte) : Nat := Bits.loop 8 x

/-- `yaffs_CountBits32`: the loop ends within the width of an `unsigned`. -/
def yaffs_CountBits32 (x : BitVec 32) : Nat := Bits.loop 32 x

/-- The bit number `yaffs_ECCCorrectOther` reads off the column difference. -/
def errorBit (cDelta : Byte) : Nat :=
  (if cDelta &&& 0x20#8 ≠ 0#8 then 4 else 0) + (if cDelta &&& 0x08#8 ≠ 0#8 then 2 else 0) +
    (if cDelta &&& 0x02#8 ≠ 0#8 then 1 else 0)

/-- `yaffs_ECCCorrectOther`: the returned value, the data and `*read_ecc`
afterwards. -/
def yaffs_ECCCorrectOther (data : List Byte) (nBytes : BitVec 32)
    (read_ecc test_ecc : yaffs_ECCOther) : Int × List Byte × yaffs_ECCOther :=
  let cDelta := read_ecc.colParity ^^^ test_ecc.colParity
  let lDelta := read_ecc.lineParity ^^^ test_ecc.lineParity
  let lDeltaPrime := read_ecc.lineParityPrime ^^^ test_ecc.lineParityPrime
  if cDelta.setWidth 32 ||| lDelta ||| lDeltaPrime = 0#32 then
    (0, data, read_ecc)
  else if lDelta = ~~~lDeltaPrime ∧ (cDelta ^^^ (cDelta >>> 1)) &&& 0x15#8 = 0x15#8 then
    -- single-bit error in the data
    if lDelta ≥ nBytes then
      (-1, data, read_ecc)
    else
      (1, data.modify lDelta.toNat (· ^^^ (1#8 <<< errorBit cDelta)), read_ecc)
  else if yaffs_CountBits32 lDelta + yaffs_CountBits32 lDeltaPrime + yaffs_CountBits cDelta = 1 then
    -- single-bit error in the stored code
    (1, data, test_ecc)
  else
    (-1, data, read_ecc)

/-! ### Parities under xor -/

def yaffs_ECCOther.xor (a b : yaffs_ECCOther) : yaffs_ECCOther :=
  ⟨a.colParity ^^^ b.colParity, a.lineParity ^^^ b.lineParity,
    a.lineParityPrime ^^^ b.lineParityPrime⟩

theorem yaffs_ECCOther.xor_assoc (a b c : yaffs_ECCOther) :
    (a.xor b).xor c = a.xor (b.xor c) := by
  simp [xor, BitVec.xor_assoc]

theorem yaffs_ECCOther.xor_comm (a b : yaffs_ECCOther) : a.xor b = b.xor a := by
  simp [xor, BitVec.xor_comm]

theorem yaffs_ECCOther.xor_right_comm (a b c : yaffs_ECCOther) :
    (a.xor b).xor c = (a.xor c).xor b := by
  rw [xor_assoc, xor_assoc, b.xor_comm]

theorem yaffs_ECCOther.xor_self_left (a b : yaffs_ECCOther) : a.xor (a.xor b) = b := by
  simp only [xor, ← BitVec.xor_assoc, BitVec.xor_self, BitVec.zero_xor]

/-- What the data byte `d` at index `i` adds to the running parities. -/
def contribution (d : Byte) (i : Nat) : yaffs_ECCOther := calculateStep ⟨0#8, 0#32, 0#32⟩ (d, i)

theorem calculateStep_eq (acc : yaffs_ECCOther) (d : Byte × Nat) :
    calculateStep acc d = acc.xor (contribution d.1 d.2) := by
  simp only [calculateStep, contribution, yaffs_ECCOther.xor]
  split <;> simp

theorem foldl_calculateStep (xs : List (Byte × Nat)) (acc change : yaffs_ECCOther) :
    xs.foldl calculateStep (acc.xor change) = (xs.foldl calculateStep acc).xor change := by
  induction xs generalizing acc with
  | nil => rfl
  | cons d xs ih =>
      rw [List.foldl_cons, List.foldl_cons, ← ih, calculateStep_eq, calculateStep_eq,
        yaffs_ECCOther.xor_assoc, yaffs_ECCOther.xor_assoc, change.xor_comm]

/-- Changing one data byte changes the running parities by what the old and
the new byte add. -/
theorem foldl_modify (xs : List Byte) (j k : Nat) (inside : j < xs.length) (f : Byte → Byte)
    (acc : yaffs_ECCOther) :
    ((xs.modify j f).zipIdx k).foldl calculateStep acc =
      ((xs.zipIdx k).foldl calculateStep acc).xor
        ((contribution xs[j] (k + j)).xor (contribution (f xs[j]) (k + j))) := by
  induction xs generalizing j k acc with
  | nil => simp at inside
  | cons d xs ih =>
      cases j with
      | zero =>
          rw [← foldl_calculateStep]
          simp only [List.modify_zero_cons, List.zipIdx_cons, List.foldl_cons]
          congr 1
          simp only [calculateStep_eq, List.getElem_cons_zero, Nat.add_zero]
          rw [yaffs_ECCOther.xor_assoc, yaffs_ECCOther.xor_comm _ (contribution d k),
            yaffs_ECCOther.xor_self_left]
      | succ j =>
          simp only [List.modify_succ_cons, List.zipIdx_cons, List.foldl_cons]
          rw [ih j (k + 1) (by simpa using inside)]
          simp [Nat.add_assoc, Nat.add_comm 1]

/-! ### The table -/

/-- The table is linear: flipping bit `k` of the index changes the entry by the
entry for that bit alone. -/
theorem column_flip : ∀ (d : Byte) (k : Fin 8),
    column (d ^^^ BitVec.twoPow 8 k) = column d ^^^ column (BitVec.twoPow 8 k) := by
  decide +kernel

/-- The low bit of an entry is the parity of the index. -/
theorem column_twoPow_odd : ∀ k : Fin 8, column (BitVec.twoPow 8 k) &&& 0x01#8 = 0x01#8 := by
  decide +kernel

/-! ### Code words and flips -/

/-- What is stored: the data and its code. -/
structure Word where
  data : List Byte
  ecc : yaffs_ECCOther

/-- The positions of a code word: bit `bit` of data byte `byte`, or a bit of the
stored code, whose `colParity` has six bits. -/
inductive Pos where
  | data (byte : Nat) (bit : Fin 8)
  | col (bit : Fin 6)
  | line (bit : Fin 32)
  | linePrime (bit : Fin 32)
  deriving DecidableEq

/-- The positions of a code word with `n` data bytes. -/
def Pos.Valid (n : Nat) : Pos → Prop
  | .data byte _ => byte < n
  | _ => True

def Word.flip (word : Word) : Pos → Word
  | .data byte bit => { word with data := word.data.modify byte (· ^^^ BitVec.twoPow 8 bit) }
  | .col bit =>
      { word with ecc := word.ecc.xor ⟨BitVec.twoPow 8 bit, 0#32, 0#32⟩ }
  | .line bit =>
      { word with ecc := word.ecc.xor ⟨0#8, BitVec.twoPow 32 bit, 0#32⟩ }
  | .linePrime bit =>
      { word with ecc := word.ecc.xor ⟨0#8, 0#32, BitVec.twoPow 32 bit⟩ }

@[simp] theorem Word.flip_length (word : Word) (p : Pos) :
    (word.flip p).data.length = word.data.length := by
  cases p <;> simp [flip]

/-- The code `yaffs_ECCCalculateOther` computes for the data as it is now. -/
def Word.test (word : Word) : yaffs_ECCOther :=
  yaffs_ECCCalculateOther word.data (BitVec.ofNat 32 word.data.length)

/-- The stored code against the recomputed one. -/
def Word.syndrome (word : Word) : yaffs_ECCOther := word.ecc.xor word.test

/-- `yaffs_ECCCorrectOther` on a code word, with the recomputed code. -/
def Word.correct (word : Word) : Int × List Byte × yaffs_ECCOther :=
  yaffs_ECCCorrectOther word.data (BitVec.ofNat 32 word.data.length) word.ecc word.test

/-- The column part of the code, as it is stored. -/
def columnCode (b : Byte) : Byte := (b >>> 2) &&& 0x3f#8

theorem columnCode_xor (a b : Byte) : columnCode (a ^^^ b) = columnCode a ^^^ columnCode b := by
  apply BitVec.eq_of_getLsbD_eq
  intro i lt
  simp only [columnCode, BitVec.getLsbD_and, BitVec.getLsbD_xor, BitVec.getLsbD_ushiftRight]
  cases (a.getLsbD (2 + i)) <;> cases (b.getLsbD (2 + i)) <;> simp

/-- What a flip does to the syndrome. -/
def Pos.syndrome : Pos → yaffs_ECCOther
  | .data byte bit =>
      ⟨columnCode (column (BitVec.twoPow 8 bit)), BitVec.ofNat 32 byte, ~~~BitVec.ofNat 32 byte⟩
  | .col bit => ⟨BitVec.twoPow 8 bit, 0#32, 0#32⟩
  | .line bit => ⟨0#8, BitVec.twoPow 32 bit, 0#32⟩
  | .linePrime bit => ⟨0#8, 0#32, BitVec.twoPow 32 bit⟩

/-- Flipping a bit of a byte adds the entry of that bit to the column parity
and, since the number of ones changes by one, the index to the line parities. -/
theorem contribution_flip (d : Byte) (bit : Fin 8) (i : Nat) :
    (contribution d i).xor (contribution (d ^^^ BitVec.twoPow 8 bit) i) =
      ⟨column (BitVec.twoPow 8 bit), BitVec.ofNat 32 i, ~~~BitVec.ofNat 32 i⟩ := by
  have odd := column_twoPow_odd bit
  have low : column (d ^^^ BitVec.twoPow 8 bit) &&& 0x01#8 = (column d &&& 0x01#8) ^^^ 0x01#8 := by
    rw [column_flip, ← odd]
    apply BitVec.eq_of_getLsbD_eq
    intro j _
    simp only [BitVec.getLsbD_and, BitVec.getLsbD_xor]
    cases (column d).getLsbD j <;> cases (column (BitVec.twoPow 8 bit)).getLsbD j <;> simp
  have bits : ∀ b : Byte, b &&& 0x01#8 = 0#8 ∨ b &&& 0x01#8 = 0x01#8 := by decide +kernel
  have cancel : column d ^^^ column (d ^^^ BitVec.twoPow 8 bit) = column (BitVec.twoPow 8 bit) := by
    rw [column_flip, ← BitVec.xor_assoc, BitVec.xor_self, BitVec.zero_xor]
  rcases bits (column d) with zero | one
  · have : column (d ^^^ BitVec.twoPow 8 bit) &&& 0x01#8 = 0x01#8 := by rw [low, zero]; rfl
    simp [contribution, calculateStep, yaffs_ECCOther.xor, zero, this, cancel]
  · have : column (d ^^^ BitVec.twoPow 8 bit) &&& 0x01#8 = 0#8 := by rw [low, one]; rfl
    simp [contribution, calculateStep, yaffs_ECCOther.xor, one, this, cancel]

theorem test_eq (word : Word) (short : word.data.length < 2 ^ 32) :
    word.test =
      let acc := word.data.zipIdx.foldl calculateStep ⟨0#8, 0#32, 0#32⟩
      ⟨columnCode acc.colParity, acc.lineParity, acc.lineParityPrime⟩ := by
  have len : (BitVec.ofNat 32 word.data.length).toNat = word.data.length := by
    rw [BitVec.toNat_ofNat, Nat.mod_eq_of_lt short]
  simp only [Word.test, yaffs_ECCCalculateOther, len, List.take_length, columnCode]

/-- A flip changes the syndrome by a value that depends on its position only. -/
theorem syndrome_flip (word : Word) (short : word.data.length < 2 ^ 32) (p : Pos)
    (valid : p.Valid word.data.length) :
    (word.flip p).syndrome = word.syndrome.xor p.syndrome := by
  cases p with
  | data byte bit =>
      have inside : byte < word.data.length := valid
      have change := foldl_modify word.data byte 0 inside (· ^^^ BitVec.twoPow 8 bit)
        ⟨0#8, 0#32, 0#32⟩
      simp only [Nat.zero_add, contribution_flip] at change
      have short' : (word.flip (.data byte bit)).data.length < 2 ^ 32 := by simpa using short
      simp only [Word.syndrome]
      rw [test_eq _ short', test_eq _ short]
      simp only [Word.flip, change, Pos.syndrome]
      simp only [yaffs_ECCOther.xor, columnCode_xor, BitVec.xor_assoc]
  | col bit => exact word.ecc.xor_right_comm _ word.test
  | line bit => exact word.ecc.xor_right_comm _ word.test
  | linePrime bit => exact word.ecc.xor_right_comm _ word.test

/-! ### Decoding syndromes -/

/-- The number of differing code bits, which the correction routine counts. -/
def weight (s : yaffs_ECCOther) : Nat :=
  Bits.ones s.lineParity + Bits.ones s.lineParityPrime + Bits.ones s.colParity

/-- The test for a single flipped data bit. -/
def LooksLikeData (s : yaffs_ECCOther) : Prop :=
  s.lineParity = ~~~s.lineParityPrime ∧
    (s.colParity ^^^ (s.colParity >>> 1)) &&& 0x15#8 = 0x15#8

theorem weight_eq_zero_iff {s : yaffs_ECCOther} :
    weight s = 0 ↔ s.colParity.setWidth 32 ||| s.lineParity ||| s.lineParityPrime = 0#32 := by
  have col : s.colParity.setWidth 32 = 0#32 ↔ s.colParity = 0#8 := by
    generalize s.colParity = c
    revert c
    decide +kernel
  rw [BitVec.or_eq_zero_iff, BitVec.or_eq_zero_iff, col, weight, ← Bits.ones_eq_zero_iff,
    ← Bits.ones_eq_zero_iff, ← Bits.ones_eq_zero_iff]
  omega

section Decode

variable (word : Word)

theorem correct_clean (clean : weight word.syndrome = 0) :
    word.correct = (0, word.data, word.ecc) := by
  have zero := weight_eq_zero_iff.mp clean
  simp only [Word.syndrome, yaffs_ECCOther.xor] at zero
  rw [Word.correct, yaffs_ECCCorrectOther, if_pos zero]

theorem correct_data (dirty : weight word.syndrome ≠ 0) (data : LooksLikeData word.syndrome)
    (inside : word.syndrome.lineParity < BitVec.ofNat 32 word.data.length) :
    word.correct = (1, word.data.modify word.syndrome.lineParity.toNat
      (· ^^^ (1#8 <<< errorBit word.syndrome.colParity)), word.ecc) := by
  have nonzero := mt weight_eq_zero_iff.mpr dirty
  have inside' : ¬ word.syndrome.lineParity ≥ BitVec.ofNat 32 word.data.length :=
    BitVec.not_le.mpr inside
  simp only [LooksLikeData, Word.syndrome, yaffs_ECCOther.xor] at nonzero data inside' ⊢
  rw [Word.correct, yaffs_ECCCorrectOther, if_neg nonzero, if_pos data, if_neg inside']

theorem correct_code (one : weight word.syndrome = 1) (code : ¬ LooksLikeData word.syndrome) :
    word.correct = (1, word.data, word.test) := by
  have nonzero := mt (weight_eq_zero_iff (s := word.syndrome)).mpr (by omega)
  simp only [weight, LooksLikeData, Word.syndrome, yaffs_ECCOther.xor] at nonzero one code
  rw [Word.correct, yaffs_ECCCorrectOther, if_neg nonzero, if_neg code, if_pos]
  simpa [yaffs_CountBits, yaffs_CountBits32, Bits.loop_eq_ones] using one

/-- A syndrome the routine gives up on. -/
def Undecodable (s : yaffs_ECCOther) : Prop := 2 ≤ weight s ∧ ¬ LooksLikeData s

theorem correct_undecodable (bad : Undecodable word.syndrome) :
    word.correct = (-1, word.data, word.ecc) := by
  obtain ⟨many, code⟩ := bad
  have nonzero := mt (weight_eq_zero_iff (s := word.syndrome)).mpr (by omega)
  have not_one : weight word.syndrome ≠ 1 := by omega
  simp only [weight, LooksLikeData, Word.syndrome, yaffs_ECCOther.xor] at nonzero not_one code
  rw [Word.correct, yaffs_ECCCorrectOther, if_neg nonzero, if_neg code, if_neg]
  simpa [yaffs_CountBits, yaffs_CountBits32, Bits.loop_eq_ones] using not_one

end Decode

/-! ### The syndromes of one and of two flips -/

/-- Complementary line parities differ in all 32 positions together. -/
theorem not_looksLikeData {s : yaffs_ECCOther}
    (ones_ne : Bits.ones s.lineParity + Bits.ones s.lineParityPrime ≠ 32) : ¬ LooksLikeData s := by
  rintro ⟨complement, _⟩
  have := Bits.ones_add_ones_not s.lineParityPrime
  rw [complement] at ones_ne
  omega

/-- The column code of a data bit has one of each pair of column bits, names the
bit, and does not survive the flip of a stored column bit. -/
theorem columnCode_twoPow : ∀ bit : Fin 8,
    Bits.ones (columnCode (column (BitVec.twoPow 8 bit))) = 3 ∧
      (columnCode (column (BitVec.twoPow 8 bit)) ^^^
        (columnCode (column (BitVec.twoPow 8 bit)) >>> 1)) &&& 0x15#8 = 0x15#8 ∧
      1#8 <<< errorBit (columnCode (column (BitVec.twoPow 8 bit))) = BitVec.twoPow 8 bit := by
  decide +kernel

theorem columnCode_col : ∀ (bit : Fin 8) (c : Fin 6),
    ((columnCode (column (BitVec.twoPow 8 bit)) ^^^ BitVec.twoPow 8 c) ^^^
      ((columnCode (column (BitVec.twoPow 8 bit)) ^^^ BitVec.twoPow 8 c) >>> 1)) &&& 0x15#8 ≠
        0x15#8 := by
  decide +kernel

theorem columnCode_two : ∀ bit bit' : Fin 8, bit ≠ bit' →
    2 ≤ Bits.ones (columnCode (column (BitVec.twoPow 8 bit)) ^^^
      columnCode (column (BitVec.twoPow 8 bit'))) := by
  decide +kernel

theorem ofNat_injective {i j : Nat} (hi : i < 2 ^ 32) (hj : j < 2 ^ 32)
    (h : BitVec.ofNat 32 i = BitVec.ofNat 32 j) : i = j := by
  have := congrArg BitVec.toNat h
  rwa [BitVec.toNat_ofNat, BitVec.toNat_ofNat, Nat.mod_eq_of_lt hi, Nat.mod_eq_of_lt hj] at this

theorem not_xor_not (a b : BitVec 32) : ~~~a ^^^ ~~~b = a ^^^ b := by
  apply BitVec.eq_of_getLsbD_eq
  intro i lt
  simp [lt]

theorem xor_ne_self {w : Nat} {a b : BitVec w} (ne : b ≠ 0#w) : a ^^^ b ≠ a := by
  intro h
  apply ne
  have := congrArg (a ^^^ ·) h
  simpa [← BitVec.xor_assoc] using this

theorem twoPow_ne_zero {w i : Nat} (lt : i < w) : BitVec.twoPow w i ≠ 0#w := by
  intro h
  have := Bits.ones_twoPow lt
  rw [h, Bits.ones_zero] at this
  omega

/-- Two flips of data bits. -/
theorem undecodable_data_data {i j n : Nat} (bound : n < 2 ^ 32) (hi : i < n) (hj : j < n)
    {a b : Fin 8} (ne : Pos.data i a ≠ Pos.data j b) :
    Undecodable ((Pos.data i a).syndrome.xor (Pos.data j b).syndrome) := by
  simp only [Undecodable, Pos.syndrome, yaffs_ECCOther.xor, not_xor_not, weight]
  by_cases same : i = j
  · subst same
    have bits : a ≠ b := fun h => ne (by rw [h])
    have := columnCode_two a b bits
    refine ⟨by omega, not_looksLikeData ?_⟩
    simp
  · have differ : BitVec.ofNat 32 i ^^^ BitVec.ofNat 32 j ≠ 0#32 := by
      intro h
      exact same (ofNat_injective (by omega) (by omega) (BitVec.xor_eq_zero_iff.mp h))
    have pos := mt Bits.ones_eq_zero_iff.mp differ
    refine ⟨by omega, ?_⟩
    rintro ⟨complement, _⟩
    have bit := congrArg (fun x => x.getLsbD 0) complement
    simp at bit

/-- A flip of a data bit together with a flip of the stored code. -/
theorem undecodable_data_code (i : Nat) (a : Fin 8) (q : Pos)
    (code : ∀ j b, q ≠ .data j b) :
    Undecodable ((Pos.data i a).syndrome.xor q.syndrome) := by
  obtain ⟨col_ones, _, _⟩ := columnCode_twoPow a
  have lines := Bits.ones_add_ones_not (BitVec.ofNat 32 i)
  cases q with
  | data j b => exact absurd rfl (code j b)
  | col c =>
      simp only [Undecodable, Pos.syndrome, yaffs_ECCOther.xor, BitVec.xor_zero, weight]
      refine ⟨by omega, ?_⟩
      rintro ⟨_, column_test⟩
      exact columnCode_col a c column_test
  | line b =>
      simp only [Undecodable, Pos.syndrome, yaffs_ECCOther.xor, BitVec.xor_zero, weight]
      refine ⟨by omega, ?_⟩
      rintro ⟨complement, _⟩
      rw [BitVec.not_not] at complement
      exact xor_ne_self (twoPow_ne_zero b.isLt) complement
  | linePrime b =>
      simp only [Undecodable, Pos.syndrome, yaffs_ECCOther.xor, BitVec.xor_zero, weight]
      refine ⟨by omega, ?_⟩
      rintro ⟨complement, _⟩
      have := congrArg (~~~ ·) complement
      simp only [BitVec.not_not] at this
      exact xor_ne_self (twoPow_ne_zero b.isLt) this.symm

theorem undecodable_of_weight_two {s : yaffs_ECCOther} (two : weight s = 2) : Undecodable s := by
  refine ⟨two.ge, not_looksLikeData ?_⟩
  unfold weight at two
  omega

/-- Two flips of the stored code. -/
theorem undecodable_code_code {p q : Pos} (hp : ∀ i a, p ≠ .data i a) (hq : ∀ i a, q ≠ .data i a)
    (ne : p ≠ q) : Undecodable (p.syndrome.xor q.syndrome) := by
  have col_ones : ∀ c : Fin 6, Bits.ones (BitVec.twoPow 8 c) = 1 :=
    fun c => Bits.ones_twoPow (by omega)
  have line_ones : ∀ b : Fin 32, Bits.ones (BitVec.twoPow 32 b) = 1 :=
    fun b => Bits.ones_twoPow b.isLt
  have line_two : ∀ b c : Fin 32, b ≠ c →
      Bits.ones (BitVec.twoPow 32 b ^^^ BitVec.twoPow 32 c) = 2 :=
    fun b c bits => Bits.ones_twoPow_xor b.isLt c.isLt (Fin.val_ne_of_ne bits)
  apply undecodable_of_weight_two
  simp only [weight, yaffs_ECCOther.xor]
  cases p with
  | data i a => exact absurd rfl (hp i a)
  | col c =>
      cases q with
      | data i a => exact absurd rfl (hq i a)
      | col d =>
          have bits : (c : Nat) ≠ d := fun h => ne (by rw [Fin.ext h])
          have col_two : Bits.ones (BitVec.twoPow 8 c ^^^ BitVec.twoPow 8 d) = 2 :=
            Bits.ones_twoPow_xor (by omega) (by omega) bits
          simp [Pos.syndrome, col_two]
      | line b | linePrime b => simp [Pos.syndrome, col_ones, line_ones]
  | line b =>
      cases q with
      | data i a => exact absurd rfl (hq i a)
      | line c => simp [Pos.syndrome, line_two b c fun h => ne (by rw [h])]
      | col d | linePrime d => simp [Pos.syndrome, col_ones, line_ones]
  | linePrime b =>
      cases q with
      | data i a => exact absurd rfl (hq i a)
      | linePrime c => simp [Pos.syndrome, line_two b c fun h => ne (by rw [h])]
      | col d | line d => simp [Pos.syndrome, col_ones, line_ones]

/-- Two flips at different positions never look like one. -/
theorem undecodable_two {n : Nat} (bound : n < 2 ^ 32) {p q : Pos} (hp : p.Valid n)
    (hq : q.Valid n) (ne : p ≠ q) : Undecodable (p.syndrome.xor q.syndrome) := by
  by_cases p_data : ∃ i a, p = .data i a
  · obtain ⟨i, a, rfl⟩ := p_data
    by_cases q_data : ∃ j b, q = .data j b
    · obtain ⟨j, b, rfl⟩ := q_data
      exact undecodable_data_data bound hp hq ne
    · exact undecodable_data_code i a q (by simpa using q_data)
  · by_cases q_data : ∃ j b, q = .data j b
    · obtain ⟨j, b, rfl⟩ := q_data
      rw [yaffs_ECCOther.xor_comm]
      exact undecodable_data_code j b p (by simpa using p_data)
    · exact undecodable_code_code (by simpa using p_data) (by simpa using q_data) ne

/-! ### The result -/

/-- Data stored with the code computed for it. -/
def stored (data : List Byte) : Word :=
  ⟨data, yaffs_ECCCalculateOther data (BitVec.ofNat 32 data.length)⟩

theorem stored_syndrome (data : List Byte) : (stored data).syndrome = ⟨0#8, 0#32, 0#32⟩ := by
  simp [stored, Word.syndrome, Word.test, yaffs_ECCOther.xor]

theorem flip_syndrome (data : List Byte) (short : data.length < 2 ^ 32) (p : Pos)
    (valid : p.Valid data.length) : ((stored data).flip p).syndrome = p.syndrome := by
  rw [syndrome_flip (stored data) short p valid, stored_syndrome]
  simp [yaffs_ECCOther.xor]

/-- One flipped data bit is put back. -/
theorem correct_flip_data (data : List Byte) (short : data.length < 2 ^ 32) {i : Nat}
    (inside : i < data.length) (a : Fin 8) :
    ((stored data).flip (.data i a)).correct = (1, data, (stored data).ecc) := by
  obtain ⟨col_ones, col_test, bit⟩ := columnCode_twoPow a
  have syndrome := flip_syndrome data short (.data i a) inside
  have i_toNat : (BitVec.ofNat 32 i).toNat = i := by
    rw [BitVec.toNat_ofNat, Nat.mod_eq_of_lt (by omega)]
  have len_toNat : (BitVec.ofNat 32 data.length).toNat = data.length := by
    rw [BitVec.toNat_ofNat, Nat.mod_eq_of_lt short]
  have dirty : weight ((stored data).flip (.data i a)).syndrome ≠ 0 := by
    rw [syndrome]
    simp only [weight, Pos.syndrome]
    omega
  have data_test : LooksLikeData ((stored data).flip (.data i a)).syndrome := by
    rw [syndrome]
    exact ⟨by simp [Pos.syndrome], col_test⟩
  rw [correct_data _ dirty data_test]
  · rw [syndrome]
    simp only [Pos.syndrome, i_toNat, bit, Word.flip, stored, List.modify_modify_eq]
    congr 2
    have id_eq : ((fun x : Byte => x ^^^ BitVec.twoPow 8 a) ∘ fun x => x ^^^ BitVec.twoPow 8 a) =
        id := by
      funext x
      exact (BitVec.xor_assoc _ _ _).trans (by rw [BitVec.xor_self, BitVec.xor_zero, id])
    rw [id_eq, List.modify_id]
  · rw [syndrome, BitVec.lt_def]
    simpa [Pos.syndrome, i_toNat, len_toNat, stored] using inside

/-- One flipped bit of the stored code is repaired from the recomputed code. -/
theorem correct_flip_code (data : List Byte) (short : data.length < 2 ^ 32) (p : Pos)
    (code : ∀ i a, p ≠ .data i a) :
    ((stored data).flip p).correct = (1, data, (stored data).ecc) := by
  have valid : p.Valid data.length := by
    cases p with
    | data i a => exact absurd rfl (code i a)
    | col | line | linePrime => trivial
  have syndrome := flip_syndrome data short p valid
  have kept : ((stored data).flip p).data = data ∧
      ((stored data).flip p).test = (stored data).ecc := by
    cases p with
    | data i a => exact absurd rfl (code i a)
    | col | line | linePrime => exact ⟨rfl, rfl⟩
  have one : weight ((stored data).flip p).syndrome = 1 ∧
      ¬ LooksLikeData ((stored data).flip p).syndrome := by
    rw [syndrome]
    cases p with
    | data i a => exact absurd rfl (code i a)
    | col c =>
        have lt : (c : Nat) < 8 := by omega
        exact ⟨by simp [weight, Pos.syndrome, Bits.ones_twoPow lt],
          not_looksLikeData (by simp [Pos.syndrome])⟩
    | line b | linePrime b =>
        exact ⟨by simp [weight, Pos.syndrome, Bits.ones_twoPow b.isLt],
          not_looksLikeData (by simp [Pos.syndrome, Bits.ones_twoPow b.isLt])⟩
  rw [correct_code _ one.1 one.2, kept.1, kept.2]

/-- The ECC pair corrects every single-bit error and detects every double-bit
error of the code word. Without a flip nothing changes; a flipped data bit is
restored; a flipped bit of the stored code leaves the data and stores the right
code again; two flips are reported and leave the data as received. -/
theorem ecc_correct (data : List Byte) (short : data.length < 2 ^ 32) :
    (stored data).correct = (0, data, (stored data).ecc) ∧
      (∀ i < data.length, ∀ bit : Fin 8,
        ((stored data).flip (.data i bit)).correct = (1, data, (stored data).ecc)) ∧
      (∀ p : Pos, (∀ i bit, p ≠ .data i bit) →
        ((stored data).flip p).correct = (1, data, (stored data).ecc)) ∧
      (∀ p q : Pos, p.Valid data.length → q.Valid data.length → p ≠ q →
        (((stored data).flip p).flip q).correct =
          (-1, (((stored data).flip p).flip q).data, (((stored data).flip p).flip q).ecc)) := by
  refine ⟨?_, ?_, ?_, ?_⟩
  · have clean : weight (stored data).syndrome = 0 := by
      rw [stored_syndrome]
      simp [weight]
    exact correct_clean _ clean
  · exact fun i inside bit => correct_flip_data data short inside bit
  · exact fun p code => correct_flip_code data short p code
  · intro p q hp hq ne
    apply correct_undecodable
    have len : ((stored data).flip p).data.length = data.length := Word.flip_length _ p
    rw [syndrome_flip _ (by rw [len]; exact short) q (by rw [len]; exact hq),
      flip_syndrome data short p hp]
    exact undecodable_two short hp hq ne

theorem ecc_correct_sample :
    (stored [0x12#8, 0x34#8]).correct = (0, [0x12#8, 0x34#8], (stored [0x12#8, 0x34#8]).ecc) ∧
      (∀ i < 2, ∀ bit : Fin 8,
        ((stored [0x12#8, 0x34#8]).flip (.data i bit)).correct =
          (1, [0x12#8, 0x34#8], (stored [0x12#8, 0x34#8]).ecc)) ∧
      (∀ p : Pos, (∀ i bit, p ≠ .data i bit) →
        ((stored [0x12#8, 0x34#8]).flip p).correct =
          (1, [0x12#8, 0x34#8], (stored [0x12#8, 0x34#8]).ecc)) ∧
      (∀ p q : Pos, p.Valid 2 → q.Valid 2 → p ≠ q →
        (((stored [0x12#8, 0x34#8]).flip p).flip q).correct =
          (-1, (((stored [0x12#8, 0x34#8]).flip p).flip q).data,
            (((stored [0x12#8, 0x34#8]).flip p).flip q).ecc)) :=
  ecc_correct [0x12#8, 0x34#8] (by decide)

end CFunc.NandProg.Ecc
