import CFunc.Clibs.PrintfNumber
import Mathlib.Data.List.GetD
import Mathlib.Data.List.TakeWhile

/-!
When `number` prints the number it is given.

The padding loops share one counter, which wraps where it is far below zero,
and then a loop pads that has nothing to pad. What a text shows is read back
from its last digits, so a number whose high word is dropped is not the one
that is shown, whatever the padding.
-/

namespace CFunc.Clibs.Printf.AnyBase

open CFunc.Lib

/-! ### The padding -/

/-- How many loops test the counter. -/
def loops (type : CInt) : Int :=
  if type &&& LEFT ≠ 0 then 1 else if type &&& ZEROPAD ≠ 0 then 2 else 3

/-- With `v` left for padding the counter stays an `int` through all the loops, or it wraps to
the end of its range already when it is computed. -/
def Counts (type : CInt) (v : Int) : Prop := INT_MIN + loops type ≤ v + 1 ∨ v ≤ -4294967296

theorem toInt_spill (n : CInt) :
    (spill n).toInt =
      if 0 < n.toInt then -1 else if n.toInt = INT_MIN then INT_MAX else n.toInt - 1 := by
  have zero : (0 : CInt).toInt = 0 := rfl
  have minus : (0 - 1 : CInt).toInt = -1 := rfl
  have one : (1 : CInt).toInt = 1 := rfl
  have lower := BitVec.le_toInt n
  have upper := BitVec.toInt_lt (x := n)
  rw [spill]
  simp only [BitVec.slt_iff_toInt_lt, zero]
  split
  · exact minus
  · rw [BitVec.toInt_sub, one, INT_MIN, INT_MAX]
    split
    · next least => rw [least]; rfl
    · exact Int.bmod_eq_of_le (by omega) (by omega)

theorem toInt_counter (v : Int) :
    (BitVec.ofInt 32 v).toInt =
      if v % 4294967296 < 2147483648 then v % 4294967296 else v % 4294967296 - 4294967296 := by
  rw [BitVec.toInt_ofInt, Int.bmod_def]
  rfl

theorem length_layout (lead : Nat) (sign pre : List Byte) (c : Byte) (fill zeros : Nat)
    (tmp : List Byte) (trail : Nat) :
    (layout lead sign pre c fill zeros tmp trail).length =
      lead + fill + trail + (sign.length + pre.length + (zeros + tmp.length)) := by
  simp only [layout, List.length_append, List.length_replicate, List.length_reverse]
  omega

section Spread

variable {type : CInt} {v : Int} (sign pre : List Byte) (zeros : Nat) (tmp : List Byte)

/-- The padding that is asked for. -/
theorem spread_of_counts (counts : Counts type v) (below : v < INT_MAX) (above : -4294967299 < v) :
    spread type sign pre (BitVec.ofInt 32 v) zeros tmp =
      arranged type sign pre v.toNat zeros tmp := by
  have first := toInt_counter v
  have second := toInt_spill (BitVec.ofInt 32 v)
  have third := toInt_spill (spill (BitVec.ofInt 32 v))
  rw [Counts, loops, INT_MIN] at counts
  rw [INT_MIN, INT_MAX] at second third
  rw [INT_MAX] at below
  rw [spread, arranged]
  split
  · next behind =>
      rw [if_pos behind] at counts
      rw [show (BitVec.ofInt 32 v).toInt.toNat = v.toNat by omega]
  · next right =>
      rw [if_neg right] at counts
      split
      · next padded =>
          rw [if_pos padded] at counts
          rw [show (BitVec.ofInt 32 v).toInt.toNat = v.toNat by omega,
            show (spill (BitVec.ofInt 32 v)).toInt.toNat = 0 by omega]
      · next blank =>
          rw [if_neg blank] at counts
          rw [show (BitVec.ofInt 32 v).toInt.toNat = v.toNat by omega,
            show (spill (BitVec.ofInt 32 v)).toInt.toNat = 0 by omega,
            show (spill (spill (BitVec.ofInt 32 v))).toInt.toNat = 0 by omega]

/-- A counter that wraps pads where nothing is to be padded. -/
theorem spread_of_not_counts (wraps : ¬ Counts type v) :
    v < 0 ∧ sign.length + pre.length + (zeros + tmp.length) <
      (spread type sign pre (BitVec.ofInt 32 v) zeros tmp).length := by
  have first := toInt_counter v
  have second := toInt_spill (BitVec.ofInt 32 v)
  have third := toInt_spill (spill (BitVec.ofInt 32 v))
  rw [Counts, loops, INT_MIN, not_or, not_le, not_le] at wraps
  rw [INT_MIN, INT_MAX] at second third
  rw [spread]
  split
  · next behind =>
      rw [if_pos behind] at wraps
      rw [length_layout]
      omega
  · next right =>
      rw [if_neg right] at wraps
      split
      · next padded =>
          rw [if_pos padded] at wraps
          rw [length_layout]
          omega
      · next blank =>
          rw [if_neg blank] at wraps
          rw [length_layout]
          omega

theorem length_arranged (pad : Nat) :
    (arranged type sign pre pad zeros tmp).length =
      pad + (sign.length + pre.length + (zeros + tmp.length)) := by
  rw [arranged]
  split_ifs
  all_goals
    rw [length_layout]
    omega

end Spread

/-! ### Reading a text back -/

/-- The characters of the digits of a base. -/
def isFigure (base type : CInt) (c : Byte) : Bool :=
  ((digitTable type).take base.toNat).any fun figure => figure = c

def isBlank (c : Byte) : Bool := c = chr ' '

/-- The last run of digits in a text, the least first. -/
def tailFigures (base type : CInt) (t : List Byte) : List Byte :=
  (t.reverse.dropWhile isBlank).takeWhile (isFigure base type)

section Reading

variable {base type : CInt} {n n' : Nat} {ds ds' : List Nat}

theorem digitTable_length (type : CInt) : (digitTable type).length = 36 := by
  rw [digitTable]
  split
  · decide
  · decide

theorem digitTable_nodup (type : CInt) : (digitTable type).Nodup := by
  rw [digitTable]
  split
  · decide
  · decide

theorem isFigure_iff {c : Byte} :
    isFigure base type c = true ↔ c ∈ (digitTable type).take base.toNat := by
  simp [isFigure]

/-- No blank and no sign is a digit. -/
theorem not_isFigure {c : Byte} (other : c = chr ' ' ∨ c = chr '+' ∨ c = chr '-') :
    isFigure base type c = false := by
  refine Bool.eq_false_iff.mpr fun digit => ?_
  have listed := List.mem_of_mem_take (isFigure_iff.mp digit)
  rw [digitTable] at listed
  split at listed
  · rcases other with rfl | rfl | rfl
    all_goals exact absurd listed (by decide)
  · rcases other with rfl | rfl | rfl
    all_goals exact absurd listed (by decide)

theorem isFigure_getD {d : Nat} (small : d < base.toNat) (upper : base.toNat ≤ 36) :
    isFigure base type ((digitTable type).getD d 0) = true := by
  have inside : d < ((digitTable type).take base.toNat).length := by
    rw [List.length_take, digitTable_length]
    omega
  refine isFigure_iff.mpr (List.mem_iff_getElem.mpr ⟨d, inside, ?_⟩)
  rw [List.length_take, lt_inf_iff] at inside
  rw [List.getElem_take, List.getD_eq_getElem _ _ inside.2]

/-- Of the prefix only a `0` is a digit of its base. -/
theorem prefixText_zero {c : Byte} (member : c ∈ prefixText base type)
    (digit : isFigure base type c = true) : c = chr '0' := by
  rw [prefixText] at member
  split at member
  · split at member
    · exact List.mem_singleton.mp member
    · split at member
      · next hex =>
          subst hex
          rcases List.mem_cons.mp member with zero | letter
          · exact zero
          · rw [List.mem_singleton.mp letter, isFigure_iff, digitTable] at digit
            split at digit
            · exact absurd digit (by decide)
            · exact absurd digit (by decide)
      · cases member
  · cases member

theorem signText_blank {num : BitVec 64} {c : Byte} (member : c ∈ signText num type) :
    c = chr ' ' ∨ c = chr '+' ∨ c = chr '-' := by
  rw [signText] at member
  split_ifs at member
  all_goals simp_all

theorem takeWhile_zeros {p : Byte → Bool} {l : List Byte}
    (zeros : ∀ c ∈ l, p c = true → c = chr '0') :
    ∃ k, l.takeWhile p = List.replicate k (chr '0') := by
  refine ⟨_, List.eq_replicate_iff.mpr ⟨rfl, fun c member => ?_⟩⟩
  exact zeros c ((List.takeWhile_sublist p).subset member) (List.mem_takeWhile_imp member)

/-- In front of the digits there are only zeros and characters that are no digits. -/
theorem tailFigures_layout (upper : base.toNat ≤ 36) (shown : Numeral base.toNat n ds)
    (lead : Nat) (num : BitVec 64) {c : Byte} (filler : c = chr '0' ∨ c = chr ' ')
    (fill zeros trail : Nat) :
    ∃ k, tailFigures base type (layout lead (signText num type) (prefixText base type) c fill zeros
        (figures type ds) trail) = figures type ds ++ List.replicate k (chr '0') := by
  have figure {x : Byte} (member : x ∈ figures type ds) : isFigure base type x = true := by
    obtain ⟨d, listed, rfl⟩ := List.mem_map.mp member
    exact isFigure_getD (shown.small d listed) upper
  have blank : isFigure base type (chr ' ') = false := not_isFigure (.inl rfl)
  obtain ⟨x, more, split⟩ : ∃ x more, figures type ds = x :: more := by
    refine List.exists_cons_of_ne_nil fun none_shown => ?_
    exact shown.nonempty (List.map_eq_nil_iff.mp none_shown)
  have solid : ¬ isBlank x = true := by
    intro same
    have first : isFigure base type x = true := figure (split ▸ List.mem_cons_self)
    rw [of_decide_eq_true same, blank] at first
    cases first
  rw [tailFigures, layout]
  simp only [List.reverse_append, List.reverse_replicate, List.reverse_reverse, List.append_assoc]
  have blanks : ∀ y ∈ List.replicate trail (chr ' '), isBlank y = true := by
    intro y member
    rw [List.eq_of_mem_replicate member]
    rfl
  rw [List.dropWhile_append_of_pos blanks, split, List.cons_append,
    List.dropWhile_cons_of_neg solid, ← List.cons_append, ← split,
    List.takeWhile_append_of_pos fun y member => figure member]
  have zeros_only : ∀ y ∈ List.replicate zeros (chr '0') ++ (List.replicate fill c ++
      ((prefixText base type).reverse ++ ((signText num type).reverse ++
        List.replicate lead (chr ' ')))), isFigure base type y = true → y = chr '0' := by
    intro y member digit
    have no_figure (other : y = chr ' ' ∨ y = chr '+' ∨ y = chr '-') : y = chr '0' := by
      rw [not_isFigure other] at digit
      cases digit
    simp only [List.mem_append, List.mem_reverse] at member
    rcases member with zero | pad | pre | sign | space
    · exact List.eq_of_mem_replicate zero
    · rw [List.eq_of_mem_replicate pad] at no_figure ⊢
      exact filler.elim id fun space => no_figure (.inl space)
    · exact prefixText_zero pre digit
    · exact no_figure (signText_blank sign)
    · exact no_figure (.inl (List.eq_of_mem_replicate space))
  obtain ⟨k, run⟩ := takeWhile_zeros zeros_only
  exact ⟨k, by rw [run]⟩

theorem tailFigures_arranged (upper : base.toNat ≤ 36) (shown : Numeral base.toNat n ds)
    (num : BitVec 64) (pad zeros : Nat) :
    ∃ k, tailFigures base type (arranged type (signText num type) (prefixText base type) pad zeros
        (figures type ds)) = figures type ds ++ List.replicate k (chr '0') := by
  rw [arranged]
  split
  · exact tailFigures_layout upper shown _ num (.inr rfl) _ _ _
  · split
    · exact tailFigures_layout upper shown _ num (.inl rfl) _ _ _
    · exact tailFigures_layout upper shown _ num (.inr rfl) _ _ _

theorem tailFigures_spread (upper : base.toNat ≤ 36) (shown : Numeral base.toNat n ds)
    (num : BitVec 64) (left : CInt) (zeros : Nat) :
    ∃ k, tailFigures base type (spread type (signText num type) (prefixText base type) left zeros
        (figures type ds)) = figures type ds ++ List.replicate k (chr '0') := by
  rw [spread]
  split
  · exact tailFigures_layout upper shown _ num (.inr rfl) _ _ _
  · split
    · exact tailFigures_layout upper shown _ num (.inl rfl) _ _ _
    · exact tailFigures_layout upper shown _ num (.inr rfl) _ _ _

/-- What is read of a text is the number shown. -/
theorem value_of_tailFigures (upper : base.toNat ≤ 36) (shown : Numeral base.toNat n ds)
    (shown' : Numeral base.toNat n' ds') {k k' : Nat}
    (same : figures type ds ++ List.replicate k (chr '0') =
      figures type ds' ++ List.replicate k' (chr '0')) : n = n' := by
  have zeros (k : Nat) : List.replicate k (chr '0') = figures type (List.replicate k 0) := by
    rw [figures, List.map_replicate, digitTable_zero]
  have back {l : List Nat} (small : ∀ d ∈ l, d < 36) :
      (figures type l).map (digitTable type).idxOf = l := by
    rw [figures, List.map_map]
    conv_rhs => rw [← List.map_id l]
    refine List.map_congr_left fun d listed => ?_
    have inside : d < (digitTable type).length := by
      rw [digitTable_length]
      exact small d listed
    rw [Function.comp_apply, List.getD_eq_getElem _ _ inside,
      (digitTable_nodup type).idxOf_getElem, id]
  have padded {m : Nat} {l : List Nat} (shown : Numeral base.toNat m l) (k : Nat) :
      ∀ d ∈ l ++ List.replicate k 0, d < 36 := by
    intro d member
    rcases List.mem_append.mp member with digit | zero
    · exact lt_of_lt_of_le (shown.small d digit) upper
    · rw [List.eq_of_mem_replicate zero]
      decide
  have joined (l : List Nat) (k : Nat) :
      figures type l ++ List.replicate k (chr '0') = figures type (l ++ List.replicate k 0) := by
    rw [zeros, figures, figures, figures, List.map_append]
  rw [joined, joined] at same
  refine shown.value_eq shown' (?_ : ds ++ List.replicate k 0 = ds' ++ List.replicate k' 0)
  rw [← back (padded shown k), same, back (padded shown' k')]

end Reading

/-! ### When a number is printed -/

/-- The padding is computed within the range of `int`. -/
def HasRoom (num : BitVec 64) (base size precision type : CInt) : Prop :=
  Counts type (room num base size precision type
    (numeral base.toNat (magnitude num type)).length)

section Printed

variable {num : BitVec 64} {base size precision type : CInt}

/-- A text that goes to every sink is one text. -/
theorem Emits.unique {t t' : List Byte} (emits : Emits num base size precision type t)
    (emits' : Emits num base size precision type t') : t = t' := by
  have whole (t : List Byte) (start : Sink.Text Byte Ptr) :
      ((Sink.unlimited Byte Ptr).putAll t start).text = start.text ++ t := by
    induction t generalizing start with
    | nil => exact (List.append_nil _).symm
    | cons c t ih => exact (ih _).trans (by simp [Sink.unlimited])
  have same := (emits _ (Sink.unlimited Byte Ptr) ⟨[], []⟩).symm.trans
    (emits' _ (Sink.unlimited Byte Ptr) ⟨[], []⟩)
  have texts := congrArg Sink.Text.text (Option.some.inj same)
  rwa [whole, whole] at texts

theorem toNat_base_le (lower : 2 ≤ base.toInt) (upper : base.toInt ≤ 36) : base.toNat ≤ 36 := by
  rw [BitVec.toInt_eq_toNat_cond] at lower upper
  split at lower
  · next low =>
      rw [if_pos low] at upper
      omega
  · have bound := base.isLt
    omega

/-- Only a number of one word is shown. -/
theorem Prints.fits (lower : 2 ≤ base.toInt) (upper : base.toInt ≤ 36)
    (prints : Prints num base size precision type) : magnitude num type < 2 ^ 32 := by
  obtain ⟨t, ds, pad, emits, shows⟩ := prints
  have most := toNat_base_le lower upper
  have low := numeral_spec (one_lt_base lower) (magnitude num type % 2 ^ 32)
  have same := emits.unique (number_emits num size precision type lower upper)
  rw [shows.text] at same
  obtain ⟨k, read⟩ := tailFigures_arranged most shows.numeral num pad
    (max precision.toInt ds.length - ds.length).toNat
  rw [same] at read
  obtain ⟨k', read'⟩ := tailFigures_spread most low num _ _
  have value := value_of_tailFigures most shows.numeral low (read.symm.trans read')
  rw [value]
  exact Nat.mod_lt _ (by decide)

/-- Only padding that is computed as an `int` gives the length asked for. -/
theorem Prints.room (lower : 2 ≤ base.toInt) (upper : base.toInt ≤ 36)
    (prints : Prints num base size precision type) : HasRoom num base size precision type := by
  have fits := prints.fits lower upper
  obtain ⟨t, ds, pad, emits, shows⟩ := prints
  by_contra wraps
  have digits := shows.numeral.eq (one_lt_base lower)
  have low : lowDigits num base type = ds := by rw [lowDigits, Nat.mod_eq_of_lt fits, digits]
  have same := emits.unique (number_emits num size precision type lower upper)
  rw [HasRoom, ← digits] at wraps
  obtain ⟨negative, longer⟩ := spread_of_not_counts (signText num type) (prefixText base type)
    (max precision.toInt ds.length - ds.length).toNat (figures type ds) wraps
  have length := shows.length
  rw [same, emitted, low] at length
  rw [AnyBase.room] at negative
  rw [figures, List.length_map] at longer
  rw [figures] at length
  omega

/-- A number of one word is shown where the padding is computed as an `int`. -/
theorem prints_of_fits (lower : 2 ≤ base.toInt) (upper : base.toInt ≤ 36)
    (fits : magnitude num type < 2 ^ 32) (has_room : HasRoom num base size precision type) :
    Prints num base size precision type := by
  have low : lowDigits num base type = numeral base.toNat (magnitude num type) := by
    rw [lowDigits, Nat.mod_eq_of_lt fits]
  have shown := numeral_spec (one_lt_base lower) (magnitude num type)
  have emits := number_emits num size precision type lower upper
  have some_digit := List.length_pos_iff.mpr shown.nonempty
  have few := lowDigits_length num (one_lt_base lower) type
  have bound := BitVec.toInt_lt (x := size)
  have bound' := BitVec.le_toInt size
  have bound'' := BitVec.toInt_lt (x := precision)
  have signs := signText_length num type
  have prefixes := prefixText_length base type
  rw [low] at few
  have text : emitted num base size precision type =
      arranged type (signText num type) (prefixText base type)
        (AnyBase.room num base size precision type
          (numeral base.toNat (magnitude num type)).length).toNat
        (max precision.toInt (numeral base.toNat (magnitude num type)).length -
          (numeral base.toNat (magnitude num type)).length).toNat
        (figures type (numeral base.toNat (magnitude num type))) := by
    rw [emitted, low]
    refine spread_of_counts _ _ _ _ has_room ?_ ?_
    · rw [AnyBase.room, INT_MAX]
      omega
    · rw [AnyBase.room]
      omega
  refine ⟨_, _, _, emits, shown, text, ?_⟩
  rw [text, length_arranged, figures, List.length_map, AnyBase.room]
  omega

end Printed

/-- `number` prints the number it is given exactly when that fits into one word and the padding is
computed within the range of `int`. -/
theorem number_prints_iff (num : BitVec 64) {base : CInt} (size precision type : CInt)
    (lower : 2 ≤ base.toInt) (upper : base.toInt ≤ 36) :
    Prints num base size precision type ↔
      magnitude num type < 2 ^ 32 ∧ HasRoom num base size precision type := by
  constructor
  · intro prints
    exact ⟨prints.fits lower upper, prints.room lower upper⟩
  · rintro ⟨fits, has_room⟩
    exact prints_of_fits lower upper fits has_room

/-- `%d` of 42. -/
theorem number_prints_sample : Prints 42 10 (-1) (-1) SIGN :=
  (number_prints_iff 42 (-1) (-1) SIGN (by decide) (by decide)).mpr
    ⟨by decide, .inl (by decide)⟩

/-- `%lld` of `2 ^ 32` prints a zero. -/
theorem high_word_not_printed : ¬ Prints 4294967296 10 (-1) (-1) SIGN := by
  intro prints
  exact absurd (prints.fits (by decide) (by decide)) (by decide)

end CFunc.Clibs.Printf.AnyBase
