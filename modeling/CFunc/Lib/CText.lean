import CFunc.Lib.CString
import CFunc.Lib.CInt
import Mathlib.Data.List.Infix
import Mathlib.Data.List.TakeWhile
import Mathlib.Data.Nat.Digits.Lemmas
import Mathlib.Tactic.IntervalCases
import Mathlib.Tactic.Ring

/-!
C strings taken apart and copied: tokens, substrings, numbers.

A string function that leaves an array, or meets a number no `int` holds,
says so with a `StringFault`; what it would then do is left open.
-/

namespace CFunc.Lib.CText

/-- What a string function can run into. -/
inductive StringFault where
  /-- a write past the end of an array -/
  | write
  /-- a read past the end of an array -/
  | read
  /-- a number that no `int` holds -/
  | range
  deriving DecidableEq, Repr

/-! ### Copies -/

/-- The bytes of `source` at the start of the field. -/
def writeField {n : Nat} (field : Vector Byte n) (source : List Byte) :
    Except StringFault (Vector Byte n) :=
  match overlay field source with
  | some written => .ok written
  | none => .error .write

/-- A source without a `NUL` goes on past its end, and past that of a field no longer than it. -/
def strcpy {n m : Nat} (field : Vector Byte n) (source : Vector Byte m) :
    Except StringFault (Vector Byte n) :=
  writeField field (cstr source ++ [0])

section Copies

variable {n m : Nat} {field written : Vector Byte n} {source : List Byte}

theorem overlay_eq_none_iff (field : Vector Byte n) :
    overlay field source = none ↔ n < source.length := by
  simp [overlay]

theorem writeField_eq_error_iff {fault : StringFault} :
    writeField field source = .error fault ↔ fault = .write ∧ n < source.length := by
  rw [writeField, ← overlay_eq_none_iff field]
  cases overlay field source with
  | none => simp [eq_comm]
  | some written => simp

theorem toList_of_writeField (write : writeField field source = .ok written) :
    written.toList = source ++ field.toList.drop source.length := by
  have fits : source.length ≤ n := by
    by_contra long
    rw [writeField_eq_error_iff.mpr ⟨rfl, not_le.mp long⟩] at write
    cases write
  have bytewise : written = Vector.ofFn fun i => source.getD i field[i] := by
    simpa [writeField, overlay, fits] using write.symm
  apply List.ext_getElem
  · simp [fits]
  · intro i inside _
    by_cases copied : i < source.length
    · simp [bytewise, copied, List.getElem_append_left]
    · simp [bytewise, copied, List.getElem_append_right (Nat.le_of_not_lt copied),
        Nat.add_sub_cancel' (Nat.le_of_not_lt copied)]

theorem writeField_ok (field : Vector Byte n) (fits : source.length ≤ n) :
    ∃ written, writeField field source = .ok written := by
  cases run : writeField field source with
  | ok written => exact ⟨written, rfl⟩
  | error fault => exact absurd (writeField_eq_error_iff.mp run).2 (not_lt.mpr fits)

theorem nul_not_mem_cstr (source : Vector Byte m) : 0 ∉ cstr source := by
  intro member
  simpa using List.mem_takeWhile_imp member

theorem takeWhile_ne_append {c : Byte} {s rest : List Byte} (not_before : c ∉ s) :
    (s ++ c :: rest).takeWhile (· ≠ c) = s := by
  rw [List.takeWhile_append_of_pos, List.takeWhile_cons_of_neg (by simp), List.append_nil]
  intro b member
  simpa using ne_of_mem_of_not_mem member not_before

/-- The string of a field whose bytes begin with a string and its `NUL`. -/
theorem cstr_eq {rest : List Byte} (bytes_eq : field.toList = source ++ 0 :: rest)
    (string : 0 ∉ source) : cstr field = source := by
  rw [cstr, bytes_eq, takeWhile_ne_append string]

/-- The string of a field filled up with `NUL`s, if any are left. -/
theorem cstr_of_padded {k : Nat} (bytes_eq : field.toList = source ++ List.replicate k 0)
    (string : 0 ∉ source) : cstr field = source := by
  cases k with
  | zero =>
      rw [cstr, bytes_eq, List.replicate_zero, List.append_nil, List.takeWhile_eq_self_iff]
      intro c member
      simpa using ne_of_mem_of_not_mem member string
  | succ k => exact cstr_eq bytes_eq string

/-- What the field held at the end of a string without `NUL` decides whether it reads back. -/
theorem cstr_of_writeField_iff (write : writeField field source = .ok written)
    (string : 0 ∉ source) (short : source.length < n) :
    cstr written = source ↔ field[source.length] = 0 := by
  have all : ∀ b ∈ source, (decide (b ≠ 0)) = true := by
    intro b member
    simpa using ne_of_mem_of_not_mem member string
  have inside : source.length < field.toList.length := by rwa [Vector.length_toList]
  rw [cstr, toList_of_writeField write, List.takeWhile_append_of_pos all,
    List.append_right_eq_self, List.drop_eq_getElem_cons inside, Vector.getElem_toList]
  simp [List.takeWhile_eq_nil_iff]

theorem cstr_of_strcpy {copy : Vector Byte m} (copied : strcpy field copy = .ok written) :
    cstr written = cstr copy := by
  have bytes_eq := toList_of_writeField copied
  rw [List.append_assoc] at bytes_eq
  exact cstr_eq bytes_eq (nul_not_mem_cstr copy)

theorem strcpy_ok (field : Vector Byte n) (copy : Vector Byte m) (fits : (cstr copy).length < n) :
    ∃ written, strcpy field copy = .ok written ∧ cstr written = cstr copy := by
  obtain ⟨written, copied⟩ := writeField_ok field
    (show (cstr copy ++ [0]).length ≤ n by rwa [List.length_append])
  exact ⟨written, copied, cstr_of_strcpy copied⟩

theorem strcpy_eq_error_iff {copy : Vector Byte m} {fault : StringFault} :
    strcpy field copy = .error fault ↔ fault = .write ∧ n ≤ (cstr copy).length := by
  rw [strcpy, writeField_eq_error_iff, List.length_append, List.length_singleton, Nat.lt_succ_iff]

theorem length_lt_of_strcpy {copy : Vector Byte m} (copied : strcpy field copy = .ok written) :
    (cstr copy).length < n := by
  by_contra long
  rw [strcpy_eq_error_iff.mpr ⟨rfl, not_lt.mp long⟩] at copied
  cases copied

/-- Copies of one string to one field are the same. -/
theorem strcpy_unique {k : Nat} {copy : Vector Byte m} {copy' : Vector Byte k}
    {written' : Vector Byte n} (copied : strcpy field copy = .ok written)
    (copied' : strcpy field copy' = .ok written') (same : cstr written = cstr written') :
    written = written' := by
  rw [cstr_of_strcpy copied, cstr_of_strcpy copied'] at same
  rw [strcpy, same, ← strcpy, copied'] at copied
  exact (Except.ok.inj copied).symm

end Copies

/-! ### Substrings -/

section Substrings

variable {needle s found : List Byte}

theorem strstr_eq_none_iff : strstr needle s = none ↔ ¬ needle <:+: s := by
  induction s with
  | nil => simp [strstr]
  | cons b rest ih =>
      rw [strstr, List.infix_cons_iff, ← List.isPrefixOf_iff_prefix]
      by_cases here : needle.isPrefixOf (b :: rest) = true
      · simp [here]
      · simp [here, ih]

theorem strstr_isSome_iff : (strstr needle s).isSome ↔ needle <:+: s := by
  rw [Option.isSome_iff_ne_none, ne_eq, strstr_eq_none_iff, not_not]

theorem append_of_strstr (at_found : strstr needle s = some found) :
    ∃ before rest, s = before ++ found ∧ found = needle ++ rest := by
  induction s with
  | nil =>
      rw [strstr] at at_found
      split at at_found
      · next empty =>
          cases at_found
          exact ⟨[], [], rfl, by rw [empty]; rfl⟩
      · cases at_found
  | cons b rest ih =>
      rw [strstr] at at_found
      split at at_found
      · next here =>
          cases at_found
          obtain ⟨after, split_eq⟩ := List.isPrefixOf_iff_prefix.mp here
          exact ⟨[], after, rfl, split_eq.symm⟩
      · obtain ⟨before, after, s_eq, found_eq⟩ := ih at_found
        exact ⟨b :: before, after, by rw [s_eq]; rfl, found_eq⟩

theorem strstr_append (needle rest : List Byte) :
    strstr needle (needle ++ rest) = some (needle ++ rest) := by
  have here : needle.isPrefixOf (needle ++ rest) = true :=
    List.isPrefixOf_iff_prefix.mpr (List.prefix_append needle rest)
  cases whole : needle ++ rest with
  | nil => rw [strstr, if_pos (List.append_eq_nil_iff.mp whole).1]
  | cons b tail =>
      rw [whole] at here
      rw [strstr, if_pos here]

/-! Where a needle stands. -/

theorem infix_of_infix_append {x : Byte} {xs before : List Byte} (absent : x ∉ before)
    (inside : x :: xs <:+: before ++ s) : x :: xs <:+: s := by
  induction before with
  | nil => exact inside
  | cons b before ih =>
      rw [List.mem_cons, not_or] at absent
      rcases List.infix_cons_iff.mp inside with here | later
      · exact absurd (List.cons_prefix_cons.mp here).1 absent.1
      · exact ih absent.2 later

theorem infix_of_infix_concat {c : Byte} (absent : c ∉ needle) (not_empty : needle ≠ [])
    (inside : needle <:+: s ++ [c]) : needle <:+: s := by
  rcases List.infix_concat_iff.mp inside with at_end | before
  · rcases List.suffix_concat_iff.mp at_end with empty | ⟨init, rfl, -⟩
    · exact absurd empty not_empty
    · simp at absent
  · exact before

/-- Two needles neither of which contains the first byte of the other do not overlap. -/
theorem infix_disjoint {x y : Byte} {xs ys : List Byte} (left : x :: xs <:+: s)
    (right : y :: ys <:+: s) (no_x : x ∉ y :: ys) (no_y : y ∉ x :: xs) :
    ∃ a b c, s = a ++ (x :: xs ++ (b ++ (y :: ys ++ c))) ∨
      s = a ++ (y :: ys ++ (b ++ (x :: xs ++ c))) := by
  have later {x y : Byte} {xs ys between before after : List Byte} (no_y : y ∉ x :: xs)
      (same : x :: xs ++ before = between ++ (y :: ys ++ after)) :
      ∃ b, before = b ++ (y :: ys ++ after) := by
    rcases List.append_eq_append_iff.mp same with ⟨b, -, before_eq⟩ | ⟨b, needle_eq, rest_eq⟩
    · exact ⟨b, before_eq⟩
    · cases b with
      | nil => exact ⟨[], rest_eq.symm⟩
      | cons z b =>
          obtain rfl : y = z := (List.cons.inj rest_eq).1
          exact absurd (by rw [needle_eq]; simp) no_y
  obtain ⟨a, a', s_eq⟩ := left
  obtain ⟨c, c', s_eq'⟩ := right
  rw [List.append_assoc] at s_eq s_eq'
  rcases List.append_eq_append_iff.mp (s_eq.trans s_eq'.symm) with
    ⟨between, -, same⟩ | ⟨between, -, same⟩
  · obtain ⟨b, rfl⟩ := later no_y same
    exact ⟨a, b, c', .inl s_eq.symm⟩
  · obtain ⟨b, rfl⟩ := later no_x same
    exact ⟨c, b, a', .inr s_eq'.symm⟩

end Substrings

/-! ### Tokens -/

/-- The tokens that calls of `strtok` with one delimiter give one after the other. -/
def tokens (delimiter : Byte) (s : List Byte) : List (List Byte) :=
  (s.splitOn delimiter).filter (· ≠ [])

section Tokens

variable {delimiter : Byte} {s token : List Byte}

theorem tokens_append_cons (delimiter : Byte) (s rest : List Byte) :
    tokens delimiter (s ++ delimiter :: rest) = tokens delimiter s ++ tokens delimiter rest := by
  rw [tokens, List.splitOn_append_cons_self, List.filter_append, tokens, tokens]

/-- A text joined from pieces has the tokens of its pieces. -/
theorem tokens_intercalate (delimiter : Byte) (pieces : List (List Byte)) :
    tokens delimiter ([delimiter].intercalate pieces) = pieces.flatMap (tokens delimiter) := by
  induction pieces with
  | nil => simp [tokens]
  | cons piece pieces ih =>
      cases pieces with
      | nil => simp
      | cons next rest =>
          rw [List.intercalate_cons_cons, List.append_assoc, List.singleton_append,
            tokens_append_cons, ih, ← List.flatMap_cons]

theorem tokens_of_not_mem (whole : delimiter ∉ s) :
    tokens delimiter s = if s = [] then [] else [s] := by
  rw [tokens, List.splitOn_eq_singleton whole]
  by_cases empty : s = [] <;> simp [empty]

theorem infix_intercalate {parts : List (List Byte)} (member : token ∈ parts) :
    token <:+: [delimiter].intercalate parts := by
  induction parts with
  | nil => cases member
  | cons part parts ih =>
      cases parts with
      | nil =>
          rw [List.mem_singleton.mp member, List.intercalate_singleton]
      | cons next rest =>
          rw [List.intercalate_cons_cons]
          rcases List.mem_cons.mp member with rfl | later
          · rw [List.append_assoc]
            exact (List.prefix_append token _).isInfix
          · exact (ih later).trans (List.suffix_append _ _).isInfix

theorem not_mem_intercalate {c : Byte} {parts : List (List Byte)} (other : c ≠ delimiter)
    (absent : ∀ part ∈ parts, c ∉ part) : c ∉ [delimiter].intercalate parts := by
  induction parts with
  | nil => exact List.not_mem_nil
  | cons part parts ih =>
      have here := absent part List.mem_cons_self
      have later := ih fun p member => absent p (List.mem_cons_of_mem part member)
      cases parts with
      | nil => rwa [List.intercalate_singleton]
      | cons next rest =>
          rw [List.intercalate_cons_cons]
          simp [here, other, later]

/-- A token is a piece of its text. -/
theorem infix_of_mem_tokens (member : token ∈ tokens delimiter s) : token <:+: s := by
  have inside : token <:+: [delimiter].intercalate (s.splitOn delimiter) :=
    infix_intercalate (List.mem_of_mem_filter member)
  rwa [List.intercalate_splitOn] at inside

end Tokens

/-! ### Numbers -/

/-- The white space of the C locale. -/
def isspace (c : Byte) : Bool := c = 32 ∨ (9 ≤ c ∧ c ≤ 13)

def isdigit (c : Byte) : Bool := 48 ≤ c ∧ c ≤ 57

/-- The number written by decimal digits. -/
def digitsValue (digits : List Byte) : Nat :=
  digits.foldl (fun value c => 10 * value + (c.toNat - 48)) 0

/-- A number as an `int`. -/
def toInt (value : Int) : Except StringFault Int :=
  if INT_MIN ≤ value ∧ value ≤ INT_MAX then .ok value else .error .range

/-- A numeral after its sign. -/
def unsigned (number : List Byte) : List Byte :=
  if number.head? = some 43 ∨ number.head? = some 45 then number.tail else number

/-- `atoi` of an array: white space, a sign, digits, and whatever stops them. When nothing
does, it goes on past the end of the array. -/
def atoi (array : List Byte) : Except StringFault Int :=
  let number := array.dropWhile isspace
  let digits := (unsigned number).takeWhile isdigit
  if digits.length = (unsigned number).length then .error .read
  else toInt (if number.head? = some 45 then -(digitsValue digits : Int) else digitsValue digits)

/-- The decimal numeral of a number. -/
def decimal (n : Nat) : List Byte :=
  if n = 0 then [48] else (Nat.digits 10 n).reverse.map fun d => BitVec.ofNat 8 (48 + d)

section Numbers

variable {digits rest : List Byte} {c : Byte}

/-- `atoi` where neither white space nor a sign comes first. -/
theorem atoi_cons (not_space : isspace c = false) (no_sign : c ≠ 43 ∧ c ≠ 45) :
    atoi (c :: rest) =
      if ((c :: rest).takeWhile isdigit).length = (c :: rest).length then .error .read
      else toInt (digitsValue ((c :: rest).takeWhile isdigit)) := by
  have number : (c :: rest).dropWhile isspace = c :: rest :=
    List.dropWhile_cons_of_neg (by simp [not_space])
  simp only [atoi, unsigned, number, List.head?_cons, Option.some.injEq, no_sign.1, no_sign.2,
    or_self, if_false]

theorem not_space_of_isdigit (digit : isdigit c) : isspace c = false ∧ c ≠ 43 ∧ c ≠ 45 := by
  have range : 48 ≤ c ∧ c ≤ 57 := of_decide_eq_true digit
  refine ⟨?_, ?_, ?_⟩
  · rw [isspace, decide_eq_false_iff_not]
    bv_omega
  · bv_omega
  · bv_omega

/-- The number before the first byte that is no digit. -/
theorem atoi_digits (some_digit : digits ≠ []) (all : ∀ d ∈ digits, isdigit d)
    (stop : isdigit c = false) : atoi (digits ++ c :: rest) = toInt (digitsValue digits) := by
  obtain ⟨d, digits, rfl⟩ := List.exists_cons_of_ne_nil some_digit
  obtain ⟨not_space, no_sign⟩ := not_space_of_isdigit (all d List.mem_cons_self)
  have stops : (d :: digits ++ c :: rest).takeWhile isdigit = d :: digits := by
    rw [List.takeWhile_append_of_pos all, List.takeWhile_cons_of_neg (by simp [stop]),
      List.append_nil]
  rw [List.cons_append] at stops ⊢
  rw [atoi_cons not_space no_sign, stops, if_neg (by simp)]

/-- Digits up to the end of the array. -/
theorem atoi_unstopped (some_digit : digits ≠ []) (all : ∀ d ∈ digits, isdigit d) :
    atoi digits = .error .read := by
  obtain ⟨d, digits, rfl⟩ := List.exists_cons_of_ne_nil some_digit
  obtain ⟨not_space, no_sign⟩ := not_space_of_isdigit (all d List.mem_cons_self)
  rw [atoi_cons not_space no_sign, List.takeWhile_eq_self_iff.mpr all, if_pos rfl]

theorem digitsValue_reverse {ds : List Nat} (small : ∀ d ∈ ds, d < 10) :
    digitsValue (ds.reverse.map fun d => BitVec.ofNat 8 (48 + d)) = Nat.ofDigits 10 ds := by
  induction ds with
  | nil => rfl
  | cons d ds ih =>
      have lt : d < 10 := small d List.mem_cons_self
      have before := ih fun d mem => small d (List.mem_cons_of_mem _ mem)
      rw [digitsValue] at before ⊢
      rw [List.reverse_cons, List.map_append, List.foldl_append, before, Nat.ofDigits_cons]
      simp only [List.map_singleton, List.foldl_cons, List.foldl_nil, BitVec.toNat_ofNat]
      omega

theorem digitsValue_decimal (n : Nat) : digitsValue (decimal n) = n := by
  rw [decimal]
  split
  · next zero => exact zero.symm
  · rw [digitsValue_reverse fun d mem => Nat.digits_lt_base (by decide) mem, Nat.ofDigits_digits]

theorem decimal_ne_nil (n : Nat) : decimal n ≠ [] := by
  rw [decimal]
  split
  · exact List.cons_ne_nil _ _
  · next positive => simpa [Nat.digits_eq_nil_iff_eq_zero] using positive

theorem isdigit_of_mem_decimal {n : Nat} (member : c ∈ decimal n) : isdigit c := by
  rw [decimal] at member
  split at member
  · rw [List.mem_singleton.mp member]
    decide
  · obtain ⟨d, mem, rfl⟩ := List.mem_map.mp member
    have lt : d < 10 := Nat.digits_lt_base (by decide) (List.mem_reverse.mp mem)
    clear mem
    interval_cases d <;> decide

theorem length_decimal_le {n k : Nat} (small : n < 10 ^ k) (positive : 0 < k) :
    (decimal n).length ≤ k := by
  rw [decimal]
  split
  · exact positive
  · rw [List.length_map, List.length_reverse]
    exact (Nat.digits_length_le_iff (by decide) n).mpr small

theorem atoi_decimal (n : Nat) (rest : List Byte) : atoi (decimal n ++ 0 :: rest) = toInt n := by
  rw [atoi_digits (decimal_ne_nil n) (fun _ => isdigit_of_mem_decimal) rfl, digitsValue_decimal]

end Numbers

end CFunc.Lib.CText
