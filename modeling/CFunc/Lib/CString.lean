import CFunc.Lib.Byte

/-!
C strings in byte arrays. A string is the list of its bytes before the `NUL`.
-/

namespace CFunc

/-- A string that ends at its first `NUL`. -/
structure CStr where
  chars : List Byte
  nul_free : 0 ∉ chars

/-- `strstr`: the part of the string from the first occurrence of `needle` on. -/
def strstr (needle : List Byte) : List Byte → Option (List Byte)
  | [] => if needle = [] then some [] else none
  | b :: rest => if needle.isPrefixOf (b :: rest) then some (b :: rest) else strstr needle rest

/-- The C string an array holds; without a `NUL` it ends with the array. -/
def cstr {n : Nat} (field : Vector Byte n) : List Byte :=
  field.toList.takeWhile (· ≠ 0)

/-- `memcpy(field, source, strlen(source))`: the bytes past the source stay.
Copying past the end of the field has no meaning. -/
def overlay {n : Nat} (field : Vector Byte n) (source : List Byte) : Option (Vector Byte n) :=
  if source.length ≤ n then some (Vector.ofFn fun i => source.getD i field[i]) else none

/-- A source no longer than the field is copied. -/
theorem overlay_isSome_iff {n : Nat} (field : Vector Byte n) {source : List Byte} :
    (∃ written, overlay field source = some written) ↔ source.length ≤ n := by
  by_cases fits : source.length ≤ n
  · rw [overlay, if_pos fits]
    exact iff_of_true ⟨_, rfl⟩ fits
  · rw [overlay, if_neg fits]
    exact iff_of_false nofun fits

end CFunc
