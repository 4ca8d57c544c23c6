import Mathlib.Order.Defs.LinearOrder
import Mathlib.Data.List.Lex

/-!
Bytes as eight bits. They are ordered as `unsigned char`, so that byte strings
carry the lexicographic order of `std::string::operator<`.
-/

namespace CFunc

/-- A C `char` or `unsigned char`, by its bits. -/
abbrev Byte := BitVec 8

instance : LinearOrder Byte where
  le_refl := BitVec.le_refl
  le_trans := fun _ _ _ => BitVec.le_trans
  le_antisymm := fun _ _ => BitVec.le_antisymm
  le_total := BitVec.le_total
  lt_iff_le_not_ge := fun a b => by
    simp only [BitVec.le_def, BitVec.lt_def]
    omega
  toDecidableLE := inferInstance

/-- The bytes of a string literal, without its final NUL. -/
def bytes (s : String) : List Byte := s.toUTF8.data.toList.map (·.toBitVec)

end CFunc
