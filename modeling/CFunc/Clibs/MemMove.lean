import CFunc.Lib.Memory

/-!
`memmove` of `clibs/string.c`.

Where the destination starts first, the bytes go from the front: a byte is
written below those still to read. Otherwise they go from the back, and a byte
is written above them.
-/

namespace CFunc.Clibs.MemMove

open CFunc.Lib CFunc.Lib.Memory

/-! ### The code -/

/-- `while (count--) *tmp++ = *s++;` -/
def upward : Nat → Memory → Nat → Nat → Memory
  | 0, m, _, _ => m
  | count + 1, m, tmp, s => upward count (put m tmp (m s)) (tmp + 1) (s + 1)

/-- `while (count--) *--tmp = *--s;` -/
def downward : Nat → Memory → Nat → Nat → Memory
  | 0, m, _, _ => m
  | count + 1, m, tmp, s => downward count (put m (tmp - 1) (m (s - 1))) (tmp - 1) (s - 1)

/-- The memory `memmove` returns with, and the pointer it returns. -/
def memmove (m : Memory) (dest src count : Nat) : Memory × Nat :=
  if dest ≤ src then (upward count m dest src, dest)
  else (downward count m (dest + count) (src + count), dest)

/-! ### What is moved -/

section Moved

variable {m : Memory} {dest src : Nat}

theorem upward_moved (below : dest ≤ src) (count : Nat) :
    Moved m (upward count m dest src) dest src count := by
  induction count generalizing m dest src with
  | zero => exact Moved.nothing m dest src
  | succ count ih =>
      have others : Moved (put m dest (m src))
          (upward count (put m dest (m src)) (dest + 1) (src + 1)) (dest + 1) (src + 1) count :=
        ih (Nat.succ_le_succ below)
      refine others.first ?_
      intro i _
      omega

theorem downward_moved (above : src ≤ dest) (count : Nat) :
    Moved m (downward count m (dest + count) (src + count)) dest src count := by
  induction count generalizing m with
  | zero => exact Moved.nothing m dest src
  | succ count ih =>
      have others : Moved (put m (dest + count) (m (src + count)))
          (downward count (put m (dest + count) (m (src + count))) (dest + count) (src + count))
          dest src count := ih
      refine others.last ?_
      intro i lt
      omega

end Moved

/-- However the regions overlap. -/
theorem memmove_moved (m : Memory) (dest src count : Nat) :
    Moved m (memmove m dest src count).1 dest src count := by
  rw [memmove]
  split
  · next below => exact upward_moved below count
  · next above => exact downward_moved (Nat.le_of_not_le above) count

end CFunc.Clibs.MemMove
