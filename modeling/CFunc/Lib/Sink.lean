import CFunc.Lib.Loop
import Mathlib.Data.Option.Basic

/-!
Places that output goes to, one item after the other.

A program that only writes to its output and asks how far the output has come
is written once, over any sink. `Follows` says that two sinks stay related
whatever is written, so that such a program leaves them related: each program
has one lemma, assembled from those of its parts.
-/

namespace CFunc.Lib

/-- Output of items of type `β`: a state is written to with `put`, and `note` stores how
far the output has come under a name of type `ι`. -/
structure Sink (β ι σ : Type) where
  put : β → σ → σ
  note : ι → σ → σ

/-- The relation `R` between the states of two sinks is kept by whatever goes to both. -/
structure Follows {β ι σ τ : Type} (S : Sink β ι σ) (T : Sink β ι τ) (R : σ → τ → Prop) :
    Prop where
  put : ∀ {o t}, R o t → ∀ c, R (S.put c o) (T.put c t)
  note : ∀ {o t}, R o t → ∀ ip, R (S.note ip o) (T.note ip t)

namespace Sink

variable {β ι σ τ : Type}

/-- The items of a list, one after the other. -/
def putAll (S : Sink β ι σ) (items : List β) (o : σ) : σ :=
  items.foldl (fun o c => S.put c o) o

theorem putAll_append (S : Sink β ι σ) (items more : List β) (o : σ) :
    S.putAll (items ++ more) o = S.putAll more (S.putAll items o) :=
  List.foldl_append

/-- An output without end, and what was noted on the way: the length so far. -/
structure Text (β ι : Type) where
  text : List β
  notes : List (ι × Nat)
  deriving DecidableEq

/-- The sink that keeps everything. -/
def unlimited (β ι : Type) : Sink β ι (Text β ι) where
  put c t := { t with text := t.text ++ [c] }
  note ip t := { t with notes := t.notes ++ [(ip, t.text.length)] }

end Sink

namespace Follows

variable {β ι σ τ : Type} {S : Sink β ι σ} {T : Sink β ι τ} {R : σ → τ → Prop} {o : σ} {t : τ}

theorem putAll (follows : Follows S T R) (items : List β) (related : R o t) :
    R (S.putAll items o) (T.putAll items t) := by
  induction items generalizing o t with
  | nil => exact related
  | cons c items ih => exact ih (follows.put related c)

theorem count (follows : Follows S T R) (f : Nat → β) (n : Nat) (related : R o t) :
    R (Loop.count (fun i => S.put (f i)) n o) (Loop.count (fun i => T.put (f i)) n t) := by
  induction n with
  | zero => exact related
  | succ n ih => exact follows.put ih (f n)

end Follows

end CFunc.Lib
