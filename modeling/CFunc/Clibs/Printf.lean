import CFunc.Lib.Byte
import CFunc.Lib.CInt
import CFunc.Lib.Sink
import Mathlib.Tactic.Ring

/-!
`clibs/printf.c`: `vsnprintf`.

`int`, `unsigned long` and pointers have four bytes; arithmetic on all of them
wraps. Every store site of the source is `if (str <= end) *str = c; ++str;`,
and `%n` stores `str - buf`: the code is written over a sink, and
`Buffer.sink` has these two as its operations. A format string is the list of
its bytes, where the end of the list reads as the `NUL`. The strings of `%s`
lie in a memory `rd` apart from the buffer. Arguments whose types do not match
their conversions have no meaning.
-/

namespace CFunc.Clibs.Printf

open CFunc.Lib

abbrev Ptr := BitVec 32

/-- A character constant. -/
def chr (c : Char) : Byte := BitVec.ofNat 8 c.toNat

/-! ### Arguments -/

/-- An argument as it was passed. -/
inductive Arg where
  /-- `int`, `long` and their unsigned forms -/
  | int (v : CInt)
  | longlong (v : BitVec 64)
  | ptr (p : Ptr)
  deriving DecidableEq

/-- `va_arg(args, int)` -/
def vaInt : List Arg → Option (CInt × List Arg)
  | .int v :: args => some (v, args)
  | _ => none

/-- `va_arg(args, long long)` -/
def vaLongLong : List Arg → Option (BitVec 64 × List Arg)
  | .longlong v :: args => some (v, args)
  | _ => none

/-- `va_arg(args, void *)` -/
def vaPtr : List Arg → Option (Ptr × List Arg)
  | .ptr p :: args => some (p, args)
  | _ => none

/-! ### The parts of a conversion specification -/

def ZEROPAD : CInt := 1
def SIGN : CInt := 2
def PLUS : CInt := 4
def SPACE : CInt := 8
def LEFT : CInt := 16
def SPECIAL : CInt := 32
def LARGE : CInt := 64

/-- `*fmt` -/
def peek (fmt : List Byte) : Byte := fmt.headD 0

def isdigit (c : Byte) : Bool := chr '0' ≤ c ∧ c ≤ chr '9'

/-- `skip_atoi`, from the value read so far. -/
def skip_atoi (i : CInt) : List Byte → CInt × List Byte
  | [] => (i, [])
  | c :: s => if isdigit c then skip_atoi (i * 10 + c.setWidth 32 - 48) s else (i, c :: s)

/-- From the label `repeat`, after its `++fmt`. -/
def readFlags (flags : CInt) : List Byte → CInt × List Byte
  | [] => (flags, [])
  | c :: fmt =>
      if c = chr '-' then readFlags (flags ||| LEFT) fmt
      else if c = chr '+' then readFlags (flags ||| PLUS) fmt
      else if c = chr ' ' then readFlags (flags ||| SPACE) fmt
      else if c = chr '#' then readFlags (flags ||| SPECIAL) fmt
      else if c = chr '0' then readFlags (flags ||| ZEROPAD) fmt
      else (flags, c :: fmt)

/-- `flags`, `field_width` and what is left of the format and the arguments. -/
def readWidth (flags : CInt) (fmt : List Byte) (args : List Arg) :
    Option (CInt × CInt × List Byte × List Arg) :=
  if isdigit (peek fmt) then
    let (field_width, fmt) := skip_atoi 0 fmt
    some (flags, field_width, fmt, args)
  else if peek fmt = chr '*' then
    match vaInt args with
    | none => none
    | some (field_width, args) =>
        if field_width.slt 0 then some (flags ||| LEFT, -field_width, fmt.tail, args)
        else some (flags, field_width, fmt.tail, args)
  else some (flags, -1, fmt, args)

/-- `if (precision < 0) precision = 0;` -/
def clampPrecision (precision : CInt) : CInt := if precision.slt 0 then 0 else precision

def readPrecision (fmt : List Byte) (args : List Arg) : Option (CInt × List Byte × List Arg) :=
  if peek fmt = chr '.' then
    if isdigit (peek fmt.tail) then
      let (precision, fmt) := skip_atoi 0 fmt.tail
      some (clampPrecision precision, fmt, args)
    else if peek fmt.tail = chr '*' then
      match vaInt args with
      | none => none
      | some (precision, args) => some (clampPrecision precision, fmt.tail.tail, args)
    else some (clampPrecision (-1), fmt.tail, args)
  else some (-1, fmt, args)

/-- `qualifier`, with nothing for its `-1`. -/
def readQualifier (fmt : List Byte) : Option Byte × List Byte :=
  let c := peek fmt
  if c = chr 'h' ∨ c = chr 'l' ∨ c = chr 'L' ∨ c = chr 'Z' then
    if c = chr 'l' ∧ peek fmt.tail = chr 'l' then (some (chr 'L'), fmt.tail.tail)
    else (some c, fmt.tail)
  else (none, fmt)

/-- What stands between the `%` and the conversion's letter. -/
structure Directive where
  flags : CInt
  field_width : CInt
  precision : CInt
  qualifier : Option Byte

/-- After the `%`: the directive, and the format from the conversion's letter on. -/
def readDirective (fmt : List Byte) (args : List Arg) :
    Option (Directive × List Byte × List Arg) := do
  let (flags, fmt) := readFlags 0 fmt
  let (flags, field_width, fmt, args) ← readWidth flags fmt args
  let (precision, fmt, args) ← readPrecision fmt args
  let (qualifier, fmt) := readQualifier fmt
  some (⟨flags, field_width, precision, qualifier⟩, fmt, args)

/-! ### Numbers -/

/-- The bases that `vsnprintf` passes on; with these `number` never returns at its check. -/
inductive Base where
  | oct
  | dec
  | hex
  deriving DecidableEq

def Base.toNat : Base → Nat
  | oct => 8
  | dec => 10
  | hex => 16

/-- The quotient and the remainder of `do_div`: `unsigned long` drops the high word. -/
def do_div (n : BitVec 64) (base : Base) : BitVec 64 × Nat :=
  let low := n.toNat % 2 ^ 32
  (BitVec.ofNat 64 (low / base.toNat), low % base.toNat)

def small_digits : List Byte := bytes "0123456789abcdefghijklmnopqrstuvwxyz"

def large_digits : List Byte := bytes "0123456789ABCDEFGHIJKLMNOPQRSTUVWXYZ"

/-- `while (num != 0) tmp[i++] = digits[do_div(num,base)];`, for as many rounds as `tmp`
has room. -/
def digitLoop (digits : List Byte) (base : Base) : Nat → BitVec 64 → List Byte
  | 0, _ => []
  | fuel + 1, num =>
      if num = 0 then []
      else digits.getD (do_div num base).2 0 :: digitLoop digits base fuel (do_div num base).1

/-- `tmp` up to `i`. -/
def numberDigits (digits : List Byte) (base : Base) (num : BitVec 64) : List Byte :=
  if num = 0 then [chr '0'] else digitLoop digits base 66 num

/-- `sign` (or `NUL`), the magnitude and what is left of `size`. -/
def numberSign (num : BitVec 64) (size type : CInt) : Byte × BitVec 64 × CInt :=
  if type &&& SIGN ≠ 0 then
    if num.slt 0 then (chr '-', -num, size - 1)
    else if type &&& PLUS ≠ 0 then (chr '+', num, size - 1)
    else if type &&& SPACE ≠ 0 then (chr ' ', num, size - 1)
    else (0, num, size)
  else (0, num, size)

section Output

variable {σ : Type} (S : Sink Byte Ptr σ)

/-- `while (low < n--) *str++ = c;`, with `n` at the exit. -/
def padLoop (c : Byte) (low : CInt) : Nat → CInt → σ → CInt × σ
  | 0, n, o => (n - 1, o)
  | fuel + 1, n, o =>
      if low.slt n then padLoop c low fuel (n - 1) (S.put c o) else (n - 1, o)

/-- `padLoop` with as many rounds as it has. -/
def padAfter (c : Byte) (low n : CInt) (o : σ) : CInt × σ :=
  padLoop S c low (n.toInt - low.toInt).toNat n o

/-- `while (--field_width > 0) *str++ = c;` is the same loop after one more decrement. -/
def padBefore (c : Byte) (n : CInt) (o : σ) : CInt × σ :=
  let (left, o) := padAfter S c 0 (n - 1) o
  (left + 1, o)

/-- The prefix of `SPECIAL`. -/
def putPrefix (digits : List Byte) (base : Base) (type : CInt) (o : σ) : σ :=
  if type &&& SPECIAL ≠ 0 then
    if base = .oct then S.put (chr '0') o
    else if base = .hex then S.put (digits.getD 33 0) (S.put (chr '0') o)
    else o
  else o

/-- `number` from its first store on. -/
def putNumber (digits tmp : List Byte) (c sign : Byte) (base : Base) (size precision type : CInt)
    (o : σ) : σ :=
  let (size, o) :=
    if type &&& (ZEROPAD + LEFT) = 0 then padAfter S (chr ' ') 0 size o else (size, o)
  let o := if sign ≠ 0 then S.put sign o else o
  let o := putPrefix S digits base type o
  let (size, o) := if type &&& LEFT = 0 then padAfter S c 0 size o else (size, o)
  let (_, o) := padAfter S (chr '0') (BitVec.ofNat 32 tmp.length) precision o
  let o := S.putAll tmp.reverse o
  let (_, o) := padAfter S (chr ' ') 0 size o
  o

def number (num : BitVec 64) (base : Base) (size precision type : CInt) (o : σ) : σ :=
  let digits := if type &&& LARGE ≠ 0 then large_digits else small_digits
  let type := if type &&& LEFT ≠ 0 then type &&& ~~~ZEROPAD else type
  let c := if type &&& ZEROPAD ≠ 0 then chr '0' else chr ' '
  let (sign, num, size) := numberSign num size type
  let size :=
    if type &&& SPECIAL ≠ 0 then
      if base = .hex then size - 2 else if base = .oct then size - 1 else size
    else size
  let tmp := numberDigits digits base num
  let i := BitVec.ofNat 32 tmp.length
  let precision := if precision.slt i then i else precision
  putNumber S digits tmp c sign base (size - precision) precision type o

/-! ### The conversions -/

/-- `case 'c'` -/
def putChar (d : Directive) (v : CInt) (o : σ) : σ :=
  let (field_width, o) :=
    if d.flags &&& LEFT = 0 then padBefore S (chr ' ') d.field_width o else (d.field_width, o)
  let o := S.put (v.setWidth 8) o
  let (_, o) := padBefore S (chr ' ') field_width o
  o

/-- `strnlen`: the bytes before the `NUL`, and at most `count`. -/
def strnlen (s : Nat → Byte) : Nat → Nat
  | 0 => 0
  | count + 1 => if s 0 ≠ 0 then strnlen (fun i => s (i + 1)) count + 1 else 0

/-- The bytes of a `%s` argument from `s` on, or those of `"<NULL>"`. -/
def stringAt (rd : Ptr → Byte) (s : Ptr) : Nat → Byte :=
  if s = 0 then fun i => (bytes "<NULL>").getD i 0 else fun i => rd (s + BitVec.ofNat 32 i)

/-- `case 's'` -/
def putString (d : Directive) (s : Nat → Byte) (o : σ) : σ :=
  let len : CInt := BitVec.ofNat 32 (strnlen s d.precision.toNat)
  let (field_width, o) :=
    if d.flags &&& LEFT = 0 then padAfter S (chr ' ') len d.field_width o
    else (d.field_width, o)
  let o := Loop.count (fun i => S.put (s i)) len.toInt.toNat o
  let (_, o) := padAfter S (chr ' ') len field_width o
  o

/-- `case 'p'` -/
def putPtr (d : Directive) (p : Ptr) (o : σ) : σ :=
  if d.field_width = -1 then number S (p.setWidth 64) .hex 8 d.precision (d.flags ||| ZEROPAD) o
  else number S (p.setWidth 64) .hex d.field_width d.precision d.flags o

/-- `num` of an integer conversion, by its qualifier. -/
def integerArg (qualifier : Option Byte) (flags : CInt) (args : List Arg) :
    Option (BitVec 64 × List Arg) :=
  if qualifier = some (chr 'L') then vaLongLong args
  else
    match vaInt args with
    | none => none
    | some (v, args) =>
        if qualifier = some (chr 'l') then
          some (if flags &&& SIGN ≠ 0 then v.signExtend 64 else v.setWidth 64, args)
        else if qualifier = some (chr 'Z') then some (v.setWidth 64, args)
        else if qualifier = some (chr 'h') then
          let short := v.setWidth 16
          some (if flags &&& SIGN ≠ 0 then short.signExtend 64 else short.setWidth 64, args)
        else some (if flags &&& SIGN ≠ 0 then v.signExtend 64 else v.setWidth 64, args)

/-! ### `vsnprintf` -/

/-- Where the loop over the format stands. -/
structure St (σ : Type) where
  fmt : List Byte
  args : List Arg
  out : σ

/-- The cases of the `switch`; those of the integer formats set the base and the flags. -/
inductive Conversion where
  | char
  | string
  | pointer
  | count
  | percent
  | integer (base : Base) (flags : CInt)
  | default

/-- The case of a conversion's letter. -/
def caseOf (flags : CInt) (c : Byte) : Conversion :=
  if c = chr 'c' then .char
  else if c = chr 's' then .string
  else if c = chr 'p' then .pointer
  else if c = chr 'n' then .count
  else if c = chr '%' then .percent
  else if c = chr 'o' then .integer .oct flags
  else if c = chr 'X' then .integer .hex (flags ||| LARGE)
  else if c = chr 'x' then .integer .hex flags
  else if c = chr 'd' ∨ c = chr 'i' then .integer .dec (flags ||| SIGN)
  else if c = chr 'u' then .integer .dec flags
  else .default

/-- The `switch` over the conversion's letter and the `++fmt` after it. The three types that
`%n` stores as have four bytes each. -/
def convert (rd : Ptr → Byte) (d : Directive) (fmt : List Byte) (args : List Arg) (o : σ) :
    Option (St σ) :=
  match caseOf d.flags (peek fmt) with
  | .char => (vaInt args).map fun (v, args) => ⟨fmt.tail, args, putChar S d v o⟩
  | .string => (vaPtr args).map fun (s, args) => ⟨fmt.tail, args, putString S d (stringAt rd s) o⟩
  | .pointer => (vaPtr args).map fun (p, args) => ⟨fmt.tail, args, putPtr S d p o⟩
  | .count => (vaPtr args).map fun (ip, args) => ⟨fmt.tail, args, S.note ip o⟩
  | .percent => some ⟨fmt.tail, args, S.put (chr '%') o⟩
  | .integer base flags =>
      (integerArg d.qualifier flags args).map fun (num, args) =>
        ⟨fmt.tail, args, number S num base d.field_width d.precision flags o⟩
  | .default =>
      if peek fmt ≠ 0 then some ⟨fmt.tail, args, S.put (peek fmt) (S.put (chr '%') o)⟩
      -- `--fmt` leaves the `NUL` to the guard of the loop
      else some ⟨fmt, args, S.put (chr '%') o⟩

/-- One round of the loop over the format. -/
def formatStep (rd : Ptr → Byte) (st : St σ) : Option (St σ) :=
  if peek st.fmt ≠ chr '%' then
    some { st with fmt := st.fmt.tail, out := S.put (peek st.fmt) st.out }
  else
    match readDirective st.fmt.tail st.args with
    | none => none
    | some (d, fmt, args) => convert S rd d fmt args st.out

/-- `for (; *fmt ; ++fmt)`. Each round takes something off the format. -/
def format (rd : Ptr → Byte) (fmt : List Byte) (args : List Arg) (o : σ) :
    Loop.Result (St σ) :=
  Loop.run (fun st => peek st.fmt ≠ 0) (formatStep S rd) fmt.length ⟨fmt, args, o⟩

end Output

/-- The output of the format over a buffer without end. -/
def output (rd : Ptr → Byte) (fmt : List Byte) (args : List Arg) :
    Option (Sink.Text Byte Ptr) :=
  match format (Sink.unlimited Byte Ptr) rd fmt args ⟨[], []⟩ with
  | .done st => some st.out
  | _ => none

/-- The output to memory, with the addresses written so far and what `%n` stored. -/
structure Buffer where
  str : Ptr
  mem : Ptr → Byte
  written : List Ptr
  stores : List (Ptr × CInt)

namespace Buffer

/-- `*p = c` -/
def write (p : Ptr) (c : Byte) (o : Buffer) : Buffer :=
  { o with mem := fun x => if x = p then c else o.mem x, written := p :: o.written }

/-- `if (str <= end) *str = c; ++str;` and `*ip = str - buf`. -/
def sink (buf last : Ptr) : Sink Byte Ptr Buffer where
  put c o :=
    let o := if o.str ≤ last then o.write o.str c else o
    { o with str := o.str + 1 }
  note ip o := { o with stores := o.stores ++ [(ip, o.str - buf)] }

end Buffer

/-- `end` and `size` before the loop. -/
def limits (buf size : Ptr) : Ptr × Ptr :=
  let last := buf + size - 1
  if last < buf - 1 then (-1, -1 - buf + 1) else (last, size)

/-- The `NUL` after the loop. -/
def terminate (last size : Ptr) (o : Buffer) : Buffer :=
  if o.str ≤ last then o.write o.str 0 else if 0 < size then o.write last 0 else o

/-- `vsnprintf(buf, size, fmt, args)`, with its result. -/
def vsnprintf (rd mem : Ptr → Byte) (buf size : Ptr) (fmt : List Byte) (args : List Arg) :
    Option (Buffer × CInt) :=
  let (last, size) := limits buf size
  match format (Buffer.sink buf last) rd fmt args ⟨buf, mem, [], []⟩ with
  | .done st => some (terminate last size st.out, st.out.str - buf)
  | _ => none

end CFunc.Clibs.Printf
