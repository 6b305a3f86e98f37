import Mathlib.Data.Nat.Digits.Lemmas
import Pintos.CString

/-!
# Formatted output

`__vprintf`, `parse_conversion` and `format_integer` in `lib/stdio.c`.  The characters
output are a list, and the variable arguments are a list from which `va_arg` takes the
first; an argument of another type than the conversion asks for is a failure.  Digits are
produced in reverse into a buffer of 64 characters, and a write behind its end is a failure
as well.

**A number printed with `%0no`** is its octal digits, padded with zeros to `n` characters
(`vprintf_octal`).
-/

namespace Pintos.Printf
open List
open CString (lit)

/-! ## Conversions -/

/-- The type of the argument. -/
inductive ArgType where
  | char
  | short
  | int
  | intmax
  | long
  | longlong
  | ptrdifft
  | sizet
  deriving DecidableEq

/-- `struct printf_conversion`, with a field for each flag. -/
structure Conversion where
  minus : Bool := false
  plus : Bool := false
  space : Bool := false
  pound : Bool := false
  zero : Bool := false
  group : Bool := false
  width : Int := 0
  precision : Int := -1
  type : ArgType := .int
  deriving DecidableEq

/-- A variable argument: one word, two words, or a pointer to a string. -/
inductive Arg where
  | word (v : BitVec 32)
  | double (v : BitVec 64)
  | string (s : Option CharPtr)
  deriving DecidableEq

/-- `va_arg (args, int)` and types of the same size. -/
def vaArgWord : List Arg → Option (BitVec 32 × List Arg)
  | .word v :: args => some (v, args)
  | _ => none

/-- `va_arg (args, long long)` and types of the same size. -/
def vaArgDouble : List Arg → Option (BitVec 64 × List Arg)
  | .double v :: args => some (v, args)
  | _ => none

/-- The value of an `int` expression, which wraps round. -/
def toInt32 (n : Int) : Int :=
  n.bmod 4294967296

/-- The flags of a conversion. -/
def parseFlags : Conversion → CharPtr → Option (Conversion × CharPtr)
  | _, [] => none
  | c, f :: format =>
    if f = ch '-' then parseFlags { c with minus := true } format
    else if f = ch '+' then parseFlags { c with plus := true } format
    else if f = ch ' ' then parseFlags { c with space := true } format
    else if f = ch '#' then parseFlags { c with pound := true } format
    else if f = ch '0' then parseFlags { c with zero := true } format
    else if f = ch '\'' then parseFlags { c with group := true } format
    else some (c, f :: format)

/-- `isdigit`. -/
def isdigit (c : Byte) : Bool :=
  c ≥ ch '0' && c ≤ ch '9'

/-- The loop that reads a number of digits. -/
def parseNumber : Int → CharPtr → Option (Int × CharPtr)
  | _, [] => none
  | n, f :: format =>
    if isdigit f then parseNumber (toInt32 (n * 10 + f.toNat - (ch '0').toNat)) format
    else some (n, f :: format)

/-- A number or, for a `*`, an argument. -/
def parseCount (format : CharPtr) (args : List Arg) : Option (Int × CharPtr × List Arg) := do
  let f ← format.head?
  if f = ch '*' then
    let (v, args) ← vaArgWord args
    some (v.toInt, format.tail, args)
  else
    let (n, format) ← parseNumber 0 format
    some (n, format, args)

/-- The type of the argument of a conversion. -/
def parseType : CharPtr → Option (ArgType × CharPtr)
  | [] => none
  | f :: format =>
    if f = ch 'h' then do
      let g ← format.head?
      some (if g = ch 'h' then (.char, format.tail) else (.short, format))
    else if f = ch 'j' then some (.intmax, format)
    else if f = ch 'l' then do
      let g ← format.head?
      some (if g = ch 'l' then (.longlong, format.tail) else (.long, format))
    else if f = ch 't' then some (.ptrdifft, format)
    else if f = ch 'z' then some (.sizet, format)
    else some (.int, f :: format)

/-- `parse_conversion`. -/
def parseConversion (format : CharPtr) (args : List Arg) :
    Option (Conversion × CharPtr × List Arg) := do
  let (c, format) ← parseFlags {} format
  let c := if c.minus then { c with zero := false } else c
  let c := if c.plus then { c with space := false } else c
  -- field width
  let (width, format, args) ← parseCount format args
  let c : Conversion := { c with width }
  let c := if c.width < 0 then { c with width := toInt32 (-c.width), minus := true } else c
  -- precision
  let f ← format.head?
  let (precision, format, args) ←
    if f = ch '.' then parseCount format.tail args else some (-1, format, args)
  let c : Conversion := { c with precision := if precision < 0 then -1 else precision }
  let c := if c.precision ≥ 0 then { c with zero := false } else c
  let (type, format) ← parseType format
  some ({ c with type }, format, args)

/-! ## Integers -/

/-- `struct integer_base`. -/
structure IntegerBase where
  base : Nat
  digits : List Byte
  x : Option Byte
  group : Nat

def baseD : IntegerBase := ⟨10, "0123456789".toList.map ch, none, 3⟩
def baseO : IntegerBase := ⟨8, "01234567".toList.map ch, none, 3⟩
def baseX : IntegerBase := ⟨16, "0123456789abcdef".toList.map ch, some (ch 'x'), 4⟩
def baseUpperX : IntegerBase := ⟨16, "0123456789ABCDEF".toList.map ch, some (ch 'X'), 4⟩

/-- `sizeof buf`. -/
def bufSize : Nat := 64

/-- `*cp++ = c`. -/
def push (buf : List Byte) (c : Byte) : Option (List Byte) := do
  assert (buf.length < bufSize)
  some (buf ++ [c])

/-- The loop that accumulates digits.  A value of 64 bits is 0 after 64 rounds. -/
def digitLoop (b : IntegerBase) (c : Conversion) :
    Nat → Nat → List Byte → Nat → Option (List Byte)
  | 0, _, _, _ => none
  | rounds + 1, value, buf, digitCnt =>
    if value > 0 then do
      let buf ←
        if c.group ∧ digitCnt > 0 ∧ digitCnt % b.group = 0 then push buf (ch ',') else some buf
      let buf ← push buf (← b.digits[value % b.base]?)
      digitLoop b c rounds (value / b.base) buf (digitCnt + 1)
    else
      some buf

/-- The sign character, if any. -/
def signOf (isSigned negative : Bool) (c : Conversion) : Option Byte :=
  if isSigned then
    if c.plus then some (if negative then ch '-' else ch '+')
    else if c.space then some (if negative then ch '-' else ch ' ')
    else if negative then some (ch '-')
    else none
  else
    none

/-- `format_integer`, with the characters it outputs. -/
def formatInteger (value : Nat) (isSigned negative : Bool) (b : IntegerBase) (c : Conversion) :
    Option (List Byte) := do
  let sign := signOf isSigned negative c
  let x := if c.pound ∧ value ≠ 0 then b.x else none
  let buf ← digitLoop b c 65 value [] 0
  -- zeros up to the precision, as long as there is room
  let precision := if c.precision < 0 then 1 else c.precision
  let buf := buf ++ List.replicate (min precision.toNat (bufSize - 1) - buf.length) (ch '0')
  let buf ←
    if c.pound ∧ b.base = 8 ∧ buf.getLast? ≠ some (ch '0') then push buf (ch '0') else some buf
  let padCnt :=
    (c.width - buf.length - (if x.isSome then 2 else 0) - (if sign.isSome then 1 else 0)).toNat
  some
    ((if ¬c.minus ∧ ¬c.zero then List.replicate padCnt (ch ' ') else []) ++
      sign.toList ++
      x.toList.flatMap (fun x => [ch '0', x]) ++
      (if c.zero then List.replicate padCnt (ch '0') else []) ++
      buf.reverse ++
      if c.minus then List.replicate padCnt (ch ' ') else [])

/-- `format_string`, with the characters it outputs. -/
def formatString (string : List Byte) (c : Conversion) : List Byte :=
  let padding := List.replicate (c.width - string.length).toNat (ch ' ')
  if c.minus then string ++ padding else padding ++ string

/-! ## The format string -/

/-- The argument of a signed conversion. -/
def signedArg (type : ArgType) (args : List Arg) : Option (Int × List Arg) :=
  match type with
  | .char => (vaArgWord args).map fun (v, args) => ((v.setWidth 8).toInt, args)
  | .short => (vaArgWord args).map fun (v, args) => ((v.setWidth 16).toInt, args)
  | .int | .long | .ptrdifft | .sizet => (vaArgWord args).map fun (v, args) => (v.toInt, args)
  | .intmax | .longlong => (vaArgDouble args).map fun (v, args) => (v.toInt, args)

/-- The argument of an unsigned conversion. -/
def unsignedArg (type : ArgType) (args : List Arg) : Option (Nat × List Arg) :=
  match type with
  | .char => (vaArgWord args).map fun (v, args) => ((v.setWidth 8).toNat, args)
  | .short => (vaArgWord args).map fun (v, args) => ((v.setWidth 16).toNat, args)
  | .int | .long | .ptrdifft | .sizet => (vaArgWord args).map fun (v, args) => (v.toNat, args)
  | .intmax | .longlong => (vaArgDouble args).map fun (v, args) => (v.toNat, args)

/-- One conversion, by its last character. -/
def convert (c : Conversion) (conversion : Byte) (args : List Arg) :
    Option (List Byte × List Arg) := do
  let unsigned (b : IntegerBase) : Option (List Byte × List Arg) := do
    let (value, args) ← unsignedArg c.type args
    some (← formatInteger value false false b c, args)
  if conversion = ch 'd' ∨ conversion = ch 'i' then
    let (value, args) ← signedArg c.type args
    some (← formatInteger value.natAbs true (value < 0) baseD c, args)
  else if conversion = ch 'o' then unsigned baseO
  else if conversion = ch 'u' then unsigned baseD
  else if conversion = ch 'x' then unsigned baseX
  else if conversion = ch 'X' then unsigned baseUpperX
  else if conversion = ch 'c' then
    let (v, args) ← vaArgWord args
    some (formatString [v.setWidth 8] c, args)
  else if conversion = ch 's' then
    match args with
    | .string s :: args =>
      let s := s.getD (lit "(null)".toList)
      -- a precision of -1 is a limit of `SIZE_MAX` characters
      let limit := if c.precision < 0 then unsignedSize - 1 else c.precision.toNat
      some (formatString ((CString.string s).take limit) c, args)
    | _ => none
  else if conversion = ch 'p' then
    let (v, args) ← vaArgWord args
    let c : Conversion :=
      { width := c.width, precision := c.precision, pound := true, type := c.type }
    some (← formatInteger v.toNat false false baseX c, args)
  else if conversion ∈ "feEgGn".toList.map ch then
    some ("<<no %".toList.map ch ++ [conversion] ++ " in kernel>>".toList.map ch, args)
  else
    some ("<<no %".toList.map ch ++ [conversion] ++ " conversion>>".toList.map ch, args)

/-- The loop of `__vprintf`, with the characters it outputs. -/
def vprintfLoop : Nat → CharPtr → List Arg → Option (List Byte)
  | 0, _, _ => none
  | _ + 1, [], _ => none
  | rounds + 1, f :: format, args => do
    if f = 0 then
      some []
    else if f ≠ ch '%' then
      some (f :: (← vprintfLoop rounds format args))
    else if (← format.head?) = ch '%' then
      some (ch '%' :: (← vprintfLoop rounds format.tail args))
    else
      let (c, format, args) ← parseConversion format args
      let (output, args) ← convert c (← format.head?) args
      some (output ++ (← vprintfLoop rounds format.tail args))

/-- `__vprintf`. -/
def vprintf (format : CharPtr) (args : List Arg) : Option (List Byte) :=
  vprintfLoop (format.length + 1) format args

/-! ## Octal numbers -/

/-- An octal digit, as a character. -/
def octalDigit (d : Nat) : Byte :=
  BitVec.ofNat 8 (48 + d)

/-- The octal digits of a number, padded with zeros to `n` characters. -/
def octalText (n v : Nat) : List Byte :=
  ((Nat.digits 8 v ++ List.replicate (n - (Nat.digits 8 v).length) 0).map octalDigit).reverse

/-- Digits, the lowest first, with a comma before every group but the first; `k` digits have
gone before. -/
def groupDigits (group : Bool) (size : Nat) : Nat → List Byte → List Byte
  | _, [] => []
  | k, d :: ds =>
    (if group ∧ k > 0 ∧ k % size = 0 then [ch ','] else []) ++
      d :: groupDigits group size (k + 1) ds

theorem groupDigits_false (size k : Nat) (ds : List Byte) : groupDigits false size k ds = ds := by
  induction ds generalizing k with
  | nil => rfl
  | cons d ds ih => simp [groupDigits, ih]

theorem length_groupDigits_le (group : Bool) (size k : Nat) (ds : List Byte) :
    (groupDigits group size k ds).length ≤ 2 * ds.length := by
  induction ds generalizing k with
  | nil => exact Nat.le_refl 0
  | cons d ds ih =>
    have hrest := ih (k + 1)
    rw [groupDigits, length_append, length_cons, length_cons]
    split
    · rw [length_singleton]
      omega
    · rw [length_nil]
      omega

theorem push_eq {buf : List Byte} (c : Byte) (h : buf.length < bufSize) :
    push buf c = some (buf ++ [c]) := by
  rw [push, assert_of h, some_bind]

/-- **The digits in the buffer** are those of the value, lowest first, with commas between
the groups. -/
theorem digitLoop_eq {b : IntegerBase} {c : Conversion} {digit : Nat → Byte} (hbase : 1 < b.base)
    (hdigit : ∀ d, d < b.base → b.digits[d]? = some (digit d)) {rounds value digitCnt : Nat}
    {buf : List Byte} (hrounds : (Nat.digits b.base value).length < rounds)
    (hroom : buf.length + (groupDigits c.group b.group digitCnt
      ((Nat.digits b.base value).map digit)).length ≤ bufSize) :
    digitLoop b c rounds value buf digitCnt
      = some (buf ++ groupDigits c.group b.group digitCnt
          ((Nat.digits b.base value).map digit)) := by
  induction rounds generalizing value buf digitCnt with
  | zero => exact absurd hrounds (Nat.not_lt_zero _)
  | succ rounds ih =>
    rw [digitLoop]
    by_cases hpos : value > 0
    · have hlt : value % b.base < b.base := Nat.mod_lt _ (by omega)
      rw [Nat.digits_def' hbase hpos] at hrounds hroom ⊢
      rw [map_cons, groupDigits] at hroom ⊢
      rw [length_cons] at hrounds
      rw [if_pos hpos]
      -- the comma, if it is time for one, and the digit
      by_cases hcomma : c.group = true ∧ digitCnt > 0 ∧ digitCnt % b.group = 0
      · simp only [if_pos hcomma, length_append, length_cons, length_nil] at hroom ⊢
        rw [push_eq _ (by omega), some_bind, hdigit _ hlt, some_bind,
          push_eq _ (by rw [length_append, length_singleton]; omega), some_bind,
          ih (by omega) (by simp only [length_append, length_singleton]; omega)]
        simp
      · simp only [if_neg hcomma, length_append, length_cons, length_nil] at hroom ⊢
        rw [some_bind, hdigit _ hlt, some_bind, push_eq _ (by omega), some_bind,
          ih (by omega) (by simp only [length_append, length_singleton]; omega)]
        simp
    · obtain rfl : value = 0 := by omega
      rw [if_neg hpos]
      simp [groupDigits]

/-- **`%0no`** of a value of at most `n` octal digits. -/
theorem formatInteger_octal {n value : Nat} (hn : 0 < n) (hroom : n ≤ bufSize)
    (hvalue : value < 8 ^ n) :
    formatInteger value false false baseO { zero := true, width := n }
      = some (octalText n value) := by
  have hlen : (Nat.digits 8 value).length ≤ n :=
    (Nat.digits_length_le_iff (by decide) value).mpr hvalue
  have hdigit : ∀ d, d < baseO.base → baseO.digits[d]? = some (octalDigit d) := by decide
  have hloop : digitLoop baseO { zero := true, width := n } 65 value [] 0
      = some ((Nat.digits 8 value).map octalDigit) := by
    refine (digitLoop_eq (by decide) hdigit ?_ ?_).trans ?_
    · exact Nat.lt_of_le_of_lt hlen (Nat.lt_succ_of_le hroom)
    · rw [groupDigits_false, length_map, length_nil, Nat.zero_add]
      exact Nat.le_trans hlen hroom
    · rw [groupDigits_false, nil_append]
      rfl
  have hzero : octalDigit 0 = ch '0' := by decide
  -- the zeros of the precision and of the padding make up what is missing
  have hpad : ((n : Int) - ((Nat.digits 8 value).length + (1 - (Nat.digits 8 value).length : Nat) :
      Nat)).toNat + (1 - (Nat.digits 8 value).length) = n - (Nat.digits 8 value).length := by
    omega
  have hone : min (1 : Int).toNat (bufSize - 1) = 1 := by decide
  simp only [formatInteger, signOf, hloop, some_bind, Bool.false_eq_true, false_and, if_false,
    Option.isSome_none, Option.toList_none, flatMap_nil, nil_append, append_nil,
    Int.sub_zero, if_true, length_append, length_map, length_replicate,
    Int.reduceNeg, Int.reduceLT, hone, not_true_eq_false, and_false, reverse_append,
    reverse_replicate, octalText, map_append, map_replicate, hzero]
  rw [← append_assoc, replicate_append_replicate, hpad]

/-- **What `__vprintf` outputs** for a format of one such conversion. -/
theorem vprintf_octal {format : CharPtr} {first : Byte} {n : Nat} {v : BitVec 32}
    (hfirst : format.head? = some first) (hne : first ≠ ch '%')
    (hparse : parseConversion format [.word v]
      = some ({ zero := true, width := n }, lit ['o'], [.word v]))
    (hn : 0 < n) (hroom : n ≤ bufSize) (hv : v.toNat < 8 ^ n) :
    vprintf (ch '%' :: format) [.word v] = some (octalText n v.toNat) := by
  have hpercent : ch '%' ≠ 0 := by decide
  have hconvert : convert { zero := true, width := n } (ch 'o') [.word v]
      = some (octalText n v.toNat, []) := by
    have hd : ¬(ch 'o' = ch 'd' ∨ ch 'o' = ch 'i') := by decide
    simp only [convert, if_neg hd, if_true, unsignedArg, vaArgWord, Option.map_some, some_bind,
      formatInteger_octal hn hroom hv]
  rw [vprintf, length_cons, vprintfLoop]
  simp only [if_neg hpercent, ne_eq, not_true_eq_false, if_false, hfirst, some_bind, if_neg hne, hparse]
  have hhead : (lit ['o']).head? = some (ch 'o') := rfl
  have hend : vprintfLoop (format.length + 1) (lit ['o']).tail [] = some [] := rfl
  simp only [hhead, hconvert, hend, some_bind, append_nil]

end Pintos.Printf
