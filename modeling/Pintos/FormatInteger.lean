import Pintos.Printf

/-!
# Formatting integers

What `format_integer` outputs: a sign, a prefix and digits, the **core**, padded to the width
of the field (`formatInteger_eq`).  The digits go into a buffer of 64 characters, where they
always have room, commas and leading zeros included.

**The number can be read back** from the output, whatever the flags, the width and the
precision are (`decode`).  The output is as long as the field, or as the core if that is
longer, with one exception (`formatInteger_exact_iff`).  A `-` makes `parse_conversion`
forget a `0`, but it looks before it knows the width, and a negative width, which counts as
a `-`, comes too late: then **the field is padded on both sides** (`formatInteger_pads_twice`).
-/

namespace Pintos.Printf
open List
open CString (lit)

/-! ## The bases -/

/-- The bases of the integer conversions. -/
def bases : List IntegerBase :=
  [baseD, baseO, baseX, baseUpperX]

/-- The character for a digit. -/
def IntegerBase.digit (b : IntegerBase) (d : Nat) : Byte :=
  b.digits.getD d 0

/-- The characters for the digits are different, and none is used for something else. -/
structure IntegerBase.Ok (b : IntegerBase) : Prop where
  base : 8 ≤ b.base
  length : b.digits.length = b.base
  nodup : b.digits.Nodup
  zero : b.digit 0 = ch '0'
  plain : ∀ c ∈ b.digits, c ≠ ch ' ' ∧ c ≠ ch '-' ∧ c ≠ ch '+' ∧ c ≠ ch ',' ∧ b.x ≠ some c
  x : ∀ x ∈ b.x, x ≠ ch ' ' ∧ x ≠ ch '-' ∧ x ≠ ch '+' ∧ x ≠ ch ','

theorem ok_of_mem_bases {b : IntegerBase} (hb : b ∈ bases) : b.Ok := by
  simp only [bases, mem_cons, not_mem_nil, or_false] at hb
  rcases hb with rfl | rfl | rfl | rfl <;>
    exact ⟨by decide, by decide, by decide, by decide, by decide, by decide⟩

namespace IntegerBase.Ok
variable {b : IntegerBase} (h : b.Ok) {d : Nat}
include h

theorem getElem?_digits (hd : d < b.base) : b.digits[d]? = some (b.digit d) := by
  have hlt : d < b.digits.length := by rw [h.length]; exact hd
  rw [IntegerBase.digit, getD_eq_getElem _ _ hlt, getElem?_eq_getElem hlt]

theorem digit_mem (hd : d < b.base) : b.digit d ∈ b.digits :=
  mem_of_getElem? (h.getElem?_digits hd)

theorem zero_mem : ch '0' ∈ b.digits :=
  h.zero ▸ h.digit_mem (Nat.lt_of_lt_of_le (by decide) h.base)

theorem idxOf?_digit (hd : d < b.base) : b.digits.idxOf? (b.digit d) = some d := by
  have hlt : d < b.digits.length := by rw [h.length]; exact hd
  have hdigit : b.digit d = b.digits[d] := getD_eq_getElem _ _ hlt
  rw [idxOf?_eq_some_iff]
  refine ⟨hlt, hdigit.symm, fun j hj heq => ?_⟩
  have := (getElem_inj h.nodup).mp (heq.trans hdigit)
  omega

end IntegerBase.Ok

/-! ## The text of a number -/

/-- The digits and commas, the lowest first, with zeros up to the precision, for which there
are 63 characters, and a leading zero for `%#o`. -/
def reversedDigits (value : Nat) (b : IntegerBase) (c : Conversion) : List Byte :=
  let text := groupDigits c.group b.group 0 ((Nat.digits b.base value).map b.digit)
  let precision := if c.precision < 0 then 1 else c.precision
  let text := text ++ List.replicate (min precision.toNat (bufSize - 1) - text.length) (ch '0')
  if c.pound ∧ b.base = 8 ∧ text.getLast? ≠ some (ch '0') then text ++ [ch '0'] else text

/-- `0x` or `0X`. -/
def prefixText (value : Nat) (b : IntegerBase) (c : Conversion) : List Byte :=
  (if c.pound ∧ value ≠ 0 then b.x else none).toList.flatMap fun x => [ch '0', x]

/-- **The core of the output**: sign, prefix, digits and commas. -/
def core (value : Nat) (isSigned negative : Bool) (b : IntegerBase) (c : Conversion) :
    List Byte :=
  (signOf isSigned negative c).toList ++ prefixText value b c ++ (reversedDigits value b c).reverse

/-- How many characters are missing for the width. -/
def padCnt (value : Nat) (isSigned negative : Bool) (b : IntegerBase) (c : Conversion) : Nat :=
  (c.width - (core value isSigned negative b c).length).toNat

/-- The width that a conversion gives, before `parse_conversion` makes it positive. -/
def givenWidth (format : CharPtr) (args : List Arg) : Option Int := do
  let (_, format) ← parseFlags {} format
  let (width, _, _) ← parseCount format args
  some width

/-! ## Reading it back -/

/-- Without the spaces at both ends. -/
def strip (text : List Byte) : List Byte :=
  ((text.dropWhile (· = ch ' ')).reverse.dropWhile (· = ch ' ')).reverse

/-- Reads digits in the base. -/
def readDigits (b : IntegerBase) (text : List Byte) : Option Nat :=
  text.foldlM (fun value c => (b.digits.idxOf? c).map (value * b.base + ·)) 0

/-- **Reads a number**: without the padding, a sign, a prefix and commas. -/
def decode (b : IntegerBase) (text : List Byte) : Option Nat :=
  let text := strip text
  let text := if text.head? = some (ch '-') ∨ text.head? = some (ch '+') then text.tail else text
  let text := if text.head? = some (ch '0') ∧ b.x.isSome ∧ text.tail.head? = b.x then text.drop 2
    else text
  readDigits b (text.filter (· ≠ ch ','))

/-! ## The buffer -/

variable {b : IntegerBase} {c : Conversion} {value : Nat} {isSigned negative : Bool}

/-- A value of 64 bits has no more than 22 digits in any of the bases. -/
theorem length_digits_le (hb : b.Ok) (hvalue : value < 18446744073709551616) :
    (Nat.digits b.base value).length ≤ 22 := by
  have hbase := hb.base
  refine (Nat.digits_length_le_iff (by omega) value).mpr (Nat.lt_of_lt_of_le hvalue ?_)
  exact (by decide : 18446744073709551616 ≤ 8 ^ 22).trans (Nat.pow_le_pow_left hbase 22)

/-- **What `format_integer` outputs**, without ever writing behind its buffer. -/
theorem formatInteger_eq (hb : b.Ok) (hvalue : value < 18446744073709551616) :
    formatInteger value isSigned negative b c = some
      ((if ¬c.minus ∧ ¬c.zero then
          List.replicate (padCnt value isSigned negative b c) (ch ' ') else []) ++
        (signOf isSigned negative c).toList ++ prefixText value b c ++
        (if c.zero then List.replicate (padCnt value isSigned negative b c) (ch '0') else []) ++
        (reversedDigits value b c).reverse ++
        if c.minus then List.replicate (padCnt value isSigned negative b c) (ch ' ') else []) := by
  have hdigits := length_digits_le hb hvalue
  have hgroups := length_groupDigits_le c.group b.group 0 ((Nat.digits b.base value).map b.digit)
  rw [length_map] at hgroups
  have hloop : digitLoop b c 65 value [] 0 = some
      (groupDigits c.group b.group 0 ((Nat.digits b.base value).map b.digit)) := by
    refine digitLoop_eq (Nat.lt_of_lt_of_le (by decide) hb.base) (fun d => hb.getElem?_digits)
      (by omega) ?_
    rw [length_nil, bufSize]
    omega
  have hcore : ((c.width - (reversedDigits value b c).length
      - (if (if c.pound = true ∧ value ≠ 0 then b.x else none).isSome then 2 else 0)
      - (if (signOf isSigned negative c).isSome then 1 else 0) : Int)).toNat
        = padCnt value isSigned negative b c := by
    rw [padCnt, core, prefixText, length_append, length_append, length_reverse]
    congr 1
    cases signOf isSigned negative c <;>
      cases (if c.pound = true ∧ value ≠ 0 then b.x else none) <;>
      simp <;> omega
  simp only [formatInteger, hloop, some_bind]
  generalize hprecision : (if c.precision < 0 then 1 else c.precision) = precision
  generalize htext : groupDigits c.group b.group 0 ((Nat.digits b.base value).map b.digit) ++
    List.replicate (min precision.toNat (bufSize - 1) -
      (groupDigits c.group b.group 0 ((Nat.digits b.base value).map b.digit)).length) (ch '0') =
    text
  have hrev : reversedDigits value b c =
      if c.pound = true ∧ b.base = 8 ∧ text.getLast? ≠ some (ch '0') then text ++ [ch '0']
      else text := by
    rw [← htext, ← hprecision]
    rfl
  by_cases hzero : c.pound = true ∧ b.base = 8 ∧ text.getLast? ≠ some (ch '0')
  · -- the zeros of the precision leave one character for this one
    have hroom : text.length < bufSize := by
      rw [← htext, length_append, length_replicate, bufSize]
      omega
    rw [if_pos hzero] at hrev
    rw [if_pos hzero, push_eq _ hroom, some_bind, ← hrev, hcore]
    rfl
  · rw [if_neg hzero] at hrev
    rw [if_neg hzero, ← hrev, hcore]
    rfl

/-! ## The digits are those of the value -/

theorem mem_groupDigits {group : Bool} {size k : Nat} {ds : List Byte} {x : Byte}
    (hx : x ∈ groupDigits group size k ds) : x ∈ ds ∨ x = ch ',' := by
  induction ds generalizing k with
  | nil => cases hx
  | cons d ds ih =>
    rw [groupDigits, mem_append, mem_cons] at hx
    rcases hx with hx | rfl | hx
    · split at hx
      · exact .inr (mem_singleton.mp hx)
      · cases hx
    · exact .inl mem_cons_self
    · exact (ih hx).imp_left (mem_cons_of_mem d)

/-- Without the commas, the digits are left. -/
theorem filter_groupDigits {group : Bool} {size k : Nat} {ds : List Byte}
    (hds : ∀ d ∈ ds, d ≠ ch ',') :
    (groupDigits group size k ds).filter (· ≠ ch ',') = ds := by
  induction ds generalizing k with
  | nil => rfl
  | cons d ds ih =>
    have hd := hds d mem_cons_self
    have hrest := ih (k := k + 1) fun d' hd' => hds d' (mem_cons_of_mem d hd')
    rw [groupDigits, filter_append, filter_cons_of_pos (by simpa using hd), hrest]
    split <;> rfl

theorem mem_digits_of_mem_map (hb : b.Ok) {ds : List Nat} (hds : ∀ d ∈ ds, d < b.base) :
    ∀ x ∈ ds.map b.digit, x ∈ b.digits := by
  intro x hx
  obtain ⟨d, hd, rfl⟩ := mem_map.mp hx
  exact hb.digit_mem (hds d hd)

theorem digits_lt (hb : b.Ok) : ∀ d ∈ Nat.digits b.base value, d < b.base := fun _ hd =>
  Nat.digits_lt_base (Nat.lt_of_lt_of_le (by decide) hb.base) hd

/-- Behind the digits of the value, the precision and the octal prefix only put zeros. -/
theorem reversedDigits_eq (value : Nat) (b : IntegerBase) (c : Conversion) :
    ∃ m, reversedDigits value b c =
      groupDigits c.group b.group 0 ((Nat.digits b.base value).map b.digit) ++
        List.replicate m (ch '0') := by
  simp only [reversedDigits]
  generalize min (if c.precision < 0 then 1 else c.precision).toNat (bufSize - 1) -
    (groupDigits c.group b.group 0 ((Nat.digits b.base value).map b.digit)).length = zeros
  split
  · exact ⟨zeros + 1, by rw [replicate_succ', append_assoc]⟩
  · exact ⟨zeros, rfl⟩

theorem mem_reversedDigits (hb : b.Ok) {x : Byte} (hx : x ∈ reversedDigits value b c) :
    x ∈ b.digits ∨ x = ch ',' := by
  obtain ⟨m, heq⟩ := reversedDigits_eq value b c
  rw [heq, mem_append] at hx
  rcases hx with hx | hx
  · exact (mem_groupDigits hx).imp_left (mem_digits_of_mem_map hb (digits_lt hb) x)
  · exact .inl (eq_of_mem_replicate hx ▸ hb.zero_mem)

/-- Without the commas, the digits of the value and some zeros are left. -/
theorem filter_reversedDigits (value : Nat) (c : Conversion) (hb : b.Ok) :
    ∃ m, (reversedDigits value b c).filter (· ≠ ch ',') =
      (Nat.digits b.base value ++ List.replicate m 0).map b.digit := by
  obtain ⟨m, heq⟩ := reversedDigits_eq value b c
  have hcomma : ∀ x ∈ (Nat.digits b.base value).map b.digit, x ≠ ch ',' := fun x hx =>
    (hb.plain x (mem_digits_of_mem_map hb (digits_lt hb) x hx)).2.2.2.1
  have hzero : ch '0' ≠ ch ',' := by decide
  refine ⟨m, ?_⟩
  rw [heq, filter_append, filter_groupDigits hcomma,
    filter_replicate_of_pos (by simpa using hzero), map_append, map_replicate,
    hb.zero]

/-- **Digits read back as they were written.** -/
theorem readDigits_reverse (hb : b.Ok) {ds : List Nat} (hds : ∀ d ∈ ds, d < b.base) :
    readDigits b (ds.map b.digit).reverse = some (Nat.ofDigits b.base ds) := by
  induction ds with
  | nil => rfl
  | cons d ds ih =>
    have hrest := ih fun d' hd' => hds d' (mem_cons_of_mem d hd')
    unfold readDigits at hrest ⊢
    rw [map_cons, reverse_cons, foldlM_append, hrest, some_bind, foldlM_cons,
      hb.idxOf?_digit (hds d mem_cons_self), Nat.ofDigits_cons, Nat.mul_comm, Nat.add_comm]
    rfl

/-! ## The padding -/

theorem dropWhile_of_forall_ne {x : Byte} {text : List Byte} (h : ∀ y ∈ text, y ≠ x) :
    text.dropWhile (· = x) = text := by
  cases text with
  | nil => rfl
  | cons y text => exact dropWhile_cons_of_neg (by simpa using h y mem_cons_self)

theorem dropWhile_replicate_append (n : Nat) (x : Byte) (text : List Byte) :
    (List.replicate n x ++ text).dropWhile (· = x) = text.dropWhile (· = x) :=
  dropWhile_append_of_pos fun y hy => by simp [eq_of_mem_replicate hy]

/-- A text without spaces is what is left of it with spaces at both ends. -/
theorem strip_eq {body : List Byte} (l r : Nat) (hbody : ∀ x ∈ body, x ≠ ch ' ') :
    strip (List.replicate l (ch ' ') ++ (body ++ List.replicate r (ch ' '))) = body := by
  rw [strip, dropWhile_replicate_append]
  cases body with
  | nil =>
    have hall : (List.replicate r (ch ' ')).dropWhile (· = ch ' ') = [] := by
      rw [← append_nil (List.replicate r _), dropWhile_replicate_append]
      rfl
    rw [nil_append, hall]
    rfl
  | cons x body =>
    have hx : (x :: body ++ List.replicate r (ch ' ')).dropWhile (· = ch ' ') =
        x :: body ++ List.replicate r (ch ' ') :=
      dropWhile_cons_of_neg (by simpa using hbody x mem_cons_self)
    rw [hx, reverse_append, reverse_replicate, dropWhile_replicate_append,
      dropWhile_of_forall_ne fun y hy => hbody y (mem_reverse.mp hy), reverse_reverse]

/-- There is a `-` for a negative value of a signed conversion, and a `+` or a space for
another value at most. -/
theorem signOf_cases (isSigned negative : Bool) (c : Conversion) :
    isSigned = true ∧ negative = true ∧ signOf isSigned negative c = some (ch '-') ∨
      ¬(isSigned = true ∧ negative = true) ∧
        signOf isSigned negative c ∈ [none, some (ch '+'), some (ch ' ')] := by
  unfold signOf
  cases isSigned <;> cases negative <;> cases c.plus <;> cases c.space <;> decide

/-- What comes behind the sign, with any zeros for padding, has neither spaces nor a sign. -/
theorem unsigned_plain (value : Nat) (c : Conversion) (hb : b.Ok) (z : Nat) :
    ∀ x ∈ prefixText value b c ++ (List.replicate z (ch '0') ++ (reversedDigits value b c).reverse),
      x ≠ ch ' ' ∧ x ≠ ch '-' ∧ x ≠ ch '+' := by
  have hdigit : ∀ x ∈ b.digits, x ≠ ch ' ' ∧ x ≠ ch '-' ∧ x ≠ ch '+' := fun x hx =>
    have hplain := hb.plain x hx
    ⟨hplain.1, hplain.2.1, hplain.2.2.1⟩
  intro x hx
  rw [mem_append, mem_append, mem_reverse] at hx
  rcases hx with hx | hx | hx
  · unfold prefixText at hx
    obtain ⟨x', hx', hx⟩ := mem_flatMap.mp hx
    have hmem : x' ∈ b.x := by
      rw [Option.mem_toList] at hx'
      split at hx'
      · exact hx'
      · exact nomatch hx'
    rcases mem_cons.mp hx with rfl | hx
    · exact hdigit _ hb.zero_mem
    · obtain rfl := mem_singleton.mp hx
      have := hb.x _ hmem
      exact ⟨this.1, this.2.1, this.2.2.1⟩
  · exact hdigit x (eq_of_mem_replicate hx ▸ hb.zero_mem)
  · rcases mem_reversedDigits hb hx with hx | rfl
    · exact hdigit x hx
    · decide

/-- The digits, with any zeros for padding, are read as the value. -/
theorem readDigits_digits (value : Nat) (c : Conversion) (hb : b.Ok) (z : Nat) :
    readDigits b ((List.replicate z (ch '0') ++ (reversedDigits value b c).reverse).filter
      (· ≠ ch ',')) = some value := by
  obtain ⟨m, hfilter⟩ := filter_reversedDigits value c hb
  have hzero : ch '0' ≠ ch ',' := by decide
  have htext : (List.replicate z (ch '0') ++ (reversedDigits value b c).reverse).filter
      (· ≠ ch ',') =
        ((Nat.digits b.base value ++ List.replicate (m + z) 0).map b.digit).reverse := by
    rw [filter_append, filter_replicate_of_pos (by simpa using hzero),
      filter_reverse, hfilter, ← hb.zero, replicate_add]
    simp only [map_append, map_replicate, reverse_append, reverse_replicate,
      append_assoc]
  rw [htext, readDigits_reverse hb, Nat.ofDigits_append, Nat.ofDigits_digits]
  · simp
  · intro d hd
    rcases mem_append.mp hd with hd | hd
    · exact digits_lt hb d hd
    · exact eq_of_mem_replicate hd ▸ Nat.lt_of_lt_of_le (by decide) hb.base

/-- The prefix is none, or a 0 and the character of the base. -/
theorem prefixText_cases (value : Nat) (b : IntegerBase) (c : Conversion) :
    prefixText value b c = [] ∨ ∃ x, b.x = some x ∧ prefixText value b c = [ch '0', x] := by
  unfold prefixText
  split
  · cases hx : b.x with
    | none => exact .inl rfl
    | some x => exact .inr ⟨x, rfl, rfl⟩
  · exact .inl rfl

/-- The prefix is taken for one, and nothing else is. -/
theorem dropPrefix_eq (value : Nat) (c : Conversion) (hb : b.Ok) (z : Nat) {text : List Byte}
    (htext : text = List.replicate z (ch '0') ++ (reversedDigits value b c).reverse) :
    (if (prefixText value b c ++ text).head? = some (ch '0') ∧ b.x.isSome ∧
        (prefixText value b c ++ text).tail.head? = b.x then (prefixText value b c ++ text).drop 2
      else prefixText value b c ++ text) = text := by
  rcases prefixText_cases value b c with hnone | ⟨x, hx, hsome⟩
  · rw [hnone, nil_append, if_neg]
    rintro ⟨-, hisSome, hhead⟩
    obtain ⟨x, hx⟩ := Option.isSome_iff_exists.mp hisSome
    have hmem : x ∈ text := mem_of_mem_tail (mem_of_mem_head? (hhead.trans hx))
    have hdigit : x ∈ b.digits ∨ x = ch ',' := by
      rw [htext, mem_append, mem_reverse] at hmem
      rcases hmem with hmem | hmem
      · exact .inl (eq_of_mem_replicate hmem ▸ hb.zero_mem)
      · exact mem_reversedDigits hb hmem
    rcases hdigit with hdigit | hcomma
    · exact (hb.plain x hdigit).2.2.2.2 hx
    · exact (hb.x x hx).2.2.2 hcomma
  · rw [hsome, if_pos ⟨rfl, by rw [hx]; rfl, hx.symm⟩]
    rfl

/-- **The output reads as the value**, with any padding. -/
theorem decode_eq (hb : b.Ok) (l z r : Nat) :
    decode b (List.replicate l (ch ' ') ++ (signOf isSigned negative c).toList ++
      prefixText value b c ++ List.replicate z (ch '0') ++ (reversedDigits value b c).reverse ++
      List.replicate r (ch ' ')) = some value := by
  have hplain := unsigned_plain value c hb z
  have hread := readDigits_digits value c hb z
  have hdrop := dropPrefix_eq value c hb z rfl
  simp only [append_assoc]
  generalize htext : List.replicate z (ch '0') ++ (reversedDigits value b c).reverse = text
    at hplain hread hdrop
  generalize hrest : prefixText value b c ++ text = rest at hplain hdrop
  have hsplit : prefixText value b c ++ (List.replicate z (ch '0') ++
      ((reversedDigits value b c).reverse ++ List.replicate r (ch ' '))) =
        rest ++ List.replicate r (ch ' ') := by
    simp only [← hrest, ← htext, append_assoc]
  rw [hsplit]
  -- without a sign, what is left of the spaces begins with no sign
  have hnone : ∀ l, decode b (List.replicate l (ch ' ') ++ (rest ++ List.replicate r (ch ' '))) =
      some value := by
    intro l
    have hhead : ¬(rest.head? = some (ch '-') ∨ rest.head? = some (ch '+')) := by
      rintro (hhead | hhead)
      · exact (hplain _ (mem_of_mem_head? hhead)).2.1 rfl
      · exact (hplain _ (mem_of_mem_head? hhead)).2.2 rfl
    simp only [decode]
    rw [strip_eq l r fun x hx => (hplain x hx).1, if_neg hhead, hdrop, hread]
  have hsign : ∀ sign, sign = ch '-' ∨ sign = ch '+' →
      decode b (List.replicate l (ch ' ') ++ (sign :: rest ++ List.replicate r (ch ' '))) =
        some value := by
    intro sign hsign
    have hbody : ∀ x ∈ sign :: rest, x ≠ ch ' ' := by
      intro x hx
      rcases mem_cons.mp hx with rfl | hx
      · rcases hsign with rfl | rfl <;> decide
      · exact (hplain x hx).1
    have hhead : (sign :: rest).head? = some (ch '-') ∨ (sign :: rest).head? = some (ch '+') :=
      hsign.imp (congrArg some) (congrArg some)
    simp only [decode]
    rw [strip_eq l r hbody, if_pos hhead, tail_cons, hdrop, hread]
  rcases signOf_cases isSigned negative c with ⟨-, -, hminus⟩ | ⟨-, hother⟩
  · rw [hminus]
    exact hsign _ (.inl rfl)
  · simp only [mem_cons, not_mem_nil, or_false] at hother
    rcases hother with hother | hother | hother
    · rw [hother]
      exact hnone l
    · rw [hother]
      exact hsign _ (.inr rfl)
    · -- the space belongs to the padding
      have hspace := hnone (l + 1)
      rw [replicate_succ', append_assoc] at hspace
      rw [hother]
      exact hspace

/-! ## The width -/

theorem isInt_toInt32 (n : Int) : -2147483648 ≤ toInt32 n ∧ toInt32 n < 2147483648 := by
  have hle := Int.le_bmod (x := n) (m := 4294967296) (by decide)
  have hlt := Int.bmod_lt (x := n) (m := 4294967296) (by decide)
  unfold toInt32
  omega

variable {format : CharPtr}

theorem isInt_parseNumber {n : Int} {result : Int × CharPtr}
    (h : parseNumber n format = some result) (hn : -2147483648 ≤ n ∧ n < 2147483648) :
    -2147483648 ≤ result.1 ∧ result.1 < 2147483648 := by
  induction format generalizing n with
  | nil => exact nomatch h
  | cons f format ih =>
    rw [parseNumber] at h
    split at h
    · exact ih h (isInt_toInt32 _)
    · cases h
      exact hn

theorem isInt_parseCount {args : List Arg} {result : Int × CharPtr × List Arg}
    (h : parseCount format args = some result) :
    -2147483648 ≤ result.1 ∧ result.1 < 2147483648 := by
  obtain ⟨f, -, h⟩ := of_bind h
  split at h
  · obtain ⟨⟨v, args'⟩, -, h⟩ := of_bind h
    cases h
    exact ⟨v.le_toInt, v.toInt_lt⟩
  · obtain ⟨⟨n, format'⟩, hnumber, h⟩ := of_bind h
    cases h
    exact isInt_parseNumber hnumber (by decide)

/-- The precision, if there is one. -/
def parsePrecision (format : CharPtr) (args : List Arg) : Option (Int × CharPtr × List Arg) := do
  let f ← format.head?
  if f = ch '.' then parseCount format.tail args else some (-1, format, args)

/-- The conversion for the flags, the width and the precision given. -/
def conversionOf (flags : Conversion) (width precision : Int) (type : ArgType) : Conversion where
  minus := flags.minus || width < 0
  plus := flags.plus
  space := flags.space && !flags.plus
  pound := flags.pound
  zero := flags.zero && !flags.minus && precision < 0
  group := flags.group
  width := if width < 0 then toInt32 (-width) else width
  precision := if precision < 0 then -1 else precision
  type := type

theorem parseConversion_eq (format : CharPtr) (args : List Arg) :
    parseConversion format args = (do
      let (flags, format) ← parseFlags {} format
      let (width, format, args) ← parseCount format args
      let (precision, format, args) ← parsePrecision format args
      let (type, format) ← parseType format
      some (conversionOf flags width precision type, format, args)) := by
  unfold parseConversion parsePrecision
  simp only [Option.bind_eq_bind]
  congr 1
  funext ⟨flags, format⟩
  congr 1
  funext ⟨width, format, args⟩
  cases format.head? with
  | none => rfl
  | some f =>
    have hstep : ∀ precision : Int,
        (let c := if flags.minus then { flags with zero := false } else flags
        let c := if c.plus then { c with space := false } else c
        let c : Conversion := { c with width }
        let c := if c.width < 0 then { c with width := toInt32 (-c.width), minus := true } else c
        let c : Conversion := { c with precision := if precision < 0 then -1 else precision }
        if c.precision ≥ 0 then { c with zero := false } else c) =
          conversionOf flags width precision flags.type := by
      intro precision
      obtain ⟨minus, plus, space, pound, zero, group, _, _, type⟩ := flags
      by_cases hwidth : width < 0 <;> by_cases hprecision : precision < 0 <;>
        cases minus <;> cases plus <;> simp [conversionOf, hwidth, hprecision]
    by_cases hf : f = ch '.'
    · simp only [if_pos hf, Option.bind_some]
      congr 1
      funext ⟨precision, format, args⟩
      simp only at hstep ⊢
      congr 1
      funext ⟨type, format⟩
      simp only [hstep]
      rfl
    · simp only [if_neg hf, Option.bind_some]
      congr 1
      funext ⟨type, format⟩
      simp only at hstep ⊢
      simp only [hstep]
      rfl

/-- **The width of a conversion** is the absolute value of the one given. -/
theorem width_of_parseConversion {args : List Arg} {width : Int} {rest : CharPtr × List Arg}
    (hparse : parseConversion format args = some (c, rest))
    (hgiven : givenWidth format args = some width) (hmin : width ≠ -2147483648) :
    c.width = |width| := by
  rw [parseConversion_eq] at hparse
  obtain ⟨⟨flags, format₀⟩, hflags, hparse⟩ := of_bind hparse
  obtain ⟨⟨width', format₁, args₁⟩, hcount, hparse⟩ := of_bind hparse
  obtain ⟨⟨precision, format₂, args₂⟩, -, hparse⟩ := of_bind hparse
  obtain ⟨⟨type, format₃⟩, -, hparse⟩ := of_bind hparse
  cases hparse
  have hgiven' : givenWidth format args = some width' := by simp [givenWidth, hflags, hcount]
  obtain rfl := Option.some.inj (hgiven'.symm.trans hgiven)
  have hrange : -2147483648 ≤ width' ∧ width' < 2147483648 := isInt_parseCount hcount
  change (if width' < 0 then toInt32 (-width') else width') = |width'|
  split
  case isTrue hneg =>
    rw [abs_of_neg hneg, toInt32, Int.bmod_eq_of_le] <;> omega
  case isFalse hpos =>
    rw [abs_of_nonneg (by omega)]

/-! ## Output -/

/-- With any padding, there is a `-` just for a negative value. -/
theorem minus_mem_iff (hb : b.Ok) (l z r : Nat) :
    ch '-' ∈ List.replicate l (ch ' ') ++ (signOf isSigned negative c).toList ++
      prefixText value b c ++ List.replicate z (ch '0') ++ (reversedDigits value b c).reverse ++
      List.replicate r (ch ' ') ↔ isSigned = true ∧ negative = true := by
  have hplain := fun h => (unsigned_plain value c hb z (ch '-') h).2.1 rfl
  have hspace : ∀ n, ch '-' ∉ List.replicate n (ch ' ') := fun n h =>
    absurd (eq_of_mem_replicate h) (by decide)
  simp only [append_assoc]
  rw [mem_append, mem_append, ← append_assoc, ← append_assoc, mem_append,
    append_assoc]
  rcases signOf_cases isSigned negative c with ⟨hsigned, hnegative, hsign⟩ | ⟨hnot, hsign⟩
  · exact iff_of_true (.inr (.inl (by rw [hsign]; exact mem_singleton_self _)))
      ⟨hsigned, hnegative⟩
  · refine iff_of_false ?_ hnot
    rintro (h | h | h | h)
    · exact hspace l h
    · simp only [mem_cons, not_mem_nil, or_false] at hsign
      rcases hsign with hsign | hsign | hsign <;> rw [hsign] at h <;> revert h <;> decide
    · exact hplain h
    · exact hspace r h

theorem ite_replicate (p : Prop) [Decidable p] (n : Nat) (x : Byte) :
    (if p then List.replicate n x else []) = List.replicate (if p then n else 0) x := by
  split <;> rfl

/-- **`format_integer` outputs the number**: the characters always fit in its buffer, they
read as the value, and there is a `-` just for a negative one.  They are as many as the field
is wide, or as the core has if it has more, unless the field is padded on both sides. -/
theorem formatInteger_exact_iff {format rest : CharPtr} {args args' : List Arg} {width : Int}
    (hparse : parseConversion format args = some (c, rest, args'))
    (hgiven : givenWidth format args = some width) (hmin : width ≠ -2147483648)
    (hb : b ∈ bases) (hvalue : value < 18446744073709551616) :
    ∃ text, formatInteger value isSigned negative b c = some text ∧
      decode b text = some value ∧
      (ch '-' ∈ text ↔ isSigned = true ∧ negative = true) ∧
      ((text.length : Int) = max |width| (core value isSigned negative b c).length ↔
        ¬(c.minus = true ∧ c.zero = true ∧
          (core value isSigned negative b c).length < |width|)) := by
  have hb := ok_of_mem_bases hb
  have hwidth := width_of_parseConversion hparse hgiven hmin
  have hpad : padCnt value isSigned negative b c =
      (|width| - (core value isSigned negative b c).length).toNat := by
    rw [padCnt, hwidth]
  have hlength : (core value isSigned negative b c).length =
      (signOf isSigned negative c).toList.length + (prefixText value b c).length +
        (reversedDigits value b c).length := by
    rw [core, length_append, length_append, length_reverse]
  refine ⟨_, formatInteger_eq hb hvalue, ?_, ?_, ?_⟩
  · simp only [ite_replicate]
    exact decode_eq hb _ _ _
  · simp only [ite_replicate]
    exact minus_mem_iff hb _ _ _
  · simp only [ite_replicate, length_append, length_replicate, length_reverse,
      hpad, hlength, Nat.cast_add]
    generalize |width| = w, (signOf isSigned negative c).toList.length = signLength,
      (prefixText value b c).length = prefixLength,
      (reversedDigits value b c).length = digitsLength
    rw [max_def]
    cases c.minus <;> cases c.zero <;> simp only [Bool.false_eq_true, not_false_eq_true, and_self,
      not_true_eq_false, and_false, false_and, and_true, true_and, if_true, if_false,
      iff_true] <;> split <;> omega

/-- `printf ("%-6d", -42)` outputs `-42` and three spaces. -/
theorem formatInteger_exact_iff_left :
    ∃ text, formatInteger 42 true true baseD { minus := true, width := 6 } = some text ∧
      decode baseD text = some 42 ∧ ch '-' ∈ text ∧ text.length = 6 := by
  have hparse : parseConversion (lit "-6d".toList) [] =
      some ({ minus := true, width := 6 }, lit "d".toList, []) := by decide
  obtain ⟨text, heq, hdecode, hminus, hlength⟩ :=
    @formatInteger_exact_iff baseD _ 42 true true _ _ _ _ 6 hparse (by decide) (by decide)
      mem_cons_self (by decide)
  have hexact := hlength.mpr (by decide)
  have hmax : max |(6 : Int)| (core 42 true true baseD { minus := true, width := 6 }).length = 6 :=
    by decide
  exact ⟨text, heq, hdecode, hminus.mpr ⟨rfl, rfl⟩, by omega⟩

/-- `printf ("%0*d", -5, 42)` outputs `00042` and three spaces, 8 characters for a field of 5.
-/
theorem formatInteger_pads_twice :
    let c : Conversion := { minus := true, zero := true, width := 5 }
    parseConversion (lit "0*d".toList) [.word (-5)] = some (c, lit "d".toList, []) ∧
      givenWidth (lit "0*d".toList) [.word (-5)] = some (-5) ∧
      formatInteger 42 true false baseD c = some ("00042   ".toList.map ch) ∧
      (("00042   ".toList.map ch).length : Int) ≠
        max |(-5 : Int)| (core 42 true false baseD c).length := by
  decide

end Pintos.Printf
