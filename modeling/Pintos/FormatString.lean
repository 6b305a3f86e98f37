import Pintos.FormatInteger

/-!
# How far a format is read

`__vprintf` reads its format up to the terminator, and `parse_conversion` steps over flags,
width, precision and type of a conversion.  Both are followed here on a format with its
terminator and any bytes behind it.

What a format asks for is said on its characters alone (`scan`): the kinds of the arguments,
and whether it ends inside a conversion.  With enough arguments, **a format that does not is
read up to its terminator and no further**.  One that does is read beyond it: the terminator
counts as the character of the conversion, and the loop goes on behind it
(`vprintf_inside_iff`, `vprintf_reads_on`).
-/

namespace Pintos.Printf
open List
open CString (lit)

/-! ## What a format asks for -/

/-- The kind of an argument. -/
inductive ArgKind where
  | word
  | double
  | string
  deriving DecidableEq

def Arg.kind : Arg → ArgKind
  | .word _ => .word
  | .double _ => .double
  | .string _ => .string

/-- **Enough arguments**: the first ones are of the kinds asked for. -/
def Enough (kinds : List ArgKind) (args : List Arg) : Prop :=
  kinds <+: args.map Arg.kind

instance (kinds : List ArgKind) (args : List Arg) : Decidable (Enough kinds args) :=
  inferInstanceAs (Decidable (kinds <+: args.map Arg.kind))

/-- The characters of the flags. -/
def isFlag (f : Byte) : Bool :=
  f ∈ "-+ #0'".toList.map ch

/-- The arguments for a width or a precision. -/
def countKinds (s : List Byte) : List ArgKind :=
  if s.head? = some (ch '*') then [.word] else []

/-- What is left behind a width or a precision. -/
def afterCount (s : List Byte) : List Byte :=
  if s.head? = some (ch '*') then s.tail else s.dropWhile isdigit

/-- The arguments for a precision with its dot. -/
def precisionKinds (s : List Byte) : List ArgKind :=
  if s.head? = some (ch '.') then countKinds s.tail else []

/-- What is left behind a precision with its dot. -/
def afterPrecision (s : List Byte) : List Byte :=
  if s.head? = some (ch '.') then afterCount s.tail else s

/-- The type, and what is left behind it. -/
def splitType : List Byte → ArgType × List Byte
  | [] => (.int, [])
  | f :: s =>
    if f = ch 'h' then if s.head? = some (ch 'h') then (.char, s.tail) else (.short, s)
    else if f = ch 'j' then (.intmax, s)
    else if f = ch 'l' then if s.head? = some (ch 'l') then (.longlong, s.tail) else (.long, s)
    else if f = ch 't' then (.ptrdifft, s)
    else if f = ch 'z' then (.sizet, s)
    else (.int, f :: s)

/-- The argument of an integer of the type. -/
def integerKind : ArgType → ArgKind
  | .intmax | .longlong => .double
  | .char | .short | .int | .long | .ptrdifft | .sizet => .word

/-- The argument that the character of a conversion asks for. -/
def conversionKinds (type : ArgType) (conversion : Byte) : List ArgKind :=
  if conversion ∈ "diouxX".toList.map ch then [integerKind type]
  else if conversion ∈ "cp".toList.map ch then [.word]
  else if conversion = ch 's' then [.string]
  else []

/-- The arguments of a conversion up to its character, the type, and what is left then. -/
structure Spec where
  kinds : List ArgKind
  type : ArgType
  rest : List Byte

/-- A conversion up to its character. -/
def scanConversion (s : List Byte) : Spec :=
  let s := s.dropWhile isFlag
  let s' := afterCount s
  let split := splitType (afterPrecision s')
  { kinds := countKinds s ++ precisionKinds s', type := split.1, rest := split.2 }

/-- The arguments that a format asks for, and whether it ends inside a conversion. -/
structure Scan where
  kinds : List ArgKind
  truncated : Bool
  deriving DecidableEq

theorem afterCount_suffix (s : List Byte) : afterCount s <:+ s := by
  unfold afterCount
  split
  · exact tail_suffix s
  · exact dropWhile_suffix _

theorem afterPrecision_suffix (s : List Byte) : afterPrecision s <:+ s := by
  unfold afterPrecision
  split
  · exact (afterCount_suffix s.tail).trans (tail_suffix s)
  · exact suffix_refl s

theorem splitType_suffix (s : List Byte) : (splitType s).2 <:+ s := by
  cases s with
  | nil => exact suffix_refl []
  | cons f s =>
    have hone : s <:+ f :: s := suffix_cons f s
    have htwo : s.tail <:+ f :: s := (tail_suffix s).trans hone
    rw [splitType]
    split_ifs
    all_goals first | exact hone | exact htwo | exact suffix_refl _

theorem scanConversion_suffix (s : List Byte) : (scanConversion s).rest <:+ s :=
  (splitType_suffix _).trans ((afterPrecision_suffix _).trans
    ((afterCount_suffix _).trans (dropWhile_suffix _)))

/-- **Reads a format**, given as its characters. -/
def scan : List Byte → Scan
  | [] => { kinds := [], truncated := false }
  | f :: s =>
    if f ≠ ch '%' then scan s
    else if s.head? = some (ch '%') then scan s.tail
    else
      let spec := scanConversion s
      if spec.rest = [] then { kinds := spec.kinds, truncated := true }
      else
        let rest := scan spec.rest.tail
        { kinds := spec.kinds ++ (conversionKinds spec.type (spec.rest.headD 0) ++ rest.kinds),
          truncated := rest.truncated }
  termination_by s => s.length
  decreasing_by
    · exact Nat.lt_succ_self _
    · rw [length_tail, length_cons]
      omega
    · have := (scanConversion_suffix s).length_le
      rw [length_tail, length_cons]
      omega

/-! ## Arguments -/

variable {kinds : List ArgKind} {args : List Arg}

theorem Enough.cons {kind : ArgKind} (h : Enough (kind :: kinds) args) :
    ∃ arg args', args = arg :: args' ∧ kind = arg.kind ∧ Enough kinds args' := by
  cases args with
  | nil => exact absurd h (by simp [Enough])
  | cons arg args => exact ⟨arg, args, rfl, cons_prefix_cons.mp h⟩

theorem Enough.word (h : Enough (.word :: kinds) args) :
    ∃ v args', vaArgWord args = some (v, args') ∧ Enough kinds args' := by
  obtain ⟨arg, args', rfl, hkind, hrest⟩ := h.cons
  cases arg with
  | word v => exact ⟨v, args', rfl, hrest⟩
  | _ => exact nomatch hkind

theorem Enough.double (h : Enough (.double :: kinds) args) :
    ∃ v args', vaArgDouble args = some (v, args') ∧ Enough kinds args' := by
  obtain ⟨arg, args', rfl, hkind, hrest⟩ := h.cons
  cases arg with
  | double v => exact ⟨v, args', rfl, hrest⟩
  | _ => exact nomatch hkind

theorem Enough.string (h : Enough (.string :: kinds) args) :
    ∃ s args', args = .string s :: args' ∧ Enough kinds args' := by
  obtain ⟨arg, args', rfl, hkind, hrest⟩ := h.cons
  cases arg with
  | string s => exact ⟨s, args', rfl, hrest⟩
  | _ => exact nomatch hkind

/-! ## One conversion -/

/-- The flags are stepped over, whatever comes behind the terminator. -/
theorem parseFlags_eq (c : Conversion) (s : List Byte) :
    ∃ c', ∀ junk, parseFlags c (s ++ 0 :: junk) = some (c', s.dropWhile isFlag ++ 0 :: junk) := by
  induction s generalizing c with
  | nil => exact ⟨c, fun junk => rfl⟩
  | cons f s ih =>
    simp only [cons_append, parseFlags]
    split_ifs with hminus hplus hspace hpound hzero hgroup
    case neg =>
      have hflag : ¬isFlag f = true := by
        simp [isFlag, hminus, hplus, hspace, hpound, hzero, hgroup]
      exact ⟨c, fun junk => by rw [dropWhile_cons_of_neg hflag, cons_append]⟩
    all_goals
      subst f
      exact ih _

theorem parseNumber_eq (n : Int) (s : List Byte) :
    ∃ n', ∀ junk, parseNumber n (s ++ 0 :: junk)
      = some (n', s.dropWhile isdigit ++ 0 :: junk) := by
  induction s generalizing n with
  | nil => exact ⟨n, fun junk => rfl⟩
  | cons f s ih =>
    simp only [cons_append, parseNumber]
    by_cases hdigit : isdigit f = true
    · simp only [if_pos hdigit, dropWhile_cons_of_pos hdigit]
      exact ih _
    · simp only [if_neg hdigit, dropWhile_cons_of_neg hdigit, cons_append]
      exact ⟨n, fun junk => rfl⟩

theorem head?_append_zero (s junk : List Byte) : (s ++ 0 :: junk).head? = some (s.headD 0) := by
  cases s <;> rfl

/-- The first character is the one sought, if it is not the terminator. -/
theorem headD_eq_iff {x : Byte} (hx : x ≠ 0) (s : List Byte) :
    s.headD 0 = x ↔ s.head? = some x := by
  cases s with
  | nil => exact ⟨fun h => absurd h.symm hx, fun h => nomatch h⟩
  | cons f s => exact ⟨fun h => congrArg some h, fun h => Option.some.inj h⟩

theorem tail_append_zero {s : List Byte} {x : Byte} (h : s.head? = some x) (junk : List Byte) :
    (s ++ 0 :: junk).tail = s.tail ++ 0 :: junk := by
  cases s with
  | nil => exact nomatch h
  | cons f s => rfl

theorem parseCount_eq (s : List Byte) (h : Enough (countKinds s ++ kinds) args) :
    ∃ n args', (∀ junk, parseCount (s ++ 0 :: junk) args
      = some (n, afterCount s ++ 0 :: junk, args')) ∧ Enough kinds args' := by
  have hhead := headD_eq_iff (x := ch '*') (by decide) s
  by_cases hstar : s.head? = some (ch '*')
  · rw [countKinds, if_pos hstar] at h
    obtain ⟨v, args', hword, hrest⟩ := h.word
    refine ⟨v.toInt, args', fun junk => ?_, hrest⟩
    rw [parseCount, head?_append_zero, some_bind, if_pos (hhead.mpr hstar), hword, some_bind,
      afterCount, if_pos hstar, tail_append_zero hstar]
  · rw [countKinds, if_neg hstar] at h
    obtain ⟨n, hnumber⟩ := parseNumber_eq 0 s
    refine ⟨n, args, fun junk => ?_, h⟩
    rw [parseCount, head?_append_zero, some_bind, if_neg fun heq => hstar (hhead.mp heq), hnumber,
      some_bind, afterCount, if_neg hstar]

theorem parsePrecision_eq (s : List Byte) (h : Enough (precisionKinds s ++ kinds) args) :
    ∃ n args', (∀ junk, parsePrecision (s ++ 0 :: junk) args
      = some (n, afterPrecision s ++ 0 :: junk, args')) ∧ Enough kinds args' := by
  have hhead := headD_eq_iff (x := ch '.') (by decide) s
  by_cases hdot : s.head? = some (ch '.')
  · rw [precisionKinds, if_pos hdot] at h
    obtain ⟨n, args', hcount, hrest⟩ := parseCount_eq s.tail h
    refine ⟨n, args', fun junk => ?_, hrest⟩
    rw [parsePrecision, head?_append_zero, some_bind, if_pos (hhead.mpr hdot), tail_append_zero
      hdot, hcount, afterPrecision, if_pos hdot]
  · rw [precisionKinds, if_neg hdot] at h
    refine ⟨-1, args, fun junk => ?_, h⟩
    rw [parsePrecision, head?_append_zero, some_bind, if_neg fun heq => hdot (hhead.mp heq),
      afterPrecision, if_neg hdot]

theorem parseType_eq (s junk : List Byte) :
    parseType (s ++ 0 :: junk) = some ((splitType s).1, (splitType s).2 ++ 0 :: junk) := by
  cases s with
  | nil => rfl
  | cons f s =>
    have htwo : ∀ x : Byte, x ≠ 0 → ∀ one two : ArgType,
        (do
          let g ← (s ++ 0 :: junk).head?
          some (if g = x then (two, (s ++ 0 :: junk).tail) else (one, s ++ 0 :: junk))) =
        some ((if s.head? = some x then (two, s.tail) else (one, s)).1,
          (if s.head? = some x then (two, s.tail) else (one, s)).2 ++ 0 :: junk) := by
      intro x hx one two
      have hhead := headD_eq_iff hx s
      rw [head?_append_zero, some_bind]
      by_cases heq : s.head? = some x
      · rw [if_pos (hhead.mpr heq), if_pos heq, tail_append_zero heq]
      · rw [if_neg fun h => heq (hhead.mp h), if_neg heq]
    rw [cons_append, parseType, splitType]
    by_cases hh : f = ch 'h'
    · simp only [if_pos hh]
      exact htwo (ch 'h') (by decide) .short .char
    by_cases hj : f = ch 'j'
    · simp only [if_neg hh, if_pos hj]
    by_cases hl : f = ch 'l'
    · simp only [if_neg hh, if_neg hj, if_pos hl]
      exact htwo (ch 'l') (by decide) .long .longlong
    simp only [if_neg hh, if_neg hj, if_neg hl]
    split_ifs <;> rfl

/-- **`parse_conversion` stops at the character of the conversion**, or at the terminator. -/
theorem parseConversion_spec (s : List Byte) (h : Enough ((scanConversion s).kinds ++ kinds) args) :
    ∃ c args', c.type = (scanConversion s).type ∧
      (∀ junk, parseConversion (s ++ 0 :: junk) args
        = some (c, (scanConversion s).rest ++ 0 :: junk, args')) ∧ Enough kinds args' := by
  obtain ⟨flags, hflags⟩ := parseFlags_eq {} s
  have h : Enough (countKinds (s.dropWhile isFlag) ++
      (precisionKinds (afterCount (s.dropWhile isFlag)) ++ kinds)) args := by
    rw [← append_assoc]
    exact h
  obtain ⟨width, args₁, hwidth, h₁⟩ := parseCount_eq _ h
  obtain ⟨precision, args₂, hprecision, h₂⟩ := parsePrecision_eq _ h₁
  refine ⟨conversionOf flags width precision (scanConversion s).type, args₂, rfl, ?_, h₂⟩
  intro junk
  rw [parseConversion_eq, hflags]
  simp only [some_bind, hwidth, hprecision, parseType_eq]
  rfl

/-! ## The argument of a conversion -/

theorem signedArg_eq {type : ArgType} (h : Enough (integerKind type :: kinds) args) :
    ∃ (value : Int) (args' : _), signedArg type args = some (value, args') ∧
      value.natAbs < 18446744073709551616 ∧ Enough kinds args' := by
  have hsmall : ∀ {w : Nat} (v : BitVec w), w ≤ 64 → v.toInt.natAbs < 18446744073709551616 := by
    intro w v hw
    have hle := v.le_toInt
    have hlt := v.toInt_lt
    have hpow : (2 : Int) ^ (w - 1) ≤ 2 ^ 63 :=
      pow_le_pow_right₀ (by decide) (by omega)
    omega
  cases type
  case intmax | longlong =>
    obtain ⟨v, args', hv, hrest⟩ := h.double
    exact ⟨v.toInt, args', by simp [signedArg, hv], hsmall v (by decide), hrest⟩
  all_goals
    obtain ⟨v, args', hv, hrest⟩ := h.word
    exact ⟨_, args', by simp only [signedArg, hv]; rfl, hsmall _ (by decide), hrest⟩

theorem unsignedArg_eq {type : ArgType} (h : Enough (integerKind type :: kinds) args) :
    ∃ value args', unsignedArg type args = some (value, args') ∧
      value < 18446744073709551616 ∧ Enough kinds args' := by
  have hsmall : ∀ {w : Nat} (v : BitVec w), w ≤ 64 → v.toNat < 18446744073709551616 := fun v hw =>
    Nat.lt_of_lt_of_le v.isLt (Nat.pow_le_pow_right (by decide) hw)
  cases type
  case intmax | longlong =>
    obtain ⟨v, args', hv, hrest⟩ := h.double
    exact ⟨v.toNat, args', by simp [unsignedArg, hv], hsmall v (by decide), hrest⟩
  all_goals
    obtain ⟨v, args', hv, hrest⟩ := h.word
    exact ⟨_, args', by simp only [unsignedArg, hv]; rfl, hsmall _ (by decide), hrest⟩

theorem formatInteger_eq_some {value : Nat} {b : IntegerBase} (isSigned negative : Bool)
    (c : Conversion) (hb : b ∈ bases) (hvalue : value < 18446744073709551616) :
    ∃ output, formatInteger value isSigned negative b c = some output :=
  ⟨_, formatInteger_eq (ok_of_mem_bases hb) hvalue⟩

/-- An unsigned conversion outputs its argument. -/
theorem unsigned_spec (c : Conversion) {b : IntegerBase} (hb : b ∈ bases)
    (h : Enough (integerKind c.type :: kinds) args) :
    ∃ output args', (do
      let (value, args) ← unsignedArg c.type args
      some (← formatInteger value false false b c, args)) = some (output, args') ∧
      Enough kinds args' := by
  obtain ⟨value, args', hvalue, hlt, hrest⟩ := unsignedArg_eq h
  obtain ⟨output, houtput⟩ := formatInteger_eq_some false false c hb hlt
  exact ⟨output, args', by simp [hvalue, houtput], hrest⟩

/-- **A conversion with its argument** outputs something. -/
theorem convert_spec (c : Conversion) (conversion : Byte)
    (h : Enough (conversionKinds c.type conversion ++ kinds) args) :
    ∃ output args', convert c conversion args = some (output, args') ∧ Enough kinds args' := by
  have hD : baseD ∈ bases := by simp [bases]
  have hO : baseO ∈ bases := by simp [bases]
  have hX : baseX ∈ bases := by simp [bases]
  have hUpperX : baseUpperX ∈ bases := by simp [bases]
  unfold convert
  by_cases hd : conversion = ch 'd' ∨ conversion = ch 'i'
  · have h : Enough (integerKind c.type :: kinds) args := by
      rcases hd with rfl | rfl <;> exact h
    obtain ⟨value, args', hvalue, hlt, hrest⟩ := signedArg_eq h
    obtain ⟨output, houtput⟩ := formatInteger_eq_some true (value < 0) c hD hlt
    exact ⟨output, args', by simp [hd, hvalue, houtput], hrest⟩
  by_cases ho : conversion = ch 'o'
  · simp only [if_neg hd, if_pos ho]
    subst ho
    exact unsigned_spec c hO h
  by_cases hu : conversion = ch 'u'
  · simp only [if_neg hd, if_neg ho, if_pos hu]
    subst hu
    exact unsigned_spec c hD h
  by_cases hx : conversion = ch 'x'
  · simp only [if_neg hd, if_neg ho, if_neg hu, if_pos hx]
    subst hx
    exact unsigned_spec c hX h
  by_cases hX' : conversion = ch 'X'
  · simp only [if_neg hd, if_neg ho, if_neg hu, if_neg hx, if_pos hX']
    subst hX'
    exact unsigned_spec c hUpperX h
  simp only [if_neg hd, if_neg ho, if_neg hu, if_neg hx, if_neg hX']
  by_cases hc : conversion = ch 'c'
  · simp only [if_pos hc]
    subst hc
    obtain ⟨v, args', hv, hrest⟩ := Enough.word h
    exact ⟨_, args', by rw [hv]; rfl, hrest⟩
  by_cases hs : conversion = ch 's'
  · simp only [if_neg hc, if_pos hs]
    subst hs
    obtain ⟨s, args', rfl, hrest⟩ := Enough.string h
    exact ⟨_, args', rfl, hrest⟩
  by_cases hp : conversion = ch 'p'
  · simp only [if_neg hc, if_neg hs, if_pos hp]
    subst hp
    obtain ⟨v, args', hv, hrest⟩ := Enough.word h
    obtain ⟨output, houtput⟩ := formatInteger_eq_some false false
      { width := c.width, precision := c.precision, pound := true, type := c.type } hX
      (Nat.lt_of_lt_of_le v.isLt (by decide))
    exact ⟨output, args', by simp [hv, houtput], hrest⟩
  · -- a message is output, and no argument is taken
    have hkinds : conversionKinds c.type conversion = [] := by
      rw [not_or] at hd
      simp [conversionKinds, hd, ho, hu, hx, hX', hc, hs, hp]
    rw [hkinds, nil_append] at h
    simp only [if_neg hc, if_neg hs, if_neg hp]
    split <;> exact ⟨_, args, rfl, h⟩

/-! ## The whole format -/

/-- How a run of the loop depends on the bytes behind the terminator: not at all or, if the
format ends inside a conversion, as on a format that begins there. -/
def Continues (truncated : Bool) (run : List Byte → Option (List Byte)) : Prop :=
  if truncated then
    ∃ output rounds args, ∀ junk, run junk = (vprintfLoop rounds junk args).map (output ++ ·)
  else
    ∃ output, ∀ junk, run junk = some output

theorem Continues.append {truncated : Bool} {run : List Byte → Option (List Byte)}
    (h : Continues truncated run) (first : List Byte) :
    Continues truncated fun junk => (run junk).map (first ++ ·) := by
  cases truncated with
  | true =>
    obtain ⟨output, rounds, args, heq⟩ := h
    refine ⟨first ++ output, rounds, args, fun junk => ?_⟩
    simp only [heq, Option.map_map]
    congr 1
    funext rest
    exact (append_assoc first output rest).symm
  | false =>
    obtain ⟨output, heq⟩ := h
    exact ⟨first ++ output, fun junk => by simp only [heq, Option.map_some]⟩

variable {args : List Arg} {rounds : Nat} {format : CharPtr}

theorem vprintfLoop_literal {f : Byte} (hzero : f ≠ 0) (hpercent : f ≠ ch '%') :
    vprintfLoop (rounds + 1) (f :: format) args
      = (vprintfLoop rounds format args).map ([f] ++ ·) := by
  rw [vprintfLoop, if_neg hzero, if_pos hpercent]
  cases vprintfLoop rounds format args <;> rfl

theorem vprintfLoop_percent (hhead : format.head? = some (ch '%')) :
    vprintfLoop (rounds + 1) (ch '%' :: format) args
      = (vprintfLoop rounds format.tail args).map ([ch '%'] ++ ·) := by
  rw [vprintfLoop, if_neg (by decide), if_neg (by simp), hhead, some_bind, if_pos rfl]
  cases vprintfLoop rounds format.tail args <;> rfl

theorem vprintfLoop_conversion {format format' : CharPtr} {args args' args'' : List Arg}
    {f conversion : Byte} {c : Conversion} {output : List Byte} (hhead : format.head? = some f)
    (hf : f ≠ ch '%') (hparse : parseConversion format args = some (c, format', args'))
    (hconversion : format'.head? = some conversion)
    (hconvert : convert c conversion args' = some (output, args'')) :
    vprintfLoop (rounds + 1) (ch '%' :: format) args
      = (vprintfLoop rounds format'.tail args'').map (output ++ ·) := by
  rw [vprintfLoop, if_neg (by decide), if_neg (by simp), hhead, some_bind, if_neg hf, hparse]
  simp only [some_bind, hconversion, hconvert]
  cases vprintfLoop rounds format'.tail args'' <;> rfl

/-- **The loop of `__vprintf`** stops at the terminator of a format that does not end inside a
conversion, and otherwise goes on behind it. -/
theorem vprintfLoop_spec {str : List Byte} (hrounds : str.length < rounds) (hstr : 0 ∉ str)
    (h : Enough (scan str).kinds args) :
    Continues (scan str).truncated fun junk => vprintfLoop rounds (str ++ 0 :: junk) args := by
  induction rounds generalizing str args with
  | zero => exact absurd hrounds (Nat.not_lt_zero _)
  | succ rounds ih =>
    cases str with
    | nil =>
      rw [scan]
      exact ⟨[], fun junk => rfl⟩
    | cons f s =>
      have hzero : f ≠ 0 := fun heq => hstr (heq ▸ mem_cons_self)
      have hs : 0 ∉ s := fun hmem => hstr (mem_cons_of_mem f hmem)
      rw [length_cons] at hrounds
      rw [scan] at h ⊢
      by_cases hf : f = ch '%'
      swap
      · -- a character that is copied
        rw [if_pos hf] at h ⊢
        simp only [cons_append, vprintfLoop_literal hzero hf]
        exact (ih (by omega) hs h).append [f]
      subst hf
      rw [if_neg (by simp)] at h ⊢
      by_cases hpercent : s.head? = some (ch '%')
      · rw [if_pos hpercent] at h ⊢
        have hhead : ∀ junk, (s ++ 0 :: junk).head? = some (ch '%') := fun junk => by
          rw [head?_append_zero, (headD_eq_iff (by decide) s).mpr hpercent]
        simp only [cons_append, vprintfLoop_percent (hhead _), tail_append_zero hpercent]
        refine (ih ?_ (fun hmem => hs (mem_of_mem_tail hmem)) h).append [ch '%']
        rw [length_tail]
        omega
      · rw [if_neg hpercent] at h ⊢
        have hne : s.headD 0 ≠ ch '%' := fun heq =>
          hpercent ((headD_eq_iff (by decide) s).mp heq)
        have hsuffix := scanConversion_suffix s
        have hlength := hsuffix.length_le
        generalize hspec : scanConversion s = spec at h hsuffix hlength ⊢
        by_cases hrest : spec.rest = []
        · -- the terminator is taken for the character of the conversion
          simp only [if_pos hrest] at h ⊢
          rw [← append_nil spec.kinds, ← hspec] at h
          obtain ⟨c, args₁, -, hparse, hargs⟩ := parseConversion_spec s h
          obtain ⟨output, args₂, hconvert, -⟩ := convert_spec c 0 hargs
          refine ⟨output, rounds, args₂, fun junk => ?_⟩
          have hparse := hparse junk
          rw [hspec, hrest, nil_append] at hparse
          exact vprintfLoop_conversion (head?_append_zero s junk) hne hparse rfl hconvert
        · simp only [if_neg hrest] at h ⊢
          rw [← hspec] at h
          obtain ⟨c, args₁, htype, hparse, hargs⟩ := parseConversion_spec s h
          rw [← htype] at hargs
          obtain ⟨output, args₂, hconvert, hargs⟩ := convert_spec c _ hargs
          rw [hspec] at hparse hconvert hargs
          obtain ⟨conversion, rest, hcons⟩ := exists_cons_of_ne_nil hrest
          have hmem : 0 ∉ spec.rest.tail := fun hmem =>
            hs (hsuffix.subset (mem_of_mem_tail hmem))
          have hlt : spec.rest.tail.length < rounds := by
            rw [length_tail]
            omega
          have hstep : ∀ junk, vprintfLoop (rounds + 1) (ch '%' :: s ++ 0 :: junk) args =
              (vprintfLoop rounds (spec.rest.tail ++ 0 :: junk) args₂).map (output ++ ·) := by
            intro junk
            have hhead : spec.rest.head? = some conversion := by rw [hcons]; rfl
            rw [← tail_append_zero hhead]
            exact vprintfLoop_conversion (head?_append_zero s junk) hne (hparse junk)
              (head?_append_zero spec.rest junk) hconvert
          simp only [hstep]
          exact (ih hlt hmem hargs).append output

/-- More rounds than needed change nothing. -/
theorem vprintfLoop_mono {rounds rounds' : Nat} {output : List Byte}
    (h : vprintfLoop rounds format args = some output) (hle : rounds ≤ rounds') :
    vprintfLoop rounds' format args = some output := by
  induction rounds generalizing rounds' format args output with
  | zero => exact nomatch h
  | succ rounds ih =>
    obtain ⟨rounds', rfl⟩ := Nat.exists_eq_add_of_lt hle
    have hle : rounds ≤ rounds + rounds' := Nat.le_add_right _ _
    cases format with
    | nil => exact nomatch h
    | cons f format =>
      rw [vprintfLoop] at h ⊢
      by_cases hzero : f = 0
      · rw [if_pos hzero] at h ⊢
        exact h
      rw [if_neg hzero] at h ⊢
      by_cases hpercent : f ≠ ch '%'
      · rw [if_pos hpercent] at h ⊢
        obtain ⟨rest, hrest, h⟩ := of_bind h
        rwa [ih hrest hle, some_bind]
      rw [if_neg hpercent] at h ⊢
      obtain ⟨g, hg, h⟩ := of_bind h
      rw [hg, some_bind]
      by_cases hliteral : g = ch '%'
      · rw [if_pos hliteral] at h ⊢
        obtain ⟨rest, hrest, h⟩ := of_bind h
        rwa [ih hrest hle, some_bind]
      rw [if_neg hliteral] at h ⊢
      obtain ⟨⟨c, format', args'⟩, hparse, h⟩ := of_bind h
      obtain ⟨conversion, hconversion, h⟩ := of_bind h
      obtain ⟨⟨first, args''⟩, hconvert, h⟩ := of_bind h
      obtain ⟨rest, hrest, h⟩ := of_bind h
      simp only [hparse, hconversion, hconvert, ih hrest hle, some_bind]
      exact h

/-- **How far `__vprintf` reads its format**: with enough arguments, it stays inside and ends
at the terminator just for a format that does not end inside a conversion; then nothing
depends on the bytes behind it. -/
theorem vprintf_inside_iff {str : List Byte} {args : List Arg} (hstr : 0 ∉ str)
    (hargs : Enough (scan str).kinds args) :
    ((vprintf (str ++ [0]) args).isSome ∧
        ∀ junk, vprintf (str ++ 0 :: junk) args = vprintf (str ++ [0]) args) ↔
      (scan str).truncated = false := by
  have hspec : ∀ rounds, str.length < rounds → Continues (scan str).truncated
      fun junk => vprintfLoop rounds (str ++ 0 :: junk) args :=
    fun rounds hrounds => vprintfLoop_spec hrounds hstr hargs
  have hlength : ∀ junk : List Byte, str.length + 1 ≤ (str ++ 0 :: junk).length + 1 := by
    intro junk
    rw [length_append]
    omega
  constructor
  · rintro ⟨hsome, -⟩
    by_contra htruncated
    have hspec := hspec ((str ++ [0]).length + 1) (hlength [])
    rw [eq_true_of_ne_false htruncated] at hspec
    obtain ⟨output, rounds, args', heq⟩ := hspec
    have hnone : vprintfLoop rounds [] args' = none := by cases rounds <;> rfl
    have heq : vprintf (str ++ [0]) args = none := (heq []).trans (by rw [hnone]; rfl)
    rw [heq] at hsome
    exact nomatch hsome
  · intro htruncated
    have hspec := hspec (str.length + 1) (Nat.lt_succ_self _)
    rw [htruncated] at hspec
    obtain ⟨output, heq⟩ := hspec
    have hall : ∀ junk, vprintf (str ++ 0 :: junk) args = some output := fun junk =>
      vprintfLoop_mono (heq junk) (hlength junk)
    exact ⟨by rw [hall]; rfl, fun junk => (hall junk).trans (hall []).symm⟩

/-- `printf ("%-5d%%|%s", …)` is read up to its terminator. -/
theorem vprintf_inside_iff_two :
    (vprintf (lit "%-5d%%|%s".toList) [.word 42, .string none]).isSome ∧
      ∀ junk, vprintf ("%-5d%%|%s".toList.map ch ++ 0 :: junk) [.word 42, .string none] =
        vprintf (lit "%-5d%%|%s".toList) [.word 42, .string none] :=
  (@vprintf_inside_iff ("%-5d%%|%s".toList.map ch) _ (by decide) (by decide +kernel)).mpr
    (by decide +kernel)

/-- `printf ("%")` reads on behind its terminator: with `d` there, that is output as well, and
with nothing there, the read fails. -/
theorem vprintf_reads_on :
    vprintf (lit "%".toList) [] = none ∧
      vprintf (lit "%".toList ++ lit "d".toList) [] =
        some ("<<no %".toList.map ch ++ [0] ++ " conversion>>d".toList.map ch) ∧
      Enough (scan ("%".toList.map ch)).kinds [] := by
  decide +kernel

end Pintos.Printf
