import Mathlib.Algebra.Order.BigOperators.Group.Finset
import Pintos.Printf

/-!
# Tar headers

`lib/ustar.c`.  A header is 512 bytes of fixed fields; numbers are octal digits followed
by a terminator, and one of them is the sum of all bytes, taken with spaces in its own
place.  File names are stripped of leading `/`, `./` and `../` on both sides.

**What `ustar_make_header` writes, `ustar_parse_header` reads** (`header_round_trip`): the
stripped name, the type and the size.  Stripping a stripped name changes nothing
(`strip_sociable`), the fields of numbers are wide enough for every `int`, and the sum does
not depend on what is in its own field (`calculateChksum_congr`).
-/

namespace Pintos
open List

/-- `enum ustar_type`. -/
inductive UstarType where
  | regular
  | directory
  | eof
  deriving DecidableEq

/-- The type as a `char`. -/
def UstarType.toChar : UstarType → Byte
  | .regular => ch '0'
  | .directory => ch '5'
  | .eof => -1

namespace Ustar
open CString (lit strlen memcmp strcmp strchr strlcpy string)
open Printf (vprintf Arg octalText octalDigit)

/-! ## Printing into memory -/

/-- `snprintf`. -/
def snprintf (m : Memory) (buffer bufSize : Nat) (format : CharPtr) (args : List Arg) :
    Option (Memory × Nat) := do
  let output ← vprintf format args
  if bufSize > 0 then
    some (m.store buffer (output.take (bufSize - 1) ++ [0]), output.length)
  else
    some (m, output.length)

/-! ## File names -/

/-- The condition of the loop in `strip_antisocial_prefixes`. -/
def antisocial (fileName : CharPtr) : Option Bool := do
  if (← fileName.head?) = ch '/' then some true
  else if (← memcmp fileName (lit ['.', '/']) 2) = 0 then some true
  else some ((← memcmp fileName (lit ['.', '.', '/']) 3) = 0)

/-- The loop of `strip_antisocial_prefixes`, for a number of rounds. -/
def stripLoop : Nat → CharPtr → Option CharPtr
  | 0, _ => none
  | rounds + 1, fileName => do
    if ← antisocial fileName then
      stripLoop rounds (← ← strchr fileName (ch '/')).tail
    else
      some fileName

/-- `strip_antisocial_prefixes`. -/
def stripAntisocialPrefixes (fileName : CharPtr) : Option CharPtr := do
  let fileName ← stripLoop (fileName.length + 1) fileName
  if (← fileName.head?) = 0 then some (lit ['.'])
  else if (← strcmp fileName (lit ['.', '.'])) = 0 then some (lit ['.'])
  else some fileName

/-! ## Making a header -/

/-- `USTAR_HEADER_SIZE`. -/
def headerSize : Nat := 512

/-- The fields of `struct ustar_header`. -/
inductive Field where
  | name
  | mode
  | uid
  | gid
  | size
  | mtime
  | chksum
  | typeflag
  | linkname
  | magic
  | version
  | uname
  | gname
  | devmajor
  | devminor
  | namePrefix
  | padding
  deriving DecidableEq

/-- The bytes of a field. -/
def Field.extent : Field → Extent
  | .name => ⟨0, 100⟩
  | .mode => ⟨100, 8⟩
  | .uid => ⟨108, 8⟩
  | .gid => ⟨116, 8⟩
  | .size => ⟨124, 12⟩
  | .mtime => ⟨136, 12⟩
  | .chksum => ⟨148, 8⟩
  | .typeflag => ⟨156, 1⟩
  | .linkname => ⟨157, 100⟩
  | .magic => ⟨257, 6⟩
  | .version => ⟨263, 2⟩
  | .uname => ⟨265, 32⟩
  | .gname => ⟨297, 32⟩
  | .devmajor => ⟨329, 8⟩
  | .devminor => ⟨337, 8⟩
  | .namePrefix => ⟨345, 155⟩
  | .padding => ⟨500, 12⟩

/-- `offsetof`. -/
def offsetof (f : Field) : Nat :=
  f.extent.start

/-- `sizeof`. -/
def sizeof (f : Field) : Nat :=
  f.extent.len

/-- The bytes of a field in a header. -/
def field (h : Memory) (f : Field) : List Byte :=
  h.load (offsetof f) (sizeof f)

/-- A pointer to a field in a header. -/
def fieldPtr (h : Memory) (f : Field) : CharPtr :=
  h.load (offsetof f) (headerSize - offsetof f)

/-- `calculate_chksum`. -/
def calculateChksum (h : Memory) : Nat :=
  (List.range headerSize).foldl (fun chksum i =>
    (chksum + if i ∈ Field.chksum.extent then (ch ' ').toNat else (h i).toNat) % unsignedSize) 0

/-- `ustar_make_header`.  If the name is too long, the message it prints. -/
def makeHeader (fileName : CharPtr) (type : UstarType) (size : BitVec 32) (header : Memory) :
    Option (Except (List Byte) Memory) := do
  assert (type = .regular ∨ type = .directory)
  let fileName ← stripAntisocialPrefixes fileName
  if (← strlen fileName) > 99 then
    some (.error (← vprintf (lit "%s: file name too long\n".toList) [.string fileName]))
  else
    let h := header.fill ⟨0, headerSize⟩ 0
    let (h, _) ← strlcpy h (offsetof .name) fileName (sizeof .name)
    let mode := if type = .regular then 0o644 else 0o755
    let (h, _) ← snprintf h (offsetof .mode) (sizeof .mode) (lit ['%', '0', '7', 'o']) [.word mode]
    let zeros := lit ['0', '0', '0', '0', '0', '0', '0']
    let (h, _) ← strlcpy h (offsetof .uid) zeros (sizeof .uid)
    let (h, _) ← strlcpy h (offsetof .gid) zeros (sizeof .gid)
    let format := lit ['%', '0', '1', '1', 'o']
    let (h, _) ← snprintf h (offsetof .size) (sizeof .size) format [.word size]
    let (h, _) ← snprintf h (offsetof .mtime) (sizeof .size) format [.word 1136102400]
    let h := h.store (offsetof .typeflag) [type.toChar]
    let (h, _) ← strlcpy h (offsetof .magic) (lit ['u', 's', 't', 'a', 'r']) (sizeof .magic)
    let h := h.store (offsetof .version) [ch '0', ch '0']
    let (h, _) ← strlcpy h (offsetof .gname) (lit ['r', 'o', 'o', 't']) (sizeof .gname)
    let (h, _) ← strlcpy h (offsetof .uname) (lit ['r', 'o', 'o', 't']) (sizeof .uname)
    -- the final checksum
    let chksum := BitVec.ofNat 32 (calculateChksum h)
    let (h, _) ←
      snprintf h (offsetof .chksum) (sizeof .chksum) (lit ['%', '0', '7', 'o']) [.word chksum]
    some (.ok h)

/-! ## Parsing a header -/

/-- The loop of `parse_octal_field` over the bytes of the field, with the offset and the
value so far. -/
def parseOctalLoop : List Byte → Nat → Nat → Option Nat
  | [], _, _ => none
  | c :: field, ofs, value =>
    if c ≥ ch '0' ∧ c ≤ ch '7' then
      if value > (unsignedSize - 1) / 8 then none
      else parseOctalLoop field (ofs + 1) (c.toNat - (ch '0').toNat + value * 8)
    else if c = ch ' ' ∨ c = 0 then
      if ofs > 0 then some value else none
    else
      none

/-- `parse_octal_field`. -/
def parseOctalField (field : List Byte) : Option Nat :=
  parseOctalLoop field 0 0

/-- `is_all_zeros`. -/
def isAllZeros (block : List Byte) : Bool :=
  block.all (· = 0)

/-- What `ustar_parse_header` stores. -/
structure Entry where
  fileName : Option CharPtr
  type : UstarType
  size : Nat

/-- `ustar_parse_header`, with its error messages. -/
def parseHeader (h : Memory) : Option (Except String Entry) := do
  if isAllZeros (h.load 0 headerSize) then
    some (.ok ⟨none, .eof, 0⟩)
  else if (← memcmp (fieldPtr h .magic) (lit ['u', 's', 't', 'a', 'r']) 6) ≠ 0 then
    some (.error "not a ustar archive")
  else if h (offsetof .version) ≠ ch '0' ∨ h (offsetof .version + 1) ≠ ch '0' then
    some (.error "invalid ustar version")
  else
    match parseOctalField (field h .chksum) with
    | none => some (.error "corrupt chksum field")
    | some chksum =>
      if chksum ≠ calculateChksum h then
        some (.error "checksum mismatch")
      else if h (offsetof .name + sizeof .name - 1) ≠ 0 ∨ h (offsetof .namePrefix) ≠ 0 then
        some (.error "file name too long")
      else if h (offsetof .typeflag) = ch '0' then
        match parseOctalField (field h .size) with
        | none => some (.error "corrupt file size field")
        | some size =>
          if size > 2147483647 then
            some (.error "file too large")
          else
            let fileName ← stripAntisocialPrefixes (fieldPtr h .name)
            some (.ok ⟨fileName, .regular, size⟩)
      else if h (offsetof .typeflag) = ch '5' then
        let fileName ← stripAntisocialPrefixes (fieldPtr h .name)
        some (.ok ⟨fileName, .directory, 0⟩)
      else
        some (.error "unimplemented file type")

/-! ## Stripping -/

/-- What the loop strips: `/`, `./` and `../`. -/
def Antisocial (name : List Byte) : Prop :=
  [ch '/'] <+: name ∨ [ch '.', ch '/'] <+: name ∨ [ch '.', ch '.', ch '/'] <+: name

/-- A name that stripping leaves as it is. -/
structure Sociable (name : List Byte) : Prop where
  not_antisocial : ¬Antisocial name
  ne_nil : name ≠ []
  ne_dots : name ≠ [ch '.', ch '.']

section Strip
variable {s : List Byte}

theorem antisocial_append (rest : CharPtr) (hs : 0 ∉ s) :
    ∃ r, antisocial (s ++ 0 :: rest) = some r ∧ (r = true ↔ Antisocial s) := by
  obtain ⟨r₂, hr₂, hiff₂⟩ :=
    CString.memcmp_append rest [0] hs (show 0 ∉ ['.', '/'].map ch by decide)
  obtain ⟨r₃, hr₃, hiff₃⟩ :=
    CString.memcmp_append rest [0] hs (show 0 ∉ ['.', '.', '/'].map ch by decide)
  obtain ⟨c, hhead, hslash⟩ : ∃ c, (s ++ 0 :: rest).head? = some c ∧
      (c = ch '/' ↔ [ch '/'] <+: s) := by
    cases s with
    | nil => exact ⟨0, rfl, iff_of_false (by decide) (by simp)⟩
    | cons a s => exact ⟨a, rfl, by simp [cons_prefix_cons, eq_comm]⟩
  have hr₂ : memcmp (s ++ 0 :: rest) (lit ['.', '/']) 2 = some r₂ := hr₂
  have hr₃ : memcmp (s ++ 0 :: rest) (lit ['.', '.', '/']) 3 = some r₃ := hr₃
  refine ⟨if c = ch '/' then true else if r₂ = 0 then true else r₃ = 0, ?_, ?_⟩
  · simp only [antisocial, hhead, hr₂, hr₃, some_bind]
    split
    · rfl
    · split <;> rfl
  · rw [Antisocial, ← hslash]
    change _ ↔ _ ∨ ['.', '/'].map ch <+: s ∨ ['.', '.', '/'].map ch <+: s
    rw [← hiff₂, ← hiff₃]
    by_cases h1 : c = ch '/'
    · simp [h1]
    · by_cases h2 : r₂ = 0
      · simp [h2]
      · simp [h1, h2]

/-- An antisocial name has a slash. -/
theorem Antisocial.slash_mem (h : Antisocial s) : ch '/' ∈ s := by
  rcases h with h | h | h
  · exact h.subset (by simp)
  · exact h.subset (by simp)
  · exact h.subset (by simp)

/-- **The loop stops** at a suffix of the name that is not antisocial. -/
theorem stripLoop_append (rest : CharPtr) {rounds : Nat} (hs : 0 ∉ s)
    (hrounds : s.length < rounds) :
    ∃ t, stripLoop rounds (s ++ 0 :: rest) = some (t ++ 0 :: rest) ∧ t <:+ s ∧ ¬Antisocial t := by
  induction rounds generalizing s with
  | zero => exact absurd hrounds (Nat.not_lt_zero _)
  | succ rounds ih =>
    obtain ⟨r, hr, hiff⟩ := antisocial_append rest hs
    rw [stripLoop, hr]
    by_cases hanti : Antisocial s
    · obtain ⟨s', t, hsplit, hchr⟩ := CString.strchr_append rest hs hanti.slash_mem
      have hsub : t <:+ s := ⟨s' ++ [ch '/'], by rw [hsplit]; simp⟩
      have hlen : t.length < s.length := by
        rw [hsplit, length_append, length_cons]
        omega
      obtain ⟨u, hu, hsuffix, hnot⟩ := ih (fun h => hs (hsub.subset h)) (by omega)
      refine ⟨u, ?_, hsuffix.trans hsub, hnot⟩
      simp only [hiff.mpr hanti, if_true, hchr, some_bind, cons_append, tail_cons, hu]
    · refine ⟨s, ?_, suffix_refl s, hanti⟩
      have hfalse : r = false := by simpa using mt hiff.mp hanti
      simp [hfalse]

/-- What follows the loop. -/
theorem strip_of_not_antisocial (rest : CharPtr) {t : List Byte} (ht : 0 ∉ t)
    (hnot : ¬Antisocial t) {p : CharPtr} (hloop : stripLoop (p.length + 1) p = some (t ++ 0 :: rest)) :
    stripAntisocialPrefixes p
      = some (if t = [] ∨ t = [ch '.', ch '.'] then lit ['.'] else t ++ 0 :: rest) := by
  obtain ⟨r, hr, hiff⟩ :=
    CString.strcmp_append rest [] ht (show 0 ∉ [ch '.', ch '.'] by decide)
  have hr : strcmp (t ++ 0 :: rest) (lit ['.', '.']) = some r := hr
  simp only [stripAntisocialPrefixes, hloop, some_bind]
  cases t with
  | nil => simp
  | cons a t =>
    have ha : a ≠ 0 := by
      rintro rfl
      exact ht (by simp)
    simp only [cons_append, head?_cons, some_bind, ha, if_false, reduceCtorEq, false_or]
    rw [cons_append] at hr
    by_cases hdots : a :: t = [ch '.', ch '.']
    · simp only [hr, hiff.mpr hdots, if_pos hdots, some_bind, if_true]
    · simp only [hr, mt hiff.mp hdots, if_neg hdots, some_bind, if_false]

theorem Sociable.dot : Sociable [ch '.'] :=
  ⟨by simp [Antisocial, cons_prefix_cons, show ¬ch '/' = ch '.' by decide], by simp, by simp⟩

/-- What stripping makes of a string: a suffix, or `.`. -/
theorem strip_append (rest : CharPtr) (hs : 0 ∉ s) :
    ∃ t rest', stripAntisocialPrefixes (s ++ 0 :: rest) = some (t ++ 0 :: rest') ∧ 0 ∉ t ∧
      Sociable t ∧ (t <:+ s ∨ t = [ch '.']) := by
  obtain ⟨t, hloop, hsuffix, hnot⟩ :=
    stripLoop_append rest hs (show s.length < (s ++ 0 :: rest).length + 1 by simp)
  have ht : 0 ∉ t := fun h => hs (hsuffix.subset h)
  rw [strip_of_not_antisocial rest ht hnot hloop]
  by_cases hodd : t = [] ∨ t = [ch '.', ch '.']
  · exact ⟨[ch '.'], [], by rw [if_pos hodd]; rfl, by decide, .dot, .inr rfl⟩
  · exact ⟨t, rest, by rw [if_neg hodd], ht,
      ⟨hnot, fun h => hodd (.inl h), fun h => hodd (.inr h)⟩, .inl hsuffix⟩

/-- **Stripping terminates** within the string, with a sociable name. -/
theorem strip_spec {p : CharPtr} (hp : 0 ∈ p) :
    ∃ t rest, stripAntisocialPrefixes p = some (t ++ 0 :: rest) ∧ 0 ∉ t ∧ Sociable t := by
  obtain ⟨s, rest, rfl, hs⟩ := CString.exists_string hp
  obtain ⟨t, rest', hstrip, ht, hsoc, -⟩ := strip_append rest hs
  exact ⟨t, rest', hstrip, ht, hsoc⟩

/-- **A sociable name is left as it is.** -/
theorem strip_sociable (rest : CharPtr) (hs : 0 ∉ s) (h : Sociable s) :
    stripAntisocialPrefixes (s ++ 0 :: rest) = some (s ++ 0 :: rest) := by
  obtain ⟨r, hr, hiff⟩ := antisocial_append rest hs
  have hfalse : r = false := by simpa using mt hiff.mp h.not_antisocial
  have hloop : stripLoop ((s ++ 0 :: rest).length + 1) (s ++ 0 :: rest) = some (s ++ 0 :: rest) := by
    rw [stripLoop, hr, hfalse]
    rfl
  rw [strip_of_not_antisocial rest hs h.not_antisocial hloop, if_neg]
  rintro (hnil | hdots)
  · exact h.ne_nil hnil
  · exact h.ne_dots hdots

end Strip

/-! ## Numbers -/

section Numbers
variable {n v : Nat} {h h' : Memory}

theorem octalText_length (hv : v < 8 ^ n) : (octalText n v).length = n := by
  have hlen : (Nat.digits 8 v).length ≤ n := (Nat.digits_length_le_iff (by decide) v).mpr hv
  simp only [octalText, length_reverse, length_map, length_append,
    length_replicate]
  omega

/-- The loop over octal digits computes their value. -/
theorem parseOctalLoop_append {digits : List Nat} {rest : List Byte} {ofs value : Nat}
    (hdigits : ∀ d ∈ digits, d < 8)
    (hfit : digits.foldl (fun value d => d + value * 8) value < unsignedSize)
    (hofs : 0 < ofs + digits.length) :
    parseOctalLoop (digits.map octalDigit ++ 0 :: rest) ofs value
      = some (digits.foldl (fun value d => d + value * 8) value) := by
  induction digits generalizing ofs value with
  | nil =>
    have hend : ¬((0 : Byte) ≥ ch '0' ∧ (0 : Byte) ≤ ch '7') := by decide
    rw [map_nil, nil_append, parseOctalLoop, if_neg hend, if_pos (.inr rfl),
      if_pos (by simpa using hofs), foldl_nil]
  | cons d digits ih =>
    have hd : d < 8 := hdigits d mem_cons_self
    have hdigit : ∀ d, d < 8 → (octalDigit d ≥ ch '0' ∧ octalDigit d ≤ ch '7') ∧
        (octalDigit d).toNat - (ch '0').toNat = d := by decide
    -- the value grows, so that it can be multiplied by 8 while more digits follow
    have hgrow : ∀ (l : List Nat) (x : Nat), x ≤ l.foldl (fun value d => d + value * 8) x := by
      intro l
      induction l with
      | nil => exact fun x => Nat.le_refl x
      | cons d l ih => exact fun x => Nat.le_trans (by omega) (ih (d + x * 8))
    rw [foldl_cons] at hfit
    have hroom : ¬value > (unsignedSize - 1) / 8 := by
      have := hgrow digits (d + value * 8)
      simp only [unsignedSize] at hfit ⊢
      omega
    rw [map_cons, cons_append, parseOctalLoop, if_pos (hdigit d hd).1, if_neg hroom,
      (hdigit d hd).2, ih (fun d' hd' => hdigits d' (mem_cons_of_mem d hd')) hfit (by omega),
      foldl_cons]

/-- **A number in octal reads back.** -/
theorem parseOctalField_octalText (rest : List Byte) (hn : 0 < n) (hv : v < 8 ^ n)
    (hfit : v < unsignedSize) : parseOctalField (octalText n v ++ 0 :: rest) = some v := by
  have hlen := octalText_length hv
  have hvalue : (Nat.digits 8 v ++ List.replicate (n - (Nat.digits 8 v).length) 0).reverse.foldl
      (fun value d => d + value * 8) 0 = v := by
    have hof : Nat.ofDigits 8 (Nat.digits 8 v ++ List.replicate (n - (Nat.digits 8 v).length) 0)
        = v := by
      rw [Nat.ofDigits_append_replicate_zero, Nat.ofDigits_digits]
    refine Eq.trans ?_ hof
    rw [foldl_reverse, Nat.ofDigits_eq_foldr]
    simp only [Nat.mul_comm, Nat.cast_id]
  rw [octalText, length_reverse, length_map] at hlen
  rw [parseOctalField, octalText, ← map_reverse]
  rw [parseOctalLoop_append]
  · rw [hvalue]
  · intro d hd
    rw [mem_reverse, mem_append] at hd
    rcases hd with hd | hd
    · exact Nat.digits_lt_base (by decide) hd
    · rw [(mem_replicate.mp hd).2]
      decide
  · rwa [hvalue]
  · rwa [length_reverse, hlen, Nat.zero_add]

/-- **The sum does not depend on its own field.** -/
theorem calculateChksum_congr
    (hagree : ∀ i, i < headerSize → i ∉ Field.chksum.extent → h' i = h i) :
    calculateChksum h' = calculateChksum h := by
  refine foldl_ext _ _ _ fun chksum i hi => ?_
  by_cases hfield : i ∈ Field.chksum.extent
  · rw [if_pos hfield, if_pos hfield]
  · rw [if_neg hfield, if_neg hfield, hagree i (mem_range.mp hi) hfield]

/-- A byte in the sum. -/
def chksumByte (h : Memory) (i : Nat) : Nat :=
  if i ∈ Field.chksum.extent then (ch ' ').toNat else (h i).toNat

theorem sum_chksumByte_le (h : Memory) (n : Nat) :
    ∑ i ∈ Finset.range n, chksumByte h i ≤ 255 * n := by
  have hbyte : ∀ i ∈ Finset.range n, chksumByte h i ≤ 255 := by
    intro i _
    rw [chksumByte]
    split
    · decide
    · exact Nat.le_of_lt_succ (h i).isLt
  have hsum := Finset.sum_le_card_nsmul _ _ _ hbyte
  rwa [Finset.card_range, Nat.nsmul_eq_mul, Nat.mul_comm] at hsum

/-- **The sum does not overflow.** -/
theorem calculateChksum_eq_sum (h : Memory) :
    calculateChksum h = ∑ i ∈ Finset.range headerSize, chksumByte h i := by
  suffices hloop : ∀ n, n ≤ headerSize → (List.range n).foldl
      (fun chksum i => (chksum + chksumByte h i) % unsignedSize) 0
        = ∑ i ∈ Finset.range n, chksumByte h i from
    hloop headerSize (Nat.le_refl _)
  intro n
  induction n with
  | zero => exact fun _ => rfl
  | succ n ih =>
    intro hn
    have hle := sum_chksumByte_le h (n + 1)
    rw [range_succ, foldl_append, foldl_cons, foldl_nil,
      ih (Nat.le_of_succ_le hn), ← Finset.sum_range_succ]
    refine Nat.mod_eq_of_lt ?_
    rw [headerSize] at hn
    rw [unsignedSize]
    omega

/-- The sum has at most six octal digits. -/
theorem calculateChksum_le (h : Memory) : calculateChksum h ≤ 255 * headerSize := by
  rw [calculateChksum_eq_sum]
  exact sum_chksumByte_le h headerSize

end Numbers

/-! ## What is written -/

section Written
variable {t : List Byte} {type : UstarType} {size : BitVec 32} {h : Memory}

/-- Different fields have no byte in common. -/
theorem Field.apart {f g : Field} (hne : f ≠ g) : f.extent.Apart g.extent := by
  cases f <;> cases g <;> first | exact absurd rfl hne | decide

/-- The bytes written to fields, one after the other. -/
def storeFields (h : Memory) (contents : List (Field × List Byte)) : Memory :=
  h.storeAll (contents.map fun w => (offsetof w.1, w.2))

/-- Each field is written once, within its bounds. -/
structure Fits (contents : List (Field × List Byte)) : Prop where
  nodup : (contents.map Prod.fst).Nodup
  within : ∀ w ∈ contents, w.2.length ≤ sizeof w.1

variable {contents : List (Field × List Byte)}

theorem Fits.mem_extent (hfits : Fits contents) {w : Field × List Byte} (hw : w ∈ contents)
    {x : Nat} (hx : x ∈ Memory.writeAt (offsetof w.1, w.2)) : x ∈ w.1.extent := by
  have hwithin := hfits.within w hw
  rw [sizeof] at hwithin
  rw [Memory.writeAt, Extent.mem_iff, offsetof] at hx
  rw [Extent.mem_iff]
  simp only at hx
  omega

section
variable {f : Field} {bytes : List Byte} (hfits : Fits contents) (hw : (f, bytes) ∈ contents)
include hfits hw

/-- What was written to a field is there. -/
theorem Fits.load_eq :
    (storeFields h contents).load (offsetof f) bytes.length = bytes := by
  have hne : contents.Pairwise fun w w' => w.1 ≠ w'.1 := pairwise_map.mp hfits.nodup
  have hapart : (contents.map fun w => (offsetof w.1, w.2)).Pairwise fun w w' =>
      (Memory.writeAt w).Apart (Memory.writeAt w') := by
    refine pairwise_map.mpr (hne.imp_of_mem fun hw hw' hne x hx hx' => ?_)
    exact Field.apart hne x (hfits.mem_extent hw hx) (hfits.mem_extent hw' hx')
  exact Memory.load_storeAll hapart
    (mem_map.mpr ⟨(f, bytes), hw, rfl⟩ : (offsetof f, bytes) ∈ _)

/-- A field whose bytes are all written. -/
theorem Fits.field_eq (hlen : bytes.length = sizeof f) :
    field (storeFields h contents) f = bytes := by
  rw [field, ← hlen, hfits.load_eq hw]

/-- A pointer to a field that was written. -/
theorem Fits.fieldPtr_eq :
    ∃ rest, fieldPtr (storeFields h contents) f = bytes ++ rest := by
  have hbound : ∀ f : Field, offsetof f + sizeof f ≤ headerSize := by
    intro f
    cases f <;> decide
  have hlen : bytes.length ≤ headerSize - offsetof f := by
    have hwithin : bytes.length ≤ sizeof f := hfits.within _ hw
    have := hbound f
    omega
  obtain ⟨k, hk⟩ := Nat.exists_eq_add_of_le hlen
  exact ⟨_, by rw [fieldPtr, hk, Memory.load_add, hfits.load_eq hw]⟩

end

/-- Behind what was written to a field nothing has changed. -/
theorem Fits.byte_eq (hfits : Fits contents) {f : Field} {x : Nat} (hx : x ∈ f.extent)
    (hbehind : ∀ bytes, (f, bytes) ∈ contents → offsetof f + bytes.length ≤ x) :
    storeFields h contents x = h x := by
  refine Memory.storeAll_of_notMem fun _ hmem hx' => ?_
  obtain ⟨⟨g, bytes⟩, hw, rfl⟩ := mem_map.mp hmem
  by_cases hg : g = f
  · subst hg
    exact Nat.not_lt.mpr (hbehind bytes hw) hx'.2
  · exact Field.apart hg x (hfits.mem_extent hw hx') hx

/-- What `ustar_make_header` puts in the header before the checksum. -/
def filled (t : List Byte) (type : UstarType) (size : Nat) : List (Field × List Byte) :=
  [(.name, t ++ [0]), (.mode, octalText 7 (if type = .regular then 0o644 else 0o755) ++ [0]),
   (.uid, lit ['0', '0', '0', '0', '0', '0', '0']),
   (.gid, lit ['0', '0', '0', '0', '0', '0', '0']),
   (.size, octalText 11 size ++ [0]), (.mtime, octalText 11 1136102400 ++ [0]),
   (.typeflag, [type.toChar]), (.magic, lit ['u', 's', 't', 'a', 'r']),
   (.version, [ch '0', ch '0']), (.gname, lit ['r', 'o', 'o', 't']),
   (.uname, lit ['r', 'o', 'o', 't'])]

/-- What `ustar_make_header` puts in the header. -/
def sealed (t : List Byte) (type : UstarType) (size : Nat) (header : Memory) :
    List (Field × List Byte) :=
  filled t type size ++ [(.chksum, octalText 7
    (calculateChksum (storeFields (header.fill ⟨0, headerSize⟩ 0) (filled t type size))) ++ [0])]

variable {n : Nat}

theorem snprintf_octal (m : Memory) (buffer : Nat) {format : CharPtr} {first : Byte} {v : BitVec 32}
    (hfirst : format.head? = some first) (hne : first ≠ ch '%')
    (hparse : Printf.parseConversion format [.word v] =
      some ({ zero := true, width := n }, lit ['o'], [.word v]))
    (hn : 0 < n) (hroom : n ≤ Printf.bufSize) (hv : v.toNat < 8 ^ n) :
    snprintf m buffer (n + 1) (ch '%' :: format) [.word v]
      = some (m.store buffer (octalText n v.toNat ++ [0]), n) := by
  have hlen := octalText_length hv
  have htake : (octalText n v.toNat).take (n + 1 - 1) = octalText n v.toNat :=
    take_of_length_le (Nat.le_of_eq hlen)
  simp only [snprintf, Printf.vprintf_octal hfirst hne hparse hn hroom hv, some_bind,
    if_pos (Nat.succ_pos n), htake, hlen]

/-- **What `ustar_make_header` makes** of a stripped name that is short enough. -/
theorem makeHeader_eq {fileName rest : CharPtr} (header : Memory)
    (hstrip : stripAntisocialPrefixes fileName = some (t ++ 0 :: rest)) (ht : 0 ∉ t)
    (hlen : t.length ≤ 99) (htype : type = .regular ∨ type = .directory) :
    makeHeader fileName type size header
      = some (.ok (storeFields (header.fill ⟨0, headerSize⟩ 0)
          (sealed t type size.toNat header))) := by
  have hmode : ∀ m : Memory, snprintf m (offsetof .mode) (sizeof .mode) (lit ['%', '0', '7', 'o'])
      [.word (if type = .regular then 0o644 else 0o755)]
      = some (m.store (offsetof .mode)
          (octalText 7 (if type = .regular then 0o644 else 0o755) ++ [0]), 7) := by
    intro m
    rcases htype with rfl | rfl
    all_goals
      exact snprintf_octal m (offsetof .mode) rfl (by decide) rfl (by decide) (by decide) (by decide)
  have hnumber : ∀ (m : Memory) (a : Nat) (v : BitVec 32),
      snprintf m a (sizeof .size) (lit ['%', '0', '1', '1', 'o']) [.word v]
      = some (m.store a (octalText 11 v.toNat ++ [0]), 11) := by
    intro m a v
    have hv : v.toNat < 8 ^ 11 := Nat.lt_of_lt_of_le v.isLt (by decide)
    exact snprintf_octal m a rfl (by decide) rfl (by decide) (by decide) hv
  have hchksum : ∀ m : Memory, snprintf m (offsetof .chksum) (sizeof .chksum)
      (lit ['%', '0', '7', 'o']) [.word (BitVec.ofNat 32 (calculateChksum m))]
      = some (m.store (offsetof .chksum) (octalText 7 (calculateChksum m) ++ [0]), 7) := by
    intro m
    have hle := calculateChksum_le m
    have hnat : (BitVec.ofNat 32 (calculateChksum m)).toNat = calculateChksum m := by
      rw [BitVec.toNat_ofNat]
      exact Nat.mod_eq_of_lt (Nat.lt_of_le_of_lt hle (by decide))
    have hv : (BitVec.ofNat 32 (calculateChksum m)).toNat < 8 ^ 7 := by
      rw [hnat]
      exact Nat.lt_of_le_of_lt hle (by decide)
    have := snprintf_octal m (offsetof .chksum) rfl (by decide)
      (rfl : Printf.parseConversion (lit ['0', '7', 'o'])
        [.word (BitVec.ofNat 32 (calculateChksum m))] = _) (by decide) (by decide) hv
    rwa [hnat] at this
  have hzeros : ∀ (m : Memory) (a : Nat),
      strlcpy m a (lit ['0', '0', '0', '0', '0', '0', '0']) 8
      = some (m.store a (lit ['0', '0', '0', '0', '0', '0', '0']), 7) := fun m a => rfl
  have hroot : ∀ (m : Memory) (a : Nat), strlcpy m a (lit ['r', 'o', 'o', 't']) 32
      = some (m.store a (lit ['r', 'o', 'o', 't']), 4) := fun m a => rfl
  have hmagic : ∀ (m : Memory) (a : Nat), strlcpy m a (lit ['u', 's', 't', 'a', 'r']) 6
      = some (m.store a (lit ['u', 's', 't', 'a', 'r']), 5) := fun m a => rfl
  have hname : ∀ m : Memory, strlcpy m (offsetof .name) (t ++ 0 :: rest) (sizeof .name)
      = some (m.store (offsetof .name) (t ++ [0]), t.length) := fun m =>
    CString.strlcpy_append m (offsetof .name) rest ht (Nat.lt_succ_of_le hlen)
  simp only [makeHeader, assert_of htype, hstrip, CString.strlen_append ht, some_bind,
    if_neg (Nat.not_lt.mpr hlen), hname, hmode, hnumber, hchksum,
    show sizeof .uid = 8 from rfl, show sizeof .gid = 8 from rfl, show sizeof .gname = 32 from rfl,
    show sizeof .uname = 32 from rfl, show sizeof .magic = 6 from rfl, hzeros, hroot, hmagic]
  rfl

theorem fits_filled {text : List Byte} (hlen : t.length ≤ 99) (hsize : n < 8 ^ 11)
    (htext : text.length = 8) : Fits (filled t type n ++ [(.chksum, text)]) := by
  have hmode : (octalText 7 (if type = .regular then 0o644 else 0o755)).length = 7 :=
    octalText_length (by split <;> decide)
  have hmtime : (octalText 11 1136102400).length = 11 := octalText_length (by decide)
  have hfields : (filled t type n ++ [(Field.chksum, text)]).map Prod.fst = [.name, .mode, .uid, .gid,
    .size, .mtime, .typeflag, .magic, .version, .gname, .uname, .chksum] := rfl
  refine ⟨by rw [hfields]; decide, ?_⟩
  simp only [filled, cons_append, nil_append, forall_mem_cons,
    length_append, octalText_length hsize, hmode, hmtime, htext, length_singleton]
  refine ⟨Nat.succ_le_succ hlen, by decide, by decide, by decide, by decide, by decide, by decide,
    by decide, by decide, by decide, by decide, by decide, by simp⟩

/-- What `ustar_parse_header` finds in a header: fields that pass its tests. -/
structure WellFormed (h : Memory) (t : List Byte) (type : UstarType) (size : Nat) : Prop where
  name : ∃ rest, fieldPtr h .name = t ++ 0 :: rest
  name_end : h (offsetof .name + sizeof .name - 1) = 0
  size : ∃ rest, field h .size = octalText 11 size ++ 0 :: rest
  chksum : field h .chksum = octalText 7 (calculateChksum h) ++ [0]
  typeflag : h (offsetof .typeflag) = type.toChar
  magic : ∃ rest, fieldPtr h .magic = lit ['u', 's', 't', 'a', 'r'] ++ rest
  version₀ : h (offsetof .version) = ch '0'
  version₁ : h (offsetof .version + 1) = ch '0'
  namePrefix : h (offsetof .namePrefix) = 0

theorem wellFormed_sealed (header : Memory) (hlen : t.length ≤ 99) (hsize : n < 8 ^ 11) :
    WellFormed (storeFields (header.fill ⟨0, headerSize⟩ 0) (sealed t type n header)) t type n := by
  let body := storeFields (header.fill ⟨0, headerSize⟩ 0) (filled t type n)
  have htext : (octalText 7 (calculateChksum body) ++ [0]).length = 8 := by
    rw [length_append,
      octalText_length (Nat.lt_of_le_of_lt (calculateChksum_le body) (by decide))]
    rfl
  have hfits : Fits (sealed t type n header) := fits_filled hlen hsize htext
  have hversion := hfits.load_eq (h := header.fill ⟨0, headerSize⟩ 0)
    (show (Field.version, [ch '0', ch '0']) ∈ sealed t type n header by simp [sealed, filled])
  have htype := hfits.load_eq (h := header.fill ⟨0, headerSize⟩ 0)
    (show (Field.typeflag, [type.toChar]) ∈ sealed t type n header by simp [sealed, filled])
  have hname := show (Field.name, t ++ [0]) ∈ sealed t type n header by simp [sealed, filled]
  simp only [Memory.load, length_cons, length_nil, Nat.zero_add, Nat.reduceAdd,
    range_succ, range_zero, nil_append, cons_append, map_cons,
    map_nil, List.cons.injEq, Nat.add_zero, and_true] at hversion htype
  refine ⟨?_, ?_, ⟨[], ?_⟩, ?_, htype, hfits.fieldPtr_eq (by simp [sealed, filled]), hversion.1,
    hversion.2, ?_⟩
  · obtain ⟨rest, hrest⟩ := hfits.fieldPtr_eq (h := header.fill ⟨0, headerSize⟩ 0) hname
    exact ⟨rest, by rw [hrest, append_assoc, singleton_append]⟩
  · by_cases hfull : t.length = 99
    · -- the terminator is the last byte of the field
      have hload := hfits.load_eq (h := header.fill ⟨0, headerSize⟩ 0) hname
      have hlast := congrArg (fun bytes => bytes.getD 99 0) hload
      rw [show offsetof .name + sizeof .name - 1 = offsetof .name + 99 from rfl]
      simpa [Memory.load, hfull, List.getD] using hlast
    · rw [hfits.byte_eq (f := .name) (by decide)]
      · rfl
      · intro bytes hbytes
        have hbytes : bytes = t ++ [0] := by simpa [sealed, filled] using hbytes
        rw [hbytes, length_append, length_singleton]
        simp only [offsetof, sizeof, Field.extent]
        omega
  · refine hfits.field_eq (by simp [sealed, filled]) ?_
    rw [length_append, octalText_length hsize]
    rfl
  · have hsum : calculateChksum (storeFields (header.fill ⟨0, headerSize⟩ 0)
        (sealed t type n header)) = calculateChksum body := by
      refine calculateChksum_congr fun i _ hi => ?_
      rw [sealed, storeFields, map_append, Memory.storeAll, foldl_append]
      refine Memory.store_of_notMem ?_
      rwa [htext]
    rw [hsum]
    exact hfits.field_eq (by simp [sealed, body]) htext
  · rw [hfits.byte_eq (f := .namePrefix) (by decide)]
    · rfl
    · intro bytes hbytes
      simp [sealed, filled] at hbytes

/-- The checksum reads back. -/
theorem WellFormed.parseOctalField_chksum (hform : WellFormed h t type n) :
    parseOctalField (field h .chksum) = some (calculateChksum h) := by
  have hle := calculateChksum_le h
  rw [hform.chksum]
  exact parseOctalField_octalText [] (by decide) (Nat.lt_of_le_of_lt hle (by decide))
    (Nat.lt_of_le_of_lt hle (by decide))

/-- **Every header that is made is well-formed.** -/
theorem wellFormed_of_makeHeader {fileName : CharPtr} {header : Memory} (hname : 0 ∈ fileName)
    (hmake : makeHeader fileName type size header = some (.ok h)) :
    ∃ t, 0 ∉ t ∧ Sociable t ∧ t.length ≤ 99 ∧ WellFormed h t type size.toNat := by
  obtain ⟨t, rest, hstrip, ht, hsoc⟩ := strip_spec hname
  have htype : type = .regular ∨ type = .directory := by
    by_contra hnot
    rw [makeHeader, assert, if_neg hnot] at hmake
    cases hmake
  have hlen : t.length ≤ 99 := by
    by_contra hlong
    simp only [makeHeader, assert_of htype, hstrip, CString.strlen_append ht, some_bind,
      if_pos (Nat.not_le.mp hlong)] at hmake
    obtain ⟨message, -, hmake⟩ := of_bind hmake
    cases hmake
  rw [makeHeader_eq header hstrip ht hlen htype] at hmake
  cases hmake
  exact ⟨t, ht, hsoc, hlen, wellFormed_sealed header hlen (Nat.lt_of_lt_of_le size.isLt (by decide))⟩

/-- **A well-formed header is accepted**, with what is in it. -/
theorem parseHeader_eq (hform : WellFormed h t type n) (ht : 0 ∉ t) (hsoc : Sociable t)
    (htype : type = .regular ∨ type = .directory) (hn : n ≤ 2147483647) :
    ∃ rest, parseHeader h
      = some (.ok ⟨some (t ++ 0 :: rest), type, if type = .directory then 0 else n⟩) := by
  obtain ⟨rest, hname⟩ := hform.name
  obtain ⟨rest', hmagic⟩ := hform.magic
  obtain ⟨rest'', hsize⟩ := hform.size
  have hzeros : isAllZeros (h.load 0 headerSize) = false := by
    rw [isAllZeros, all_eq_false]
    refine ⟨h (offsetof .version), mem_map.mpr ⟨offsetof .version, ?_, by simp⟩, ?_⟩
    · exact mem_range.mpr (by decide)
    rw [hform.version₀]
    decide
  have hcmp : memcmp (fieldPtr h .magic) (lit ['u', 's', 't', 'a', 'r']) 6 = some 0 := by
    rw [hmagic]
    exact CString.memcmp_self (lit ['u', 's', 't', 'a', 'r']) rest' []
  have hparsed : parseOctalField (field h .size) = some n := by
    rw [hsize]
    exact parseOctalField_octalText rest'' (by decide) (Nat.lt_of_le_of_lt hn (by decide))
      (Nat.lt_of_le_of_lt hn (by decide))
  refine ⟨rest, ?_⟩
  simp only [parseHeader, hzeros, Bool.false_eq_true, if_false, hcmp, some_bind, ne_eq,
    not_true_eq_false, hform.version₀, hform.version₁, or_self, hform.parseOctalField_chksum,
    hform.name_end, hform.namePrefix, hform.typeflag, hname, strip_sociable rest ht hsoc, hparsed]
  rcases htype with rfl | rfl
  · simp [UstarType.toChar, Nat.not_lt.mpr hn]
  · simp [UstarType.toChar, show ¬ch '5' = ch '0' by decide]

end Written

/-- **Tar headers round-trip.**  A name whose stripped form has at most 99 characters, either
type and any size make a header, and parsing it yields the type, the stripped name and, for a
file, the size.  Stripping is idempotent, and the checksum in the header is its checksum. -/
theorem header_round_trip {fileName : CharPtr} (hname : 0 ∈ fileName) {type : UstarType}
    (htype : type = .regular ∨ type = .directory) {size : BitVec 32} (hsize : 0 ≤ size.toInt)
    (header : Memory) :
    ∃ stripped, stripAntisocialPrefixes fileName = some stripped ∧
      stripAntisocialPrefixes stripped = some stripped ∧
      ((string stripped).length ≤ 99 →
        ∃ h, makeHeader fileName type size header = some (.ok h) ∧
          (∃ parsed, parseHeader h
              = some (.ok ⟨some parsed, type, if type = .directory then 0 else size.toNat⟩) ∧
            string parsed = string stripped) ∧
          parseOctalField (field h .chksum) = some (calculateChksum h)) := by
  obtain ⟨t, rest, hstrip, ht, hsoc⟩ := strip_spec hname
  refine ⟨t ++ 0 :: rest, hstrip, strip_sociable rest ht hsoc, fun hlen => ?_⟩
  rw [CString.string_append ht] at hlen
  have hn : size.toNat ≤ 2147483647 := by
    rw [BitVec.toInt_eq_toNat_cond] at hsize
    split at hsize <;> omega
  have hform : WellFormed (storeFields (header.fill ⟨0, headerSize⟩ 0)
      (sealed t type size.toNat header)) t type size.toNat :=
    wellFormed_sealed header hlen (Nat.lt_of_le_of_lt hn (by decide))
  obtain ⟨rest', hparse⟩ := parseHeader_eq hform ht hsoc htype hn
  refine ⟨_, makeHeader_eq header hstrip ht hlen htype, ⟨_, hparse, ?_⟩,
    hform.parseOctalField_chksum⟩
  rw [CString.string_append ht, CString.string_append ht]

/-- A file named `/../x/../y`, of 1000 bytes. -/
theorem header_round_trip_file :
    ∃ stripped, stripAntisocialPrefixes (lit "/../x/../y".toList) = some stripped ∧
      stripAntisocialPrefixes stripped = some stripped ∧
      ((string stripped).length ≤ 99 →
        ∃ h, makeHeader (lit "/../x/../y".toList) .regular 1000 (fun _ => 255) = some (.ok h) ∧
          (∃ parsed, parseHeader h = some (.ok ⟨some parsed, .regular, 1000⟩) ∧
            string parsed = string stripped) ∧
          parseOctalField (field h .chksum) = some (calculateChksum h)) :=
  header_round_trip (by decide) (.inl rfl) (by decide) fun _ => 255

end Ustar
end Pintos
