import Pintos.Ustar

/-!
# Tar headers from elsewhere

`ustar_parse_header` is given blocks that nobody vouches for.  An accepted header has passed all
its tests (`Accepted`, `parseHeader_cases`), and a header that passes them is accepted
(`parseHeader_of_accepted`).

**No accepted header names a path outside the destination** (`accepted_names_stay_inside`): the
name that comes out is sociable and short.  **A header of which one byte has been changed is
refused or read as before** (`one_byte_error`).  A change outside the checksum changes the sum
of the bytes, which does not overflow; a change inside leaves all that is read.
-/

namespace Pintos
open List
namespace Ustar
open CString (lit memcmp string)

/-- The tests of `ustar_parse_header`, and what it stores when a header passes them. -/
structure Accepted (h : Memory) (e : Entry) : Prop where
  magic : memcmp (fieldPtr h .magic) (lit ['u', 's', 't', 'a', 'r']) 6 = some 0
  version₀ : h (offsetof .version) = ch '0'
  version₁ : h (offsetof .version + 1) = ch '0'
  chksum : parseOctalField (field h .chksum) = some (calculateChksum h)
  name_end : h (offsetof .name + sizeof .name - 1) = 0
  namePrefix : h (offsetof .namePrefix) = 0
  typeflag : h (offsetof .typeflag) = e.type.toChar
  kind : e.type = .regular ∧ parseOctalField (field h .size) = some e.size ∧
      e.size ≤ 2147483647 ∨
    e.type = .directory ∧ e.size = 0
  name : ∃ name, stripAntisocialPrefixes (fieldPtr h .name) = some name ∧ e.fileName = some name

section Parse
variable {h : Memory} {e : Entry}

/-- Comparing as many bytes as there are. -/
theorem memcmp_total : ∀ (n : Nat) (p q : CharPtr), n ≤ p.length → n ≤ q.length →
    ∃ r, memcmp p q n = some r := by
  intro n
  induction n with
  | zero => exact fun p q _ _ => ⟨0, by rw [memcmp]⟩
  | succ n ih =>
    intro p q hp hq
    obtain ⟨a, p, rfl⟩ := exists_cons_of_length_pos (Nat.lt_of_lt_of_le (Nat.succ_pos n) hp)
    obtain ⟨b, q, rfl⟩ := exists_cons_of_length_pos (Nat.lt_of_lt_of_le (Nat.succ_pos n) hq)
    rw [memcmp]
    by_cases hab : a ≠ b
    · exact ⟨_, if_pos hab⟩
    · rw [if_neg hab]
      exact ih p q (Nat.le_of_succ_le_succ hp) (Nat.le_of_succ_le_succ hq)

/-- The name in a header that ends in a terminator. -/
theorem exists_name (hend : h (offsetof .name + sizeof .name - 1) = 0) :
    ∃ s rest, fieldPtr h .name = s ++ 0 :: rest ∧ 0 ∉ s ∧ s.length ≤ 99 := by
  have hsplit : fieldPtr h .name = h.load 0 100 ++ h.load 100 412 := h.load_add 0 100 412
  have hmem : 0 ∈ h.load 0 100 :=
    mem_map.mpr ⟨99, mem_range.mpr (by decide), hend⟩
  obtain ⟨s, rest, hload, hs⟩ := CString.exists_string hmem
  refine ⟨s, rest ++ h.load 100 412, ?_, hs, ?_⟩
  · rw [hsplit, hload, append_assoc, cons_append]
  · have hlen := congrArg List.length hload
    rw [Memory.length_load, length_append, length_cons] at hlen
    omega

/-- **What `ustar_parse_header` does with any block**: the end of the archive, an error, or a
header that has passed the tests. -/
theorem parseHeader_cases (h : Memory) :
    (isAllZeros (h.load 0 headerSize) = true ∧ parseHeader h = some (.ok ⟨none, .eof, 0⟩)) ∨
    (∃ message, parseHeader h = some (.error message)) ∨
    ∃ e, parseHeader h = some (.ok e) ∧ Accepted h e := by
  by_cases hzeros : isAllZeros (h.load 0 headerSize) = true
  · exact .inl ⟨hzeros, by rw [parseHeader, if_pos hzeros]⟩
  right
  rw [parseHeader, if_neg hzeros]
  obtain ⟨r, hmagic⟩ : ∃ r, memcmp (fieldPtr h .magic) (lit ['u', 's', 't', 'a', 'r']) 6 = some r := by
    refine memcmp_total 6 _ _ ?_ (by decide)
    rw [fieldPtr, Memory.length_load]
    decide
  rw [hmagic, some_bind]
  by_cases hr : r ≠ 0
  · exact .inl ⟨_, if_pos hr⟩
  rw [if_neg hr]
  by_cases hversion : h (offsetof .version) ≠ ch '0' ∨ h (offsetof .version + 1) ≠ ch '0'
  · exact .inl ⟨_, if_pos hversion⟩
  rw [if_neg hversion]
  cases hchksum : parseOctalField (field h .chksum) with
  | none => exact .inl ⟨_, rfl⟩
  | some chksum =>
    simp only
    by_cases hsum : chksum ≠ calculateChksum h
    · exact .inl ⟨_, if_pos hsum⟩
    rw [if_neg hsum]
    by_cases hname : h (offsetof .name + sizeof .name - 1) ≠ 0 ∨ h (offsetof .namePrefix) ≠ 0
    · exact .inl ⟨_, if_pos hname⟩
    rw [if_neg hname]
    push Not at hr hversion hsum hname
    subst hr
    rw [hsum] at hchksum
    obtain ⟨s, rest, hptr, hs, -⟩ := exists_name hname.1
    obtain ⟨t, rest', hstrip, -⟩ := strip_append rest hs
    rw [← hptr] at hstrip
    -- what the two types have in common
    have haccepted : ∀ type size, h (offsetof .typeflag) = type.toChar →
        (type = .regular ∧ parseOctalField (field h .size) = some size ∧ size ≤ 2147483647 ∨
          type = .directory ∧ size = 0) → Accepted h ⟨some (t ++ 0 :: rest'), type, size⟩ :=
      fun type size htype hkind =>
        ⟨hmagic, hversion.1, hversion.2, hchksum, hname.1, hname.2, htype, hkind, _, hstrip, rfl⟩
    by_cases hregular : h (offsetof .typeflag) = ch '0'
    · rw [if_pos hregular]
      cases hsize : parseOctalField (field h .size) with
      | none => exact .inl ⟨_, rfl⟩
      | some size =>
        simp only
        by_cases hlarge : size > 2147483647
        · exact .inl ⟨_, if_pos hlarge⟩
        rw [if_neg hlarge, hstrip, some_bind]
        exact .inr ⟨_, rfl, haccepted .regular size hregular
          (.inl ⟨rfl, hsize, Nat.not_lt.mp hlarge⟩)⟩
    · rw [if_neg hregular]
      by_cases hdirectory : h (offsetof .typeflag) = ch '5'
      · rw [if_pos hdirectory, hstrip, some_bind]
        exact .inr ⟨_, rfl, haccepted .directory 0 hdirectory (.inr ⟨rfl, rfl⟩)⟩
      · exact .inl ⟨_, if_neg hdirectory⟩

/-- A block with a version is not the end of the archive. -/
theorem isAllZeros_of_byte {i : Nat} (hi : i < headerSize) (hne : h i ≠ 0) :
    isAllZeros (h.load 0 headerSize) = false := by
  rw [isAllZeros, all_eq_false]
  refine ⟨h i, mem_map.mpr ⟨i, mem_range.mpr hi, by rw [Nat.zero_add]⟩, ?_⟩
  simpa using hne

/-- **A header that passes the tests is accepted.** -/
theorem parseHeader_of_accepted (hacc : Accepted h e) : parseHeader h = some (.ok e) := by
  have hzeros : isAllZeros (h.load 0 headerSize) = false :=
    isAllZeros_of_byte (show offsetof .version < headerSize by decide)
      (by rw [hacc.version₀]; decide)
  obtain ⟨name, hstrip, hname⟩ := hacc.name
  obtain ⟨fileName, type, size⟩ := e
  obtain rfl : fileName = some name := hname
  have htype := hacc.typeflag
  simp only [parseHeader, hzeros, Bool.false_eq_true, if_false, hacc.magic, some_bind, ne_eq,
    not_true_eq_false, hacc.version₀, hacc.version₁, or_self, hacc.chksum,
    hacc.name_end, hacc.namePrefix, hstrip]
  rcases hacc.kind with ⟨rfl, hsize, hle⟩ | ⟨rfl, rfl⟩
  · rw [show h (offsetof .typeflag) = ch '0' from htype, if_pos rfl, hsize]
    exact if_neg (Nat.not_lt.mpr hle)
  · rw [show h (offsetof .typeflag) = ch '5' from htype, if_neg (by decide), if_pos rfl]

end Parse

/-- **No accepted header names a path outside the destination.**  Every block is parsed without
a read outside it.  If it is accepted as a file or a directory, the name that is returned is
terminated, not empty, of at most 99 characters, does not begin with `/`, `./` or `../` and is
not `..`; the size is an `int`, 0 for a directory; and stripping reads the name in the header up
to its terminator only. -/
theorem accepted_names_stay_inside (h : Memory) :
    ∃ result, parseHeader h = some result ∧
      ∀ e, result = .ok e → e.type = .regular ∨ e.type = .directory →
        (∃ t rest, e.fileName = some (t ++ 0 :: rest) ∧ 0 ∉ t ∧ t ≠ [] ∧ t.length ≤ 99 ∧
          ¬[ch '/'] <+: t ∧ ¬[ch '.', ch '/'] <+: t ∧ ¬[ch '.', ch '.', ch '/'] <+: t ∧
          t ≠ [ch '.', ch '.']) ∧
        e.size ≤ 2147483647 ∧ (e.type = .directory → e.size = 0) ∧
        ∃ s rest, fieldPtr h .name = s ++ 0 :: rest ∧ 0 ∉ s ∧
          (stripAntisocialPrefixes (s ++ [0])).isSome := by
  rcases parseHeader_cases h with ⟨-, hparse⟩ | ⟨message, hparse⟩ | ⟨e, hparse, hacc⟩
  · refine ⟨_, hparse, ?_⟩
    rintro e ⟨⟩ htype
    exact absurd htype (by decide)
  · refine ⟨_, hparse, ?_⟩
    rintro e ⟨⟩
  · refine ⟨_, hparse, ?_⟩
    rintro e ⟨⟩ -
    obtain ⟨s, rest, hptr, hs, hlen⟩ := exists_name hacc.name_end
    obtain ⟨t, rest', hstrip, ht, hsoc, hsuffix⟩ := strip_append rest hs
    obtain ⟨name, hname, hfile⟩ := hacc.name
    have hlen' : t.length ≤ 99 := by
      rcases hsuffix with hsuffix | rfl
      · exact Nat.le_trans hsuffix.length_le hlen
      · decide
    rw [hptr, hstrip] at hname
    cases hname
    have hnot := hsoc.not_antisocial
    rw [Antisocial, not_or, not_or] at hnot
    refine ⟨⟨t, rest', hfile, ht, hsoc.ne_nil, hlen', hnot.1, hnot.2.1, hnot.2.2, hsoc.ne_dots⟩,
      ?_, ?_, s, rest, hptr, hs, ?_⟩
    · rcases hacc.kind with ⟨-, -, hle⟩ | ⟨-, hzero⟩
      · exact hle
      · omega
    · intro htype
      rcases hacc.kind with ⟨hregular, -⟩ | ⟨-, hzero⟩
      · exact absurd (hregular.symm.trans htype) (by decide)
      · exact hzero
    · obtain ⟨t', rest'', hstrip', -⟩ := strip_append [] hs
      rw [hstrip']
      rfl

/-! ## One byte changed -/

section Changed
variable {h h' : Memory} {i : Nat} {e : Entry}

section
variable (hsame : ∀ x, x ≠ i → h' x = h x)
include hsame

/-- A field that the changed byte is not in. -/
theorem field_changed {f : Field} (hi : i ∉ f.extent) :
    field h' f = field h f := by
  refine Memory.load_congr fun k hk => hsame _ ?_
  rintro rfl
  exact hi ⟨Nat.le_add_right _ k, Nat.add_lt_add_left hk _⟩

/-- **A change of one byte outside the checksum changes the sum.** -/
theorem calculateChksum_changed (hi : i < headerSize) (hfield : i ∉ Field.chksum.extent)
    (hne : h' i ≠ h i) :
    calculateChksum h' ≠ calculateChksum h := by
  have hmem : i ∈ Finset.range headerSize := Finset.mem_range.mpr hi
  have hrest : ∑ j ∈ (Finset.range headerSize).erase i, chksumByte h' j
      = ∑ j ∈ (Finset.range headerSize).erase i, chksumByte h j := by
    refine Finset.sum_congr rfl fun j hj => ?_
    rw [chksumByte, chksumByte, hsame j (Finset.ne_of_mem_erase hj)]
  have hnew : chksumByte h' i = (h' i).toNat := if_neg hfield
  have hold : chksumByte h i = (h i).toNat := if_neg hfield
  have hbyte : (h' i).toNat ≠ (h i).toNat := fun heq => hne (BitVec.eq_of_toNat_eq heq)
  rw [calculateChksum_eq_sum, calculateChksum_eq_sum, ← Finset.add_sum_erase _ _ hmem,
    ← Finset.add_sum_erase _ (chksumByte h) hmem, hrest, hnew, hold]
  omega

/-- The name behind a pointer, where only a byte behind the field has changed. -/
theorem fieldPtr_name_changed {t rest : List Byte} (hptr : fieldPtr h .name = t ++ 0 :: rest)
    (hlen : t.length ≤ 99) (hi : i ∉ Field.name.extent) :
    ∃ rest', fieldPtr h' .name = t ++ 0 :: rest' := by
  have hfield : field h .name = t ++ 0 :: rest.take (99 - t.length) := by
    have htake := congrArg (List.take 100) hptr
    rwa [fieldPtr, Memory.take_load, take_append, take_of_length_le (by omega),
      show 100 - t.length = 99 - t.length + 1 by omega, take_succ_cons] at htake
  have hsplit : fieldPtr h' .name = field h' .name ++ h'.load 100 412 := h'.load_add 0 100 412
  refine ⟨rest.take (99 - t.length) ++ h'.load 100 412, ?_⟩
  rw [hsplit, field_changed hsame hi, hfield, append_assoc, cons_append]

end

/-- **A well-formed header whose checksum has been changed and that is still accepted** says what
it said before. -/
theorem Accepted.of_changed_chksum {t : List Byte} {type : UstarType} {n : Nat}
    (hacc : Accepted h' e) (hsame : ∀ x, x ≠ i → h' x = h x) (hi : i ∈ Field.chksum.extent)
    (hform : WellFormed h t type n) (ht : 0 ∉ t) (hsoc : Sociable t) (hlen : t.length ≤ 99) :
    ∃ e', parseHeader h = some (.ok e') ∧ e'.type = e.type ∧ e'.size = e.size ∧
      e'.fileName.map string = e.fileName.map string := by
  have hapart : ∀ {f : Field}, f ≠ .chksum → i ∉ f.extent := fun hf => Field.apart hf.symm i hi
  have htypeflag : offsetof .typeflag ≠ i := by
    rintro rfl
    exact absurd hi (by decide)
  obtain ⟨rest, hptr⟩ := hform.name
  obtain ⟨rest', hptr'⟩ := fieldPtr_name_changed hsame hptr hlen (hapart (by decide))
  obtain ⟨name, hname, hfile⟩ := hacc.name
  rw [hptr', strip_sociable rest' ht hsoc] at hname
  cases hname
  obtain ⟨restm, hmagic⟩ := hform.magic
  have htype := hacc.typeflag
  have hkind := hacc.kind
  rw [hsame _ htypeflag] at htype
  rw [field_changed hsame (hapart (by decide))] at hkind
  refine ⟨⟨some (t ++ 0 :: rest), e.type, e.size⟩, parseHeader_of_accepted ⟨?_, hform.version₀,
    hform.version₁, hform.parseOctalField_chksum, hform.name_end, hform.namePrefix, htype, hkind,
    _, ?_, rfl⟩, rfl, rfl, ?_⟩
  · rw [hmagic]
    exact CString.memcmp_self (lit ['u', 's', 't', 'a', 'r']) restm []
  · rw [hptr, strip_sociable rest ht hsoc]
  · rw [hfile, Option.map_some, Option.map_some, CString.string_append ht, CString.string_append ht]

end Changed

/-- **A one-byte error is never misread.**  For every header that `ustar_make_header` makes and
every block that differs from it in one byte, parsing the block yields an error, or the name, the
type and the size that parsing the header yields. -/
theorem one_byte_error {fileName : CharPtr} (hname : 0 ∈ fileName) {type : UstarType}
    {size : BitVec 32} {header h : Memory}
    (hmake : makeHeader fileName type size header = some (.ok h)) {h' : Memory} {i : Nat}
    (hi : i < headerSize) (hsame : ∀ x, x ≠ i → h' x = h x) (hne : h' i ≠ h i) :
    (∃ message, parseHeader h' = some (.error message)) ∨
    ∃ e e', parseHeader h = some (.ok e) ∧ parseHeader h' = some (.ok e') ∧
      e'.fileName.map string = e.fileName.map string ∧ e'.type = e.type ∧ e'.size = e.size := by
  obtain ⟨t, ht, hsoc, hlen, hform⟩ := wellFormed_of_makeHeader hname hmake
  rcases parseHeader_cases h' with ⟨hzeros, -⟩ | herror | ⟨e', hparse, hacc⟩
  · -- one of the two bytes of the version is as it was
    obtain ⟨j, hj, hbyte⟩ : ∃ j, j < headerSize ∧ h' j ≠ 0 := by
      by_cases hij : i = offsetof .version
      · refine ⟨offsetof .version + 1, by decide, ?_⟩
        rw [hsame _ (by omega), hform.version₁]
        decide
      · refine ⟨offsetof .version, by decide, ?_⟩
        rw [hsame _ (Ne.symm hij), hform.version₀]
        decide
    rw [isAllZeros_of_byte hj hbyte] at hzeros
    cases hzeros
  · exact .inl herror
  · right
    by_cases hfield : i ∈ Field.chksum.extent
    · obtain ⟨e, hparse', htype, hsize, hstring⟩ :=
        hacc.of_changed_chksum hsame hfield hform ht hsoc hlen
      exact ⟨e, e', hparse', hparse, hstring.symm, htype.symm, hsize.symm⟩
    · have hsum := hacc.chksum
      rw [field_changed hsame hfield, hform.parseOctalField_chksum] at hsum
      exact absurd (Option.some.inj hsum).symm (calculateChksum_changed hsame hi hfield hne)

/-- The first digit of the checksum of a header, changed. -/
theorem one_byte_error_chksum :
    ∃ h, makeHeader (lit ['x']) .regular 1000 (fun _ => 255) = some (.ok h) ∧
      ∀ h' : Memory, (∀ x, x ≠ 148 → h' x = h x) → h' 148 ≠ h 148 →
        (∃ message, parseHeader h' = some (.error message)) ∨
        ∃ e e', parseHeader h = some (.ok e) ∧ parseHeader h' = some (.ok e') ∧
          e'.fileName.map string = e.fileName.map string ∧ e'.type = e.type ∧
          e'.size = e.size := by
  have hstrip : stripAntisocialPrefixes (lit ['x']) = some ([ch 'x'] ++ 0 :: []) := by decide
  have hmake : makeHeader (lit ['x']) .regular 1000 (fun _ => 255) = _ :=
    makeHeader_eq (fun _ => 255) hstrip (by decide) (by decide) (.inl rfl)
  exact ⟨_, hmake, fun h' hsame hne => one_byte_error (by decide) hmake (by decide) hsame hne⟩

end Ustar
end Pintos
