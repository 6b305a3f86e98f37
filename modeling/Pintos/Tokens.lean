import Pintos.CString

/-!
# Tokens

`strtok_r`.  It works in place: the delimiter behind a token is overwritten by a
terminator, and the next call goes on behind it.  A pointer into a buffer is an address
together with the end of the buffer; what it points to are the bytes from there to the end
(`ptr`).

**Call by call the tokens of the string come out** (`strtokR_cases`); what the save pointer
points to has not been changed, and nothing outside the buffer is.  For a single delimiter the
tokens are the pieces between delimiters that are not empty (`strtokR_spec`); for any set of
delimiters they are the maximal runs of other characters (`runs`, `IsRun`), and **the calls
return them in order, terminated in place, and then null pointers** (`strtokR_tokenizes`).
-/

namespace Pintos.CString
open List

/-- A `char *` into an object that ends at `limit`. -/
def ptr (m : Memory) (limit s : Nat) : CharPtr :=
  m.load s (limit - s)

/-! ## The code -/

/-- The first loop of `strtok_r`: how many delimiters there are, and whether the end of the
string follows. -/
def skipLoop (delimiters : CharPtr) : CharPtr → Nat → Option (Nat × Bool)
  | [], _ => none
  | c :: p, k => do
    match ← strchr delimiters c with
    | some _ => if c = 0 then some (k, true) else skipLoop delimiters p (k + 1)
    | none => some (k, false)

/-- The second loop of `strtok_r`: how long the token is. -/
def tokenLoop (delimiters : CharPtr) : CharPtr → Nat → Option Nat
  | [], _ => none
  | c :: p, k => do
    match ← strchr delimiters c with
    | none => tokenLoop delimiters p (k + 1)
    | some _ => some k

/-- `strtok_r`, from `s` on: the token, if any, and the save pointer. -/
def strtokR (m : Memory) (limit s : Nat) (delimiters : CharPtr) :
    Option (Memory × Option Nat × Nat) := do
  let (skipped, ended) ← skipLoop delimiters (ptr m limit s) 0
  let token := s + skipped
  if ended then
    some (m, none, token)
  else
    let e := token + (← tokenLoop delimiters (ptr m limit token) 0)
    if m e ≠ 0 then
      some (m.store e [0], some token, e + 1)
    else
      some (m, some token, e)

/-- So many calls of `strtok_r`, the first for the string at `s`, the others with a null pointer
and the save pointer of the call before: what they return. -/
def strtokCalls (delimiters : CharPtr) (limit : Nat) :
    Nat → Memory → Nat → Option (Memory × List (Option Nat))
  | 0, m, _ => some (m, [])
  | k + 1, m, s => do
    let (m, token, save) ← strtokR m limit s delimiters
    let (m, tokens) ← strtokCalls delimiters limit k m save
    some (m, token :: tokens)

/-! ## What the tokens are -/

/-- The tokens of a string: the pieces between delimiters that are not empty. -/
def tokens (d : Byte) (s : List Byte) : List (List Byte) :=
  (s.splitOn d).filter (· ≠ [])

section Tokens
variable {d : Byte} {s t : List Byte}

theorem tokens_nil : tokens d [] = [] := by
  simp [tokens]

theorem tokens_append_cons (ht : d ∉ t) (hne : t ≠ []) :
    tokens d (t ++ d :: s) = t :: tokens d s := by
  rw [tokens, splitOn_append_cons_self_of_not_mem ht,
    filter_cons_of_pos (by simpa using hne), ← tokens]

theorem tokens_cons_self : tokens d (d :: s) = tokens d s := by
  have hsplit : (d :: s).splitOn d = [] :: s.splitOn d :=
    splitOn_append_cons_self_of_not_mem not_mem_nil s
  rw [tokens, hsplit, filter_cons_of_neg (by simp), ← tokens]

theorem tokens_replicate_append (k : Nat) : tokens d (List.replicate k d ++ s) = tokens d s := by
  induction k with
  | zero => rfl
  | succ k ih => rw [replicate_succ, cons_append, tokens_cons_self, ih]

theorem tokens_of_notMem (ht : d ∉ t) (hne : t ≠ []) : tokens d t = [t] := by
  have hsplit : t.splitOn d = [t] := by
    refine splitOnP_eq_singleton fun c hc => ?_
    rw [beq_eq_false_iff_ne]
    rintro rfl
    exact ht hc
  rw [tokens, hsplit, filter_cons_of_pos (by simpa using hne), filter_nil]

end Tokens

/-! ## What a call does -/

section Strtok
variable {m : Memory} {limit s : Nat} {d c : Byte} {D rest junk : List Byte}

/-- The search among the delimiters. -/
theorem strchr_delimiters (junk : List Byte) (hD : 0 ∉ D) :
    (c ∈ D ∨ c = 0 → ∃ p, strchr (D ++ 0 :: junk) c = some (some p)) ∧
      (c ∉ D → c ≠ 0 → strchr (D ++ 0 :: junk) c = some none) := by
  induction D with
  | nil =>
    refine ⟨fun h => ?_, fun _ hc => ?_⟩
    · obtain rfl := h.resolve_left not_mem_nil
      exact ⟨0 :: junk, if_pos rfl⟩
    · rw [nil_append, strchr, if_neg (Ne.symm hc), if_pos rfl]
  | cons a D ih =>
    rw [mem_cons, not_or] at hD
    obtain ⟨hfound, hmissed⟩ := ih hD.2
    rw [cons_append, strchr]
    refine ⟨fun h => ?_, fun hc hc0 => ?_⟩
    · by_cases hac : a = c
      · exact ⟨_, if_pos hac⟩
      · rw [if_neg hac, if_neg (Ne.symm hD.1)]
        refine hfound (h.imp_left fun hc => ?_)
        exact (mem_cons.mp hc).resolve_left (Ne.symm hac)
    · rw [mem_cons, not_or] at hc
      rw [if_neg (Ne.symm hc.1), if_neg (Ne.symm hD.1)]
      exact hmissed hc.2 hc0

/-- The first loop. -/
theorem skipLoop_append (junk' junk : List Byte) (k : Nat) (hD : 0 ∉ D) (hrest : 0 ∉ rest) :
    ∃ a tail, skipLoop (D ++ 0 :: junk') (rest ++ 0 :: junk) k =
        some (k + a.length, decide (tail = [])) ∧
      rest = a ++ tail ∧ (∀ c ∈ a, c ∈ D) ∧ ∀ c, tail.head? = some c → c ∉ D := by
  induction rest generalizing k with
  | nil =>
    obtain ⟨p, hp⟩ := (strchr_delimiters (c := 0) junk' hD).1 (.inr rfl)
    refine ⟨[], [], by rw [nil_append, skipLoop, hp]; rfl, rfl, ?_, ?_⟩
    · exact forall_mem_nil _
    · exact fun c hc => absurd hc (by simp)
  | cons c rest ih =>
    rw [mem_cons, not_or] at hrest
    by_cases hc : c ∈ D
    · obtain ⟨p, hp⟩ := (strchr_delimiters junk' hD).1 (.inl hc)
      obtain ⟨a, tail, hcode, hsplit, ha, hhead⟩ := ih (k + 1) hrest.2
      refine ⟨c :: a, tail, ?_, by rw [hsplit]; rfl, forall_mem_cons.mpr ⟨hc, ha⟩, hhead⟩
      rw [cons_append, skipLoop, hp]
      simp only [some_bind, if_neg (Ne.symm hrest.1), hcode, length_cons, Nat.add_assoc,
        Nat.add_comm 1 a.length]
    · have hp := (strchr_delimiters junk' hD).2 hc (Ne.symm hrest.1)
      refine ⟨[], c :: rest, ?_, rfl, forall_mem_nil _, ?_⟩
      · rw [cons_append, skipLoop, hp]
        simp
      · rintro _ ⟨⟩
        exact hc

/-- The second loop. -/
theorem tokenLoop_append (junk' junk : List Byte) (k : Nat) (hD : 0 ∉ D) (hrest : 0 ∉ rest) :
    ∃ t, tokenLoop (D ++ 0 :: junk') (rest ++ 0 :: junk) k = some (k + t.length) ∧
      (∀ c ∈ t, c ∉ D) ∧ (rest = t ∨ ∃ d tail, d ∈ D ∧ rest = t ++ d :: tail) := by
  induction rest generalizing k with
  | nil =>
    obtain ⟨p, hp⟩ := (strchr_delimiters (c := 0) junk' hD).1 (.inr rfl)
    exact ⟨[], by rw [nil_append, tokenLoop, hp]; rfl,
      forall_mem_nil _, .inl rfl⟩
  | cons c rest ih =>
    rw [mem_cons, not_or] at hrest
    by_cases hc : c ∈ D
    · obtain ⟨p, hp⟩ := (strchr_delimiters junk' hD).1 (.inl hc)
      refine ⟨[], ?_, forall_mem_nil _, .inr ⟨c, rest, hc, rfl⟩⟩
      rw [cons_append, tokenLoop, hp]
      rfl
    · have hp := (strchr_delimiters junk' hD).2 hc (Ne.symm hrest.1)
      obtain ⟨t, hcode, ht, hsplit⟩ := ih (k + 1) hrest.2
      refine ⟨c :: t, ?_, forall_mem_cons.mpr ⟨hc, ht⟩, ?_⟩
      · rw [cons_append, tokenLoop, hp]
        simp only [some_bind, hcode, length_cons, Nat.add_assoc, Nat.add_comm 1 t.length]
      · rcases hsplit with rfl | ⟨d, tail, hd, rfl⟩
        · exact .inl rfl
        · exact .inr ⟨d, tail, hd, rfl⟩

/-- A pointer advanced over some bytes points to what follows them. -/
theorem ptr_add {a b : List Byte} (h : ptr m limit s = a ++ b) :
    ptr m limit (s + a.length) = b := by
  have hdrop := congrArg (List.drop a.length) h
  rwa [ptr, Memory.drop_load, drop_left, Nat.sub_sub] at hdrop

theorem ptr_head {b : List Byte} (h : ptr m limit s = c :: b) : m s = c ∧ s < limit := by
  have hlen := congrArg List.length h
  rw [ptr, Memory.length_load, length_cons] at hlen
  have hsplit : limit - s = 1 + (limit - s - 1) := by omega
  rw [ptr, hsplit, Memory.load_add, Memory.load_one, singleton_append, List.cons.injEq] at h
  exact ⟨h.1, by omega⟩

theorem notMem_singleton_extent {x e : Nat} (byte : Byte) (h : x ≠ e) :
    x ∉ (⟨e, [byte].length⟩ : Extent) := by
  rw [Extent.mem_iff]
  simp only [length_singleton]
  omega

/-- A write before a pointer leaves what it points to. -/
theorem ptr_store_of_lt {e : Nat} (byte : Byte) (he : e < s) :
    ptr (m.store e [byte]) limit s = ptr m limit s := by
  refine Memory.load_congr fun k _ => Memory.store_of_notMem (notMem_singleton_extent byte ?_)
  omega

/-- A byte in a string is overwritten by a terminator. -/
theorem ptr_terminate {t b : List Byte} (h : ptr m limit s = t ++ c :: b) :
    ptr (m.store (s + t.length) [0]) limit s = t ++ 0 :: b := by
  obtain ⟨-, hlt⟩ := ptr_head (ptr_add h)
  have hbehind : ptr m limit (s + t.length + 1) = b := ptr_add (a := [c]) (ptr_add h)
  have hsplit : limit - s = t.length + (1 + (limit - (s + t.length + 1))) := by omega
  rw [ptr, hsplit, Memory.load_add] at h
  have hbefore := append_inj_left h (Memory.length_load m s t.length)
  have hkeep : (m.store (s + t.length) [0]).load s t.length = m.load s t.length := by
    refine Memory.load_congr fun k hk => Memory.store_of_notMem (notMem_singleton_extent 0 ?_)
    omega
  have hzero : (m.store (s + t.length) [0]).load (s + t.length) 1 = [0] :=
    Memory.load_store m (s + t.length) [0]
  have hrest : ptr (m.store (s + t.length) [0]) limit (s + t.length + 1)
      = ptr m limit (s + t.length + 1) := ptr_store_of_lt 0 (Nat.lt_succ_self (s + t.length))
  rw [ptr] at hrest
  rw [ptr, hsplit, Memory.load_add, Memory.load_add, hkeep, hbefore, hzero, hrest, hbehind]
  rfl

/-- **One call.**  The string is delimiters only, and there are no more tokens; or behind
delimiters there is a token, up to the end of the string, or up to a delimiter that is
overwritten by a terminator. -/
theorem strtokR_cases (junk' : List Byte) (hD : 0 ∉ D) (hs : ptr m limit s = rest ++ 0 :: junk)
    (hrest : 0 ∉ rest) :
    ((∀ c ∈ rest, c ∈ D) ∧
      strtokR m limit s (D ++ 0 :: junk') = some (m, none, s + rest.length)) ∨
    ∃ a t, (∀ c ∈ a, c ∈ D) ∧ t ≠ [] ∧ (∀ c ∈ t, c ∉ D) ∧
      (rest = a ++ t ∧ strtokR m limit s (D ++ 0 :: junk') =
          some (m, some (s + a.length), s + rest.length) ∨
        ∃ d tail, d ∈ D ∧ rest = a ++ (t ++ d :: tail) ∧ strtokR m limit s (D ++ 0 :: junk') =
          some (m.store (s + a.length + t.length) [0], some (s + a.length),
            s + a.length + t.length + 1)) := by
  obtain ⟨a, tail, hskip, rfl, ha, hhead⟩ := skipLoop_append junk' junk 0 hD hrest
  rw [Nat.zero_add] at hskip
  by_cases htail : tail = []
  · subst htail
    rw [append_nil] at hs hskip ⊢
    refine .inl ⟨ha, ?_⟩
    rw [strtokR, hs, hskip]
    rfl
  · have hzero : 0 ∉ tail := fun h => hrest (mem_append_right _ h)
    have htoken : ptr m limit (s + a.length) = tail ++ 0 :: junk := by
      rw [append_assoc] at hs
      exact ptr_add hs
    obtain ⟨t, hcode, ht, hsplit⟩ := tokenLoop_append junk' junk 0 hD hzero
    rw [Nat.zero_add] at hcode
    have hne : t ≠ [] := by
      rintro rfl
      rcases hsplit with h | ⟨d, tail', hd, h⟩
      · exact htail h
      · exact hhead d (by rw [h]; rfl) hd
    have hstrtok : strtokR m limit s (D ++ 0 :: junk') = if m (s + a.length + t.length) ≠ 0 then
        some (m.store (s + a.length + t.length) [0], some (s + a.length), s + a.length + t.length + 1)
        else some (m, some (s + a.length), s + a.length + t.length) := by
      simp only [strtokR, hs, hskip, htail, decide_false, Bool.false_eq_true, if_false, htoken,
        hcode, some_bind]
    refine .inr ⟨a, t, ha, hne, ht, ?_⟩
    rw [hstrtok]
    rcases hsplit with rfl | ⟨d, tail', hd, rfl⟩
    · -- the token ends with the string
      rw [if_neg (not_not.mpr (ptr_head (ptr_add htoken)).1), length_append, Nat.add_assoc]
      exact .inl ⟨rfl, rfl⟩
    · rw [append_assoc, cons_append] at htoken
      have hbyte := (ptr_head (ptr_add htoken)).1
      rw [if_pos (by rw [hbyte]; exact fun h => hD (h ▸ hd))]
      exact .inr ⟨d, tail', hd, rfl, rfl⟩

/-- A call for a single delimiter, in terms of the tokens.  What follows the save pointer has
not been changed. -/
theorem strtokR_spec (hd : d ≠ 0) (hs : ptr m limit s = rest ++ 0 :: junk) (hrest : 0 ∉ rest) :
    (tokens d rest = [] ∧ ∃ save, strtokR m limit s [d, 0] = some (m, none, save)) ∨
    ∃ t tail junk' m' token save, strtokR m limit s [d, 0] = some (m', some token, save) ∧
      tokens d rest = t :: tokens d tail ∧ t ≠ [] ∧ 0 ∉ tail ∧ s ≤ token ∧
      ptr m' limit token = t ++ 0 :: junk' ∧ ptr m' limit save = tail ++ 0 :: junk ∧
      s ≤ save ∧ ∀ x, x < s ∨ limit ≤ x → m' x = m x := by
  have hD : (0 : Byte) ∉ [d] := by simpa using Ne.symm hd
  have hall : ∀ {a : List Byte}, (∀ c ∈ a, c ∈ [d]) → a = List.replicate a.length d := fun ha =>
    eq_replicate_iff.mpr ⟨rfl, fun c hc => mem_singleton.mp (ha c hc)⟩
  rcases strtokR_cases [] hD hs hrest with ⟨ha, hcode⟩ | ⟨a, t, ha, hne, ht, hend⟩
  · refine .inl ⟨?_, _, hcode⟩
    rw [hall ha, ← append_nil (List.replicate _ _), tokens_replicate_append, tokens_nil]
  · have htd : d ∉ t := fun h => ht d h (mem_singleton_self d)
    right
    rcases hend with ⟨rfl, hcode⟩ | ⟨d', tail, hd', rfl, hcode⟩
    · rw [append_assoc] at hs
      refine ⟨t, [], junk, m, _, _, hcode, ?_, hne, not_mem_nil, by omega, ptr_add hs, ?_,
        by omega, fun _ _ => rfl⟩
      · rw [hall ha, tokens_replicate_append, tokens_of_notMem htd hne, tokens_nil]
      · rw [length_append, ← Nat.add_assoc]
        exact ptr_add (ptr_add hs)
    · obtain rfl := mem_singleton.mp hd'
      rw [append_assoc, append_assoc, cons_append] at hs
      have htoken := ptr_add hs
      have hbehind := ptr_add htoken
      have hlt := (ptr_head hbehind).2
      refine ⟨t, tail, tail ++ 0 :: junk, _, _, _, hcode, ?_, hne, fun h => hrest ?_, by omega,
        ptr_terminate htoken, ?_, by omega, fun x hx => ?_⟩
      · rw [hall ha, tokens_replicate_append, tokens_append_cons htd hne]
      · exact mem_append_right _ (mem_append_right _ (mem_cons_of_mem _ h))
      · rw [ptr_store_of_lt 0 (by omega)]
        exact ptr_add (a := [d']) hbehind
      · exact Memory.store_of_notMem (notMem_singleton_extent 0 (by omega))

end Strtok

/-! ## Runs of characters -/

/-- The maximal runs of characters that are not delimiters, each with its address.  One begins
where the character before is a delimiter, and reaches to the next delimiter. -/
def runs (D : List Byte) : Bool → Nat → List Byte → List (Nat × List Byte)
  | _, _, [] => []
  | begins, s, c :: str =>
    if c ∈ D then runs D true (s + 1) str
    else if begins then (s, (c :: str).takeWhile (· ∉ D)) :: runs D false (s + 1) str
    else runs D false (s + 1) str

/-- **A maximal run** of characters that are not delimiters, in a string at the address `s`. -/
def IsRun (D : List Byte) (s : Nat) (str : List Byte) (i : Nat) (t : List Byte) : Prop :=
  ∃ a b, str = a ++ (t ++ b) ∧ i = s + a.length ∧ t ≠ [] ∧ (∀ c ∈ t, c ∉ D) ∧
    (∀ c, a.getLast? = some c → c ∈ D) ∧ ∀ c, b.head? = some c → c ∈ D

section Runs
variable {D str t : List Byte} {s i : Nat} {begins : Bool}

theorem runs_skip {a : List Byte} (ha : ∀ c ∈ a, c ∈ D) (s : Nat) (str : List Byte) :
    runs D true s (a ++ str) = runs D true (s + a.length) str := by
  induction a generalizing s with
  | nil => rfl
  | cons c a ih =>
    obtain ⟨hc, ha⟩ := forall_mem_cons.mp ha
    rw [cons_append, runs, if_pos hc, ih ha, length_cons, Nat.add_assoc,
      Nat.add_comm 1]

theorem runs_inside (ht : ∀ c ∈ t, c ∉ D) (s : Nat) (str : List Byte) :
    runs D false s (t ++ str) = runs D false (s + t.length) str := by
  induction t generalizing s with
  | nil => rfl
  | cons c t ih =>
    obtain ⟨hc, ht⟩ := forall_mem_cons.mp ht
    rw [cons_append, runs, if_neg hc, if_neg Bool.false_ne_true, ih ht, length_cons,
      Nat.add_assoc, Nat.add_comm 1]

/-- What `takeWhile` finds of a run. -/
theorem takeWhile_run {b : List Byte} (ht : ∀ c ∈ t, c ∉ D) (hb : ∀ c, b.head? = some c → c ∈ D) :
    (t ++ b).takeWhile (· ∉ D) = t := by
  rw [takeWhile_append_of_pos fun c hc => decide_eq_true (ht c hc)]
  cases b with
  | nil => rw [takeWhile_nil, append_nil]
  | cons c b => rw [takeWhile_cons_of_neg (by simpa using hb c rfl), append_nil]

/-- The first run of a string that begins with it. -/
theorem runs_token {b : List Byte} (hne : t ≠ []) (ht : ∀ c ∈ t, c ∉ D)
    (hb : ∀ c, b.head? = some c → c ∈ D) (s : Nat) :
    runs D true s (t ++ b) = (s, t) :: runs D false (s + t.length) b := by
  cases t with
  | nil => exact absurd rfl hne
  | cons c t =>
    obtain ⟨hc, ht'⟩ := forall_mem_cons.mp ht
    have htake := takeWhile_run ht hb
    rw [cons_append] at htake
    rw [cons_append, runs, if_neg hc, if_pos rfl, htake, runs_inside ht', length_cons,
      Nat.add_assoc, Nat.add_comm 1]

theorem getLast_cons_delimiter {a : List Byte} {c : Byte} :
    (∀ x, (c :: a).getLast? = some x → x ∈ D) ↔
      (a = [] → c ∈ D) ∧ ∀ x, a.getLast? = some x → x ∈ D := by
  cases a with
  | nil => simp
  | cons y a => simp [getLast?_cons_cons]

/-- What is in the list of runs: the runs of the string, one at its beginning only where a run
may begin. -/
theorem mem_runs_iff : (i, t) ∈ runs D begins s str ↔
    ∃ a b, str = a ++ (t ++ b) ∧ i = s + a.length ∧ t ≠ [] ∧ (∀ c ∈ t, c ∉ D) ∧
      (a = [] → begins = true) ∧ (∀ c, a.getLast? = some c → c ∈ D) ∧
      ∀ c, b.head? = some c → c ∈ D := by
  induction str generalizing begins s with
  | nil =>
    refine ⟨fun h => absurd h not_mem_nil, ?_⟩
    rintro ⟨a, b, h, -, hne, -⟩
    exact absurd (append_eq_nil_iff.mp (append_eq_nil_iff.mp h.symm).2).1 hne
  | cons c str ih =>
    -- the runs further on are those of the string without `c`
    have hshift : (i, t) ∈ runs D (decide (c ∈ D)) (s + 1) str ↔
        ∃ a b, c :: str = (c :: a) ++ (t ++ b) ∧ i = s + (c :: a).length ∧ t ≠ [] ∧
          (∀ c ∈ t, c ∉ D) ∧ (∀ x, (c :: a).getLast? = some x → x ∈ D) ∧
          ∀ c, b.head? = some c → c ∈ D := by
      simp only [ih, getLast_cons_delimiter, cons_append, List.cons.injEq, true_and,
        length_cons, decide_eq_true_eq, and_assoc, Nat.add_assoc, Nat.add_comm 1]
    constructor
    · intro h
      by_cases hfirst : c ∉ D ∧ begins = true ∧ (i, t) = (s, (c :: str).takeWhile (· ∉ D))
      · obtain ⟨hc, hbegins, hrun⟩ := hfirst
        obtain ⟨rfl, rfl⟩ := Prod.mk.inj hrun
        refine ⟨[], (c :: str).dropWhile (· ∉ D), ?_, rfl, ?_, ?_, fun _ => hbegins, ?_, ?_⟩
        · exact takeWhile_append_dropWhile.symm
        · rw [takeWhile_cons_of_pos (by simpa using hc)]
          exact cons_ne_nil _ _
        · exact fun x hx => of_decide_eq_true (all_eq_true.mp all_takeWhile x hx)
        · exact fun x hx => absurd hx (by simp)
        · intro x hx
          have := head?_dropWhile_not (fun x => decide (x ∉ D)) (c :: str)
          rw [hx] at this
          simpa using this
      · have hmem : (i, t) ∈ runs D (decide (c ∈ D)) (s + 1) str := by
          rw [runs] at h
          split_ifs at h with hc hbegins
          · rwa [decide_eq_true hc]
          · rw [decide_eq_false hc]
            exact (mem_cons.mp h).resolve_left fun h' => hfirst ⟨hc, hbegins, h'⟩
          · rwa [decide_eq_false hc]
        obtain ⟨a, b, hsplit, hi, hne, ht, ha, hb⟩ := hshift.mp hmem
        exact ⟨c :: a, b, hsplit, hi, hne, ht, fun h => absurd h (cons_ne_nil _ _), ha, hb⟩
    · rintro ⟨a, b, hsplit, hi, hne, ht, hbegins, ha, hb⟩
      cases a with
      | nil =>
        rw [nil_append] at hsplit
        rw [hsplit, hbegins rfl, runs_token hne ht hb, hi]
        exact mem_cons_self
      | cons x a =>
        obtain ⟨rfl, hstr⟩ := List.cons.inj hsplit
        have hmem := hshift.mpr ⟨a, b, hsplit, hi, hne, ht, ha, hb⟩
        rw [runs]
        split_ifs with hc hbegins
        · rwa [decide_eq_true hc] at hmem
        · rw [decide_eq_false hc] at hmem
          exact mem_cons_of_mem _ hmem
        · rwa [decide_eq_false hc] at hmem

/-- **The runs are the maximal runs.** -/
theorem mem_runs : (i, t) ∈ runs D true s str ↔ IsRun D s str i t := by
  rw [mem_runs_iff]
  simp only [IsRun, implies_true, true_and]

theorem le_of_mem_runs (h : (i, t) ∈ runs D begins s str) : s ≤ i := by
  obtain ⟨a, -, -, rfl, -⟩ := mem_runs_iff.mp h
  exact Nat.le_add_right s a.length

/-- The runs are in the order of their addresses. -/
theorem pairwise_runs :
    (runs D begins s str).Pairwise fun (r r' : Nat × List Byte) => r.1 < r'.1 := by
  induction str generalizing begins s with
  | nil => exact List.Pairwise.nil
  | cons c str ih =>
    rw [runs]
    split_ifs
    · exact ih
    · exact pairwise_cons.mpr ⟨fun r hr => le_of_mem_runs hr, ih⟩
    · exact ih

end Runs

/-! ## Whole runs of calls -/

section Calls
variable {m : Memory} {limit s : Nat} {D rest junk : List Byte}

/-- What a pointer points to, read. -/
theorem load_of_ptr {t b : List Byte} (h : ptr m limit s = t ++ b) : m.load s t.length = t := by
  have hlen := congrArg List.length h
  rw [ptr, Memory.length_load, length_append] at hlen
  rw [ptr] at h
  have := congrArg (List.take t.length) h
  rwa [Memory.take_load, take_left, Nat.min_eq_left (by omega)] at this

theorem map_range_succ {α : Type*} (f : Nat → α) (k : Nat) :
    (List.range (k + 1)).map f = f 0 :: (List.range k).map fun j => f (j + 1) := by
  rw [range_succ_eq_map, map_cons, map_map]
  rfl

theorem map_range_const {α : Type*} (x : α) (k : Nat) :
    (List.range k).map (fun _ => x) = List.replicate k x := by
  rw [map_const', length_range]

/-- Calls at the end of the string return null pointers and change nothing. -/
theorem strtokCalls_end (junk' : List Byte) (hD : 0 ∉ D) (k : Nat) (hs : ptr m limit s = 0 :: junk) :
    strtokCalls (D ++ 0 :: junk') limit k m s = some (m, List.replicate k none) := by
  induction k with
  | zero => rfl
  | succ k ih =>
    have hcode : strtokR m limit s (D ++ 0 :: junk') = some (m, none, s) := by
      have hs' : ptr m limit s = [] ++ 0 :: junk := hs
      rcases strtokR_cases junk' hD hs' not_mem_nil with
        ⟨-, hcode⟩ | ⟨a, t, -, hne, -, ⟨h, -⟩ | ⟨d, tail, -, h, -⟩⟩
      · exact hcode
      · exact absurd (append_eq_nil_iff.mp h.symm).2 hne
      · exact absurd (append_eq_nil_iff.mp (append_eq_nil_iff.mp h.symm).2).1 hne
    simp only [strtokCalls, hcode, ih, some_bind]
    rfl

/-- What is written behind a string leaves it readable. -/
theorem load_of_unchanged (m' : Memory) {t b : List Byte} (h : ptr m limit s = t ++ b)
    (hsame : ∀ x, x < s + t.length → m' x = m x) : m'.load s t.length = t := by
  rw [Memory.load_congr fun k hk => hsame (s + k) (Nat.add_lt_add_left hk s), load_of_ptr h]

/-- **What so many calls do.** -/
theorem strtokCalls_spec (junk' : List Byte) (hD : 0 ∉ D) (k : Nat)
    (hs : ptr m limit s = rest ++ 0 :: junk) (hrest : 0 ∉ rest) :
    ∃ m', strtokCalls (D ++ 0 :: junk') limit k m s =
        some (m', (List.range k).map fun j => (runs D true s rest)[j]?.map Prod.fst) ∧
      (∀ r ∈ (runs D true s rest).take k, m'.load r.1 (r.2.length + 1) = r.2 ++ [0]) ∧
      ∀ x, m' x = m x ∨ s ≤ x ∧ x < s + rest.length ∧ m x ∈ D ∧ m' x = 0 := by
  -- on the number of calls: each takes the first run off
  induction k generalizing m s rest with
  | zero =>
    exact ⟨m, rfl, fun r hr => absurd hr (by simp), fun x => .inl rfl⟩
  | succ k ih =>
    rcases strtokR_cases junk' hD hs hrest with ⟨ha, hcode⟩ | ⟨a, t, ha, hne, ht, hend⟩
    · have hruns : runs D true s rest = [] := by
        rw [← append_nil rest, runs_skip ha, runs]
      refine ⟨m, ?_, fun r hr => absurd hr (by simp [hruns]), fun x => .inl rfl⟩
      simp only [strtokCalls, hcode, strtokCalls_end junk' hD k (ptr_add hs), some_bind, hruns,
        map_range_succ, getElem?_nil, Option.map_none, map_range_const]
    · rcases hend with ⟨rfl, hcode⟩ | ⟨d, tail, hd, rfl, hcode⟩
      · -- the last token
        have hruns : runs D true s (a ++ t) = [(s + a.length, t)] := by
          rw [← append_nil t, runs_skip ha, runs_token hne ht (fun c hc => absurd hc (by simp)),
            runs, append_nil]
        have hlast := ptr_add hs
        rw [append_assoc] at hs
        refine ⟨m, ?_, fun r hr => ?_, fun x => .inl rfl⟩
        · simp only [strtokCalls, hcode, strtokCalls_end junk' hD k hlast, some_bind, hruns,
            map_range_succ, getElem?_cons_zero, Option.map_some,
            getElem?_cons_succ, getElem?_nil, Option.map_none, map_range_const]
        · rw [hruns, take_succ_cons, take_nil, mem_singleton] at hr
          subst hr
          have htoken : ptr m limit (s + a.length) = (t ++ [0]) ++ junk := by
            rw [append_assoc]
            exact ptr_add hs
          have := load_of_ptr htoken
          rwa [length_append] at this
      · rw [append_assoc, append_assoc, cons_append] at hs
        have htoken := ptr_add hs
        have hbehind := ptr_add htoken
        have hterminated : ptr (m.store (s + a.length + t.length) [0]) limit (s + a.length) =
            (t ++ [0]) ++ (tail ++ 0 :: junk) := by
          rw [append_assoc]
          exact ptr_terminate htoken
        have htail : ptr (m.store (s + a.length + t.length) [0]) limit
            (s + a.length + t.length + 1) = tail ++ 0 :: junk := by
          rw [ptr_store_of_lt 0 (by omega)]
          exact ptr_add (a := [d]) hbehind
        have hzero : 0 ∉ tail := fun h => hrest (mem_append_right _ (mem_append_right _
          (mem_cons_of_mem _ h)))
        have hhead : ∀ c, (d :: tail).head? = some c → c ∈ D := fun c hc => Option.some.inj hc ▸ hd
        have hruns : runs D true s (a ++ (t ++ d :: tail)) =
            (s + a.length, t) :: runs D true (s + a.length + t.length + 1) tail := by
          rw [runs_skip ha, runs_token hne ht hhead, runs, if_pos hd]
        obtain ⟨m', hcalls, hloads, hchanged⟩ := ih htail hzero
        refine ⟨m', ?_, fun r hr => ?_, fun x => ?_⟩
        · simp only [strtokCalls, hcode, hcalls, some_bind, hruns, map_range_succ,
            getElem?_cons_zero, Option.map_some, getElem?_cons_succ]
        · rw [hruns, take_succ_cons, mem_cons] at hr
          rcases hr with rfl | hr
          · have := load_of_unchanged m' hterminated fun x hx => ?_
            · rwa [length_append] at this
            · rw [length_append, length_singleton] at hx
              exact (hchanged x).resolve_right fun h => by omega
          · exact hloads r hr
        · by_cases hx : x = s + a.length + t.length
          · -- the delimiter behind the token
            subst hx
            refine .inr ⟨by omega, ?_, (ptr_head hbehind).1 ▸ hd, ?_⟩
            · rw [length_append, length_append, length_cons]
              omega
            · rw [(hchanged _).resolve_right fun h => by omega]
              exact (ptr_head (ptr_add (ptr_terminate htoken))).1
          · have hsame : m.store (s + a.length + t.length) [0] x = m x :=
              Memory.store_of_notMem (notMem_singleton_extent 0 hx)
            rw [← hsame]
            refine (hchanged x).imp_right fun h => ⟨by omega, ?_, h.2.2⟩
            rw [length_append, length_append, length_cons]
            omega

/-- **The calls split the string.**  For every string, every set of delimiters and every number
of calls, call number `j` returns the address of run number `j`, or a null pointer when there are
no more.  The runs are the maximal runs of characters that are not delimiters, in order; each is
terminated in place.  The buffer of the calls ends with the terminator of the string: no byte
outside is read, and a byte that changes is a delimiter of the string, overwritten by 0. -/
theorem strtokR_tokenizes (D str : List Byte) (hD : 0 ∉ D) (hstr : 0 ∉ str) (m : Memory) (s : Nat)
    (hs : m.load s (str.length + 1) = str ++ [0]) (k : Nat) :
    (∀ i t, (i, t) ∈ runs D true s str ↔ IsRun D s str i t) ∧
    (runs D true s str).Pairwise (fun (r r' : Nat × List Byte) => r.1 < r'.1) ∧
    ∃ m', strtokCalls (D ++ [0]) (s + str.length + 1) k m s =
        some (m', (List.range k).map fun j => (runs D true s str)[j]?.map Prod.fst) ∧
      (∀ r ∈ (runs D true s str).take k, m'.load r.1 (r.2.length + 1) = r.2 ++ [0]) ∧
      ∀ x, m' x = m x ∨ s ≤ x ∧ x < s + str.length ∧ m x ∈ D ∧ m' x = 0 := by
  have hptr : ptr m (s + str.length + 1) s = str ++ [0] := by
    rw [ptr, Nat.add_assoc, Nat.add_sub_cancel_left, hs]
  exact ⟨fun i t => mem_runs, pairwise_runs, strtokCalls_spec [] hD k hptr hstr⟩

/-- Two words behind a blank, with a blank and a tab between them, and three calls. -/
theorem strtokR_tokenizes_words :
    let str : List Byte := [32, 97, 98, 32, 9, 99]
    let m : Memory := Memory.store (fun _ => 7) 10 (str ++ [0])
    runs [9, 32] true 10 str = [(11, [97, 98]), (15, [99])] ∧
    ∃ m', strtokCalls [9, 32, 0] 17 3 m 10 = some (m', [some 11, some 15, none]) ∧
      m'.load 11 3 = [97, 98, 0] ∧ m'.load 15 2 = [99, 0] := by
  intro str m
  have hruns : runs [9, 32] true 10 str = [(11, [97, 98]), (15, [99])] := by decide
  obtain ⟨-, -, m', hcalls, hloads, -⟩ := strtokR_tokenizes [9, 32] str (by decide) (by decide) m 10
    (by decide) 3
  rw [hruns] at hcalls hloads
  exact ⟨hruns, m', hcalls, hloads (11, [97, 98]) (by decide), hloads (15, [99]) (by decide)⟩

end Calls

end Pintos.CString
