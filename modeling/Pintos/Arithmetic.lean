import Mathlib.Tactic.Ring
import Pintos.Basic

/-!
# Division of 64-bit integers

`lib/arithmetic.c`.  The machine has an instruction that divides 64 bits by 32 bits to a
quotient of 32 bits, and traps if the quotient has more (`divl`, where `none` is the trap).
`udiv64` makes 64-bit division of it.  A divisor of 32 bits takes two steps of long
division.  For a larger divisor the quotient is estimated: the divisor is shifted until its
highest bit is set, its upper half divides half of the dividend, and the result is shifted
back.  **The estimate is the quotient or one more** (`estimate_spec`), and the last line
corrects it.

**The quotients are exact and no division traps** (`quotient_exact`).  `umod64` and `smod64`
compute the remainder from the quotient, but return only 32 bits of it, so that **a
remainder is right if and only if it fits into these** (`remainder_exact_iff`).
-/

namespace Pintos.Arithmetic

/-! ## The code -/

/-- `divl`.  The instruction traps on a divisor 0 and on a quotient of more than 32 bits. -/
def divl (n : BitVec 64) (d : BitVec 32) : Option (BitVec 32) := do
  assert (d ≠ 0 ∧ n.toNat / d.toNat < 4294967296)
  some (BitVec.ofNat 32 (n.toNat / d.toNat))

/-- One test of `nlz`: if the upper `k` bits are 0, they are counted and shifted out. -/
def nlzStep (k : Nat) (limit : BitVec 32) (r : Nat × BitVec 32) : Nat × BitVec 32 :=
  if r.2 ≤ limit then (r.1 + k, r.2 <<< k) else r

/-- `nlz`. -/
def nlz (x : BitVec 32) : Nat :=
  let r := nlzStep 16 0x0000ffff (0, x)
  let r := nlzStep 8 0x00ffffff r
  let r := nlzStep 4 0x0fffffff r
  let r := nlzStep 2 0x3fffffff r
  (nlzStep 1 0x7fffffff r).1

/-- `udiv64`. -/
def udiv64 (n d : BitVec 64) : Option (BitVec 64) :=
  if d >>> 32 = 0 then do
    let b : BitVec 64 := 1 <<< 32
    let n1 : BitVec 32 := (n >>> 32).setWidth 32
    let n0 : BitVec 32 := n.setWidth 32
    let d0 : BitVec 32 := d.setWidth 32
    let q ← divl (b * (n1 % d0).setWidth 64 + n0.setWidth 64) d0
    some (q.setWidth 64 + b * (n1 / d0).setWidth 64)
  else if n < d then
    some 0
  else do
    let d1 : BitVec 32 := (d >>> 32).setWidth 32
    let s := nlz d1
    let q ← divl (n >>> 1) (((d <<< s) >>> 32).setWidth 32)
    let q : BitVec 64 := (q >>> (31 - s)).setWidth 64
    some (if n - (q - 1) * d < d then q - 1 else q)

/-- `umod64`, which returns an `uint32_t`. -/
def umod64 (n d : BitVec 64) : Option (BitVec 32) := do
  some ((n - d * (← udiv64 n d)).setWidth 32)

/-- The absolute value, as an unsigned number. -/
def abs64 (n : BitVec 64) : BitVec 64 :=
  if 0 ≤ n.toInt then n else -n

/-- `sdiv64`. -/
def sdiv64 (n d : BitVec 64) : Option (BitVec 64) := do
  let q ← udiv64 (abs64 n) (abs64 d)
  some (if (n.toInt < 0) = (d.toInt < 0) then q else -q)

/-- `smod64`, which returns an `int32_t`. -/
def smod64 (n d : BitVec 64) : Option (BitVec 32) := do
  some ((n - d * (← sdiv64 n d)).setWidth 32)

/-- `__divdi3`. -/
def divdi3 (n d : BitVec 64) : Option (BitVec 64) :=
  sdiv64 n d

/-- `__moddi3`. -/
def moddi3 (n d : BitVec 64) : Option (BitVec 64) := do
  some ((← smod64 n d).signExtend 64)

/-- `__udivdi3`. -/
def udivdi3 (n d : BitVec 64) : Option (BitVec 64) :=
  udiv64 n d

/-- `__umoddi3`. -/
def umoddi3 (n d : BitVec 64) : Option (BitVec 64) := do
  some ((← umod64 n d).setWidth 64)

/-! ## Leading zeros -/

/-- `x` has been shifted by `r.1` bits without losing one, and has more than `lo` bits now. -/
structure Shifted (x : BitVec 32) (lo : Nat) (r : Nat × BitVec 32) : Prop where
  value : r.2.toNat = x.toNat * 2 ^ r.1
  le : 2 ^ lo ≤ r.2.toNat

/-- One test: `k` bits more. -/
theorem Shifted.step {x : BitVec 32} {lo : Nat} {r : Nat × BitVec 32} (h : Shifted x lo r) (k : Nat)
    (limit : BitVec 32) (hk : lo + 2 * k = 32) (hlimit : limit.toNat = 2 ^ (lo + k) - 1) :
    Shifted x (lo + k) (nlzStep k limit r) := by
  have hpos := Nat.two_pow_pos (lo + k)
  rw [nlzStep]
  split
  · rename_i hle
    have hlt : r.2.toNat < 2 ^ (lo + k) := by
      have hle' : r.2.toNat ≤ limit.toNat := hle
      omega
    have hwidth : 2 ^ (lo + k) * 2 ^ k = 2 ^ 32 := by
      rw [← Nat.pow_add, ← hk]
      congr 1
      omega
    have hbound : r.2.toNat * 2 ^ k < 2 ^ 32 :=
      hwidth ▸ Nat.mul_lt_mul_of_pos_right hlt (Nat.two_pow_pos k)
    have hshift : (r.2 <<< k).toNat = r.2.toNat * 2 ^ k := by
      rw [BitVec.toNat_shiftLeft, Nat.shiftLeft_eq, Nat.mod_eq_of_lt hbound]
    refine ⟨?_, ?_⟩
    · change (r.2 <<< k).toNat = x.toNat * 2 ^ (r.1 + k)
      rw [hshift, h.value, Nat.pow_add, Nat.mul_assoc]
    · change 2 ^ (lo + k) ≤ (r.2 <<< k).toNat
      rw [hshift, Nat.pow_add]
      exact Nat.mul_le_mul_right _ h.le
  · rename_i hgt
    have hgt' : limit.toNat < r.2.toNat := BitVec.not_le.mp hgt
    exact ⟨h.value, by omega⟩

/-- **`nlz`** counts the zeros above the highest bit. -/
theorem nlz_spec {x : BitVec 32} (hx : x ≠ 0) :
    nlz x ≤ 31 ∧ 2 ^ 31 ≤ x.toNat * 2 ^ nlz x ∧ x.toNat * 2 ^ nlz x < 2 ^ 32 := by
  have hpos : 0 < x.toNat := Nat.pos_of_ne_zero fun h => hx (BitVec.eq_of_toNat_eq h)
  have h₀ : Shifted x 0 (0, x) := ⟨(Nat.mul_one _).symm, hpos⟩
  have h₁ := h₀.step 16 0x0000ffff rfl rfl
  have h₂ := h₁.step 8 0x00ffffff rfl rfl
  have h₃ := h₂.step 4 0x0fffffff rfl rfl
  have h₄ := h₃.step 2 0x3fffffff rfl rfl
  have h₅ := h₄.step 1 0x7fffffff rfl rfl
  have hvalue := h₅.value
  have hle := h₅.le
  have hlt := (nlzStep 1 0x7fffffff (nlzStep 2 0x3fffffff (nlzStep 4 0x0fffffff
    (nlzStep 8 0x00ffffff (nlzStep 16 0x0000ffff (0, x)))))).2.isLt
  rw [hvalue] at hle hlt
  refine ⟨?_, hle, hlt⟩
  have hpow : 2 ^ nlz x < 2 ^ 32 :=
    Nat.lt_of_le_of_lt (Nat.le_mul_of_pos_left (2 ^ nlz x) hpos) hlt
  exact Nat.le_of_lt_succ ((Nat.pow_lt_pow_iff_right (by decide)).mp hpow)

/-! ## The estimate -/

/-- Half of the dividend, divided by the upper half of the shifted divisor and shifted back,
is the dividend divided by the upper bits of the divisor. -/
theorem estimate_eq (n v : Nat) {s : Nat} (hs : s ≤ 31) :
    n / 2 / v / 2 ^ (31 - s) = n / (v * 2 ^ (32 - s)) := by
  have hpow : 2 ^ (32 - s) = 2 * 2 ^ (31 - s) := by
    rw [← Nat.pow_succ']
    congr 1
    omega
  rw [Nat.div_div_eq_div_mul, Nat.div_div_eq_div_mul, hpow]
  congr 1
  rw [Nat.mul_left_comm]

/-- **The estimate is the quotient or one more.** -/
theorem estimate_spec {n d s : Nat} (hs : s ≤ 31) (hn : n < 2 ^ 64) (hlo : 2 ^ 63 ≤ d * 2 ^ s) :
    n / d ≤ n / 2 / (d * 2 ^ s / 2 ^ 32) / 2 ^ (31 - s) ∧
      n / 2 / (d * 2 ^ s / 2 ^ 32) / 2 ^ (31 - s) ≤ n / d + 1 := by
  have hsplit : 2 ^ (32 - s) * 2 ^ s = 2 ^ 32 := by
    rw [← Nat.pow_add]
    congr 1
    omega
  have hP : 2 ≤ 2 ^ (32 - s) := Nat.le_self_pow (by omega) 2
  have hT : 0 < 2 ^ s := Nat.two_pow_pos s
  have hv : d * 2 ^ s / 2 ^ 32 = d / 2 ^ (32 - s) := by
    rw [← hsplit, Nat.mul_div_mul_right _ _ hT]
  rw [hv, estimate_eq n _ hs]
  generalize 2 ^ (32 - s) = P at *
  generalize 2 ^ s = T at *
  -- the upper bits of the divisor, and what is cut off
  have hd := Nat.div_add_mod d P
  have hr : d % P < P := Nat.mod_lt d (by omega)
  generalize d / P = v at *
  generalize d % P = r at *
  have hv31 : 2 ^ 31 ≤ v := by
    by_contra hlt
    have hle : P * v + P ≤ P * 2 ^ 31 := by
      rw [← Nat.mul_succ]
      exact Nat.mul_le_mul_left P (by omega)
    have hmul : d * T < P * 2 ^ 31 * T := Nat.mul_lt_mul_of_pos_right (by omega) hT
    have heq : P * 2 ^ 31 * T = 2 ^ 63 := by
      rw [Nat.mul_right_comm, hsplit, ← Nat.pow_add]
    omega
  have hV : 2 ^ 31 * P ≤ v * P := Nat.mul_le_mul_right P hv31
  have hvd : v * P ≤ d := by rw [Nat.mul_comm]; omega
  have hdpos : 0 < d := by omega
  have hQ : n / d + 1 ≤ 2 * T := by
    have hmul : n / d * (2 ^ 31 * P) ≤ n :=
      Nat.le_trans (Nat.mul_le_mul_left _ (Nat.le_trans hV hvd)) (Nat.div_mul_le_self n d)
    have hlt : n / d * (2 ^ 31 * P) < 2 * T * (2 ^ 31 * P) := by
      have heq : 2 * T * (2 ^ 31 * P) = 2 ^ 64 := by
        calc 2 * T * (2 ^ 31 * P) = 2 ^ 32 * (P * T) := by ring
          _ = 2 ^ 64 := by rw [hsplit, ← Nat.pow_add]
      omega
    exact Nat.lt_of_mul_lt_mul_right hlt
  have hcut : (n / d + 1) * r ≤ v * P := by
    have hle : (n / d + 1) * r ≤ 2 * T * (P - 1) := Nat.mul_le_mul hQ (by omega)
    refine Nat.le_trans hle (Nat.le_trans ?_ hV)
    have heq : 2 * T * (P - 1) = 2 * 2 ^ 32 - 2 * T := by
      rw [Nat.mul_sub, Nat.mul_one, Nat.mul_assoc, Nat.mul_comm T P, hsplit]
    rw [heq]
    rcases Nat.lt_or_ge P 4 with hlt | hge
    · rcases (by omega : P = 2 ∨ P = 3) with rfl | rfl <;> omega
    · omega
  constructor
  · exact Nat.div_le_div_left hvd (by omega)
  · refine Nat.le_of_lt_succ ((Nat.div_lt_iff_lt_mul (by omega)).mpr ?_)
    calc n < (n / d + 1) * d := by
          rw [Nat.mul_comm]
          exact Nat.lt_mul_div_succ n hdpos
      _ = (n / d + 1) * (v * P) + (n / d + 1) * r := by rw [← Nat.mul_add, Nat.mul_comm v P, hd]
      _ ≤ (n / d + 1) * (v * P) + v * P := Nat.add_le_add_left hcut _
      _ = (n / d + 2) * (v * P) := (Nat.succ_mul _ _).symm

/-! ## Unsigned division -/

section Unsigned
variable {n d : BitVec 64}

theorem divl_eq {e : BitVec 32} {q : Nat} (he : e ≠ 0) (hq : n.toNat / e.toNat = q)
    (hlt : q < 4294967296) : divl n e = some (BitVec.ofNat 32 q) := by
  rw [divl, assert_of ⟨he, hq ▸ hlt⟩, hq]
  rfl

theorem toNat_pos (hd : d ≠ 0) : 0 < d.toNat :=
  Nat.pos_of_ne_zero fun h => hd (BitVec.eq_of_toNat_eq h)

/-- The upper half of a number. -/
theorem toNat_upper (n : BitVec 64) : ((n >>> 32).setWidth 32).toNat = n.toNat / 4294967296 := by
  rw [BitVec.toNat_setWidth, BitVec.toNat_ushiftRight, Nat.shiftRight_eq_div_pow]
  omega

theorem upper_eq_zero_iff : d >>> 32 = 0 ↔ d.toNat < 4294967296 := by
  rw [← BitVec.toNat_inj, BitVec.toNat_ushiftRight, Nat.shiftRight_eq_div_pow]
  change d.toNat / 4294967296 = 0 ↔ _
  omega

/-- The two steps of a long division by a number of one digit. -/
theorem long_division (n1 n0 : Nat) {b d : Nat} (hd : 0 < d) (hn0 : n0 < b) :
    (b * (n1 % d) + n0) / d < b ∧ (b * (n1 % d) + n0) / d + b * (n1 / d) = (b * n1 + n0) / d := by
  constructor
  · rw [Nat.div_lt_iff_lt_mul hd]
    calc b * (n1 % d) + n0 < b * (n1 % d) + b := Nat.add_lt_add_left hn0 _
      _ = b * (n1 % d + 1) := (Nat.mul_succ _ _).symm
      _ ≤ b * d := Nat.mul_le_mul_left b (Nat.mod_lt n1 hd)
  · have hsplit : b * n1 + n0 = b * (n1 % d) + n0 + b * (n1 / d) * d := by
      have hmod := Nat.div_add_mod n1 d
      calc b * n1 + n0 = b * (d * (n1 / d) + n1 % d) + n0 := by rw [hmod]
        _ = b * (n1 % d) + n0 + b * (n1 / d) * d := by ring
    rw [hsplit, Nat.add_mul_div_right _ _ hd]

theorem udiv64_small (hd : d ≠ 0) (hlt : d.toNat < 4294967296) : udiv64 n d = some (n / d) := by
  have hpos := toNat_pos hd
  have hd0 : (d.setWidth 32).toNat = d.toNat := by
    rw [BitVec.toNat_setWidth]
    exact Nat.mod_eq_of_lt hlt
  have hn0 : (n.setWidth 32).toNat = n.toNat % 4294967296 := BitVec.toNat_setWidth ..
  have hn1 := toNat_upper n
  have hd0' : d.setWidth 32 ≠ 0 := fun h => by
    rw [h] at hd0
    exact Nat.ne_of_lt hpos hd0
  obtain ⟨hq, hsum⟩ := long_division (n.toNat / 4294967296) (n.toNat % 4294967296) hpos
    (Nat.mod_lt n.toNat (by decide))
  rw [Nat.div_add_mod] at hsum
  have hone : (1 <<< 32 : BitVec 64).toNat = 4294967296 := rfl
  rw [udiv64, if_pos (upper_eq_zero_iff.mpr hlt)]
  generalize (n >>> 32).setWidth 32 = n1 at hn1 ⊢
  generalize n.setWidth 32 = n0 at hn0 ⊢
  generalize d.setWidth 32 = d0 at hd0 hd0' ⊢
  have hmod : (n1 % d0).toNat = n.toNat / 4294967296 % d.toNat := by
    rw [BitVec.toNat_umod, hn1, hd0]
  have hdiv : (n1 / d0).toNat = n.toNat / 4294967296 / d.toNat := by
    rw [BitVec.toNat_udiv, hn1, hd0]
  have hdividend : ((1 <<< 32 : BitVec 64) * (n1 % d0).setWidth 64 + n0.setWidth 64).toNat
      = 4294967296 * (n.toNat / 4294967296 % d.toNat) + n.toNat % 4294967296 := by
    have hlt' : n.toNat / 4294967296 % d.toNat < 4294967296 :=
      Nat.lt_trans (Nat.mod_lt _ hpos) hlt
    rw [BitVec.toNat_add, BitVec.toNat_mul, BitVec.toNat_setWidth, BitVec.toNat_setWidth, hone, hmod,
      hn0]
    omega
  have hcode := divl_eq hd0' (by rw [hdividend, hd0]) hq
  simp only [hcode, some_bind, Option.some.injEq]
  refine BitVec.eq_of_toNat_eq ?_
  rw [BitVec.toNat_add, BitVec.toNat_mul, BitVec.toNat_setWidth, BitVec.toNat_setWidth,
    BitVec.toNat_ofNat, hone, hdiv, BitVec.toNat_udiv, ← hsum]
  generalize (4294967296 * (n.toNat / 4294967296 % d.toNat) + n.toNat % 4294967296) / d.toNat = q at *
  generalize n.toNat / 4294967296 / d.toNat = t at *
  omega

/-- The estimate is corrected. -/
theorem correct_spec {q : BitVec 64} (hd : d ≠ 0) (hle : d.toNat ≤ n.toNat)
    (hlo : n.toNat / d.toNat ≤ q.toNat) (hhi : q.toNat ≤ n.toNat / d.toNat + 1) :
    (if n - (q - 1) * d < d then q - 1 else q) = n / d := by
  have hpos := toNat_pos hd
  have hQ : 0 < n.toNat / d.toNat := Nat.div_pos hle hpos
  have hmod := Nat.div_add_mod n.toNat d.toNat
  have hr := Nat.mod_lt n.toNat hpos
  have hpred : (q - 1).toNat = q.toNat - 1 := by
    have hone : (1 : BitVec 64).toNat = 1 := rfl
    rw [BitVec.toNat_sub, hone]
    omega
  have hprod : (q.toNat - 1) * d.toNat ≤ n.toNat := by
    calc (q.toNat - 1) * d.toNat ≤ n.toNat / d.toNat * d.toNat :=
          Nat.mul_le_mul_right _ (by omega)
      _ ≤ n.toNat := Nat.div_mul_le_self _ _
  have hdiff : (n - (q - 1) * d).toNat = n.toNat - (q.toNat - 1) * d.toNat := by
    have hn := n.isLt
    have hlt : (q.toNat - 1) * d.toNat < 2 ^ 64 := Nat.lt_of_le_of_lt hprod hn
    rw [BitVec.toNat_sub, BitVec.toNat_mul, hpred, Nat.mod_eq_of_lt hlt]
    omega
  have hcond : n - (q - 1) * d < d ↔ q.toNat = n.toNat / d.toNat + 1 := by
    rw [BitVec.lt_def, hdiff]
    rcases Nat.eq_or_lt_of_le hhi with heq | hlt
    · rw [heq, Nat.add_sub_cancel, Nat.mul_comm]
      omega
    · have heq : q.toNat = n.toNat / d.toNat := by omega
      have hmul : (n.toNat / d.toNat - 1) * d.toNat = d.toNat * (n.toNat / d.toNat) - d.toNat := by
        rw [Nat.sub_mul, Nat.one_mul, Nat.mul_comm]
      rw [heq, hmul]
      omega
  refine BitVec.eq_of_toNat_eq ?_
  rw [BitVec.toNat_udiv]
  split
  · rename_i h
    rw [hpred, hcond.mp h, Nat.add_sub_cancel]
  · rename_i h
    have := mt hcond.mpr h
    omega

theorem udiv64_large (hlarge : ¬d.toNat < 4294967296) (hle : d.toNat ≤ n.toNat) :
    udiv64 n d = some (n / d) := by
  have hd : d ≠ 0 := fun h => hlarge (by rw [h]; decide)
  have hn := n.isLt
  have hd1 : (d >>> 32).setWidth 32 ≠ (0 : BitVec 32) := fun h => by
    have hupper := toNat_upper d
    rw [h] at hupper
    have hzero : (0 : BitVec 32).toNat = 0 := rfl
    omega
  obtain ⟨hs, hlo, hhi⟩ := nlz_spec hd1
  rw [toNat_upper] at hlo hhi
  rw [udiv64, if_neg (mt upper_eq_zero_iff.mp hlarge),
    if_neg (mt BitVec.lt_def.mp (Nat.not_lt.mpr hle))]
  dsimp only
  generalize hsh : nlz ((d >>> 32).setWidth 32) = s at *
  have hlo' : 2 ^ 63 ≤ d.toNat * 2 ^ s := by
    calc 2 ^ 63 = 2 ^ 31 * 4294967296 := by decide
      _ ≤ d.toNat / 4294967296 * 2 ^ s * 4294967296 := Nat.mul_le_mul_right _ hlo
      _ = 4294967296 * (d.toNat / 4294967296) * 2 ^ s := by ring
      _ ≤ d.toNat * 2 ^ s := Nat.mul_le_mul_right _ (by omega)
  have hhi' : d.toNat * 2 ^ s < 2 ^ 64 := by
    have hsucc : d.toNat / 4294967296 * 2 ^ s + 2 ^ s ≤ 2 ^ 32 := by
      -- both sides are multiples of the power
      have hpow : 2 ^ 32 = 2 ^ (32 - s) * 2 ^ s := by
        rw [← Nat.pow_add]
        congr 1
        omega
      rw [hpow] at hhi ⊢
      rw [← Nat.succ_mul]
      exact Nat.mul_le_mul_right _ (Nat.lt_of_mul_lt_mul_right hhi)
    calc d.toNat * 2 ^ s < 4294967296 * (d.toNat / 4294967296 + 1) * 2 ^ s :=
          Nat.mul_lt_mul_of_pos_right (by omega) (Nat.two_pow_pos s)
      _ = 4294967296 * (d.toNat / 4294967296 * 2 ^ s + 2 ^ s) := by ring
      _ ≤ 4294967296 * 2 ^ 32 := Nat.mul_le_mul_left _ hsucc
      _ = 2 ^ 64 := by decide
  have hdivisor : (((d <<< s) >>> 32).setWidth 32).toNat = d.toNat * 2 ^ s / 2 ^ 32 := by
    rw [toNat_upper, BitVec.toNat_shiftLeft, Nat.shiftLeft_eq, Nat.mod_eq_of_lt hhi']
    rfl
  have hdivisor' : (((d <<< s) >>> 32).setWidth 32 : BitVec 32) ≠ 0 := fun h => by
    rw [h] at hdivisor
    have hzero : (0 : BitVec 32).toNat = 0 := rfl
    omega
  have hhalf : (n >>> 1).toNat = n.toNat / 2 := by
    rw [BitVec.toNat_ushiftRight, Nat.shiftRight_eq_div_pow]
  have hq : n.toNat / 2 / (d.toNat * 2 ^ s / 2 ^ 32) < 4294967296 := by
    rw [Nat.div_lt_iff_lt_mul (by omega)]
    have hge : 2 ^ 31 ≤ d.toNat * 2 ^ s / 2 ^ 32 := by omega
    calc n.toNat / 2 < 4294967296 * 2 ^ 31 := by omega
      _ ≤ 4294967296 * (d.toNat * 2 ^ s / 2 ^ 32) := Nat.mul_le_mul_left _ hge
  simp only [divl_eq hdivisor' (by rw [hhalf, hdivisor]) hq, some_bind, Option.some.injEq]
  obtain ⟨hest, hest'⟩ := estimate_spec hs hn hlo'
  have hvalue : ((BitVec.ofNat 32 (n.toNat / 2 / (d.toNat * 2 ^ s / 2 ^ 32)) >>> (31 - s)).setWidth
      64).toNat = n.toNat / 2 / (d.toNat * 2 ^ s / 2 ^ 32) / 2 ^ (31 - s) := by
    rw [BitVec.toNat_setWidth, BitVec.toNat_ushiftRight, BitVec.toNat_ofNat, Nat.mod_eq_of_lt hq,
      Nat.shiftRight_eq_div_pow, Nat.mod_eq_of_lt]
    exact Nat.lt_of_le_of_lt (Nat.div_le_self _ _) (Nat.lt_trans hq (by decide))
  exact correct_spec hd hle (hvalue ▸ hest) (hvalue ▸ hest')

/-- **`udiv64`.** -/
theorem udiv64_eq (hd : d ≠ 0) : udiv64 n d = some (n / d) := by
  by_cases hsmall : d.toNat < 4294967296
  · exact udiv64_small hd hsmall
  · by_cases hle : d.toNat ≤ n.toNat
    · exact udiv64_large hsmall hle
    · have hlt : n.toNat < d.toNat := Nat.not_le.mp hle
      rw [udiv64, if_neg (mt upper_eq_zero_iff.mp hsmall), if_pos (BitVec.lt_def.mpr hlt),
        Option.some.injEq]
      refine BitVec.eq_of_toNat_eq ?_
      rw [BitVec.toNat_udiv, Nat.div_eq_of_lt hlt]
      rfl

end Unsigned

/-! ## Signed division -/

section Signed
variable {n d : BitVec 64}

theorem toNat_abs64 (n : BitVec 64) : (abs64 n).toNat = n.toInt.natAbs := by
  rw [abs64, BitVec.toInt_eq_toNat_cond]
  by_cases hsign : 2 * n.toNat < 2 ^ 64
  · rw [if_pos hsign, if_pos (Int.natCast_nonneg _), Int.natAbs_natCast]
  · rw [if_neg hsign, if_neg (by omega), BitVec.toNat_neg]
    omega

theorem abs64_ne_zero (hd : d ≠ 0) : abs64 d ≠ 0 := fun h => by
  have habs := toNat_abs64 d
  rw [h] at habs
  have hzero : d.toInt = 0 := Int.natAbs_eq_zero.mp habs.symm
  exact hd (BitVec.eq_of_toInt_eq (hzero.trans rfl))

/-- The quotient of the absolute values gets its sign. -/
theorem signed_quotient (x y : Int) :
    (if (x < 0) = (y < 0) then BitVec.ofNat 64 (x.natAbs / y.natAbs)
      else -BitVec.ofNat 64 (x.natAbs / y.natAbs)) = BitVec.ofInt 64 (x.tdiv y) := by
  have hnat : ∀ a b : Nat, BitVec.ofInt 64 ((a : Int).tdiv b) = BitVec.ofNat 64 (a / b) :=
    fun a b => by rw [← Int.ofNat_tdiv, BitVec.ofInt_natCast]
  rcases lt_or_ge x 0 with hx | hx <;> rcases lt_or_ge y 0 with hy | hy
  · obtain ⟨a, rfl⟩ := Int.exists_eq_neg_ofNat hx.le
    obtain ⟨b, rfl⟩ := Int.exists_eq_neg_ofNat hy.le
    rw [if_pos (propext (iff_of_true hx hy)), Int.neg_tdiv, Int.tdiv_neg, Int.neg_neg,
      Int.natAbs_neg, Int.natAbs_neg, hnat]
    rfl
  · obtain ⟨a, rfl⟩ := Int.exists_eq_neg_ofNat hx.le
    obtain ⟨b, rfl⟩ := Int.eq_ofNat_of_zero_le hy
    rw [if_neg fun h => Int.not_lt.mpr hy (h.mp hx), Int.neg_tdiv, Int.natAbs_neg, BitVec.ofInt_neg,
      hnat]
    rfl
  · obtain ⟨a, rfl⟩ := Int.eq_ofNat_of_zero_le hx
    obtain ⟨b, rfl⟩ := Int.exists_eq_neg_ofNat hy.le
    rw [if_neg fun h => Int.not_lt.mpr hx (h.mpr hy), Int.tdiv_neg, Int.natAbs_neg, BitVec.ofInt_neg,
      hnat]
    rfl
  · obtain ⟨a, rfl⟩ := Int.eq_ofNat_of_zero_le hx
    obtain ⟨b, rfl⟩ := Int.eq_ofNat_of_zero_le hy
    rw [if_pos (propext (iff_of_false (Int.not_lt.mpr hx) (Int.not_lt.mpr hy))), hnat]
    rfl

/-- **`sdiv64`** rounds towards zero. -/
theorem sdiv64_eq (hd : d ≠ 0) :
    sdiv64 n d = some (BitVec.ofInt 64 (n.toInt.tdiv d.toInt)) := by
  have hq : abs64 n / abs64 d = BitVec.ofNat 64 (n.toInt.natAbs / d.toInt.natAbs) := by
    refine BitVec.eq_of_toNat_eq ?_
    have hle : n.toInt.natAbs / d.toInt.natAbs ≤ n.toInt.natAbs := Nat.div_le_self _ _
    have hlt := (abs64 n).isLt
    rw [toNat_abs64] at hlt
    rw [BitVec.toNat_udiv, toNat_abs64, toNat_abs64, BitVec.toNat_ofNat, Nat.mod_eq_of_lt (by omega)]
  simp only [sdiv64, udiv64_eq (abs64_ne_zero hd), some_bind, hq, Option.some.injEq]
  exact signed_quotient n.toInt d.toInt

end Signed

/-- **64-bit division is exact and never traps.** -/
theorem quotient_exact (n d : BitVec 64) (hd : d ≠ 0) :
    udivdi3 n d = some (n / d) ∧ divdi3 n d = some (BitVec.ofInt 64 (n.toInt.tdiv d.toInt)) :=
  ⟨udiv64_eq hd, sdiv64_eq hd⟩

/-- The divisor is large, and the smallest number is divided by -1. -/
theorem quotient_exact_limits :
    udivdi3 0xffffffffffffffff 0x100000001 = some 0xffffffff ∧
      divdi3 0x8000000000000000 0xffffffffffffffff = some 0x8000000000000000 := by
  refine ⟨(quotient_exact 0xffffffffffffffff 0x100000001 (by decide)).1.trans ?_,
    (quotient_exact 0x8000000000000000 0xffffffffffffffff (by decide)).2.trans ?_⟩ <;>
  decide

/-! ## Remainders -/

section Remainders
variable {n d : BitVec 64}

theorem umoddi3_eq (hd : d ≠ 0) :
    umoddi3 n d = some (BitVec.ofNat 64 (n.toNat % d.toNat % 4294967296)) := by
  have hle : d.toNat * (n.toNat / d.toNat) ≤ n.toNat := Nat.mul_div_le _ _
  have hn := n.isLt
  have hsub : (n - d * (n / d)).toNat = n.toNat % d.toNat := by
    have hmod := Nat.div_add_mod n.toNat d.toNat
    have hlt : d.toNat * (n.toNat / d.toNat) < 2 ^ 64 := Nat.lt_of_le_of_lt hle hn
    rw [BitVec.toNat_sub, BitVec.toNat_mul, BitVec.toNat_udiv, Nat.mod_eq_of_lt hlt]
    omega
  simp only [umoddi3, umod64, udiv64_eq hd, some_bind, Option.some.injEq]
  refine BitVec.eq_of_toNat_eq ?_
  rw [BitVec.toNat_setWidth, BitVec.toNat_setWidth, hsub, BitVec.toNat_ofNat]

/-- The lower half of a signed number, with its sign. -/
theorem toInt_lower (R : Int) :
    (((BitVec.ofInt 64 R).setWidth 32).signExtend 64).toInt = R.bmod 4294967296 := by
  rw [BitVec.toInt_signExtend, BitVec.toInt_setWidth, BitVec.toNat_ofInt]
  have hmod : ((R % (2 ^ 64 : Nat)).toNat : Int) = R % (2 ^ 64 : Nat) :=
    Int.toNat_of_nonneg (Int.emod_nonneg _ (by decide))
  rw [hmod]
  change ((R % 18446744073709551616).bmod 4294967296).bmod 4294967296 = R.bmod 4294967296
  rw [Int.bmod_bmod]
  unfold Int.bmod
  have heq : R % 18446744073709551616 % ((4294967296 : Nat) : Int) =
      R % ((4294967296 : Nat) : Int) := by
    omega
  rw [heq]

theorem moddi3_eq (hd : d ≠ 0) : moddi3 n d =
    some (((BitVec.ofInt 64 (n.toInt.tmod d.toInt)).setWidth 32).signExtend 64) := by
  have hsub : n - d * BitVec.ofInt 64 (n.toInt.tdiv d.toInt)
      = BitVec.ofInt 64 (n.toInt.tmod d.toInt) := by
    rw [Int.tmod_def, Int.sub_eq_add_neg, BitVec.ofInt_add, BitVec.ofInt_neg, BitVec.ofInt_mul,
      BitVec.ofInt_toInt, BitVec.ofInt_toInt, BitVec.sub_eq_add_neg]
  simp only [moddi3, smod64, sdiv64_eq hd, some_bind, hsub]

theorem tmod_bounds (x : Int) {y : Int} (hy : y ≠ 0) :
    (x.tmod y).natAbs < y.natAbs ∧ (x.tmod y = 0 ∨ (x.tmod y < 0 ↔ x < 0)) := by
  refine ⟨?_, ?_⟩
  · rw [Int.natAbs_tmod]
    exact Nat.mod_lt _ (Int.natAbs_pos.mpr hy)
  · rcases lt_or_ge x 0 with hx | hx
    · have hneg : 0 ≤ (-x).tmod y := Int.tmod_nonneg y (by omega)
      rw [Int.neg_tmod] at hneg
      omega
    · have hpos := Int.tmod_nonneg y hx
      omega

end Remainders

/-- **A remainder is right if and only if it fits into 32 bits.** -/
theorem remainder_exact_iff (n d : BitVec 64) (hd : d ≠ 0) :
    (∃ q r, udivdi3 n d = some q ∧ umoddi3 n d = some r ∧
      (n.toNat = d.toNat * q.toNat + r.toNat ∧ r.toNat < d.toNat ↔
        n.toNat % d.toNat < 4294967296)) ∧
    ∃ q r, divdi3 n d = some q ∧ moddi3 n d = some r ∧
      ((n = d * q + r ∧ r.toInt.natAbs < d.toInt.natAbs ∧
          (r.toInt = 0 ∨ (r.toInt < 0 ↔ n.toInt < 0))) ↔
        -2147483648 ≤ n.toInt.tmod d.toInt ∧ n.toInt.tmod d.toInt < 2147483648) := by
  refine ⟨⟨_, _, udiv64_eq hd, umoddi3_eq hd, ?_⟩, ⟨_, _, sdiv64_eq hd, moddi3_eq hd, ?_⟩⟩
  · have hmod := Nat.div_add_mod n.toNat d.toNat
    have hlt := Nat.mod_lt n.toNat (toNat_pos hd)
    have hcut : n.toNat % d.toNat % 4294967296 < 2 ^ 64 :=
      Nat.lt_trans (Nat.mod_lt _ (by decide)) (by decide)
    rw [BitVec.toNat_udiv, BitVec.toNat_ofNat, Nat.mod_eq_of_lt hcut]
    generalize n.toNat % d.toNat = R at *
    omega
  · have hdint : d.toInt ≠ 0 := fun h => hd (BitVec.eq_of_toInt_eq (h.trans rfl))
    obtain ⟨habs, hsign⟩ := tmod_bounds n.toInt hdint
    have hle : d.toInt.natAbs ≤ 9223372036854775808 := by
      have := BitVec.toInt_lt (x := d)
      have := BitVec.le_toInt (x := d)
      omega
    -- the division identity holds for the remainder before it is cut
    have hiff : n = d * BitVec.ofInt 64 (n.toInt.tdiv d.toInt) +
        ((BitVec.ofInt 64 (n.toInt.tmod d.toInt)).setWidth 32).signExtend 64 ↔
        (n.toInt.tmod d.toInt).bmod 4294967296 = n.toInt.tmod d.toInt := by
      have hexact : n = d * BitVec.ofInt 64 (n.toInt.tdiv d.toInt) +
          BitVec.ofInt 64 (n.toInt.tmod d.toInt) := by
        have hcast := congrArg (BitVec.ofInt 64) (Int.mul_tdiv_add_tmod n.toInt d.toInt)
        rwa [BitVec.ofInt_add, BitVec.ofInt_mul, BitVec.ofInt_toInt, BitVec.ofInt_toInt,
          eq_comm] at hcast
      have hfull : (BitVec.ofInt 64 (n.toInt.tmod d.toInt)).toInt = n.toInt.tmod d.toInt := by
        rw [BitVec.toInt_ofInt]
        exact Int.bmod_eq_of_le (by omega) (by omega)
      rw [← toInt_lower]
      constructor
      · intro h
        have hsame := (BitVec.add_right_inj _).mp (h.symm.trans hexact)
        rw [hsame, hfull]
      · intro h
        have hsame := BitVec.eq_of_toInt_eq (h.trans hfull.symm)
        rw [hsame]
        exact hexact
    rw [hiff, toInt_lower]
    constructor
    · rintro ⟨hbmod, -, -⟩
      have hlo := Int.le_bmod (x := n.toInt.tmod d.toInt) (m := 4294967296) (by decide)
      have hhi := Int.bmod_lt (x := n.toInt.tmod d.toInt) (m := 4294967296) (by decide)
      omega
    · rintro ⟨hlo, hhi⟩
      have hbmod : (n.toInt.tmod d.toInt).bmod 4294967296 = n.toInt.tmod d.toInt :=
        Int.bmod_eq_of_le (by omega) (by omega)
      rw [hbmod]
      exact ⟨rfl, habs, hsign⟩

/-- Two remainders that fit. -/
theorem remainder_exact_iff_fits :
    (∃ q r, udivdi3 0x100000007 0x100000000 = some q ∧ umoddi3 0x100000007 0x100000000 = some r ∧
      0x100000007 = 0x100000000 * q.toNat + r.toNat ∧ r.toNat < 0x100000000) ∧
    ∃ q r, divdi3 (-7) 0x100000000 = some q ∧ moddi3 (-7) 0x100000000 = some r ∧
      -7 = 0x100000000 * q + r ∧ r.toInt.natAbs < 0x100000000 := by
  have h := remainder_exact_iff 0x100000007 0x100000000 (by decide)
  have h' := remainder_exact_iff (-7) 0x100000000 (by decide)
  obtain ⟨q, r, hq, hr, hiff⟩ := h.1
  obtain ⟨q', r', hq', hr', hiff'⟩ := h'.2
  have hfits := hiff'.mpr (by decide)
  exact ⟨⟨q, r, hq, hr, hiff.mpr (by decide)⟩, q', r', hq', hr', hfits.1, hfits.2.1⟩

/-- **A remainder of more than 32 bits is cut off**: 4294967296 by 8589934592 leaves
4294967296, and 3000000000 by 4000000000 leaves 3000000000. -/
theorem remainder_cut :
    udivdi3 4294967296 8589934592 = some 0 ∧ umoddi3 4294967296 8589934592 = some 0 ∧
      divdi3 3000000000 4000000000 = some 0 ∧ moddi3 3000000000 4000000000 = some (-1294967296) := by
  decide +kernel

end Pintos.Arithmetic
