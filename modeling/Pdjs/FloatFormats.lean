import Mathlib.Data.Nat.Log
import Mathlib.Tactic.Ring

/-!
# Binary interchange formats and the conversion between two of them

A number is read from its bit pattern as a signed integer multiple of a power of
two, and written back rounded to the nearest representable value, ties to even.
A not-a-number keeps neither its payload nor its sign: every one is written as the
canonical pattern.
The results used elsewhere are that widening a single-precision number and
narrowing it again changes nothing, and that integers up to 2 ^ 24 survive both.
-/

namespace FloatFormats

structure Format where
  fracBits : Nat
  expBits : Nat

def binary32 : Format := ⟨23, 8⟩

def binary64 : Format := ⟨52, 11⟩

namespace Format

/-- The exponent of the last place of the subnormal numbers. -/
def minExp (F : Format) : Int := 2 - 2 ^ (F.expBits - 1) - F.fracBits

def signBit (F : Format) : Nat := 2 ^ (F.fracBits + F.expBits)

/-- The pattern of positive infinity. -/
def infinity (F : Format) : Nat := (2 ^ F.expBits - 1) * 2 ^ F.fracBits

def canonicalNaN (F : Format) : Nat := F.infinity + 2 ^ (F.fracBits - 1)

end Format

/-- `finite neg m e` is the number `m * 2 ^ e`, negated when `neg` is set. -/
inductive Datum where
  | nan
  | infinite (neg : Bool)
  | finite (neg : Bool) (m : Nat) (e : Int)
  deriving DecidableEq

def decode (F : Format) (n : Nat) : Datum :=
  let frac := n % 2 ^ F.fracBits
  let exp := n / 2 ^ F.fracBits % 2 ^ F.expBits
  let neg := decide (F.signBit ≤ n)
  if exp = 2 ^ F.expBits - 1 then
    if frac = 0 then .infinite neg else .nan
  else if exp = 0 then .finite neg frac F.minExp
  else .finite neg (2 ^ F.fracBits + frac) (F.minExp + exp - 1)

/-- Division by `2 ^ k` rounded to the nearest integer, ties to even. -/
def roundHalfEven (m k : Nat) : Nat :=
  let q := m / 2 ^ k
  let r := m % 2 ^ k
  if 2 * r < 2 ^ k ∨ (2 * r = 2 ^ k ∧ q % 2 = 0) then q else q + 1

def roundAt (m : Nat) (k : Int) : Nat :=
  if k ≤ 0 then m * 2 ^ (-k).toNat else roundHalfEven m k.toNat

/-- The exponent of the last place in which `m * 2 ^ e` is represented. -/
def quantum (F : Format) (m : Nat) (e : Int) : Int :=
  max (e + m.log2 - F.fracBits) F.minExp

/-- The pattern of `m * 2 ^ e` without its sign. A carry out of the rounded
significand moves into the exponent field by itself. -/
def magnitude (F : Format) (m : Nat) (e : Int) : Nat :=
  if m = 0 then 0
  else (quantum F m e - F.minExp).toNat * 2 ^ F.fracBits + roundAt m (quantum F m e - e)

def encode (F : Format) : Datum → Nat
  | .nan => F.canonicalNaN
  | .infinite neg => (if neg then F.signBit else 0) + F.infinity
  | .finite neg m e => (if neg then F.signBit else 0) + min (magnitude F m e) F.infinity

theorem roundHalfEven_mul (m k : Nat) : roundHalfEven (m * 2 ^ k) k = m := by
  have hk : 0 < 2 ^ k := Nat.two_pow_pos k
  simp [roundHalfEven, Nat.mul_div_cancel m hk, hk]

theorem log2_mul_two_pow {m : Nat} (hm : m ≠ 0) (k : Nat) :
    (m * 2 ^ k).log2 = m.log2 + k := by
  have hne : m * 2 ^ k ≠ 0 := Nat.mul_ne_zero hm (Nat.two_pow_pos k).ne'
  rw [Nat.log2_eq_iff hne]
  have hlo := Nat.log2_self_le hm
  have hhi : m < 2 ^ (m.log2 + 1) := Nat.lt_log2_self
  constructor
  · rw [pow_add]
    exact Nat.mul_le_mul_right _ hlo
  · rw [show m.log2 + k + 1 = (m.log2 + 1) + k by omega, pow_add]
    exact Nat.mul_lt_mul_of_pos_right hhi (Nat.two_pow_pos k)

/-- Writing a value whose last place lies above that of `m * 2 ^ e` does not
depend on how many trailing zeros the significand carries. -/
theorem magnitude_trailing (F : Format) {m : Nat} (hm : m ≠ 0) (e : Int) (k : Nat)
    (exact : quantum F m e = e) :
    magnitude F (m * 2 ^ k) (e - k) = magnitude F m e := by
  have hne : m * 2 ^ k ≠ 0 := Nat.mul_ne_zero hm (Nat.two_pow_pos k).ne'
  have hq : quantum F (m * 2 ^ k) (e - k) = quantum F m e := by
    simp only [quantum, log2_mul_two_pow hm]
    congr 1
    push_cast
    ring
  have hround : roundAt (m * 2 ^ k) (e - (e - k)) = m := by
    rw [show e - (e - (k : Int)) = k by omega, roundAt]
    split
    · rename_i h
      have hk : k = 0 := by omega
      simp [hk]
    · rw [Int.toNat_natCast, roundHalfEven_mul]
  have hself : roundAt m (e - e) = m := by simp [roundAt]
  rw [magnitude, magnitude, if_neg hne, if_neg hm, hq, exact, hround, hself]

/-- Every pattern is a sign, an exponent field and a fraction field. -/
theorem exists_fields (F : Format) {n : Nat} (hn : n < 2 * F.signBit) :
    ∃ (neg : Bool) (x frac : Nat), x < 2 ^ F.expBits ∧ frac < 2 ^ F.fracBits ∧
      n = (if neg then F.signBit else 0) + x * 2 ^ F.fracBits + frac := by
  have hfrac : 0 < 2 ^ F.fracBits := Nat.two_pow_pos _
  have hsign : F.signBit = 2 ^ F.expBits * 2 ^ F.fracBits := by
    rw [Format.signBit, pow_add, Nat.mul_comm]
  have split_low : ∀ k, k < F.signBit →
      k / 2 ^ F.fracBits < 2 ^ F.expBits ∧ k % 2 ^ F.fracBits < 2 ^ F.fracBits ∧
        k = k / 2 ^ F.fracBits * 2 ^ F.fracBits + k % 2 ^ F.fracBits := by
    intro k hk
    refine ⟨?_, Nat.mod_lt _ hfrac, ?_⟩
    · rw [Nat.div_lt_iff_lt_mul hfrac, ← hsign]
      exact hk
    · rw [Nat.mul_comm]
      exact (Nat.div_add_mod k _).symm
  by_cases h : n < F.signBit
  · obtain ⟨hx, hf, heq⟩ := split_low n h
    exact ⟨false, _, _, hx, hf, by simpa using heq⟩
  · obtain ⟨hx, hf, heq⟩ := split_low (n - F.signBit) (by omega)
    refine ⟨true, _, _, hx, hf, ?_⟩
    simp only [if_true]
    omega

theorem decode_fields (F : Format) (neg : Bool) {x frac : Nat}
    (hx : x < 2 ^ F.expBits) (hf : frac < 2 ^ F.fracBits) :
    decode F ((if neg then F.signBit else 0) + x * 2 ^ F.fracBits + frac) =
      if x = 2 ^ F.expBits - 1 then
        if frac = 0 then .infinite neg else .nan
      else if x = 0 then .finite neg frac F.minExp
      else .finite neg (2 ^ F.fracBits + frac) (F.minExp + x - 1) := by
  have hfrac : 0 < 2 ^ F.fracBits := Nat.two_pow_pos _
  have hsign : F.signBit = 2 ^ F.expBits * 2 ^ F.fracBits := by
    rw [Format.signBit, pow_add, Nat.mul_comm]
  have hlow : x * 2 ^ F.fracBits + frac < F.signBit := by
    rw [hsign]
    calc x * 2 ^ F.fracBits + frac < x * 2 ^ F.fracBits + 2 ^ F.fracBits := by omega
      _ = (x + 1) * 2 ^ F.fracBits := by ring
      _ ≤ 2 ^ F.expBits * 2 ^ F.fracBits := Nat.mul_le_mul_right _ hx
  cases neg with
  | false =>
    have hneg : ¬ F.signBit ≤ 0 + x * 2 ^ F.fracBits + frac := by omega
    have hmod : (0 + x * 2 ^ F.fracBits + frac) % 2 ^ F.fracBits = frac := by
      rw [Nat.zero_add, Nat.add_comm, Nat.add_mul_mod_self_right, Nat.mod_eq_of_lt hf]
    have hdiv : (0 + x * 2 ^ F.fracBits + frac) / 2 ^ F.fracBits = x := by
      rw [Nat.zero_add, Nat.add_comm, Nat.add_mul_div_right _ _ hfrac, Nat.div_eq_of_lt hf,
        Nat.zero_add]
    simp only [Bool.false_eq_true, if_false, decode, hmod, hdiv, Nat.mod_eq_of_lt hx, hneg,
      decide_false]
  | true =>
    have hneg : F.signBit ≤ F.signBit + x * 2 ^ F.fracBits + frac := by omega
    have hcollect : F.signBit + x * 2 ^ F.fracBits + frac =
        frac + (2 ^ F.expBits + x) * 2 ^ F.fracBits := by
      rw [hsign]
      ring
    have hmod : (F.signBit + x * 2 ^ F.fracBits + frac) % 2 ^ F.fracBits = frac := by
      rw [hcollect, Nat.add_mul_mod_self_right, Nat.mod_eq_of_lt hf]
    have hdiv : (F.signBit + x * 2 ^ F.fracBits + frac) / 2 ^ F.fracBits = 2 ^ F.expBits + x := by
      rw [hcollect, Nat.add_mul_div_right _ _ hfrac, Nat.div_eq_of_lt hf, Nat.zero_add]
    simp only [if_true, decode, hmod, hdiv, Nat.add_mod_left, Nat.mod_eq_of_lt hx, hneg,
      decide_true]

/-- The shape of a finite number read from a single-precision pattern. -/
def Single (m : Nat) (e : Int) : Prop :=
  m < 2 ^ 24 ∧ -149 ≤ e ∧ e ≤ 104 ∧ (-149 < e → 2 ^ 23 ≤ m)

theorem quantum_single {m : Nat} {e : Int} (hm : m ≠ 0) (hs : Single m e) :
    quantum binary32 m e = e := by
  obtain ⟨hlt, hlo, hhi, hnormal⟩ := hs
  have hlog : m.log2 < 24 := (Nat.log2_lt hm).mpr hlt
  have hmin : binary32.minExp = -149 := by decide
  have hbits : binary32.fracBits = 23 := rfl
  rw [quantum, hmin, hbits]
  by_cases h : -149 < e
  · have hge : 23 ≤ m.log2 := (Nat.le_log2 hm).mpr (hnormal h)
    omega
  · omega

/-- A single-precision pattern is read as a number of that shape, and writing
the number gives the pattern back. -/
theorem decode_single {n : Nat} (hn : n < 2 ^ 32) :
    decode binary32 n = .nan ∨
    (∃ neg, decode binary32 n = .infinite neg ∧ encode binary32 (.infinite neg) = n) ∨
    (∃ neg m e, decode binary32 n = .finite neg m e ∧ Single m e ∧
      encode binary32 (.finite neg m e) = n) := by
  obtain ⟨neg, x, frac, hx, hf, rfl⟩ := exists_fields binary32 (n := n) (by
    have : binary32.signBit = 2 ^ 31 := by decide
    omega)
  rw [decode_fields binary32 neg hx hf]
  have hmin : binary32.minExp = -149 := by decide
  have hinf : binary32.infinity = 2139095040 := by decide
  have hbits : binary32.fracBits = 23 := rfl
  have hebits : binary32.expBits = 8 := rfl
  rw [hbits] at hf
  rw [hebits] at hx
  simp only [hbits, hebits, hmin]
  by_cases hx1 : x = 2 ^ 8 - 1
  · rw [if_pos hx1]
    by_cases hf0 : frac = 0
    · rw [if_pos hf0]
      refine Or.inr (Or.inl ⟨neg, rfl, ?_⟩)
      subst hx1
      subst hf0
      simp only [encode, hinf]
      omega
    · exact Or.inl (if_neg hf0)
  rw [if_neg hx1]
  right
  right
  by_cases hx0 : x = 0
  · rw [if_pos hx0]
    have hs : Single frac (-149) := ⟨by omega, by omega, by omega, by omega⟩
    refine ⟨neg, frac, -149, rfl, hs, ?_⟩
    subst hx0
    by_cases hf0 : frac = 0
    · simp [encode, magnitude, hf0]
    · rw [encode, magnitude, if_neg hf0, quantum_single hf0 hs, hmin, hinf]
      simp only [roundAt, hbits]
      norm_num
      omega
  · rw [if_neg hx0]
    have hs : Single (2 ^ 23 + frac) (-149 + x - 1) :=
      ⟨by omega, by omega, by omega, by omega⟩
    refine ⟨neg, 2 ^ 23 + frac, -149 + x - 1, rfl, hs, ?_⟩
    have hne : 2 ^ 23 + frac ≠ 0 := by omega
    rw [encode, magnitude, if_neg hne, quantum_single hne hs, hmin, hinf]
    simp only [roundAt, hbits]
    norm_num
    omega

/-- A nonzero single-precision number in double precision: the same value with
the significand shifted up to 53 bits. -/
theorem decode_encode_double {neg : Bool} {m : Nat} {e : Int} (hm : m ≠ 0) (hs : Single m e) :
    decode binary64 (encode binary64 (.finite neg m e)) =
      .finite neg (m * 2 ^ (52 - m.log2)) (e - (52 - m.log2 : Nat)) := by
  obtain ⟨hlt, hlo, hhi, hnormal⟩ := hs
  have hlog : m.log2 < 24 := (Nat.log2_lt hm).mpr hlt
  have hmin : binary64.minExp = -1074 := by decide
  have hbits : binary64.fracBits = 52 := rfl
  have hebits : binary64.expBits = 11 := rfl
  have hinf : binary64.infinity = 2047 * 2 ^ 52 := by decide
  generalize hk : 52 - m.log2 = k
  have hquantum : quantum binary64 m e = e - k := by
    rw [quantum, hmin, hbits]
    omega
  have hround : roundAt m (e - k - e) = m * 2 ^ k := by
    rw [roundAt, if_pos (by omega)]
    congr 2
    omega
  have hnorm := (Nat.log2_eq_iff (Nat.mul_ne_zero hm (Nat.two_pow_pos k).ne')).mp
    ((log2_mul_two_pow hm k).trans (show m.log2 + k = 52 by omega))
  generalize hN : m * 2 ^ k = N at *
  have hmag : magnitude binary64 m e = (e - k + 1075).toNat * 2 ^ 52 + (N - 2 ^ 52) := by
    rw [magnitude, if_neg hm, hquantum, hround, hmin, hbits]
    omega
  have hx : (e - k + 1075).toNat < 2 ^ binary64.expBits := by rw [hebits]; omega
  have hf : N - 2 ^ 52 < 2 ^ binary64.fracBits := by rw [hbits]; omega
  have hfields := decode_fields binary64 neg hx hf
  rw [encode, hmag, Nat.min_eq_left (by rw [hinf]; omega), ← Nat.add_assoc]
  rw [hbits, hebits, hmin] at hfields
  refine hfields.trans ((if_neg (by omega)).trans ((if_neg (by omega)).trans ?_))
  have hfull : 2 ^ 52 + (N - 2 ^ 52) = N := by omega
  have hexp : -1074 + ((e - k + 1075).toNat : Int) - 1 = e - k := by omega
  rw [hfull, hexp]

theorem encode_lt_double (d : Datum) : encode binary64 d < 2 ^ 64 := by
  have hinf : binary64.infinity = 2047 * 2 ^ 52 := by decide
  have hsign : binary64.signBit = 2 ^ 63 := by decide
  have hnan : binary64.canonicalNaN = 2047 * 2 ^ 52 + 2 ^ 51 := by decide
  cases d with
  | nan => rw [encode, hnan]; decide
  | infinite neg => cases neg <;> simp only [encode, hinf, hsign] <;> decide
  | finite neg m e =>
    have hle := Nat.min_le_right (magnitude binary64 m e) binary64.infinity
    have hbound : (if neg then binary64.signBit else 0) ≤ 2 ^ 63 := by
      cases neg <;> simp [hsign]
    rw [encode]
    omega

def widen (b : BitVec 32) : BitVec 64 :=
  BitVec.ofNat 64 (encode binary64 (decode binary32 b.toNat))

def narrow (b : BitVec 64) : BitVec 32 :=
  BitVec.ofNat 32 (encode binary32 (decode binary64 b.toNat))

def IsNaN (b : BitVec 32) : Prop := decode binary32 b.toNat = .nan

theorem narrow_widen {b : BitVec 32} (number : ¬ IsNaN b) : narrow (widen b) = b := by
  have hwide : (widen b).toNat = encode binary64 (decode binary32 b.toNat) :=
    Nat.mod_eq_of_lt (encode_lt_double _)
  have hback : encode binary32 (decode binary64 (encode binary64 (decode binary32 b.toNat))) =
      b.toNat := by
    rcases decode_single b.isLt with hnan | ⟨neg, hd, he⟩ | ⟨neg, m, e, hd, hs, he⟩
    · exact absurd hnan number
    · rw [hd]
      have hinf : decode binary64 (encode binary64 (.infinite neg)) = .infinite neg := by
        cases neg <;> decide
      rw [hinf, he]
    · rw [hd]
      by_cases hm : m = 0
      · have hzero : ∀ e', decode binary64 (encode binary64 (.finite neg 0 e')) =
            .finite neg 0 (-1074) := by
          intro e'
          have hmag : encode binary64 (.finite neg 0 e') = if neg then 2 ^ 63 else 0 := by
            cases neg <;> simp [encode, magnitude, Format.signBit, binary64]
          rw [hmag]
          cases neg <;> decide
        subst hm
        rw [hzero, ← he]
        simp [encode, magnitude]
      · rw [decode_encode_double hm hs, ← he, encode, encode,
          magnitude_trailing binary32 hm e _ (quantum_single hm hs)]
  rw [narrow, hwide, hback, BitVec.ofNat_toNat, BitVec.setWidth_eq]

theorem widen_nan {b : BitVec 32} (hb : IsNaN b) : widen b = widen 0x7fc00000#32 := by
  rw [widen, hb]
  decide

/-- A single-precision number survives the way to single precision and back. -/
theorem widen_narrow_widen (b : BitVec 32) : widen (narrow (widen b)) = widen b := by
  by_cases hb : IsNaN b
  · rw [widen_nan hb]
    decide
  · rw [narrow_widen hb]

theorem roundAt_shift {m k : Nat} {q : Int} (exact : q ≤ 0) :
    roundAt (m * 2 ^ k) (q + k) = roundAt m q := by
  obtain ⟨j, rfl⟩ : ∃ j : Nat, q = -j := ⟨(-q).toNat, by omega⟩
  have whole : roundAt m (-j) = m * 2 ^ j := by
    rw [roundAt, if_pos exact, neg_neg, Int.toNat_natCast]
  rw [whole, roundAt]
  by_cases fine : k ≤ j
  · have less : (-(-(j : Int) + k)).toNat = j - k := by omega
    rw [if_pos (by omega), less, Nat.mul_assoc, ← pow_add, Nat.add_sub_cancel' fine]
  · have more : (-(j : Int) + k).toNat = k - j := by omega
    have split : m * 2 ^ k = m * 2 ^ j * 2 ^ (k - j) := by
      rw [Nat.mul_assoc, ← pow_add, Nat.add_sub_cancel' (Nat.le_of_not_le fine)]
    rw [if_neg (by omega), more, split, roundHalfEven_mul]

/-- A number that is represented exactly is written alike with trailing zeros. -/
theorem magnitude_shift (F : Format) {m : Nat} (hm : m ≠ 0) (e : Int) (k : Nat)
    (exact : quantum F m e ≤ e) : magnitude F (m * 2 ^ k) (e - k) = magnitude F m e := by
  have hne : m * 2 ^ k ≠ 0 := Nat.mul_ne_zero hm (Nat.two_pow_pos k).ne'
  have same : quantum F (m * 2 ^ k) (e - k) = quantum F m e := by
    simp only [quantum, log2_mul_two_pow hm]
    congr 1
    push_cast
    ring
  have place : quantum F m e - (e - k) = (quantum F m e - e) + k := by ring
  rw [magnitude, magnitude, if_neg hne, if_neg hm, same, place, roundAt_shift (by omega)]

/-- A normalized significand and its exponent are those of a pattern. -/
theorem exists_single (neg : Bool) {m : Nat} {e : Int} (hlo : 2 ^ 23 ≤ m) (hhi : m < 2 ^ 24)
    (he : -148 ≤ e) (he' : e ≤ 104) :
    ∃ b : BitVec 32, decode binary32 b.toNat = .finite neg m e := by
  have hmin : binary32.minExp = -149 := by decide
  have hx : (e + 150).toNat < 2 ^ binary32.expBits := by
    have hebits : binary32.expBits = 8 := rfl
    rw [hebits]
    omega
  have hf : m - 2 ^ 23 < 2 ^ binary32.fracBits := by
    have hbits : binary32.fracBits = 23 := rfl
    rw [hbits]
    omega
  have fields := decode_fields binary32 neg hx hf
  have hsign : (if neg then binary32.signBit else 0) ≤ 2 ^ 31 := by
    cases neg <;> decide
  refine ⟨BitVec.ofNat 32 ((if neg then binary32.signBit else 0) +
    (e + 150).toNat * 2 ^ binary32.fracBits + (m - 2 ^ 23)), ?_⟩
  have hbits : binary32.fracBits = 23 := rfl
  have hebits : binary32.expBits = 8 := rfl
  rw [BitVec.toNat_ofNat, Nat.mod_eq_of_lt (by rw [hbits]; omega), fields, hebits, hmin, hbits,
    if_neg (by omega), if_neg (by omega)]
  have whole : 2 ^ 23 + (m - 2 ^ 23) = m := by omega
  have exponent : -149 + ((e + 150).toNat : Int) - 1 = e := by omega
  rw [whole, exponent]

/-- A number up to 2 ^ 24 in double precision is that of a single-precision pattern. -/
theorem exists_widen (neg : Bool) {m : Nat} (hm : m ≠ 0) (small : m ≤ 2 ^ 24) :
    ∃ b : BitVec 32, widen b = BitVec.ofNat 64 (encode binary64 (.finite neg m 0)) := by
  have of_shift : ∀ (m₀ k : Nat) (e : Int), m₀ ≠ 0 → m₀ ≤ 2 ^ 24 → 0 ≤ e → e ≤ 1 →
      2 ^ 23 ≤ m₀ * 2 ^ k → m₀ * 2 ^ k < 2 ^ 24 → k ≤ 23 →
      ∃ b : BitVec 32, widen b = BitVec.ofNat 64 (encode binary64 (.finite neg m₀ e)) := by
    intro m₀ k e hm₀ fits low high enough below fine
    obtain ⟨b, hb⟩ : ∃ b : BitVec 32, decode binary32 b.toNat = .finite neg (m₀ * 2 ^ k) (e - k) :=
      exists_single neg enough below (by omega) (by omega)
    have log : m₀.log2 < 25 := (Nat.log2_lt hm₀).mpr (by omega)
    have exact : quantum binary64 m₀ e ≤ e := by
      have hmin : binary64.minExp = -1074 := by decide
      have hbits : binary64.fracBits = 52 := rfl
      rw [quantum, hmin, hbits]
      omega
    refine ⟨b, ?_⟩
    rw [widen, hb, encode, encode, magnitude_shift binary64 hm₀ e k exact]
  by_cases whole : m = 2 ^ 24
  · obtain ⟨b, hb⟩ := of_shift (2 ^ 23) 0 1 (by decide) (by decide) (by decide) (by decide)
      (by decide) (by decide) (by decide)
    have same : magnitude binary64 (2 ^ 23 * 2 ^ 1) (1 - (1 : Nat)) =
        magnitude binary64 (2 ^ 23) 1 :=
      magnitude_shift binary64 (by decide) 1 1 (by decide)
    refine ⟨b, hb.trans ?_⟩
    rw [encode, encode, whole, ← same]
    rfl
  · have log : m.log2 < 24 := (Nat.log2_lt hm).mpr (by omega)
    obtain ⟨k, hk⟩ : ∃ k, m.log2 + k = 23 := ⟨23 - m.log2, by omega⟩
    have normal := (Nat.log2_eq_iff (Nat.mul_ne_zero hm (Nat.two_pow_pos k).ne')).mp
      ((log2_mul_two_pow hm k).trans hk)
    exact of_shift m k 0 hm small (Int.le_refl 0) (by decide) normal.1 normal.2 (by omega)

/-- Integers up to 2 ^ 24 survive the way to single precision and back. -/
theorem widen_narrow_integer (neg : Bool) {m : Nat} (small : m ≤ 2 ^ 24) :
    widen (narrow (BitVec.ofNat 64 (encode binary64 (.finite neg m 0)))) =
      BitVec.ofNat 64 (encode binary64 (.finite neg m 0)) := by
  by_cases hm : m = 0
  · subst hm
    cases neg <;> decide
  · obtain ⟨b, hb⟩ := exists_widen neg hm small
    rw [← hb, widen_narrow_widen]

end FloatFormats
