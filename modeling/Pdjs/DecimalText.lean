import Mathlib.Algebra.Ring.Nat
import Mathlib.Data.List.TakeWhile

/-!
# Decimal spellings and the conversion of text to an unsigned 64-bit number

`decimal` is the shortest decimal spelling of a number. `stoull` reads a number
the way the standard library does: blanks and one sign may precede the digits,
anything may follow them, a minus sign negates modulo two to the 64, and a text
without digits or with too large a number is refused.
-/

namespace DecimalText

/-- A character below 256 as one byte. -/
def byteOf (c : Char) : UInt8 := c.toNat.toUInt8

def decimal (n : Nat) : List UInt8 := (Nat.toDigits 10 n).map byteOf

def isSpace (b : UInt8) : Bool := b == 32 || (9 ≤ b && b ≤ 13)

def isDigit (b : UInt8) : Bool := 48 ≤ b && b ≤ 57

def digitsValue (bs : List UInt8) : Nat :=
  bs.foldl (fun v b => 10 * v + (b.toNat - 48)) 0

/-- The sign in front of the digits: whether it negates, and what follows it. -/
def splitSign : List UInt8 → Bool × List UInt8
  | 45 :: bs => (true, bs)
  | 43 :: bs => (false, bs)
  | bs => (false, bs)

/-- `none` stands for the exceptions `invalid_argument` and `out_of_range`. -/
def stoull (bs : List UInt8) : Option Nat :=
  let (negate, rest) := splitSign (bs.dropWhile isSpace)
  let digits := rest.takeWhile isDigit
  let v := digitsValue digits
  if digits.isEmpty ∨ 2 ^ 64 ≤ v then none
  else if negate then some ((2 ^ 64 - v) % 2 ^ 64)
  else some v

theorem byteOf_digit {c : Char} (hc : c.isDigit) :
    (byteOf c).toNat = c.toNat ∧ 48 ≤ c.toNat ∧ c.toNat ≤ 57 := by
  simp only [Char.isDigit, Bool.and_eq_true, decide_eq_true_eq, UInt32.le_iff_toNat_le] at hc
  have hlo : 48 ≤ c.toNat := hc.1
  have hhi : c.toNat ≤ 57 := hc.2
  refine ⟨?_, hlo, hhi⟩
  simp only [byteOf, UInt8.toNat_ofNat']
  omega

theorem toDigits_isDigit {n : Nat} {c : Char} (hc : c ∈ Nat.toDigits 10 n) : c.isDigit :=
  Nat.isDigit_of_mem_toDigits (by decide) (by decide) hc

theorem decimal_digits {n : Nat} {b : UInt8} (hb : b ∈ decimal n) :
    48 ≤ b.toNat ∧ b.toNat ≤ 57 := by
  obtain ⟨c, hc, rfl⟩ := List.mem_map.mp hb
  obtain ⟨heq, hlo, hhi⟩ := byteOf_digit (toDigits_isDigit hc)
  omega

theorem decimal_ne_nil (n : Nat) : decimal n ≠ [] := by
  rw [decimal, Ne, List.map_eq_nil_iff, Nat.toDigits_eq_if (by decide)]
  split <;> simp

theorem digitsValue_decimal (n : Nat) : digitsValue (decimal n) = n := by
  have step : ∀ (cs : List Char) (v : Nat), (∀ c ∈ cs, c.isDigit) →
      (cs.map byteOf).foldl (fun v b => 10 * v + (b.toNat - 48)) v = Nat.ofDigitChars 10 cs v := by
    intro cs
    induction cs with
    | nil => intro v _; simp
    | cons c cs ih =>
      intro v h
      rw [List.map_cons, List.foldl_cons, Nat.ofDigitChars_cons,
        (byteOf_digit (h c List.mem_cons_self)).1]
      exact ih _ (fun d hd => h d (List.mem_cons_of_mem c hd))
  rw [digitsValue, decimal, step _ 0 (fun c hc => toDigits_isDigit hc)]
  exact Nat.ofDigitChars_toDigits (by decide) (by decide)

theorem takeWhile_isDigit_decimal (n : Nat) : (decimal n).takeWhile isDigit = decimal n := by
  rw [List.takeWhile_eq_self_iff]
  intro b hb
  obtain ⟨hlo, hhi⟩ := decimal_digits hb
  simp only [isDigit, Bool.and_eq_true, decide_eq_true_eq, UInt8.le_iff_toNat_le]
  exact ⟨hlo, hhi⟩

/-- A sign in front of digits: whether it negates, and how it is written. -/
inductive SignText : Bool → List UInt8 → Prop where
  | unsigned : SignText false []
  | plus : SignText false [43]
  | minus : SignText true [45]

/-- `bs` is made of blanks, a sign, the digits and something that does not go on with
digits. -/
def Spelled (bs : List UInt8) (negate : Bool) (digits : List UInt8) : Prop :=
  ∃ blanks sign rest, bs = blanks ++ (sign ++ (digits ++ rest)) ∧
    (∀ b ∈ blanks, isSpace b) ∧ SignText negate sign ∧ (∀ b ∈ digits, isDigit b) ∧
    digits ≠ [] ∧ rest.takeWhile isDigit = []

theorem isDigit_bounds {b : UInt8} (digit : isDigit b) : 48 ≤ b.toNat ∧ b.toNat ≤ 57 := by
  simp only [isDigit, Bool.and_eq_true, decide_eq_true_eq, UInt8.le_iff_toNat_le] at digit
  exact digit

theorem isSpace_of_isDigit {b : UInt8} (digit : isDigit b) : isSpace b = false := by
  obtain ⟨low, high⟩ := isDigit_bounds digit
  by_contra space
  simp only [isSpace, Bool.not_eq_false, Bool.or_eq_true, Bool.and_eq_true, beq_iff_eq,
    decide_eq_true_eq, UInt8.le_iff_toNat_le] at space
  rcases space with rfl | ⟨_, small⟩
  · exact absurd low (by decide)
  · have below : b.toNat ≤ 13 := small
    omega

theorem takeWhile_dropWhile_isDigit (bs : List UInt8) :
    (bs.dropWhile isDigit).takeWhile isDigit = [] := by
  cases left : bs.dropWhile isDigit with
  | nil => rfl
  | cons b rest =>
    have stop : bs.dropWhile isDigit ≠ [] := by simp [left]
    have first := List.head_dropWhile_not isDigit stop
    simp only [left, List.head_cons] at first
    exact List.takeWhile_cons_of_neg (by simp [first])

/-- The sign is split off whatever follows it. -/
theorem splitSign_cases (bs : List UInt8) :
    ∃ sign, SignText (splitSign bs).1 sign ∧ bs = sign ++ (splitSign bs).2 := by
  unfold splitSign
  split
  · exact ⟨[45], .minus, rfl⟩
  · exact ⟨[43], .plus, rfl⟩
  · exact ⟨[], .unsigned, rfl⟩

theorem splitSign_spelled {negate : Bool} {sign digits rest : List UInt8}
    (signed : SignText negate sign) (all : ∀ b ∈ digits, isDigit b) (nonempty : digits ≠ []) :
    splitSign (sign ++ (digits ++ rest)) = (negate, digits ++ rest) := by
  cases signed with
  | plus => rfl
  | minus => rfl
  | unsigned =>
    obtain ⟨b, bs, rfl⟩ := List.exists_cons_of_ne_nil nonempty
    obtain ⟨low, _⟩ := isDigit_bounds (all b List.mem_cons_self)
    simp only [List.nil_append, List.cons_append]
    unfold splitSign
    split
    · rename_i same
      cases same
      exact absurd low (by decide)
    · rename_i same
      cases same
      exact absurd low (by decide)
    · rfl

theorem dropWhile_isSpace_spelled {negate : Bool} {blanks sign digits rest : List UInt8}
    (blank : ∀ b ∈ blanks, isSpace b) (signed : SignText negate sign)
    (all : ∀ b ∈ digits, isDigit b) (nonempty : digits ≠ []) :
    (blanks ++ (sign ++ (digits ++ rest))).dropWhile isSpace = sign ++ (digits ++ rest) := by
  rw [List.dropWhile_append_of_pos blank]
  cases signed with
  | plus => rfl
  | minus => rfl
  | unsigned =>
    obtain ⟨b, bs, rfl⟩ := List.exists_cons_of_ne_nil nonempty
    have notBlank := isSpace_of_isDigit (all b List.mem_cons_self)
    exact List.dropWhile_cons_of_neg (by simp [notBlank])

theorem spelled_of_stoull {bs : List UInt8} {n : Nat} (read : stoull bs = some n) :
    ∃ negate digits, Spelled bs negate digits ∧ digitsValue digits < 2 ^ 64 ∧
      n = if negate then (2 ^ 64 - digitsValue digits) % 2 ^ 64 else digitsValue digits := by
  obtain ⟨sign, signed, parts⟩ := splitSign_cases (bs.dropWhile isSpace)
  refine ⟨(splitSign (bs.dropWhile isSpace)).1,
    (splitSign (bs.dropWhile isSpace)).2.takeWhile isDigit, ?_, ?_⟩
  · refine ⟨bs.takeWhile isSpace, sign,
      (splitSign (bs.dropWhile isSpace)).2.dropWhile isDigit, ?_, ?_, signed, ?_, ?_, ?_⟩
    · rw [List.takeWhile_append_dropWhile, ← parts, List.takeWhile_append_dropWhile]
    · exact fun b hb => List.mem_takeWhile_imp hb
    · exact fun b hb => List.mem_takeWhile_imp hb
    · intro empty
      simp [stoull, empty] at read
    · exact takeWhile_dropWhile_isDigit _
  · simp only [stoull] at read
    obtain ⟨kept, value⟩ := Option.ite_none_left_eq_some.mp read
    refine ⟨by omega, ?_⟩
    cases negated : (splitSign (bs.dropWhile isSpace)).1 with
    | true =>
      rw [negated] at value
      exact (Option.some.inj value).symm
    | false =>
      rw [negated] at value
      exact (Option.some.inj value).symm

theorem stoull_of_spelled {bs digits : List UInt8} {negate : Bool}
    (spelled : Spelled bs negate digits) (small : digitsValue digits < 2 ^ 64) :
    stoull bs =
      some (if negate then (2 ^ 64 - digitsValue digits) % 2 ^ 64 else digitsValue digits) := by
  obtain ⟨blanks, sign, rest, rfl, blank, signed, all, nonempty, ends⟩ := spelled
  have digitsOnly : (digits ++ rest).takeWhile isDigit = digits := by
    rw [List.takeWhile_append_of_pos all, ends, List.append_nil]
  have kept : ¬ (digits.isEmpty = true ∨ 2 ^ 64 ≤ digitsValue digits) := by
    rintro (empty | large)
    · exact nonempty (List.isEmpty_iff.mp empty)
    · omega
  rw [stoull, dropWhile_isSpace_spelled blank signed all nonempty,
    splitSign_spelled signed all nonempty]
  simp only [digitsOnly]
  rw [if_neg kept]
  cases negate <;> rfl

/-- What `stoull` accepts: a minus sign negates modulo two to the 64. -/
theorem stoull_eq_some_iff {bs : List UInt8} {n : Nat} :
    stoull bs = some n ↔ ∃ negate digits, Spelled bs negate digits ∧
      digitsValue digits < 2 ^ 64 ∧
      n = if negate then (2 ^ 64 - digitsValue digits) % 2 ^ 64 else digitsValue digits := by
  constructor
  · exact spelled_of_stoull
  · rintro ⟨negate, digits, spelled, small, rfl⟩
    exact stoull_of_spelled spelled small

theorem spelled_decimal (n : Nat) : Spelled (decimal n) false (decimal n) := by
  refine ⟨[], [], [], by simp, fun b hb => absurd hb List.not_mem_nil, .unsigned, ?_,
    decimal_ne_nil n, rfl⟩
  exact List.takeWhile_eq_self_iff.mp (takeWhile_isDigit_decimal n)

/-- The spelling of a 64-bit number is read back as that number. -/
theorem stoull_decimal {n : Nat} (hn : n < 2 ^ 64) : stoull (decimal n) = some n := by
  have small : digitsValue (decimal n) < 2 ^ 64 := by rwa [digitsValue_decimal]
  have read := stoull_of_spelled (spelled_decimal n) small
  rwa [digitsValue_decimal] at read

end DecimalText
