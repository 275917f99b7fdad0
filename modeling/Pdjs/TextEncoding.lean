import Mathlib.Data.List.Basic

/-!
# UTF-16 text and its UTF-8 encoding

Text in memory is a sequence of 16-bit code units in which unpaired surrogates
may occur. Encoding writes an unpaired surrogate like any other code point of
its size, so the result need not be valid UTF-8. Decoding accepts any byte
sequence: every maximal ill-formed piece becomes one replacement character.
Text without unpaired surrogates survives encoding and decoding.
-/

namespace TextEncoding

/-- The code points of a text; an unpaired surrogate stands for itself. -/
def codePoints : List UInt16 → List Nat
  | [] => []
  | [u] => [u.toNat]
  | u :: v :: rest =>
    if 0xD800 ≤ u.toNat ∧ u.toNat < 0xDC00 ∧ 0xDC00 ≤ v.toNat ∧ v.toNat < 0xE000 then
      (0x10000 + (u.toNat - 0xD800) * 0x400 + (v.toNat - 0xDC00)) :: codePoints rest
    else u.toNat :: codePoints (v :: rest)

def codeUnits (c : Nat) : List UInt16 :=
  if c < 0x10000 then [UInt16.ofNat c]
  else
    [UInt16.ofNat (0xD800 + (c - 0x10000) / 0x400),
      UInt16.ofNat (0xDC00 + (c - 0x10000) % 0x400)]

def utf8Bytes (c : Nat) : List UInt8 :=
  if c < 0x80 then [UInt8.ofNat c]
  else if c < 0x800 then [UInt8.ofNat (0xC0 + c / 0x40), UInt8.ofNat (0x80 + c % 0x40)]
  else if c < 0x10000 then
    [UInt8.ofNat (0xE0 + c / 0x1000), UInt8.ofNat (0x80 + c / 0x40 % 0x40),
      UInt8.ofNat (0x80 + c % 0x40)]
  else
    [UInt8.ofNat (0xF0 + c / 0x40000), UInt8.ofNat (0x80 + c / 0x1000 % 0x40),
      UInt8.ofNat (0x80 + c / 0x40 % 0x40), UInt8.ofNat (0x80 + c % 0x40)]

def encodeUtf8 (text : List UInt16) : List UInt8 := (codePoints text).flatMap utf8Bytes

/-- A code point begun but not finished: `need` bytes are missing, and the next
of them must lie between `low` and `high`. -/
structure Pending where
  need : Nat
  value : Nat
  low : Nat
  high : Nat

def firstByte (b : Nat) : List Nat × Option Pending :=
  if b < 0x80 then ([b], none)
  else if 0xC2 ≤ b ∧ b ≤ 0xDF then ([], some ⟨1, b - 0xC0, 0x80, 0xBF⟩)
  else if 0xE0 ≤ b ∧ b ≤ 0xEF then
    ([], some ⟨2, b - 0xE0, if b = 0xE0 then 0xA0 else 0x80, if b = 0xED then 0x9F else 0xBF⟩)
  else if 0xF0 ≤ b ∧ b ≤ 0xF4 then
    ([], some ⟨3, b - 0xF0, if b = 0xF0 then 0x90 else 0x80, if b = 0xF4 then 0x8F else 0xBF⟩)
  else ([0xFFFD], none)

/-- A byte that cannot continue the pending code point ends it with a
replacement character and is then read as a first byte. -/
def nextByte (p : Pending) (b : Nat) : List Nat × Option Pending :=
  if p.low ≤ b ∧ b ≤ p.high then
    let value := p.value * 0x40 + (b - 0x80)
    if p.need = 1 then ([value], none) else ([], some ⟨p.need - 1, value, 0x80, 0xBF⟩)
  else (0xFFFD :: (firstByte b).1, (firstByte b).2)

def decodeBytes : Option Pending → List UInt8 → List Nat
  | none, [] => []
  | some _, [] => [0xFFFD]
  | none, b :: bs => (firstByte b.toNat).1 ++ decodeBytes (firstByte b.toNat).2 bs
  | some p, b :: bs => (nextByte p b.toNat).1 ++ decodeBytes (nextByte p b.toNat).2 bs

def decodeUtf8 (bytes : List UInt8) : List UInt16 :=
  (decodeBytes none bytes).flatMap codeUnits

def Scalar (c : Nat) : Prop := c < 0x110000 ∧ ¬ (0xD800 ≤ c ∧ c < 0xE000)

instance (c : Nat) : Decidable (Scalar c) := inferInstanceAs (Decidable (_ ∧ _))

/-- No unpaired surrogate occurs in the text. -/
def WellFormed (text : List UInt16) : Prop := ∀ c ∈ codePoints text, Scalar c

instance (text : List UInt16) : Decidable (WellFormed text) :=
  inferInstanceAs (Decidable (∀ c ∈ codePoints text, Scalar c))

theorem byte_toNat {n : Nat} (hn : n < 256) : (UInt8.ofNat n).toNat = n := by
  simp only [UInt8.toNat_ofNat']
  omega

theorem decodeBytes_last {v low high n : Nat} (hn : n < 256) (hlow : low ≤ n) (hhigh : n ≤ high)
    (bs : List UInt8) :
    decodeBytes (some ⟨1, v, low, high⟩) (UInt8.ofNat n :: bs) =
      (v * 0x40 + (n - 0x80)) :: decodeBytes none bs := by
  rw [decodeBytes, byte_toNat hn, nextByte, if_pos ⟨hlow, hhigh⟩]
  rfl

theorem decodeBytes_more {k v low high n : Nat} (hn : n < 256) (hlow : low ≤ n)
    (hhigh : n ≤ high) (bs : List UInt8) :
    decodeBytes (some ⟨k + 2, v, low, high⟩) (UInt8.ofNat n :: bs) =
      decodeBytes (some ⟨k + 1, v * 0x40 + (n - 0x80), 0x80, 0xBF⟩) bs := by
  have hneed : k + 2 ≠ 1 := by omega
  rw [decodeBytes, byte_toNat hn, nextByte, if_pos ⟨hlow, hhigh⟩]
  simp [hneed]

/-- The bytes of one scalar value are read back as that value. -/
theorem decodeBytes_utf8Bytes {c : Nat} (hc : Scalar c) (bs : List UInt8) :
    decodeBytes none (utf8Bytes c ++ bs) = c :: decodeBytes none bs := by
  obtain ⟨hlt, hsurrogate⟩ := hc
  unfold utf8Bytes
  by_cases h1 : c < 0x80
  · rw [if_pos h1, List.singleton_append, decodeBytes, byte_toNat (by omega), firstByte, if_pos h1]
    rfl
  rw [if_neg h1]
  by_cases h2 : c < 0x800
  · have hvalue : (0xC0 + c / 0x40 - 0xC0) * 0x40 + (0x80 + c % 0x40 - 0x80) = c := by omega
    rw [if_pos h2, List.cons_append, List.singleton_append, decodeBytes, byte_toNat (by omega),
      firstByte, if_neg (by omega), if_pos (by omega), List.nil_append,
      decodeBytes_last (by omega) (by omega) (by omega), hvalue]
  rw [if_neg h2]
  by_cases h3 : c < 0x10000
  · have hvalue : ((0xE0 + c / 0x1000 - 0xE0) * 0x40 + (0x80 + c / 0x40 % 0x40 - 0x80)) * 0x40 +
        (0x80 + c % 0x40 - 0x80) = c := by omega
    rw [if_pos h3, List.cons_append, List.cons_append, List.singleton_append, decodeBytes,
      byte_toNat (by omega), firstByte, if_neg (by omega), if_neg (by omega), if_pos (by omega),
      List.nil_append, decodeBytes_more (by omega) (by split <;> omega) (by split <;> omega),
      decodeBytes_last (by omega) (by omega) (by omega), hvalue]
  have hvalue : (((0xF0 + c / 0x40000 - 0xF0) * 0x40 + (0x80 + c / 0x1000 % 0x40 - 0x80)) * 0x40 +
      (0x80 + c / 0x40 % 0x40 - 0x80)) * 0x40 + (0x80 + c % 0x40 - 0x80) = c := by omega
  rw [if_neg h3, List.cons_append, List.cons_append, List.cons_append, List.singleton_append,
    decodeBytes, byte_toNat (by omega), firstByte, if_neg (by omega), if_neg (by omega),
    if_neg (by omega), if_pos (by omega), List.nil_append,
    decodeBytes_more (by omega) (by split <;> omega) (by split <;> omega),
    decodeBytes_more (by omega) (by omega) (by omega),
    decodeBytes_last (by omega) (by omega) (by omega), hvalue]

theorem decodeBytes_flatMap {cs : List Nat} (hcs : ∀ c ∈ cs, Scalar c) :
    decodeBytes none (cs.flatMap utf8Bytes) = cs := by
  induction cs with
  | nil => rfl
  | cons c cs ih =>
    rw [List.flatMap_cons, decodeBytes_utf8Bytes (hcs c List.mem_cons_self),
      ih (fun d hd => hcs d (List.mem_cons_of_mem c hd))]

theorem unit_ofNat_toNat (u : UInt16) : UInt16.ofNat u.toNat = u := by simp

/-- Splitting a text into code points loses nothing, paired surrogates or not. -/
theorem flatMap_codeUnits_codePoints (text : List UInt16) :
    (codePoints text).flatMap codeUnits = text := by
  induction text using codePoints.induct with
  | case1 => rfl
  | case2 u =>
    have hu : u.toNat < 0x10000 := u.toNat_lt
    simp [codePoints, codeUnits, hu]
  | case3 u v rest h ih =>
    have hhigh : UInt16.ofNat (0xD800 + (u.toNat - 0xD800)) = u := by
      rw [show 0xD800 + (u.toNat - 0xD800) = u.toNat by omega, unit_ofNat_toNat]
    have hlow : UInt16.ofNat (0xDC00 + (v.toNat - 0xDC00)) = v := by
      rw [show 0xDC00 + (v.toNat - 0xDC00) = v.toNat by omega, unit_ofNat_toNat]
    rw [codePoints, if_pos h, List.flatMap_cons, ih, codeUnits, if_neg (by omega)]
    have hdiv : (0x10000 + (u.toNat - 0xD800) * 0x400 + (v.toNat - 0xDC00) - 0x10000) / 0x400 =
        u.toNat - 0xD800 := by omega
    have hmod : (0x10000 + (u.toNat - 0xD800) * 0x400 + (v.toNat - 0xDC00) - 0x10000) % 0x400 =
        v.toNat - 0xDC00 := by omega
    rw [hdiv, hmod, hhigh, hlow]
    rfl
  | case4 u v rest h ih =>
    have hu : u.toNat < 0x10000 := u.toNat_lt
    rw [codePoints, if_neg h, List.flatMap_cons, ih, codeUnits, if_pos hu, unit_ofNat_toNat]
    rfl

theorem decodeUtf8_encodeUtf8 {text : List UInt16} (h : WellFormed text) :
    decodeUtf8 (encodeUtf8 text) = text := by
  rw [decodeUtf8, encodeUtf8, decodeBytes_flatMap h, flatMap_codeUnits_codePoints]

theorem encodeUtf8_injective {s t : List UInt16} (hs : WellFormed s) (ht : WellFormed t)
    (h : encodeUtf8 s = encodeUtf8 t) : s = t := by
  rw [← decodeUtf8_encodeUtf8 hs, h, decodeUtf8_encodeUtf8 ht]

theorem zero_notMem_utf8Bytes {c : Nat} (hpos : 0 < c) (hlt : c < 0x110000) :
    0 ∉ utf8Bytes c := by
  have hne : ∀ {n : Nat}, 0 < n → n < 256 → (0 : UInt8) ≠ UInt8.ofNat n := by
    intro n hn hn' h
    have heq := congrArg UInt8.toNat h
    rw [byte_toNat hn'] at heq
    exact Nat.ne_of_lt hn heq
  unfold utf8Bytes
  split
  · simp only [List.mem_singleton]
    exact hne hpos (by omega)
  split
  · simp only [List.mem_cons, List.not_mem_nil, or_false, not_or]
    exact ⟨hne (by omega) (by omega), hne (by omega) (by omega)⟩
  split
  · simp only [List.mem_cons, List.not_mem_nil, or_false, not_or]
    exact ⟨hne (by omega) (by omega), hne (by omega) (by omega), hne (by omega) (by omega)⟩
  · simp only [List.mem_cons, List.not_mem_nil, or_false, not_or]
    exact ⟨hne (by omega) (by omega), hne (by omega) (by omega), hne (by omega) (by omega),
      hne (by omega) (by omega)⟩

theorem codePoints_bounds {text : List UInt16} (h : 0 ∉ text) :
    ∀ c ∈ codePoints text, 0 < c ∧ c < 0x110000 := by
  have single : ∀ u : UInt16, 0 ≠ u → 0 < u.toNat ∧ u.toNat < 0x110000 := by
    intro u hu
    have hlt := u.toNat_lt
    have hpos : u.toNat ≠ 0 := fun h0 => hu (UInt16.toNat_inj.mp h0).symm
    omega
  induction text using codePoints.induct with
  | case1 => simp [codePoints]
  | case2 u =>
    intro c hc
    simp only [codePoints, List.mem_singleton] at hc
    subst hc
    exact single u (by simpa using h)
  | case3 u v rest hpair ih =>
    intro c hc
    rw [codePoints, if_pos hpair] at hc
    rcases List.mem_cons.mp hc with heq | hc
    · omega
    · exact ih (fun hmem => h (List.mem_cons_of_mem u (List.mem_cons_of_mem v hmem))) c hc
  | case4 u v rest hpair ih =>
    intro c hc
    rw [codePoints, if_neg hpair] at hc
    rcases List.mem_cons.mp hc with rfl | hc
    · exact single u (fun h0 => h (h0 ▸ List.mem_cons_self))
    · exact ih (fun hmem => h (List.mem_cons_of_mem u hmem)) c hc

/-- A text without the character zero is encoded without a zero byte. -/
theorem zero_notMem_encodeUtf8 {text : List UInt16} (h : 0 ∉ text) : 0 ∉ encodeUtf8 text := by
  intro hzero
  obtain ⟨c, hc, hbyte⟩ := List.mem_flatMap.mp hzero
  obtain ⟨hpos, hlt⟩ := codePoints_bounds h c hc
  exact zero_notMem_utf8Bytes hpos hlt hbyte

theorem codePoints_ascii {text : List UInt16} (ascii : ∀ u ∈ text, u.toNat < 0x80) :
    codePoints text = text.map UInt16.toNat := by
  induction text using codePoints.induct with
  | case1 => rfl
  | case2 u => rfl
  | case3 u v rest pair ih =>
    have small := ascii u List.mem_cons_self
    omega
  | case4 u v rest single ih =>
    rw [codePoints, if_neg single, ih fun w hw => ascii w (List.mem_cons_of_mem _ hw)]
    rfl

/-- Bytes below 0x80 are the encoding of a text. -/
theorem exists_text_of_ascii {bytes : List UInt8} (ascii : ∀ b ∈ bytes, b.toNat < 0x80) :
    ∃ text, WellFormed text ∧ bytes = encodeUtf8 text := by
  have unit : ∀ b ∈ bytes, (UInt16.ofNat b.toNat).toNat = b.toNat := by
    intro b hb
    have small := ascii b hb
    simp only [UInt16.toNat_ofNat']
    omega
  have points : codePoints (bytes.map fun b => UInt16.ofNat b.toNat) = bytes.map UInt8.toNat := by
    rw [codePoints_ascii, List.map_map]
    · exact List.map_congr_left unit
    · intro u hu
      obtain ⟨b, hb, rfl⟩ := List.mem_map.mp hu
      exact (unit b hb).symm ▸ ascii b hb
  refine ⟨bytes.map fun b => UInt16.ofNat b.toNat, ?_, ?_⟩
  · intro c hc
    rw [points] at hc
    obtain ⟨b, hb, rfl⟩ := List.mem_map.mp hc
    have small := ascii b hb
    constructor <;> omega
  · have single : ∀ b ∈ bytes, utf8Bytes b.toNat = [b] := by
      intro b hb
      rw [utf8Bytes, if_pos (ascii b hb), UInt8.ofNat_toNat]
    rw [encodeUtf8, points, List.flatMap_map, List.flatMap_congr single,
      List.flatMap_singleton']

end TextEncoding
