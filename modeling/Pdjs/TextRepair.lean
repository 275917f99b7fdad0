import Pdjs.PdAtoms

/-!
# Texts on the way

A symbol may have any bytes but zero for a name and a JavaScript string any code units. A
received name is always a text that survives the way back. A text that is sent arrives up
to its first zero, with three replacement characters for every unpaired surrogate. So what
has been received once does not change any more.
-/

namespace TextRepair

open TextEncoding PdAtoms

/-- A code point of a text that survives: a scalar value other than zero. -/
def Lasting (c : Nat) : Prop := Scalar c ∧ 0 < c

/-- The least code point that the missing bytes can give. -/
def least (p : Pending) : Nat := (p.value * 0x40 + (p.low - 0x80)) * 0x40 ^ (p.need - 1)

/-- The code points that they can give are below this. -/
def bound (p : Pending) : Nat := (p.value * 0x40 + (p.high - 0x80) + 1) * 0x40 ^ (p.need - 1)

/-- Whatever the missing bytes are, they give a lasting code point. -/
structure Sound (p : Pending) : Prop where
  need : 0 < p.need
  low : 0x80 ≤ p.low
  positive : 0 < least p
  below : bound p ≤ 0x110000
  apart : bound p ≤ 0xD800 ∨ 0xE000 ≤ least p

/-- The code points that are complete are lasting and the one that is begun is sound. -/
def Good (read : List Nat × Option Pending) : Prop :=
  (∀ c ∈ read.1, Lasting c) ∧ ∀ p ∈ read.2, Sound p

theorem lasting_replacement : Lasting 0xFFFD := ⟨by decide, by decide⟩

theorem good_begun {p : Pending} (sound : Sound p) : Good ([], some p) :=
  ⟨fun _ hc => absurd hc List.not_mem_nil, fun _ hq => Option.some.inj hq ▸ sound⟩

theorem good_complete {c : Nat} (lasting : Lasting c) : Good ([c], none) :=
  ⟨fun _ hc => List.mem_singleton.mp hc ▸ lasting,
    fun _ hp => absurd hp.symm (Option.some_ne_none _)⟩

theorem good_firstByte {b : Nat} (positive : 0 < b) (small : b < 256) : Good (firstByte b) := by
  rw [firstByte]
  by_cases h1 : b < 0x80
  · rw [if_pos h1]
    exact good_complete ⟨⟨by omega, by omega⟩, positive⟩
  rw [if_neg h1]
  by_cases h2 : 0xC2 ≤ b ∧ b ≤ 0xDF
  · rw [if_pos h2]
    refine good_begun ⟨Nat.one_pos, Nat.le_refl _, ?_, ?_, ?_⟩
    all_goals simp only [least, bound]
    all_goals omega
  rw [if_neg h2]
  by_cases h3 : 0xE0 ≤ b ∧ b ≤ 0xEF
  · rw [if_pos h3]
    refine good_begun ⟨Nat.two_pos, ?_, ?_, ?_, ?_⟩
    all_goals simp only [least, bound]
    all_goals split_ifs <;> omega
  rw [if_neg h3]
  by_cases h4 : 0xF0 ≤ b ∧ b ≤ 0xF4
  · rw [if_pos h4]
    refine good_begun ⟨Nat.succ_pos 2, ?_, ?_, ?_, ?_⟩
    all_goals simp only [least, bound]
    all_goals split_ifs <;> omega
  · rw [if_neg h4]
    exact good_complete lasting_replacement

/-- A byte in the range leaves fewer code points, and one that is the last gives one. -/
theorem good_continued {need value low high b : Nat} (sound : Sound ⟨need + 1, value, low, high⟩)
    (inside : low ≤ b ∧ b ≤ high) :
    (need = 0 → Lasting (value * 0x40 + (b - 0x80))) ∧
      (0 < need → Sound ⟨need, value * 0x40 + (b - 0x80), 0x80, 0xBF⟩) := by
  obtain ⟨_, lowest, positive, below, apart⟩ := sound
  simp only [least, bound, Nat.add_sub_cancel] at positive below apart
  have lower : (value * 0x40 + (low - 0x80)) * 0x40 ^ need ≤
      (value * 0x40 + (b - 0x80)) * 0x40 ^ need := Nat.mul_le_mul_right _ (by omega)
  have upper : (value * 0x40 + (b - 0x80) + 1) * 0x40 ^ need ≤
      (value * 0x40 + (high - 0x80) + 1) * 0x40 ^ need := Nat.mul_le_mul_right _ (by omega)
  constructor
  · rintro rfl
    simp only [pow_zero, Nat.mul_one] at positive below apart lower upper
    exact ⟨⟨by omega, by omega⟩, by omega⟩
  · intro more
    obtain ⟨k, rfl⟩ : ∃ k, need = k + 1 := ⟨need - 1, by omega⟩
    have power : ∀ n : Nat, n * 0x40 ^ (k + 1) = n * 0x40 * 0x40 ^ k := by
      intro n
      rw [Nat.pow_succ, Nat.mul_comm (0x40 ^ k), Nat.mul_assoc]
    have first : least ⟨k + 1, value * 0x40 + (b - 0x80), 0x80, 0xBF⟩ =
        (value * 0x40 + (b - 0x80)) * 0x40 ^ (k + 1) := by
      simp only [least, power, Nat.sub_self, Nat.add_zero, Nat.add_sub_cancel]
    have last : bound ⟨k + 1, value * 0x40 + (b - 0x80), 0x80, 0xBF⟩ =
        (value * 0x40 + (b - 0x80) + 1) * 0x40 ^ (k + 1) := by
      have next : (value * 0x40 + (b - 0x80)) * 0x40 + (0xBF - 0x80) + 1 =
          (value * 0x40 + (b - 0x80) + 1) * 0x40 := by omega
      simp only [bound, power, next, Nat.add_sub_cancel]
    refine ⟨more, Nat.le_refl _, ?_, ?_, ?_⟩
    · rw [first]
      exact Nat.lt_of_lt_of_le positive lower
    · rw [last]
      exact Nat.le_trans upper below
    · rw [first, last]
      exact apart.imp (Nat.le_trans upper) (fun above => Nat.le_trans above lower)

theorem good_nextByte {p : Pending} (sound : Sound p) {b : Nat} (positive : 0 < b)
    (small : b < 256) : Good (nextByte p b) := by
  obtain ⟨need, value, low, high⟩ := p
  have needed : 0 < need := sound.need
  obtain ⟨k, rfl⟩ : ∃ k, need = k + 1 := ⟨need - 1, by omega⟩
  rw [nextByte]
  by_cases continues : low ≤ b ∧ b ≤ high
  · obtain ⟨last, begun⟩ := good_continued sound continues
    rw [if_pos continues]
    dsimp only
    by_cases single : k + 1 = 1
    · rw [if_pos single]
      exact good_complete (last (by omega))
    · rw [if_neg single]
      exact good_begun (begun (by omega))
  · rw [if_neg continues]
    obtain ⟨complete, begun⟩ := good_firstByte positive small
    refine ⟨?_, begun⟩
    intro c hc
    rcases List.mem_cons.mp hc with rfl | hc
    · exact lasting_replacement
    · exact complete c hc

theorem lasting_decodeBytes {bytes : List UInt8} (noNul : 0 ∉ bytes) {p : Option Pending}
    (sound : ∀ q ∈ p, Sound q) : ∀ c ∈ decodeBytes p bytes, Lasting c := by
  induction bytes generalizing p with
  | nil =>
    cases p with
    | none => exact fun _ hc => absurd hc List.not_mem_nil
    | some q => exact fun _ hc => List.mem_singleton.mp hc ▸ lasting_replacement
  | cons b bytes ih =>
    have rest {q : Option Pending} := ih (p := q) fun zero => noNul (List.mem_cons_of_mem _ zero)
    have positive : 0 < b.toNat := by
      have nonzero : b ≠ 0 := fun zero => noNul (zero ▸ List.mem_cons_self)
      have other : b.toNat ≠ 0 := fun zero => nonzero (UInt8.toNat_inj.mp zero)
      omega
    have good : Good (match p with | none => firstByte b.toNat | some q => nextByte q b.toNat) := by
      cases p with
      | none => exact good_firstByte positive b.toNat_lt
      | some q => exact good_nextByte (sound q rfl) positive b.toNat_lt
    intro c hc
    cases p with
    | none =>
      rcases List.mem_append.mp hc with first | later
      · exact good.1 c first
      · exact rest good.2 c later
    | some q =>
      rcases List.mem_append.mp hc with first | later
      · exact good.1 c first
      · exact rest good.2 c later

/-- A scalar value is read off its code units, whatever follows. -/
theorem codePoints_codeUnits {c : Nat} (scalar : Scalar c) (rest : List UInt16) :
    codePoints (codeUnits c ++ rest) = c :: codePoints rest := by
  obtain ⟨small, apart⟩ := scalar
  rw [codeUnits]
  by_cases single : c < 0x10000
  · have unit : (UInt16.ofNat c).toNat = c := by
      simp only [UInt16.toNat_ofNat']
      omega
    rw [if_pos single, List.singleton_append]
    cases rest with
    | nil => exact congrArg (· :: []) unit
    | cons v rest =>
      have noLead : ¬(0xD800 ≤ c ∧ c < 0xDC00 ∧ 0xDC00 ≤ v.toNat ∧ v.toNat < 0xE000) := by omega
      rw [codePoints, unit, if_neg noLead]
  · have lead : (UInt16.ofNat (0xD800 + (c - 0x10000) / 0x400)).toNat =
        0xD800 + (c - 0x10000) / 0x400 := by
      simp only [UInt16.toNat_ofNat']
      omega
    have trail : (UInt16.ofNat (0xDC00 + (c - 0x10000) % 0x400)).toNat =
        0xDC00 + (c - 0x10000) % 0x400 := by
      simp only [UInt16.toNat_ofNat']
      omega
    have value : 0x10000 + (0xD800 + (c - 0x10000) / 0x400 - 0xD800) * 0x400 +
        (0xDC00 + (c - 0x10000) % 0x400 - 0xDC00) = c := by omega
    rw [if_neg single, List.cons_append, List.singleton_append, codePoints, lead, trail,
      if_pos (by omega), value]

theorem codePoints_flatMap {cs : List Nat} (scalars : ∀ c ∈ cs, Scalar c) :
    codePoints (cs.flatMap codeUnits) = cs := by
  induction cs with
  | nil => rfl
  | cons c cs ih =>
    rw [List.flatMap_cons, codePoints_codeUnits (scalars c List.mem_cons_self),
      ih fun d hd => scalars d (List.mem_cons_of_mem _ hd)]

theorem zero_notMem_codeUnits {c : Nat} (lasting : Lasting c) : 0 ∉ codeUnits c := by
  obtain ⟨⟨small, _⟩, positive⟩ := lasting
  have nonzero : ∀ {n : Nat}, 0 < n → n < 0x10000 → (0 : UInt16) ≠ UInt16.ofNat n := by
    intro n hn small zero
    have value := congrArg UInt16.toNat zero
    simp only [UInt16.toNat_ofNat', UInt16.toNat_zero] at value
    omega
  rw [codeUnits]
  split
  · simp only [List.mem_singleton]
    exact nonzero positive (by omega)
  · simp only [List.mem_cons, List.not_mem_nil, or_false, not_or]
    exact ⟨nonzero (by omega) (by omega), nonzero (by omega) (by omega)⟩

theorem transmissible_flatMap {cs : List Nat} (lasting : ∀ c ∈ cs, Lasting c) :
    Transmissible (cs.flatMap codeUnits) := by
  constructor
  · rw [WellFormed, codePoints_flatMap fun c hc => (lasting c hc).1]
    exact fun c hc => (lasting c hc).1
  · intro zero
    obtain ⟨c, hc, unit⟩ := List.mem_flatMap.mp zero
    exact zero_notMem_codeUnits (lasting c hc) unit

/-- What is received can be sent back unchanged. -/
theorem transmissible_decodeUtf8 {bytes : List UInt8} (noNul : 0 ∉ bytes) :
    Transmissible (decodeUtf8 bytes) :=
  transmissible_flatMap (lasting_decodeBytes noNul fun _ none_begun =>
    absurd none_begun.symm (Option.some_ne_none _))

/-- A symbol that is received and sent on. -/
def passedOn (s : Symbol) : Symbol :=
  gensym (jsObjectToString (some (decodeUtf8 s.name.bytes)))

/-- The name is the encoding of a text. -/
def IsUtf8 (s : Symbol) : Prop := ∃ text, WellFormed text ∧ s.name.bytes = encodeUtf8 text

theorem passedOn_bytes (s : Symbol) :
    (passedOn s).name.bytes = encodeUtf8 (decodeUtf8 s.name.bytes) :=
  jsObjectToString_bytes (transmissible_decodeUtf8 s.name.noNul)

/-- Whatever bytes a name has, the symbol reads the same ever after, and it is the same
symbol exactly if its name was a text to begin with. -/
theorem symbol_settles (s : Symbol) :
    Transmissible (decodeUtf8 s.name.bytes) ∧
      jsMarshalAtom (.symbol (passedOn s)) = jsMarshalAtom (.symbol s) ∧
      passedOn (passedOn s) = passedOn s ∧ (passedOn s = s ↔ IsUtf8 s) := by
  have received := transmissible_decodeUtf8 s.name.noNul
  have again : decodeUtf8 (passedOn s).name.bytes = decodeUtf8 s.name.bytes := by
    rw [passedOn_bytes, decodeUtf8_encodeUtf8 received.1]
  refine ⟨received, ?_, ?_, ?_⟩
  · rw [jsMarshalAtom, jsMarshalAtom, again]
  · rw [passedOn, again]
    rfl
  · constructor
    · intro same
      refine ⟨_, received.1, ?_⟩
      rw [← passedOn_bytes, same]
    · rintro ⟨text, formed, name⟩
      have bytes : (passedOn s).name.bytes = s.name.bytes := by
        rw [passedOn_bytes, name, decodeUtf8_encodeUtf8 formed]
      exact congrArg Symbol.mk (CString.ext_bytes bytes)

/-- The text that a function gets if this one is sent. -/
def arrived (text : JsString) : JsString := decodeUtf8 (jsObjectToString (some text)).bytes

/-- The code units that arrive for a code point. -/
def repair (c : Nat) : List UInt16 := if Scalar c then codeUnits c else [0xFFFD, 0xFFFD, 0xFFFD]

theorem codePoints_lt (text : JsString) : ∀ c ∈ codePoints text, c < 0x110000 := by
  induction text using codePoints.induct with
  | case1 => exact fun c hc => absurd hc List.not_mem_nil
  | case2 u =>
    intro c hc
    have unit := u.toNat_lt
    rw [List.mem_singleton.mp hc]
    omega
  | case3 u v rest pair ih =>
    intro c hc
    rw [codePoints, if_pos pair] at hc
    rcases List.mem_cons.mp hc with pairValue | hc
    · omega
    · exact ih c hc
  | case4 u v rest single ih =>
    intro c hc
    rw [codePoints, if_neg single] at hc
    rcases List.mem_cons.mp hc with rfl | hc
    · have unit := u.toNat_lt
      omega
    · exact ih c hc

/-- A C string that holds a text ends at the first zero of the text. -/
theorem takeWhile_utf8Bytes {cs : List Nat} (small : ∀ c ∈ cs, c < 0x110000) :
    (cs.flatMap utf8Bytes).takeWhile (· != 0) =
      (cs.takeWhile (· != 0)).flatMap utf8Bytes := by
  induction cs with
  | nil => rfl
  | cons c cs ih =>
    have rest := ih fun d hd => small d (List.mem_cons_of_mem _ hd)
    rw [List.flatMap_cons]
    by_cases zero : c = 0
    · subst zero
      rfl
    · have nonzero : ∀ b ∈ utf8Bytes c, (b != 0) = true := by
        intro b hb
        have noZero := zero_notMem_utf8Bytes (Nat.pos_of_ne_zero zero) (small c List.mem_cons_self)
        exact bne_iff_ne.mpr fun isZero => noZero (isZero ▸ hb)
      have kept : (c != 0) = true := bne_iff_ne.mpr zero
      rw [List.takeWhile_append_of_pos nonzero, rest]
      simp only [List.takeWhile_cons, kept, if_true, List.flatMap_cons]

/-- The three bytes of a surrogate are read one by one. -/
theorem decodeBytes_surrogate {c : Nat} (surrogate : 0xD800 ≤ c ∧ c < 0xE000)
    (bs : List UInt8) :
    decodeBytes none (utf8Bytes c ++ bs) = [0xFFFD, 0xFFFD, 0xFFFD] ++ decodeBytes none bs := by
  have lead : 0xE0 + c / 0x1000 = 0xED := by omega
  have second : 0xA0 ≤ 0x80 + c / 0x40 % 0x40 ∧ 0x80 + c / 0x40 % 0x40 ≤ 0xBF := by omega
  have third : 0x80 ≤ 0x80 + c % 0x40 ∧ 0x80 + c % 0x40 ≤ 0xBF := by omega
  have stray : ∀ n, 0x80 ≤ n → n ≤ 0xBF → firstByte n = ([0xFFFD], none) := by
    intro n low high
    rw [firstByte, if_neg (by omega), if_neg (by omega), if_neg (by omega), if_neg (by omega)]
  have refused : nextByte ⟨2, 0xD, 0x80, 0x9F⟩ (0x80 + c / 0x40 % 0x40) =
      ([0xFFFD, 0xFFFD], none) := by
    have outside : ¬(0x80 ≤ 0x80 + c / 0x40 % 0x40 ∧ 0x80 + c / 0x40 % 0x40 ≤ 0x9F) := by omega
    rw [nextByte, if_neg outside, stray _ (by omega) second.2]
  have begun : firstByte 0xED = ([], some ⟨2, 0xD, 0x80, 0x9F⟩) := rfl
  rw [utf8Bytes, if_neg (by omega), if_neg (by omega), if_pos (by omega), lead, List.cons_append,
    List.cons_append, List.singleton_append, decodeBytes, byte_toNat (by omega), begun,
    decodeBytes, byte_toNat (by omega), refused, decodeBytes, byte_toNat (by omega),
    stray _ third.1 third.2]
  rfl

theorem decodeBytes_repair {cs : List Nat} (small : ∀ c ∈ cs, c < 0x110000) :
    (decodeBytes none (cs.flatMap utf8Bytes)).flatMap codeUnits = cs.flatMap repair := by
  induction cs with
  | nil => simp only [List.flatMap_nil, decodeBytes]
  | cons c cs ih =>
    have rest := ih fun d hd => small d (List.mem_cons_of_mem _ hd)
    rw [List.flatMap_cons, List.flatMap_cons, repair]
    by_cases scalar : Scalar c
    · rw [if_pos scalar, decodeBytes_utf8Bytes scalar, List.flatMap_cons, rest]
    · have surrogate : 0xD800 ≤ c ∧ c < 0xE000 := by
        by_contra apart
        exact scalar ⟨small c List.mem_cons_self, apart⟩
      have replacement : codeUnits 0xFFFD = [0xFFFD] := by
        rw [codeUnits, if_pos (by omega)]
        rfl
      have three : [0xFFFD, 0xFFFD, 0xFFFD].flatMap codeUnits = [0xFFFD, 0xFFFD, 0xFFFD] := by
        simp only [List.flatMap_cons, List.flatMap_nil, replacement, List.cons_append,
          List.nil_append]
      rw [if_neg scalar, decodeBytes_surrogate surrogate, List.flatMap_append, rest, three]

/-- What arrives, for every text: the code points before the first zero, repaired. -/
theorem arrived_eq (text : JsString) :
    arrived text = ((codePoints text).takeWhile (· != 0)).flatMap repair := by
  have bytes : (jsObjectToString (some text)).bytes =
      ((codePoints text).takeWhile (· != 0)).flatMap utf8Bytes :=
    takeWhile_utf8Bytes (codePoints_lt text)
  rw [arrived, decodeUtf8, bytes]
  apply decodeBytes_repair
  intro c hc
  exact codePoints_lt text c ((List.takeWhile_sublist _).subset hc)

/-- A text that is sent arrives repaired, as a text that arrives unchanged from then on,
and only such texts do. -/
theorem text_settles (text : JsString) :
    arrived text = ((codePoints text).takeWhile (· != 0)).flatMap repair ∧
      Transmissible (arrived text) ∧ arrived (arrived text) = arrived text ∧
      (arrived text = text ↔ Transmissible text) := by
  have unchanged : ∀ {t : JsString}, Transmissible t → arrived t = t := by
    intro t transmissible
    rw [arrived, jsObjectToString_bytes transmissible, decodeUtf8_encodeUtf8 transmissible.1]
  have received : Transmissible (arrived text) :=
    transmissible_decodeUtf8 (jsObjectToString (some text)).noNul
  exact ⟨arrived_eq text, received, unchanged received, fun same => same ▸ received, unchanged⟩

/-- An unpaired surrogate and what comes after a zero do not arrive. -/
example : arrived [0x61, 0xD800, 0x62, 0, 0x63] = [0x61, 0xFFFD, 0xFFFD, 0xFFFD, 0x62] := by
  decide

end TextRepair
