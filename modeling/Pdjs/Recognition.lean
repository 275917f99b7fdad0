import Pdjs.Addresses
import Pdjs.ObjectReferences

/-!
# What is taken for an id

An id is sent as the plain decimal spelling of a positive address. The decoder reads
it as an unsigned 64-bit number, with blanks, a sign and leading zeros before it and
anything behind it, and keeps as many low bits of that number as a pointer has. So
every registered address has other spellings that are taken for ids as well.
-/

namespace Recognition

open GuardedRuns PdAtoms ObjectRegistry DecimalText Marshalling Flattening RoundTrip
open WeakHandles ObjectReferences

variable {P : Platform}

/-- The id is what is sent, after the mark, for an object that the registry has a handle
to. -/
def Emitted (s : State P) (id : Symbol) : Prop :=
  ∃ p o, s.reg.Holds p o ∧
    ∀ (h : Heap) alloc x fuel, h.kind o ≠ .array → h.kind o ≠ .stringObject →
      jsUnmarshalArg h alloc x (fuel + 1) (.object o) s.reg =
        some ([.symbol sJsobject, .symbol id], s.reg)

/-- The text is a spelling of the address: its number, modulo two to the 64, has the
address as its low bits. -/
def Denotes (id : Symbol) (p : Addr P) : Prop :=
  ∃ negate digits, Spelled id.name.bytes negate digits ∧ digitsValue digits < 2 ^ 64 ∧
    BitVec.ofNat P.width
      (if negate then (2 ^ 64 - digitsValue digits) % 2 ^ 64 else digitsValue digits) = p

/-- The plain decimal spelling of an address in the lower half of the address space. -/
def Canonical (P : Platform) (id : Symbol) : Prop :=
  ∃ n, 0 < n ∧ n < 2 ^ (P.width - 1) ∧ id.name.bytes = decimal n

theorem pointer_eq_some_iff {id : Symbol} {p : Addr P} :
    Addresses.pointer P id = some p ↔ Denotes id p := by
  rw [Addresses.pointer, Option.map_eq_some_iff, Denotes]
  constructor
  · rintro ⟨n, read, rfl⟩
    obtain ⟨negate, digits, spelled, small, rfl⟩ := stoull_eq_some_iff.mp read
    exact ⟨negate, digits, spelled, small, rfl⟩
  · rintro ⟨negate, digits, spelled, small, rfl⟩
    exact ⟨_, stoull_eq_some_iff.mpr ⟨negate, digits, spelled, small, rfl⟩, rfl⟩

/-- The decoder looks the denoted address up. -/
theorem jsMarshalObject_eq_some_iff {r : Registry P} {id : Symbol} {o : Ref} :
    jsMarshalObject r id = some o ↔ ∃ p, Denotes id p ∧ r.Holds p o := by
  simp only [← pointer_eq_some_iff, Addresses.pointer, Option.map_eq_some_iff]
  rw [jsMarshalObject]
  constructor
  · intro found
    cases read : stoull id.name.bytes with
    | none => simp [read] at found
    | some n =>
      simp only [read] at found
      obtain ⟨known, cell⟩ := Option.ite_none_right_eq_some.mp found
      exact ⟨_, ⟨n, rfl, rfl⟩, known, cell⟩
  · rintro ⟨_, ⟨n, read, rfl⟩, known, cell⟩
    simp only [read]
    rw [if_pos known, cell]

/-- A positive address is a number below half of the address space. -/
theorem toInt_toNat_of_pos {p : Addr P} (positive : 0 < p.toInt) :
    p.toInt.toNat = p.toNat ∧ 0 < p.toNat ∧ p.toNat < 2 ^ (P.width - 1) := by
  have nonnull : p ≠ 0 := by
    rintro rfl
    simp at positive
  have lower := (Addresses.toInt_pos_iff nonnull).mp positive
  have halves : 2 ^ P.width = 2 * 2 ^ (P.width - 1) := by cases P <;> rfl
  have plain : p.toInt = p.toNat := by
    rw [BitVec.toInt_eq_toNat_cond, if_pos (by omega)]
  omega

theorem canonical_iff {id : Symbol} :
    Canonical P id ↔ ∃ p : Addr P, 0 < p.toInt ∧ id = gensym (idText p) := by
  constructor
  · rintro ⟨n, positive, lower, spelled⟩
    have halves : 2 ^ P.width = 2 * 2 ^ (P.width - 1) := by cases P <;> rfl
    have value : (BitVec.ofNat P.width n).toNat = n := by
      rw [BitVec.toNat_ofNat]
      exact Nat.mod_eq_of_lt (by omega)
    have nonnull : BitVec.ofNat P.width n ≠ 0 := by
      intro zero
      rw [zero] at value
      simp at value
      omega
    have above : 0 < (BitVec.ofNat P.width n).toInt :=
      (Addresses.toInt_pos_iff nonnull).mpr (value.symm ▸ lower)
    refine ⟨BitVec.ofNat P.width n, above, ?_⟩
    have text : id.name = idText (BitVec.ofNat P.width n) := by
      apply CString.ext_bytes
      rw [idText, CString.ofBytes_bytes (zero_notMem_decimal _), (toInt_toNat_of_pos above).1,
        value, spelled]
    exact congrArg Symbol.mk text
  · rintro ⟨p, positive, rfl⟩
    obtain ⟨plain, above, lower⟩ := toInt_toNat_of_pos positive
    refine ⟨p.toNat, above, lower, ?_⟩
    rw [gensym, idText, CString.ofBytes_bytes (zero_notMem_decimal _), plain]

theorem denotes_idText {p : Addr P} (positive : 0 < p.toInt) :
    Denotes (gensym (idText p)) p := by
  obtain ⟨n, read, back⟩ := stoull_idText positive
  rw [← pointer_eq_some_iff, Addresses.pointer, gensym, read, Option.map_some, back]

theorem denotes_unique {id : Symbol} {p q : Addr P} (hp : Denotes id p) (hq : Denotes id q) :
    p = q :=
  Option.some.inj ((pointer_eq_some_iff.mpr hp).symm.trans (pointer_eq_some_iff.mpr hq))

/-- What is emitted are the ids of the handles at positive addresses. -/
theorem emitted_iff {s : State P} (c : Consistent s) {id : Symbol} :
    Emitted s id ↔ ∃ p ∈ s.reg.jsobjects, 0 < p.toInt ∧ id = gensym (idText p) := by
  have sent : ∀ {p o}, s.reg.Holds p o → ∀ (h : Heap) alloc x fuel, h.kind o ≠ .array →
      h.kind o ≠ .stringObject → jsUnmarshalArg h alloc x (fuel + 1) (.object o) s.reg =
        some (symbolAtoms (.ofAscii "jsobject", p), s.reg) := by
    intro p o held h alloc x fuel single object
    have leaf : ¬ IsArray h (.object o) := by
      rintro ⟨o', same, kind⟩
      cases same
      exact single kind
    rw [jsUnmarshalArg_leaf leaf, encodeLeaf_object object]
    simp only [jsUnmarshalObject, c.find_eq held]
  constructor
  · rintro ⟨p, o, held, emitted⟩
    have single : Addresses.plainHeap.kind o ≠ .array := Kind.noConfusion
    have object : Addresses.plainHeap.kind o ≠ .stringObject := Kind.noConfusion
    have atoms := (sent held Addresses.plainHeap (fun _ => 0) 0 0 single object).symm.trans
      (emitted Addresses.plainHeap (fun _ => 0) 0 0 single object)
    by_cases positive : 0 < p.toInt
    · refine ⟨p, held.1, positive, ?_⟩
      simp only [symbolAtoms, positive, if_true] at atoms
      cases atoms
      rfl
    · simp [symbolAtoms, positive] at atoms
  · rintro ⟨p, known, positive, rfl⟩
    obtain ⟨o, cell, _⟩ := c.refers p known
    refine ⟨p, o, ⟨known, cell⟩, ?_⟩
    intro h alloc x fuel single object
    rw [sent ⟨known, cell⟩ h alloc x fuel single object]
    simp only [symbolAtoms, positive, if_true]
    rfl

/-- The text yields an object if and only if it is an id that is sent. -/
def Exact (s : State P) (id : Symbol) : Prop :=
  (∃ o, jsMarshalObject s.reg id = some o) ↔ Emitted s id

/-- In every run the decoder goes by what the encoder sends, except for the spellings
of registered addresses other than the plain one. -/
theorem exact_iff {s : State P} (h : Reachable (handles P) always s) (id : Symbol) :
    Exact s id ↔ Canonical P id ∨ ∀ p ∈ s.reg.jsobjects, ¬ Denotes id p := by
  have c := consistent h
  rw [Exact, emitted_iff c]
  constructor
  · intro exact_here
    by_cases denoted : ∃ p ∈ s.reg.jsobjects, Denotes id p
    · obtain ⟨p, known, denotes⟩ := denoted
      obtain ⟨o, cell, _⟩ := c.refers p known
      have yields : jsMarshalObject s.reg id = some o :=
        jsMarshalObject_eq_some_iff.mpr ⟨p, denotes, known, cell⟩
      obtain ⟨q, _, positive, same⟩ := exact_here.mp ⟨o, yields⟩
      exact .inl (canonical_iff.mpr ⟨q, positive, same⟩)
    · exact .inr fun p known denotes => denoted ⟨p, known, denotes⟩
  · intro condition
    constructor
    · rintro ⟨o, yields⟩
      obtain ⟨p, denotes, known, _⟩ := jsMarshalObject_eq_some_iff.mp yields
      rcases condition with canonical | unregistered
      · obtain ⟨q, positive, rfl⟩ := canonical_iff.mp canonical
        have same := denotes_unique (denotes_idText positive) denotes
        exact ⟨q, same ▸ known, positive, rfl⟩
      · exact absurd denotes (unregistered p known)
    · rintro ⟨p, known, positive, rfl⟩
      obtain ⟨o, cell, _⟩ := c.refers p known
      exact ⟨o, jsMarshalObject_of_holds positive ⟨known, cell⟩⟩

/-- With the object 0 at address 4096, its plain id is treated as it should be. -/
theorem exact_iff_plain : Exact firstSent (gensym (.ofAscii "4096")) := by
  have reached : Reachable (handles .bits64) always firstSent :=
    reachable_firstSent (fun _ => trivial) trivial
  rw [exact_iff reached]
  exact .inl ⟨4096, by decide, by decide, by decide⟩

/-- The text `4096x` is never sent, and is taken for the id of that object. -/
theorem not_exact_trailing :
    Reachable (handles .bits64) always firstSent ∧
      jsMarshalObject firstSent.reg (gensym (.ofAscii "4096x")) = some 0 ∧
      ¬ Emitted firstSent (gensym (.ofAscii "4096x")) := by
  have reached : Reachable (handles .bits64) always firstSent :=
    reachable_firstSent (fun _ => trivial) trivial
  refine ⟨reached, by decide, ?_⟩
  rw [emitted_iff (consistent reached)]
  rintro ⟨p, known, _, same⟩
  have only : firstSent.reg.jsobjects = [0x1000] := by decide
  rw [only, List.mem_singleton] at known
  subst known
  exact absurd same (by decide)

end Recognition
