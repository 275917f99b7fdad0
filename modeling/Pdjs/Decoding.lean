import Pdjs.RoundTrip

/-!
# Decoding position by position

The loop of the decoder consumes two atoms where it recognises an object, and it
converts the second of them as well. An id is never a mark, so the outcome is that
of a map: every atom becomes what it and the atom behind it determine, and two
vectors may be decoded apart unless a pair lies across the cut.
-/

namespace Decoding

open PdAtoms ObjectRegistry Marshalling RoundTrip

variable {P : Platform}

/-- What an atom becomes, given the atom behind it. -/
def valueAt (r : Registry P) (a : Atom) (behind : Option Atom) : Option Value :=
  match pairHead r (a :: behind.toList) with
  | some val => some (.object val)
  | none => jsMarshalAtom a

/-- Every atom for itself. -/
def valuesOf (r : Registry P) : List Atom → List Value
  | [] => []
  | a :: rest => (valueAt r a rest.head?).toList ++ valuesOf r rest

/-- Only the first two atoms are looked at. -/
theorem pairHead_head? (r : Registry P) (a : Atom) (rest : List Atom) :
    pairHead r (a :: rest.head?.toList) = pairHead r (a :: rest) := by
  rcases rest with _ | ⟨_ | s | _, rest⟩ <;> rfl

theorem pairHead_eq_some_iff {r : Registry P} {a : Atom} {rest : List Atom} {val : Ref} :
    pairHead r (a :: rest) = some val ↔
      a = .symbol sJsobject ∧ ∃ id after, rest = .symbol id :: after ∧
        jsMarshalObject r id = some val := by
  rcases rest with _ | ⟨_ | s | _, rest⟩ <;> simp [pairHead]

/-- The mark of an object is not the text of a number. -/
theorem jsMarshalObject_mark (r : Registry P) : jsMarshalObject r sJsobject = none := by
  have unread : DecimalText.stoull sJsobject.name.bytes = none := by decide
  simp only [jsMarshalObject, unread]

/-- Behind a recognised mark there is no other one. -/
theorem pairHead_id {r : Registry P} {a b : Atom} {rest : List Atom} {val : Ref}
    (paired : pairHead r (a :: b :: rest) = some val) (after : List Atom) :
    pairHead r (b :: after) = none := by
  obtain ⟨_, id, _, ⟨⟩, found⟩ := pairHead_eq_some_iff.mp paired
  rw [Option.eq_none_iff_forall_not_mem]
  intro val' again
  obtain ⟨mark, _⟩ := pairHead_eq_some_iff.mp again
  cases mark
  cases (jsMarshalObject_mark r).symm.trans found

theorem pairHead_of_ne {r : Registry P} {a : Atom} (unmarked : a ≠ .symbol sJsobject)
    (rest : List Atom) : pairHead r (a :: rest) = none := by
  rcases rest with _ | ⟨_ | s | _, rest⟩ <;> simp [pairHead, unmarked]

/-- The id of an object is not the text of the mark. -/
theorem idText_ne_mark (p : Addr P) : idText p ≠ .ofAscii "jsobject" := by
  intro same
  have first : (106 : UInt8) ∈ DecimalText.decimal p.toInt.toNat := by
    have bytes := congrArg CString.bytes same
    rw [idText, CString.ofBytes_bytes (zero_notMem_decimal _)] at bytes
    rw [bytes]
    decide
  exact absurd (DecimalText.decimal_digits first).2 (by decide)

theorem decoded_eq_valuesOf (r : Registry P) (atoms : List Atom) :
    decoded r atoms = valuesOf r atoms := by
  induction atoms using decoded.induct r with
  | case1 => rfl
  | case2 a =>
    have alone : pairHead r [a] = none := rfl
    simp [decoded, valuesOf, valueAt, alone]
  | case3 a b rest val paired ih =>
    have here : pairHead r [a, b] = some val := (pairHead_head? r a (b :: rest)).trans paired
    have behind := pairHead_id paired rest.head?.toList
    simp [decoded_paired paired, valuesOf, valueAt, here, behind, ih]
  | case4 a b rest unpaired ih =>
    have here : pairHead r [a, b] = none := (pairHead_head? r a (b :: rest)).trans unpaired
    simp [decoded_unpaired unpaired, valuesOf, valueAt, here, ih]

theorem valuesOf_range' (r : Registry P) (argv : Nat → Atom) (n : Nat) :
    ∀ i, valuesOf r ((List.range' i n).map argv) =
      (List.range' i n).filterMap fun j =>
        valueAt r (argv j) (if j + 1 < i + n then some (argv (j + 1)) else none) := by
  induction n with
  | zero => exact fun i => rfl
  | succ n ih =>
    intro i
    have next : ((List.range' (i + 1) n).map argv).head? =
        if i + 1 < i + (n + 1) then some (argv (i + 1)) else none := by
      cases n with
      | zero => simp
      | succ n => simp [List.range'_succ]
    have later : i + 1 + n = i + (n + 1) := by omega
    rw [List.range'_succ, List.map_cons, valuesOf, ih, next, later, List.filterMap_cons]
    cases valueAt r (argv i) (if i + 1 < i + (n + 1) then some (argv (i + 1)) else none) <;> rfl

/-- The value of an index depends on its atom and on the next one, if there is one. -/
theorem jsMarshalArgs_positionwise (r : Registry P) (argc : Nat) (argv : Nat → Atom) :
    (jsMarshalArgs r argc argv).values =
      (List.range argc).filterMap fun i =>
        valueAt r (argv i) (if i + 1 < argc then some (argv (i + 1)) else none) := by
  have whole : Window argc argv 0 ((List.range argc).map argv) := by
    constructor
    · simp
    · intro j hj
      simp
  have byIndex := valuesOf_range' r argv argc 0
  rw [← List.range_eq_range', Nat.zero_add] at byIndex
  rw [jsMarshalArgs, marshalFrom_values r argc argv argc 0 _ whole (by omega),
    decoded_eq_valuesOf, byIndex]

/-- A mark is the last atom before the cut and the id of a live object the first behind. -/
def Straddles (r : Registry P) (atoms more : List Atom) : Prop :=
  ∃ before id after val, atoms = before ++ [.symbol sJsobject] ∧ more = .symbol id :: after ∧
    jsMarshalObject r id = some val

theorem straddles_cons {r : Registry P} {a b : Atom} {rest more : List Atom} :
    Straddles r (a :: b :: rest) more ↔ Straddles r (b :: rest) more := by
  constructor
  · rintro ⟨before, id, after, val, parts, rfl, found⟩
    cases before with
    | nil => cases (List.cons.inj parts).2
    | cons c before => exact ⟨before, id, after, val, (List.cons.inj parts).2, rfl, found⟩
  · rintro ⟨before, id, after, val, parts, rfl, found⟩
    exact ⟨a :: before, id, after, val, congrArg (a :: ·) parts, rfl, found⟩

theorem straddles_singleton {r : Registry P} {a : Atom} {more : List Atom} :
    Straddles r [a] more ↔ ∃ val, pairHead r (a :: more) = some val := by
  constructor
  · rintro ⟨before, id, after, val, parts, rfl, found⟩
    obtain rfl : before = [] := by
      have one := congrArg List.length parts
      simp only [List.length_append, List.length_cons, List.length_nil] at one
      exact List.length_eq_zero_iff.mp (by omega)
    cases parts
    exact ⟨val, pairHead_eq_some_iff.mpr ⟨rfl, id, after, rfl, found⟩⟩
  · rintro ⟨val, paired⟩
    obtain ⟨rfl, id, after, rfl, found⟩ := pairHead_eq_some_iff.mp paired
    exact ⟨[], id, after, val, rfl, rfl, found⟩

/-- What an atom converts to is not an object. -/
theorem jsMarshalAtom_ne_object (a : Atom) (o : Ref) : jsMarshalAtom a ≠ some (.object o) := by
  cases a <;> exact fun same => by cases same

theorem valueAt_cut {r : Registry P} {a : Atom} {more : List Atom} :
    valueAt r a more.head? = valueAt r a none ↔ ∀ val, pairHead r (a :: more) ≠ some val := by
  have alone : valueAt r a none = jsMarshalAtom a := rfl
  rw [alone, valueAt, pairHead_head?]
  cases pairHead r (a :: more) with
  | none => simp
  | some val => simpa using (jsMarshalAtom_ne_object a val).symm

theorem valuesOf_append_iff (r : Registry P) (atoms more : List Atom) :
    valuesOf r (atoms ++ more) = valuesOf r atoms ++ valuesOf r more ↔
      ¬ Straddles r atoms more := by
  induction atoms with
  | nil =>
    refine ⟨?_, fun _ => rfl⟩
    rintro _ ⟨before, _, _, _, parts, _⟩
    exact absurd parts.symm (List.append_ne_nil_of_right_ne_nil _ (List.cons_ne_nil _ _))
  | cons a rest ih =>
    cases rest with
    | nil =>
      rw [straddles_singleton, not_exists, ← valueAt_cut]
      simp only [List.cons_append, List.nil_append, valuesOf, List.head?_nil, List.append_nil,
        List.append_left_inj]
      cases valueAt r a more.head? <;> cases valueAt r a none <;> simp
    | cons b rest =>
      rw [straddles_cons, ← ih]
      simp only [List.cons_append, valuesOf, List.head?_cons, List.append_assoc,
        List.append_right_inj]

/-- Two vectors decode one after the other as they decode apart, unless the mark of a
live object ends the first and its id begins the second. -/
theorem decodeAtoms_append_iff (r : Registry P) (atoms more : List Atom) :
    decodeAtoms r (atoms ++ more) = decodeAtoms r atoms ++ decodeAtoms r more ↔
      ¬ Straddles r atoms more := by
  simp only [decodeAtoms_eq, decoded_eq_valuesOf]
  exact valuesOf_append_iff r atoms more

end Decoding
