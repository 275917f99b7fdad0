import Pdjs.Dispatch
import Pdjs.RoundTrip

/-!
# Setting a property

A `setprop` message stores what its atoms denote under the name in its first atom: a
single value as it is, several as an array. The branch is chosen by the number of
values that come out of the decoder, which gives two for one object and none for
atoms that it does not convert.
-/

namespace Properties

open PdAtoms ObjectRegistry Marshalling RoundTrip TextEncoding Dispatch

variable {P : Platform}

/-- What is stored: a value, or an array made of some. -/
inductive Stored where
  | single (v : Value)
  | array (vs : List Value)
  deriving DecidableEq

/-- What a `setprop` message does. `emptyRead` is the read of the first element of a
vector that has none. -/
inductive SetProp where
  | nothing
  | emptyRead
  | store (propName : JsString) (val : Stored)
  deriving DecidableEq

/-- The name of a property, if there are more than `least` atoms. Only a string is a
name among the values an atom converts to. -/
def propName (least argc : Nat) (argv : Nat → Atom) : Option JsString :=
  if least < argc then
    match jsMarshalAtom (argv 0) with
    | some (.string name) => some name
    | _ => none
  else
    none

/-- A single value is stored as it is and several as an array. -/
def storing (name : JsString) : List Value → SetProp
  | [] => .emptyRead
  | [val] => .store name (.single val)
  | args => .store name (.array args)

/-- The `setprop` branch of `js_anything`, up to the value that is handed to `Global()->Set`. A
`Set` that throws is not followed further. -/
def jsSetprop (r : Registry P) (argc : Nat) (argv : Nat → Atom) : SetProp :=
  match propName 1 argc argv with
  | none => .nothing
  | some name => storing name (jsMarshalArgs r (argc - 1) (fun i => argv (1 + i))).values

theorem vectorData_tail (a : Atom) (atoms : List Atom) :
    (fun i => vectorData (a :: atoms) (1 + i)) = vectorData atoms := by
  funext i
  rw [vectorData, vectorData, Nat.add_comm, List.getD_cons_succ]

theorem jsSetprop_message (r : Registry P) (name : Symbol) {atoms : List Atom}
    (nonempty : atoms ≠ []) :
    jsSetprop r (atoms.length + 1) (vectorData (.symbol name :: atoms)) =
      storing (decodeUtf8 name.name.bytes) (decoded r atoms) := by
  have more : 1 < atoms.length + 1 := Nat.succ_lt_succ (List.length_pos_iff.mpr nonempty)
  have named : propName 1 (atoms.length + 1) (vectorData (.symbol name :: atoms)) =
      some (decodeUtf8 name.name.bytes) := by
    rw [propName, if_pos more]
    rfl
  simp only [jsSetprop, named, vectorData_tail, Nat.add_sub_cancel, ← decodeAtoms_eq, decodeAtoms]

/-- A mark with the id of a live object denotes the object, every other atom what it
converts to. -/
def denoted (r : Registry P) : List Atom → List Value
  | [] => []
  | [a] => (jsMarshalAtom a).toList
  | a :: b :: rest =>
    match pairHead r (a :: b :: rest) with
    | some val => .object val :: denoted r rest
    | none => (jsMarshalAtom a).toList ++ denoted r (b :: rest)

/-- No mark is followed by the id of a live object. -/
def NamesNoObject (r : Registry P) (atoms : List Atom) : Prop :=
  ∀ before id after, atoms = before ++ .symbol sJsobject :: .symbol id :: after →
    jsMarshalObject r id = none

theorem NamesNoObject.tail {r : Registry P} {a : Atom} {rest : List Atom}
    (none_named : NamesNoObject r (a :: rest)) : NamesNoObject r rest := by
  intro before id after parts
  exact none_named (a :: before) id after (congrArg (a :: ·) parts)

theorem pairHead_eq_some {r : Registry P} {a b : Atom} {rest : List Atom} {val : Ref}
    (paired : pairHead r (a :: b :: rest) = some val) :
    a = .symbol sJsobject ∧ ∃ id, b = .symbol id ∧ jsMarshalObject r id = some val := by
  cases b with
  | symbol id =>
    by_cases mark : a = .symbol sJsobject
    · rw [pairHead, if_pos mark] at paired
      exact ⟨mark, id, rfl, paired⟩
    · rw [pairHead, if_neg mark] at paired
      cases paired
  | float w => cases paired
  | other type word => cases paired

theorem namesNoObject_cons {r : Registry P} {a b : Atom} {rest : List Atom}
    (unpaired : pairHead r (a :: b :: rest) = none) :
    NamesNoObject r (a :: b :: rest) ↔ NamesNoObject r (b :: rest) := by
  refine ⟨NamesNoObject.tail, ?_⟩
  intro later before id after parts
  cases before with
  | nil =>
    cases parts
    simpa [pairHead] using unpaired
  | cons c before => exact later before id after (List.cons.inj parts).2

/-- The decoder gives the denoted values, and one more for every object. -/
theorem length_denoted_le (r : Registry P) (atoms : List Atom) :
    (denoted r atoms).length ≤ (decoded r atoms).length := by
  induction atoms using denoted.induct r with
  | case1 => exact Nat.le_refl _
  | case2 a => exact Nat.le_refl _
  | case3 a b rest val paired ih =>
    simp only [denoted, decoded, paired, List.length_cons, List.length_append]
    omega
  | case4 a b rest unpaired ih =>
    simp only [denoted, decoded, unpaired, List.length_append]
    omega

theorem decoded_eq_denoted_iff (r : Registry P) (atoms : List Atom) :
    decoded r atoms = denoted r atoms ↔ NamesNoObject r atoms := by
  induction atoms using denoted.induct r with
  | case1 =>
    refine ⟨fun _ before id after parts => ?_, fun _ => rfl⟩
    simp at parts
  | case2 a =>
    refine ⟨fun _ before id after parts => ?_, fun _ => rfl⟩
    have short := congrArg List.length parts
    simp only [List.length_append, List.length_cons, List.length_nil] at short
    omega
  | case3 a b rest val paired ih =>
    obtain ⟨rfl, id, rfl, found⟩ := pairHead_eq_some paired
    constructor
    · intro same
      have lengths := congrArg List.length same
      have longer := length_denoted_le r rest
      simp only [denoted, decoded, paired, jsMarshalAtom, Option.toList_some, List.length_cons,
        List.cons_append, List.nil_append] at lengths
      omega
    · intro none_named
      cases found.symm.trans (none_named [] id rest rfl)
  | case4 a b rest unpaired ih =>
    rw [namesNoObject_cons unpaired, ← ih]
    simp [denoted, decoded, unpaired]

theorem denoted_ne_nil_iff {r : Registry P} {atoms : List Atom}
    (none_named : NamesNoObject r atoms) :
    denoted r atoms ≠ [] ↔ ∃ a ∈ atoms, jsMarshalAtom a ≠ none := by
  induction atoms using denoted.induct r with
  | case1 => simp [denoted]
  | case2 a => cases jsMarshalAtom a <;> simp [denoted]
  | case3 a b rest val paired ih =>
    obtain ⟨rfl, id, rfl, found⟩ := pairHead_eq_some paired
    cases found.symm.trans (none_named [] id rest rfl)
  | case4 a b rest unpaired ih =>
    have rest_iff := ih none_named.tail
    cases conv : jsMarshalAtom a with
    | none => simpa [denoted, unpaired, conv] using rest_iff
    | some v => simp [denoted, unpaired, conv]

/-- Nothing past the decoded values is read, and what is stored is what the atoms
denote: nothing, one value, or an array of several. -/
structure StoresDenoted (name : JsString) (values : List Value) (outcome : SetProp) : Prop where
  inside : outcome ≠ .emptyRead
  none : values = [] → outcome = .nothing
  one : ∀ val, values = [val] → outcome = .store name (.single val)
  several : 2 ≤ values.length → outcome = .store name (.array values)

theorem storesDenoted_storing {name : JsString} {values : List Value} (nonempty : values ≠ []) :
    StoresDenoted name values (storing name values) := by
  rcases values with _ | ⟨val, _ | ⟨val', rest⟩⟩
  · exact absurd rfl nonempty
  · constructor <;> simp [storing]
  · constructor <;> simp [storing]

/-- Only the denoted values can be stored as they should be. -/
theorem eq_of_storesDenoted {name : JsString} {values args : List Value}
    (stores : StoresDenoted name values (storing name args)) : args = values ∧ values ≠ [] := by
  rcases values with _ | ⟨val, _ | ⟨val', rest⟩⟩
  · have nothing := stores.none rfl
    rcases args with _ | ⟨arg, _ | ⟨arg', args⟩⟩ <;> cases nothing
  · have single := stores.one val rfl
    rcases args with _ | ⟨arg, _ | ⟨arg', args⟩⟩ <;> cases single
    exact ⟨rfl, List.cons_ne_nil _ _⟩
  · have array := stores.several (by simp)
    rcases args with _ | ⟨arg, _ | ⟨arg', args⟩⟩ <;> cases array
    exact ⟨rfl, List.cons_ne_nil _ _⟩

/-- A message is handled as it should be exactly if one of its atoms converts and no
atom names an object. -/
theorem storesDenoted_iff (r : Registry P) (name : Symbol) {atoms : List Atom}
    (nonempty : atoms ≠ []) :
    StoresDenoted (decodeUtf8 name.name.bytes) (denoted r atoms)
        (jsSetprop r (atoms.length + 1) (vectorData (.symbol name :: atoms))) ↔
      (∃ a ∈ atoms, jsMarshalAtom a ≠ none) ∧ NamesNoObject r atoms := by
  rw [jsSetprop_message r name nonempty]
  constructor
  · intro stores
    obtain ⟨same, some_value⟩ := eq_of_storesDenoted stores
    have none_named := (decoded_eq_denoted_iff r atoms).mp same
    exact ⟨(denoted_ne_nil_iff none_named).mp some_value, none_named⟩
  · rintro ⟨converts, none_named⟩
    rw [(decoded_eq_denoted_iff r atoms).mpr none_named]
    exact storesDenoted_storing ((denoted_ne_nil_iff none_named).mpr converts)

def propAtom : Symbol := gensym (.ofAscii "p")

/-- The message `setprop p hello` is handled as it should be. -/
theorem storesDenoted_iff_text :
    StoresDenoted (decodeUtf8 propAtom.name.bytes)
      (denoted oneObject [.symbol (gensym (.ofAscii "hello"))])
      (jsSetprop oneObject 2
        (vectorData [.symbol propAtom, .symbol (gensym (.ofAscii "hello"))])) := by
  apply (storesDenoted_iff oneObject propAtom (List.cons_ne_nil _ _)).mpr
  refine ⟨⟨_, List.mem_cons_self, by decide⟩, ?_⟩
  intro before id after parts
  have short := congrArg List.length parts
  simp only [List.length_append, List.length_cons, List.length_nil] at short
  omega

/-- The atoms `jsobject 4096`. -/
def objectAtoms : List Atom := [.symbol sJsobject, .symbol (gensym (.ofAscii "4096"))]

/-- A pointer alone makes the code read an element of an empty vector, and an object is
stored in an array with its id. -/
theorem not_storesDenoted_object :
    jsSetprop oneObject 2 (vectorData [.symbol propAtom, .other 3 0]) = .emptyRead ∧
      denoted oneObject objectAtoms = [.object 7] ∧
      ¬ StoresDenoted (jsText "p") (denoted oneObject objectAtoms)
        (jsSetprop oneObject 3 (vectorData (.symbol propAtom :: objectAtoms))) := by
  refine ⟨rfl, by decide, ?_⟩
  intro stores
  have single := stores.one (.object 7) (by decide)
  exact absurd single (by decide)

end Properties
