import Pdjs.Flattening

/-!
# Decoding what was encoded

Numbers and strings come back as they were sent. The branch of the decoder that
recognises an object goes on to convert the id of the object as well, so an object
comes back followed by a string, and a list survives the round trip exactly when
there is no object among its leaves.
-/

namespace RoundTrip

open PdAtoms ObjectRegistry FloatFormats TextEncoding Marshalling Flattening

variable {P : Platform}

/-- The pair test on the atoms that are left. -/
def pairHead (r : Registry P) : List Atom → Option Ref
  | a :: .symbol s :: _ => if a = .symbol sJsobject then jsMarshalObject r s else none
  | _ => none

/-- What the atoms decode to, by recursion on the vector. -/
def decoded (r : Registry P) : List Atom → List Value
  | [] => []
  | [a] => (jsMarshalAtom a).toList
  | a :: b :: rest =>
    match pairHead r (a :: b :: rest) with
    | some val => .object val :: (jsMarshalAtom b).toList ++ decoded r rest
    | none => (jsMarshalAtom a).toList ++ decoded r (b :: rest)

theorem decoded_unpaired {r : Registry P} {a : Atom} {rest : List Atom}
    (unpaired : pairHead r (a :: rest) = none) :
    decoded r (a :: rest) = (jsMarshalAtom a).toList ++ decoded r rest := by
  cases rest with
  | nil => simp [decoded]
  | cons b rest => simp [decoded, unpaired]

theorem decoded_paired {r : Registry P} {a b : Atom} {rest : List Atom} {val : Ref}
    (paired : pairHead r (a :: b :: rest) = some val) :
    decoded r (a :: b :: rest) = .object val :: (jsMarshalAtom b).toList ++ decoded r rest := by
  simp [decoded, paired]

/-- `atoms` is what is left of the vector at index `i`. -/
structure Window (argc : Nat) (argv : Nat → Atom) (i : Nat) (atoms : List Atom) : Prop where
  length : i + atoms.length = argc
  atom : ∀ j (hj : j < atoms.length), argv (i + j) = atoms[j]

theorem Window.head {argc : Nat} {argv : Nat → Atom} {i : Nat} {a : Atom} {rest : List Atom}
    (w : Window argc argv i (a :: rest)) : argv i = a :=
  w.atom 0 (Nat.zero_lt_succ _)

theorem Window.tail {argc : Nat} {argv : Nat → Atom} {i : Nat} {a : Atom} {rest : List Atom}
    (w : Window argc argv i (a :: rest)) : Window argc argv (i + 1) rest := by
  constructor
  · have hlen := w.length
    rw [List.length_cons] at hlen
    omega
  · intro j hj
    have hnext := w.atom (j + 1) (Nat.succ_lt_succ hj)
    rwa [← Nat.add_assoc, Nat.add_right_comm] at hnext

theorem Window.index_lt {argc : Nat} {argv : Nat → Atom} {i : Nat} {a : Atom} {rest : List Atom}
    (w : Window argc argv i (a :: rest)) : i < argc := by
  have hlen := w.length
  rw [List.length_cons] at hlen
  omega

theorem Window.resolvedPair {argc : Nat} {argv : Nat → Atom} {i : Nat} {a : Atom}
    {rest : List Atom} (w : Window argc argv i (a :: rest)) (r : Registry P) :
    resolvedPair r argc argv i = pairHead r (a :: rest) := by
  cases rest with
  | nil =>
    have last : ¬ i + 1 < argc := by
      have hlen := w.length
      rw [List.length_singleton] at hlen
      omega
    simp [Marshalling.resolvedPair, pairHead, last]
  | cons b rest =>
    simp only [Marshalling.resolvedPair, w.head, w.tail.head, w.tail.index_lt, and_true]
    cases b <;> simp [pairHead]

/-- The loop at index `i` decodes the atoms from `i` on. -/
theorem marshalFrom_values (r : Registry P) (argc : Nat) (argv : Nat → Atom) (n : Nat) :
    ∀ i atoms, Window argc argv i atoms → argc ≤ i + n →
      (marshalFrom r argc argv n i).values = decoded r atoms := by
  induction n with
  | zero =>
    intro i atoms w enough
    have hlen := w.length
    obtain rfl : atoms = [] := List.length_eq_zero_iff.mp (by omega)
    rfl
  | succ n ih =>
    intro i atoms w enough
    cases atoms with
    | nil =>
      have hlen := w.length
      rw [marshalFrom, if_neg (by rw [List.length_nil] at hlen; omega)]
      rfl
    | cons a rest =>
      have hpair := w.resolvedPair r
      rw [marshalFrom, if_pos w.index_lt, hpair]
      cases found : pairHead r (a :: rest) with
      | none =>
        rw [decoded_unpaired found, ← ih (i + 1) rest w.tail (by omega), w.head]
      | some val =>
        cases rest with
        | nil => cases found
        | cons b rest =>
          rw [decoded_paired found, ← ih (i + 2) rest w.tail.tail (by omega), w.tail.head]

theorem decodeAtoms_eq (r : Registry P) (atoms : List Atom) :
    decodeAtoms r atoms = decoded r atoms := by
  apply marshalFrom_values
  · constructor
    · exact Nat.zero_add _
    · intro j hj
      simp [vectorData, hj]
  · omega

/-- The leaves of the domain: single-precision numbers, well-formed texts and
objects. The text of a String object is sent in its place and may not be the mark
of an object either. -/
def Encodable (h : Heap) : Value → Prop
  | .number d => ∃ w : BitVec 32, d = widen w
  | .string s => Transmissible s ∧ s ≠ jsText "jsobject"
  | .object o =>
    h.kind o ≠ .array ∧
      (h.kind o = .stringObject → jsObjectToString (h.text o) ≠ .ofAscii "jsobject")
  | .other _ => False

/-- The handles under which the objects among the leaves are sent. -/
def sentHandles (h : Heap) (alloc : Allocator P) (x : ObjId) :
    List Value → Registry P → List (Addr P × Ref)
  | [], _ => []
  | .object o :: vs, r =>
    if h.kind o = .stringObject then
      sentHandles h alloc x vs r
    else
      let (p, r) := jsUnmarshalObject x o (alloc r) r
      (p, o) :: sentHandles h alloc x vs r
  | _ :: vs, r => sentHandles h alloc x vs r

/-- What a leaf comes back as. -/
def returned (h : Heap) (alloc : Allocator P) (x : ObjId) (r : Registry P) : Value → List Value
  | .object o =>
    if h.kind o = .stringObject then
      [.string (decodeUtf8 (jsObjectToString (h.text o)).bytes)]
    else
      [.object o, .string (decodeUtf8 (idText (jsUnmarshalObject x o (alloc r) r).1).bytes)]
  | v => [v]

def returnedAll (h : Heap) (alloc : Allocator P) (x : ObjId) : List Value → Registry P → List Value
  | [], _ => []
  | v :: vs, r => returned h alloc x r v ++ returnedAll h alloc x vs (encodeLeaf h alloc x v r).2

theorem transmissible_jsobject : Transmissible (jsText "jsobject") := by
  decide

theorem jsObjectToString_jsobject :
    jsObjectToString (some (jsText "jsobject")) = .ofAscii "jsobject" := by
  decide

/-- A text atom that is not the mark of an object decodes to its text. -/
theorem decoded_text {r : Registry P} {t : CString} (plain : t ≠ .ofAscii "jsobject")
    (rest : List Atom) :
    decoded r (.symbol (gensym t) :: rest) = .string (decodeUtf8 t.bytes) :: decoded r rest := by
  apply decoded_unpaired
  have other : Atom.symbol (gensym t) ≠ .symbol sJsobject := by
    intro heq
    exact plain (congrArg Symbol.name (Atom.symbol.inj heq))
  rcases rest with _ | ⟨_ | s | _, rest⟩ <;> simp [pairHead, other]

variable {h : Heap} {alloc : Allocator P} {x : ObjId}

theorem symbolAtoms_text (t : CString) :
    symbolAtoms ((t, 0) : CString × Addr P) = [.symbol (gensym t)] := by
  have zero : ¬ 0 < (0 : Addr P).toInt := by simp
  simp only [symbolAtoms, if_neg zero]

theorem encodeLeaf_object {o : Ref} (plain : h.kind o ≠ .stringObject) (r : Registry P) :
    encodeLeaf h alloc x (.object o) r =
      (symbolAtoms (.ofAscii "jsobject", (jsUnmarshalObject x o (alloc r) r).1),
        (jsUnmarshalObject x o (alloc r) r).2) := by
  simp [encodeLeaf, unmarshalSymbols, jsUnmarshalString, plain]

theorem encodeLeaf_stringObject {o : Ref} (kind : h.kind o = .stringObject) (r : Registry P) :
    encodeLeaf h alloc x (.object o) r = ([.symbol (gensym (jsObjectToString (h.text o)))], r) := by
  simp only [encodeLeaf, unmarshalSymbols, jsUnmarshalString, kind, if_true, symbolAtoms_text]

theorem encodeLeaf_string (s : JsString) (r : Registry P) :
    encodeLeaf h alloc x (.string s) r = ([.symbol (gensym (jsObjectToString (some s)))], r) := by
  simp only [encodeLeaf, unmarshalSymbols, jsUnmarshalString, symbolAtoms_text]

/-- The handles of the first leaf are live in the registry the decoder uses. -/
def LeafLive (h : Heap) (alloc : Allocator P) (x : ObjId) (r r' : Registry P) (v : Value) : Prop :=
  ∀ o, v = .object o → h.kind o ≠ .stringObject →
    0 < (jsUnmarshalObject x o (alloc r) r).1.toInt ∧
      r'.Holds (jsUnmarshalObject x o (alloc r) r).1 o

theorem decoded_encodeLeaf {v : Value} (domain : Encodable h v) {r r' : Registry P}
    (live : LeafLive h alloc x r r' v) (rest : List Atom) :
    decoded r' ((encodeLeaf h alloc x v r).1 ++ rest) =
      returned h alloc x r v ++ decoded r' rest := by
  cases v with
  | number d =>
    obtain ⟨w, rfl⟩ := domain
    have unpaired : pairHead r' (.float (narrow (widen w)) :: rest) = none := by
      rcases rest with _ | ⟨_ | s | _, rest⟩ <;> simp [pairHead]
    have step := decoded_unpaired unpaired
    rw [jsMarshalAtom_number] at step
    exact step
  | string s =>
    have plain : jsObjectToString (some s) ≠ .ofAscii "jsobject" := by
      intro heq
      rw [← jsObjectToString_jsobject] at heq
      exact domain.2 (jsObjectToString_injective domain.1 transmissible_jsobject heq)
    have back := jsMarshalAtom_symbol domain.1
    rw [encodeLeaf_string]
    refine (decoded_text plain rest).trans ?_
    rw [jsMarshalAtom] at back
    exact congrArg (· :: decoded r' rest) (Option.some.inj back)
  | object o =>
    by_cases kind : h.kind o = .stringObject
    · rw [encodeLeaf_stringObject kind]
      simpa [returned, kind] using decoded_text (domain.2 kind) rest
    · obtain ⟨positive, held⟩ := live o rfl kind
      rw [encodeLeaf_object kind]
      simp only [symbolAtoms, if_pos positive]
      have found := jsMarshalObject_of_holds positive held
      have paired : pairHead r' (.symbol (gensym (.ofAscii "jsobject")) ::
          .symbol (gensym (idText (jsUnmarshalObject x o (alloc r) r).1)) :: rest) = some o := by
        simpa [pairHead, sJsobject] using found
      simpa [returned, kind, jsMarshalAtom, gensym] using decoded_paired paired
  | other p => exact absurd domain id

theorem live_cons {v : Value} {vs : List Value} {r r' : Registry P}
    (live : ∀ p o, (p, o) ∈ sentHandles h alloc x (v :: vs) r → 0 < p.toInt ∧ r'.Holds p o) :
    LeafLive h alloc x r r' v ∧
      ∀ p o, (p, o) ∈ sentHandles h alloc x vs (encodeLeaf h alloc x v r).2 →
        0 < p.toInt ∧ r'.Holds p o := by
  cases v with
  | object o =>
    by_cases kind : h.kind o = .stringObject
    · simp only [sentHandles, kind, if_true] at live
      rw [encodeLeaf_stringObject kind]
      refine ⟨?_, live⟩
      rintro _ ⟨⟩ plain
      exact absurd kind plain
    · simp only [sentHandles, kind, if_false] at live
      rw [encodeLeaf_object kind]
      refine ⟨?_, fun p o' sent => live p o' (List.mem_cons_of_mem _ sent)⟩
      rintro _ ⟨⟩ _
      exact live _ _ List.mem_cons_self
  | number d => exact ⟨nofun, live⟩
  | string s =>
    rw [encodeLeaf_string]
    exact ⟨nofun, live⟩
  | other p =>
    refine ⟨nofun, ?_⟩
    simpa only [encodeLeaf, unmarshalSymbols, jsUnmarshalString, sentHandles] using live

theorem decoded_encodeLeaves {vs : List Value} (domain : ∀ v ∈ vs, Encodable h v)
    {r r' : Registry P}
    (live : ∀ p o, (p, o) ∈ sentHandles h alloc x vs r → 0 < p.toInt ∧ r'.Holds p o) :
    decoded r' (encodeLeaves h alloc x vs r).1 = returnedAll h alloc x vs r := by
  induction vs generalizing r with
  | nil => rfl
  | cons v vs ih =>
    obtain ⟨livev, livevs⟩ := live_cons live
    have rest := ih (fun w hw => domain w (List.mem_cons_of_mem _ hw)) livevs
    simp only [encodeLeaves, returnedAll]
    rw [decoded_encodeLeaf (domain v List.mem_cons_self) livev, rest]

/-- Every leaf comes back as at least one value. -/
theorem length_le_returnedAll (vs : List Value) (r : Registry P) :
    vs.length ≤ (returnedAll h alloc x vs r).length := by
  induction vs generalizing r with
  | nil => exact Nat.le_refl _
  | cons v vs ih =>
    have rest := ih (encodeLeaf h alloc x v r).2
    have one : 1 ≤ (returned h alloc x r v).length := by
      cases v with
      | object o => by_cases kind : h.kind o = .stringObject <;> simp [returned, kind]
      | number d => exact Nat.le_refl _
      | string s => exact Nat.le_refl _
      | other p => exact Nat.le_refl _
    simp only [returnedAll, List.length_append, List.length_cons]
    omega

theorem returnedAll_eq_iff (vs : List Value) (r : Registry P) :
    returnedAll h alloc x vs r = vs ↔ ∀ v ∈ vs, ∀ o, v ≠ .object o := by
  induction vs generalizing r with
  | nil => simp [returnedAll]
  | cons v vs ih =>
    have rest := ih (encodeLeaf h alloc x v r).2
    cases v with
    | number d => simpa [returnedAll, returned] using rest
    | string s => simpa [returnedAll, returned] using rest
    | other p => simpa [returnedAll, returned] using rest
    | object o =>
      constructor
      · intro same
        have longer : vs.length ≤
            (returnedAll h alloc x vs (encodeLeaf h alloc x (.object o) r).2).length :=
          length_le_returnedAll vs _
        by_cases kind : h.kind o = .stringObject
        · simp [returnedAll, returned, kind] at same
        · have hlen := congrArg List.length same
          simp only [returnedAll, returned, kind, if_false, List.length_append,
            List.length_cons, List.length_nil] at hlen
          omega
      · intro none
        exact absurd rfl (none (.object o) List.mem_cons_self o)

/-- The encoder returns, and decoding its atoms while the handles it returned are
live gives the leaves back exactly when no leaf is an object. -/
theorem roundTrip_iff {args leaves : List Value} (alloc : Allocator P) (x : ObjId)
    (r r' : Registry P) (flat : Flattens h args leaves) (domain : ∀ v ∈ leaves, Encodable h v)
    (live : ∀ p o, (p, o) ∈ sentHandles h alloc x leaves r → 0 < p.toInt ∧ r'.Holds p o) :
    ∃ depth atoms after,
      (∀ fuel, depth ≤ fuel → jsUnmarshalArgs h alloc x fuel args r = some (atoms, after)) ∧
        (decodeAtoms r' atoms = leaves ↔ ∀ v ∈ leaves, ∀ o, v ≠ .object o) := by
  obtain ⟨depth, returns⟩ := jsUnmarshalArgs_flattens alloc x flat
  refine ⟨depth, _, _, fun fuel enough => returns fuel enough r, ?_⟩
  rw [decodeAtoms_eq, decoded_encodeLeaves domain live]
  exact returnedAll_eq_iff leaves r

/-- The object 0 is an array of the number 1 and the object 1, which is an ordinary one. -/
def smallHeap : Heap where
  kind := fun o => if o = 0 then .array else .plain
  elements := fun o => if o = 0 then [some (.number 0x3ff0000000000000), some (.object 1)] else []
  text := fun _ => none

/-- It does not come back as its two elements. -/
theorem roundTrip_iff_small :
    ∃ depth atoms after,
      (∀ fuel, depth ≤ fuel →
        jsUnmarshalArgs smallHeap (fun _ : Registry .bits64 => 0x1000) 1 fuel [.object 0] .empty =
          some (atoms, after)) ∧
        decodeAtoms (Registry.run .empty (registration 1 1 (0x1000 : Addr .bits64))) atoms ≠
          [.number 0x3ff0000000000000, .object 1] := by
  have single : ∀ v ∈ [Value.number 0x3ff0000000000000, .object 1], ¬ IsArray smallHeap v := by
    rintro v hv ⟨o, rfl, kind⟩
    obtain rfl : o = 1 := by simpa using hv
    exact absurd kind (by decide)
  have inner : Flattens smallHeap [.number 0x3ff0000000000000, .object 1]
      [.number 0x3ff0000000000000, .object 1] :=
    .leaf (single _ (by simp)) (.leaf (single _ (by simp)) .nil)
  have flat : Flattens smallHeap [.object 0] [.number 0x3ff0000000000000, .object 1] :=
    .array rfl rfl inner .nil
  have domain : ∀ v ∈ [Value.number 0x3ff0000000000000, .object 1], Encodable smallHeap v := by
    intro v hv
    rcases List.mem_cons.mp hv with rfl | hv
    · exact ⟨0x3f800000, by decide⟩
    · obtain rfl : v = .object 1 := by simpa using hv
      exact ⟨by decide, nofun⟩
  obtain ⟨depth, atoms, after, returns, decodes⟩ :=
    roundTrip_iff (fun _ : Registry .bits64 => 0x1000) 1 .empty
      (Registry.run .empty (registration 1 1 0x1000)) flat domain (by
        intro p o sent
        obtain ⟨rfl, rfl⟩ : p = 0x1000 ∧ o = 1 := by
          simpa [sentHandles, smallHeap, jsUnmarshalObject, Registry.find, Registry.empty,
            encodeLeaf] using sent
        exact ⟨by decide, by decide, by decide⟩)
  refine ⟨depth, atoms, after, returns, fun same => ?_⟩
  exact decodes.mp same (.object 1) (List.mem_cons_of_mem _ List.mem_cons_self) 1 rfl

/-- An object that is sent alone comes back followed by its id. -/
theorem object_with_id :
    ∃ atoms after,
      jsUnmarshalArgs smallHeap (fun _ : Registry .bits64 => 0x1000) 1 1 [.object 1] .empty =
          some (atoms, after) ∧
        decodeAtoms after atoms = [.object 1, .string (jsText "4096")] ∧
        decodeAtoms after atoms ≠ [.object 1] := by
  refine ⟨_, _, rfl, ?_, ?_⟩
  · decide
  · decide

end RoundTrip
