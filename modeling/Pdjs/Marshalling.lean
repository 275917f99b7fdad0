import Pdjs.ObjectRegistry

/-!
# Conversion between values and atoms

A conversion reads the JavaScript heap: the type of an object, the elements of an
array and the text of a String object. Here the heap is as a conversion sees it
that does not change it. A read that throws has no result and its element is
skipped. Arrays may refer to themselves, so the recursion takes the number of
nested calls it may make.

An atom vector is a pointer and a count; the decoder keeps the indices it reads.
-/

namespace Marshalling

open PdAtoms ObjectRegistry FloatFormats TextEncoding

structure Heap where
  kind : Ref → Kind
  elements : Ref → List (Option Value)
  text : Ref → Option JsString

/-- The address a `new` returns in a state of the registry. -/
abbrev Allocator (P : Platform) := Registry P → Addr P

variable {P : Platform}

def jsUnmarshalString (h : Heap) (alloc : Allocator P) (x : ObjId) (value : Value)
    (r : Registry P) : (CString × Addr P) × Registry P :=
  match value with
  | .string s => ((jsObjectToString (some s), 0), r)
  | .object o =>
    if h.kind o = .stringObject then
      ((jsObjectToString (h.text o), 0), r)
    else
      let (jso, r) := jsUnmarshalObject x o (alloc r) r
      ((.ofAscii "jsobject", jso), r)
  | _ => ((.ofBytes [], 0), r)

/-- The symbol of the text and, for a positive address, the symbol of the id. -/
def symbolAtoms (t : CString × Addr P) : List Atom :=
  .symbol (gensym t.1) :: if 0 < t.2.toInt then [.symbol (gensym (idText t.2))] else []

def unmarshalSymbols (h : Heap) (alloc : Allocator P) (x : ObjId) (arg : Value) (r : Registry P) :
    List Atom × Registry P :=
  let (t, r) := jsUnmarshalString h alloc x arg r
  (symbolAtoms t, r)

/-- The loop over the elements of an array or over the arguments. -/
def unmarshalEach (arg : Value → Registry P → Option (List Atom × Registry P)) :
    List (Option Value) → Registry P → Option (List Atom × Registry P)
  | [], r => some ([], r)
  | none :: rest, r => unmarshalEach arg rest r
  | some v :: rest, r => do
    let (subs, r) ← arg v r
    let (args, r) ← unmarshalEach arg rest r
    return (subs ++ args, r)

def jsUnmarshalArg (h : Heap) (alloc : Allocator P) (x : ObjId) :
    Nat → Value → Registry P → Option (List Atom × Registry P)
  | 0, _, _ => none
  | fuel + 1, arg, r =>
    match arg with
    | .number num => some ([.float (narrow num)], r)
    | .object o =>
      if h.kind o = .array then
        unmarshalEach (jsUnmarshalArg h alloc x fuel) (h.elements o) r
      else
        some (unmarshalSymbols h alloc x (.object o) r)
    | _ => some (unmarshalSymbols h alloc x arg r)

def jsUnmarshalArgs (h : Heap) (alloc : Allocator P) (x : ObjId) (fuel : Nat) (args : List Value)
    (r : Registry P) : Option (List Atom × Registry P) :=
  unmarshalEach (jsUnmarshalArg h alloc x fuel) (args.map some) r

/-- The values a decoder pushed and the indices of the atoms it read. -/
structure Decoded where
  values : List Value
  reads : List Nat

/-- The pair test at index `i`. -/
def resolvedPair (r : Registry P) (argc : Nat) (argv : Nat → Atom) (i : Nat) : Option Ref :=
  if argv i = .symbol sJsobject ∧ i + 1 < argc then
    match argv (i + 1) with
    | .symbol s => jsMarshalObject r s
    | _ => none
  else
    none

/-- The loop of `js_marshal_args` from index `i`, with at most `n` rounds left. The
id of a resolved pair is converted as an atom as well. -/
def marshalFrom (r : Registry P) (argc : Nat) (argv : Nat → Atom) : Nat → Nat → Decoded
  | 0, _ => ⟨[], []⟩
  | n + 1, i =>
    if i < argc then
      match resolvedPair r argc argv i with
      | some val =>
        let rest := marshalFrom r argc argv n (i + 2)
        ⟨.object val :: (jsMarshalAtom (argv (i + 1))).toList ++ rest.values,
          i :: (i + 1) :: rest.reads⟩
      | none =>
        let rest := marshalFrom r argc argv n (i + 1)
        ⟨(jsMarshalAtom (argv i)).toList ++ rest.values,
          i :: (if argv i = .symbol sJsobject ∧ i + 1 < argc then [i + 1] else []) ++ rest.reads⟩
    else
      ⟨[], []⟩

def jsMarshalArgs (r : Registry P) (argc : Nat) (argv : Nat → Atom) : Decoded :=
  marshalFrom r argc argv argc 0

/-- `argv.data()` of a vector. -/
def vectorData (atoms : List Atom) : Nat → Atom := fun i => atoms.getD i default

/-- What the atoms of a vector decode to. -/
def decodeAtoms (r : Registry P) (atoms : List Atom) : List Value :=
  (jsMarshalArgs r atoms.length (vectorData atoms)).values

theorem reads_lt (r : Registry P) (argc : Nat) (argv : Nat → Atom) (n : Nat) :
    ∀ i, ∀ j ∈ (marshalFrom r argc argv n i).reads, j < argc := by
  induction n with
  | zero => exact fun i j hj => absurd hj List.not_mem_nil
  | succ n ih =>
    intro i j hj
    rw [marshalFrom] at hj
    by_cases hi : i < argc
    · rw [if_pos hi] at hj
      cases hp : resolvedPair r argc argv i with
      | some val =>
        have hnext : i + 1 < argc := by
          by_contra hnot
          simp [resolvedPair, hnot] at hp
        rw [hp] at hj
        rcases List.mem_cons.mp hj with rfl | hj
        · exact hi
        · rcases List.mem_cons.mp hj with rfl | hj
          · exact hnext
          · exact ih (i + 2) j hj
      | none =>
        rw [hp] at hj
        rcases List.mem_append.mp hj with hhead | hrest
        · rcases List.mem_cons.mp hhead with rfl | hsecond
          · exact hi
          · by_cases hc : argv i = .symbol sJsobject ∧ i + 1 < argc
            · rw [if_pos hc, List.mem_singleton] at hsecond
              exact hsecond ▸ hc.2
            · rw [if_neg hc] at hsecond
              exact absurd hsecond List.not_mem_nil
        · exact ih (i + 1) j hrest
    · rw [if_neg hi] at hj
      exact absurd hj List.not_mem_nil

theorem mem_reads (r : Registry P) (argc : Nat) (argv : Nat → Atom) (n : Nat) :
    ∀ i, argc ≤ i + n → ∀ j, i ≤ j → j < argc → j ∈ (marshalFrom r argc argv n i).reads := by
  induction n with
  | zero => omega
  | succ n ih =>
    intro i enough j hij hj
    rw [marshalFrom, if_pos (by omega)]
    cases hp : resolvedPair r argc argv i with
    | some val =>
      by_cases h0 : j = i
      · exact h0 ▸ List.mem_cons_self
      · apply List.mem_cons_of_mem
        by_cases h1 : j = i + 1
        · exact h1 ▸ List.mem_cons_self
        · exact List.mem_cons_of_mem _ (ih (i + 2) (by omega) j (by omega) hj)
    | none =>
      by_cases h0 : j = i
      · exact h0 ▸ List.mem_append_left _ List.mem_cons_self
      · exact List.mem_append_right _ (ih (i + 1) (by omega) j (by omega) hj)

/-- The decoder reads exactly the first `argc` atoms. -/
theorem mem_reads_iff (r : Registry P) (argc : Nat) (argv : Nat → Atom) (j : Nat) :
    j ∈ (jsMarshalArgs r argc argv).reads ↔ j < argc := by
  constructor
  · exact reads_lt r argc argv argc 0 j
  · exact mem_reads r argc argv argc 0 (by omega) j (by omega)

end Marshalling
