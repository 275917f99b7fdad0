import Pdjs.Marshalling

/-!
# Flattening

An argument list made of nested arrays is encoded as the list of its leaves, from
left to right and with the registry threaded through. The nesting is finite where
it can be derived, and that derivation is what the number of nested calls is
taken from.
-/

namespace Flattening

open PdAtoms ObjectRegistry FloatFormats Marshalling

variable {P : Platform}

def IsArray (h : Heap) (v : Value) : Prop := ∃ o, v = .object o ∧ h.kind o = .array

/-- `leaves` are the values of `args` with every array replaced by its elements.
No read throws. -/
inductive Flattens (h : Heap) : List Value → List Value → Prop where
  | nil : Flattens h [] []
  | leaf {v : Value} {args leaves : List Value} (single : ¬ IsArray h v)
      (rest : Flattens h args leaves) : Flattens h (v :: args) (v :: leaves)
  | array {o : Ref} {subs args inner leaves : List Value} (kind : h.kind o = .array)
      (elements : h.elements o = subs.map some) (within : Flattens h subs inner)
      (rest : Flattens h args leaves) : Flattens h (.object o :: args) (inner ++ leaves)

/-- The encoding of a value that is no array. -/
def encodeLeaf (h : Heap) (alloc : Allocator P) (x : ObjId) (v : Value) (r : Registry P) :
    List Atom × Registry P :=
  match v with
  | .number num => ([.float (narrow num)], r)
  | _ => unmarshalSymbols h alloc x v r

def encodeLeaves (h : Heap) (alloc : Allocator P) (x : ObjId) :
    List Value → Registry P → List Atom × Registry P
  | [], r => ([], r)
  | v :: vs, r =>
    let (atoms, r) := encodeLeaf h alloc x v r
    let (rest, r) := encodeLeaves h alloc x vs r
    (atoms ++ rest, r)

variable {h : Heap} {alloc : Allocator P} {x : ObjId}

theorem encodeLeaves_append (vs ws : List Value) (r : Registry P) :
    encodeLeaves h alloc x (vs ++ ws) r =
      ((encodeLeaves h alloc x vs r).1 ++
          (encodeLeaves h alloc x ws (encodeLeaves h alloc x vs r).2).1,
        (encodeLeaves h alloc x ws (encodeLeaves h alloc x vs r).2).2) := by
  induction vs generalizing r with
  | nil => rfl
  | cons v vs ih => simp [encodeLeaves, ih]

theorem jsUnmarshalArg_leaf {v : Value} (single : ¬ IsArray h v) (fuel : Nat) (r : Registry P) :
    jsUnmarshalArg h alloc x (fuel + 1) v r = some (encodeLeaf h alloc x v r) := by
  cases v with
  | number num => rfl
  | string s => rfl
  | other p => rfl
  | object o =>
    have plain : h.kind o ≠ .array := fun kind => single ⟨o, rfl, kind⟩
    simp [jsUnmarshalArg, plain, encodeLeaf]

theorem jsUnmarshalArg_array {o : Ref} {subs : List Value} (kind : h.kind o = .array)
    (elements : h.elements o = subs.map some) (fuel : Nat) (r : Registry P) :
    jsUnmarshalArg h alloc x (fuel + 1) (.object o) r =
      jsUnmarshalArgs h alloc x fuel subs r := by
  simp [jsUnmarshalArg, kind, elements, jsUnmarshalArgs]

theorem jsUnmarshalArgs_cons (v : Value) (vs : List Value) (fuel : Nat) (r : Registry P)
    {first : List Atom × Registry P} (hv : jsUnmarshalArg h alloc x fuel v r = some first)
    {rest : List Atom × Registry P} (hvs : jsUnmarshalArgs h alloc x fuel vs first.2 = some rest) :
    jsUnmarshalArgs h alloc x fuel (v :: vs) r = some (first.1 ++ rest.1, rest.2) := by
  simp only [jsUnmarshalArgs] at hvs
  simp [jsUnmarshalArgs, unmarshalEach, hv, hvs]

/-- The encoder returns, and what it returns is the encoding of the leaves. -/
theorem jsUnmarshalArgs_flattens (alloc : Allocator P) (x : ObjId) {args leaves : List Value}
    (flat : Flattens h args leaves) :
    ∃ depth, ∀ fuel, depth ≤ fuel → ∀ r : Registry P,
      jsUnmarshalArgs h alloc x fuel args r = some (encodeLeaves h alloc x leaves r) := by
  induction flat with
  | nil => exact ⟨0, fun fuel _ r => rfl⟩
  | @leaf v args leaves single _ ih =>
    obtain ⟨depth, hrest⟩ := ih
    refine ⟨depth + 1, ?_⟩
    intro fuel enough r
    obtain ⟨f, rfl⟩ : ∃ f, fuel = f + 1 := ⟨fuel - 1, by omega⟩
    exact jsUnmarshalArgs_cons v args _ r (jsUnmarshalArg_leaf single f r)
      (hrest (f + 1) (by omega) _)
  | @array o subs args inner leaves kind elements _ _ ihin ih =>
    obtain ⟨depthin, hin⟩ := ihin
    obtain ⟨depth, hrest⟩ := ih
    refine ⟨depthin + 1 + depth, ?_⟩
    intro fuel enough r
    obtain ⟨f, rfl⟩ : ∃ f, fuel = f + 1 := ⟨fuel - 1, by omega⟩
    have harray : jsUnmarshalArg h alloc x (f + 1) (.object o) r =
        some (encodeLeaves h alloc x inner r) :=
      (jsUnmarshalArg_array kind elements f r).trans (hin f (by omega) r)
    rw [encodeLeaves_append]
    exact jsUnmarshalArgs_cons _ args _ r harray (hrest (f + 1) (by omega) _)

end Flattening
