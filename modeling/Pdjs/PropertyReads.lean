import Pdjs.Properties
import Pdjs.Spelling

/-!
# Reading a property back

A list of plain atoms that a `setprop` message stores comes back with `getprop` as one
message at the first outlet. Alone it was stored as a value and otherwise as an array;
the array is flattened again, and the message spells the list.
-/

namespace PropertyReads

open PdAtoms ObjectRegistry FloatFormats TextEncoding Marshalling Flattening RoundTrip Ports
open Sending Spelling Properties Transport

variable {P : Platform}

/-- The global object. `intercepted` is what `js_get` returns for a name and `fixed` are
the properties that an assignment does not replace, as they read; a read that throws is
like one of `undefined` here. -/
structure GlobalObject where
  intercepted : JsString → Option Value
  fixed : JsString → Option Value
  ordinary : JsString → Option Value

def GlobalObject.get (g : GlobalObject) (name : JsString) : Value :=
  match g.intercepted name with
  | some val => val
  | none =>
    match g.fixed name with
    | some val => val
    | none => (g.ordinary name).getD (.other .undefined)

def GlobalObject.set (g : GlobalObject) (name : JsString) (val : Value) : GlobalObject :=
  match g.fixed name with
  | some _ => g
  | none => { g with ordinary := Function.update g.ordinary name (some val) }

structure Scope where
  heap : Heap
  global : GlobalObject

/-- The value that is stored; an array is made at `new`. -/
def storedValue (h : Heap) (new : Ref) : Stored → Heap × Value
  | .single val => (h, val)
  | .array vs =>
    ({ h with
        kind := Function.update h.kind new .array
        elements := Function.update h.elements new (vs.map some) }, .object new)

/-- Handling a `setprop` message; there is no result if it reads past its values. -/
def handleSetprop (r : Registry P) (new : Ref) (c : Scope) (argc : Nat) (argv : Nat → Atom) :
    Option Scope :=
  match jsSetprop r argc argv with
  | .nothing => some c
  | .emptyRead => none
  | .store name stored =>
    let (heap, val) := storedValue c.heap new stored
    some { heap := heap, global := c.global.set name val }

/-- The `getprop` branch of `js_anything`. -/
def jsGetprop (c : Scope) (alloc : Allocator P) (T : SymbolTable) (x : ObjId)
    (outlets : List PortId) (fuel : Nat) (argc : Nat) (argv : Nat → Atom) (r : Registry P) :
    Option (Sent × Registry P) :=
  match propName 0 argc argv, outlets with
  | some name, outlet :: _ =>
    let val := c.global.get name
    if val = .other .undefined then
      some (.nothing, r)
    else do
      let (m, r) ← jsOutletArgs c.heap alloc T x fuel [val] r
      return (match m with | some m => .message outlet m | none => .nothing, r)
  | _, _ => some (.nothing, r)

/-- Floats, and symbols other than the mark of an object with well-formed names. -/
def Listed : Atom → Prop
  | .float _ => True
  | .symbol s => s ≠ sJsobject ∧ ∃ text, WellFormed text ∧ s.name.bytes = encodeUtf8 text
  | .other _ _ => False

/-- The same float, up to the payload of a not-a-number, or the same symbol. -/
def SameAtom : Atom → Atom → Prop
  | .float w, .float w' => w = w' ∨ IsNaN w ∧ IsNaN w'
  | a, b => a = b

/-- An atom after the way through a JavaScript value. -/
def resent : Atom → Atom
  | .float w => .float (narrow (widen w))
  | a => a

theorem sameAtom_resent (a : Atom) : SameAtom a (resent a) := by
  cases a with
  | float w =>
    by_cases nan : IsNaN w
    · refine .inr ⟨nan, ?_⟩
      rw [widen_nan nan, IsNaN]
      decide
    · exact .inl (narrow_widen nan).symm
  | symbol s => rfl
  | other type word => rfl

theorem decoded_listed {atoms : List Atom} (listed : ∀ a ∈ atoms, Listed a) (r : Registry P) :
    decoded r atoms = atoms.filterMap jsMarshalAtom := by
  induction atoms with
  | nil => rfl
  | cons a rest ih =>
    have unpaired : pairHead r (a :: rest) = none := by
      have unmarked : a ≠ .symbol sJsobject := by
        rintro rfl
        exact (listed _ List.mem_cons_self).1 rfl
      rcases rest with _ | ⟨_ | s | _, rest⟩ <;> simp [pairHead, unmarked]
    rw [decoded_unpaired unpaired, ih fun b hb => listed b (List.mem_cons_of_mem _ hb),
      List.filterMap_cons]
    cases jsMarshalAtom a <;> rfl

/-- A text that was decoded from a well-formed name is the name again. -/
theorem jsObjectToString_decodeUtf8 {s : Symbol} {text : JsString} (formed : WellFormed text)
    (name : s.name.bytes = encodeUtf8 text) :
    gensym (jsObjectToString (some (decodeUtf8 s.name.bytes))) = s := by
  have bytes : (jsObjectToString (some (decodeUtf8 s.name.bytes))).bytes = s.name.bytes := by
    rw [name, decodeUtf8_encodeUtf8 formed, jsObjectToString, ← name]
    exact CString.ofBytes_bytes s.name.noNul
  rw [CString.ext_bytes bytes]
  rfl

theorem encodeLeaves_listed {atoms : List Atom} (listed : ∀ a ∈ atoms, Listed a) (h : Heap)
    (alloc : Allocator P) (x : ObjId) (r : Registry P) :
    encodeLeaves h alloc x (atoms.filterMap jsMarshalAtom) r = (atoms.map resent, r) := by
  induction atoms with
  | nil => rfl
  | cons a rest ih =>
    have later := ih fun b hb => listed b (List.mem_cons_of_mem _ hb)
    cases a with
    | float w =>
      simp only [List.filterMap_cons, jsMarshalAtom, encodeLeaves, encodeLeaf, later]
      rfl
    | symbol s =>
      obtain ⟨_, text, formed, name⟩ := listed _ List.mem_cons_self
      simp only [List.filterMap_cons, jsMarshalAtom, encodeLeaves, encodeLeaf_string, later,
        jsObjectToString_decodeUtf8 formed name]
      rfl
    | other type word => exact absurd (listed _ List.mem_cons_self) id

/-- The value of an atom is a number or a string. -/
theorem marshalled_cases {atoms : List Atom} {v : Value}
    (converted : v ∈ atoms.filterMap jsMarshalAtom) :
    (∀ h, ¬ IsArray h v) ∧ v ≠ .other .undefined := by
  obtain ⟨a, _, conversion⟩ := List.mem_filterMap.mp converted
  constructor
  · rintro h ⟨o, rfl, _⟩
    cases a <;> cases conversion
  · rintro rfl
    cases a <;> cases conversion

theorem flattens_singles {h : Heap} {values : List Value} (singles : ∀ v ∈ values, ¬ IsArray h v) :
    Flattens h values values := by
  induction values with
  | nil => exact .nil
  | cons v values ih =>
    exact .leaf (singles v List.mem_cons_self)
      (ih fun w hw => singles w (List.mem_cons_of_mem _ hw))

/-- What is made of values that are no arrays is defined and flattens to them. -/
theorem flattens_storedValue (name : JsString) {values : List Value} (nonempty : values ≠ [])
    (singles : ∀ v ∈ values, (∀ h, ¬ IsArray h v) ∧ v ≠ .other .undefined) (h : Heap) (new : Ref) :
    ∃ stored, storing name values = .store name stored ∧
      (storedValue h new stored).2 ≠ .other .undefined ∧
      Flattens (storedValue h new stored).1 [(storedValue h new stored).2] values := by
  have flat := fun h => flattens_singles fun v hv => (singles v hv).1 h
  rcases values with _ | ⟨val, _ | ⟨val', rest⟩⟩
  · exact absurd rfl nonempty
  · exact ⟨.single val, rfl, (singles val List.mem_cons_self).2, flat h⟩
  · refine ⟨.array (val :: val' :: rest), rfl, Value.noConfusion, ?_⟩
    have whole : Flattens (storedValue h new (.array (val :: val' :: rest))).1
        [(storedValue h new (.array (val :: val' :: rest))).2] (val :: val' :: rest ++ []) :=
      .array (Function.update_self ..) (Function.update_self ..) (flat _) .nil
    rwa [List.append_nil] at whole

/-- What `setprop` leaves for a list: the property reads as a value that is not
undefined and flattens to the converted atoms. -/
theorem handleSetprop_listed {atoms : List Atom} (nonempty : atoms ≠ [])
    (listed : ∀ a ∈ atoms, Listed a) (r : Registry P) (new : Ref) (c : Scope) (name : Symbol)
    (free : c.global.intercepted (decodeUtf8 name.name.bytes) = none)
    (writable : c.global.fixed (decodeUtf8 name.name.bytes) = none) :
    ∃ c', handleSetprop r new c (atoms.length + 1) (vectorData (.symbol name :: atoms)) = some c' ∧
      c'.global.get (decodeUtf8 name.name.bytes) ≠ .other .undefined ∧
      Flattens c'.heap [c'.global.get (decodeUtf8 name.name.bytes)]
        (atoms.filterMap jsMarshalAtom) := by
  have back : ∀ val, (c.global.set (decodeUtf8 name.name.bytes) val).get
      (decodeUtf8 name.name.bytes) = val := by
    intro val
    simp [GlobalObject.get, GlobalObject.set, free, writable]
  have some_value : atoms.filterMap jsMarshalAtom ≠ [] := by
    obtain ⟨a, rest, rfl⟩ := List.exists_cons_of_ne_nil nonempty
    have first := listed a List.mem_cons_self
    cases a with
    | float w => exact List.cons_ne_nil _ _
    | symbol s => exact List.cons_ne_nil _ _
    | other type word => exact absurd first id
  obtain ⟨stored, stores, defined, flat⟩ := flattens_storedValue (decodeUtf8 name.name.bytes)
    some_value (fun v hv => marshalled_cases hv) c.heap new
  refine ⟨⟨(storedValue c.heap new stored).1,
    c.global.set (decodeUtf8 name.name.bytes) (storedValue c.heap new stored).2⟩, ?_, ?_, ?_⟩
  · rw [handleSetprop, jsSetprop_message r name nonempty, decoded_listed listed, stores]
  · rwa [back]
  · rwa [back]

/-- `getprop` sends what the value flattens to, as `outlet` would. -/
theorem jsGetprop_flattens {c : Scope} {name : Symbol} {leaves : List Value}
    (defined : c.global.get (decodeUtf8 name.name.bytes) ≠ .other .undefined)
    (flat : Flattens c.heap [c.global.get (decodeUtf8 name.name.bytes)] leaves)
    (alloc : Allocator P) (T : SymbolTable) (x : ObjId) (outlet : PortId) (outlets : List PortId)
    (r : Registry P) :
    ∃ depth, ∀ fuel, depth ≤ fuel →
      jsGetprop c alloc T x (outlet :: outlets) fuel 1 (vectorData [.symbol name]) r =
        some ((outgoing T (encodeLeaves c.heap alloc x leaves r).1).elim .nothing
          (.message outlet), (encodeLeaves c.heap alloc x leaves r).2) := by
  have named : propName 0 1 (vectorData [.symbol name]) = some (decodeUtf8 name.name.bytes) := rfl
  obtain ⟨depth, returns⟩ := jsUnmarshalArgs_flattens alloc x flat
  refine ⟨depth, ?_⟩
  intro fuel enough
  cases formed : outgoing T (encodeLeaves c.heap alloc x leaves r).1 <;>
    simp [jsGetprop, named, defined, jsOutletArgs, returns fuel enough r, formed]

theorem floatOrSymbol_resent {atoms : List Atom} (listed : ∀ a ∈ atoms, Listed a) :
    ∀ a ∈ atoms.map resent, FloatOrSymbol a := by
  intro a ha
  obtain ⟨b, hb, rfl⟩ := List.mem_map.mp ha
  have domain := listed b hb
  cases b with
  | float w => trivial
  | symbol s => trivial
  | other type word => exact absurd domain id

theorem not_collides_resent {atoms : List Atom} {T : SymbolTable}
    (apart : ∀ w, .float w ∈ atoms.map resent → ∀ s, T.addr s ≠ w.toNat) :
    ¬ Collides T (atoms.map resent) := by
  intro collision
  rcases atoms with _ | ⟨w | s | _, rest⟩
  · exact collision
  · exact apart _ List.mem_cons_self _ collision
  · exact collision
  · exact collision

/-- `setprop` and then `getprop` send one message through the first outlet, and it
spells the list. -/
theorem getprop_after_setprop {atoms : List Atom} (nonempty : atoms ≠ [])
    (listed : ∀ a ∈ atoms, Listed a) {T : SymbolTable}
    (apart : ∀ w, .float w ∈ atoms.map resent → ∀ s, T.addr s ≠ w.toNat) {c : Scope}
    {name : Symbol}
    (free : c.global.intercepted (decodeUtf8 name.name.bytes) = none)
    (writable : c.global.fixed (decodeUtf8 name.name.bytes) = none)
    (alloc : Allocator P) (x : ObjId) (outlet : PortId) (outlets : List PortId)
    (r r' : Registry P) (new : Ref) :
    ∃ c' depth m sent,
      handleSetprop r new c (atoms.length + 1) (vectorData (.symbol name :: atoms)) = some c' ∧
      (∀ fuel, depth ≤ fuel →
        jsGetprop c' alloc T x (outlet :: outlets) fuel 1 (vectorData [.symbol name]) r' =
          some (.message outlet m, r')) ∧
      List.Forall₂ SameAtom atoms sent ∧ Spells sent m := by
  obtain ⟨c', handled, defined, flat⟩ :=
    handleSetprop_listed nonempty listed r new c name free writable
  obtain ⟨depth, reads⟩ := jsGetprop_flattens defined flat alloc T x outlet outlets r'
  simp only [encodeLeaves_listed listed] at reads
  have kept : atoms.map resent ≠ [] := fun empty => nonempty (List.map_eq_nil_iff.mp empty)
  obtain ⟨m, formed, spells⟩ :=
    outgoing_spells kept (floatOrSymbol_resent listed) (not_collides_resent apart)
  refine ⟨c', depth, m, atoms.map resent, handled, ?_, ?_, spells⟩
  · intro fuel enough
    rw [reads fuel enough, formed]
    rfl
  · rw [List.forall₂_map_right_iff, List.forall₂_same]
    exact fun a _ => sameAtom_resent a

/-- A global object with no properties. -/
def emptyScope : Scope :=
  ⟨⟨fun _ => .plain, fun _ => [], fun _ => none⟩, ⟨fun _ => none, fun _ => none, fun _ => none⟩⟩

/-- The messages `setprop p 1 bang` and `getprop p`. -/
theorem getprop_after_setprop_list :
    ∃ c' depth m sent,
      handleSetprop (.empty : Registry .bits64) 0 emptyScope 3
          (vectorData [.symbol propAtom, .float 0x3f800000, .symbol sBang]) = some c' ∧
      (∀ fuel, depth ≤ fuel →
        jsGetprop c' (fun _ : Registry .bits64 => 0x1000) highSymbols 1 [5] fuel 1
          (vectorData [.symbol propAtom]) .empty = some (.message 5 m, .empty)) ∧
      List.Forall₂ SameAtom [.float 0x3f800000, .symbol sBang] sent ∧ Spells sent m := by
  have free : emptyScope.global.intercepted (decodeUtf8 propAtom.name.bytes) = none := rfl
  have writable : emptyScope.global.fixed (decodeUtf8 propAtom.name.bytes) = none := rfl
  have nonempty : [Atom.float 0x3f800000, .symbol sBang] ≠ [] := List.cons_ne_nil _ _
  refine getprop_after_setprop nonempty ?_ ?_ free writable _ 1 5 [] .empty .empty 0
  · intro a ha
    rcases List.mem_pair.mp ha with rfl | rfl
    · trivial
    · exact ⟨by decide, jsText "bang", by decide, by decide⟩
  · intro w _ s same
    have bound := w.isLt
    simp only [highSymbols] at same
    omega

end PropertyReads
