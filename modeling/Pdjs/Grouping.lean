import Pdjs.Cycles
import Pdjs.Spelling

/-!
# How arguments are grouped

The conversion sees an argument list through its leaves only. Grouping arguments
into arrays does not change the message, and a list can be converted in parts.
`messnamed` has its own copy of the loop over the arguments, and it sends the
message that `outlet` sends.
-/

namespace Grouping

open PdAtoms ObjectRegistry Marshalling Flattening RoundTrip Cycles RootedGraphs Sending Ports
open Transport

variable {P : Platform}

/-- What a call of `messnamed` does. -/
inductive Posted where
  | nothing
  | message (receiver : Symbol) (m : Message)
  deriving DecidableEq

/-- The loop of `js_messnamed`, which inserts at the end of what it has. -/
def messnamedLoop (arg : Value → Registry P → Option (List Atom × Registry P)) :
    List Value → List Atom → Registry P → Option (List Atom × Registry P)
  | [], argv, r => some (argv, r)
  | v :: rest, argv, r => do
    let (uma, r) ← arg v r
    messnamedLoop arg rest (argv ++ uma) r

/-- `js_messnamed`. `toText` is the conversion of its first argument to a string and
`bound` tells whether something is bound to a symbol. -/
def jsMessnamed (h : Heap) (alloc : Allocator P) (T : SymbolTable) (x : ObjId)
    (toText : Value → Option JsString) (bound : Symbol → Bool) (fuel : Nat) (args : List Value)
    (r : Registry P) : Option (Posted × Registry P) :=
  match args with
  | [] => some (.nothing, r)
  | name :: rest =>
    match toText name with
    | none => some (.nothing, r)
    | some text =>
      let sym := gensym (jsObjectToString (some text))
      if bound sym then do
        let (argv, r) ← messnamedLoop (jsUnmarshalArg h alloc x fuel) rest [] r
        return (match outgoing T argv with | some m => .message sym m | none => .nothing, r)
      else
        some (.nothing, r)

theorem messnamedLoop_eq (arg : Value → Registry P → Option (List Atom × Registry P))
    (vs : List Value) (argv : List Atom) (r : Registry P) :
    messnamedLoop arg vs argv r =
      (unmarshalEach arg (vs.map some) r).map (fun result => (argv ++ result.1, result.2)) := by
  induction vs generalizing argv r with
  | nil => simp [messnamedLoop, unmarshalEach]
  | cons v vs ih =>
    cases first : arg v r with
    | none => simp [messnamedLoop, unmarshalEach, first]
    | some result =>
      simp only [messnamedLoop, List.map_cons, unmarshalEach, first, Option.bind_eq_bind,
        Option.bind_some, ih]
      cases unmarshalEach arg (vs.map some) result.2 with
      | none => rfl
      | some rest => simp

variable {h : Heap} {alloc : Allocator P} {x : ObjId} {T : SymbolTable}

/-- No array on a cycle is in reach of the list, and reading the elements of the arrays
in its reach does not throw. -/
structure FinitelyNested (h : Heap) (args : List Value) : Prop where
  descends : ∀ v ∈ args, ∀ o, IsArrayAt h v o → Descends (Nested h) o
  readable : ∀ v ∈ args, ∀ o, Reach (IsArrayAt h v) (Nested h) o → none ∉ h.elements o

theorem exists_values {vs : List (Option Value)} (readable : none ∉ vs) :
    ∃ subs : List Value, vs = subs.map some := by
  induction vs with
  | nil => exact ⟨[], rfl⟩
  | cons v vs ih =>
    obtain ⟨subs, rfl⟩ := ih (fun hv => readable (List.mem_cons_of_mem _ hv))
    cases v with
    | none => exact absurd List.mem_cons_self readable
    | some v => exact ⟨v :: subs, rfl⟩

theorem flattens_of_elements {args : List Value}
    (each : ∀ v ∈ args, ∀ o, IsArrayAt h v o →
      ∃ subs inner, h.elements o = subs.map some ∧ Flattens h subs inner) :
    ∃ leaves, Flattens h args leaves := by
  induction args with
  | nil => exact ⟨[], .nil⟩
  | cons v args ih =>
    obtain ⟨leaves, rest⟩ := ih (fun w hw => each w (List.mem_cons_of_mem _ hw))
    by_cases isArray : IsArray h v
    · obtain ⟨o, rfl, kind⟩ := isArray
      obtain ⟨subs, inner, elements, within⟩ := each _ List.mem_cons_self o ⟨rfl, kind⟩
      exact ⟨inner ++ leaves, .array kind elements within rest⟩
    · exact ⟨v :: leaves, .leaf isArray rest⟩

theorem exists_flattens {args : List Value} (nested : FinitelyNested h args) :
    ∃ leaves, Flattens h args leaves := by
  have arrays : ∀ v ∈ args, ∀ o, Descends (Nested h) o → Reach (IsArrayAt h v) (Nested h) o →
      h.kind o = .array → ∃ subs inner, h.elements o = subs.map some ∧ Flattens h subs inner := by
    intro v hv o descends
    induction descends with
    | intro o _ ih =>
      intro reached kind
      obtain ⟨subs, elements⟩ := exists_values (nested.readable v hv o reached)
      have each : ∀ w ∈ subs, ∀ sub, IsArrayAt h w sub →
          ∃ subs' inner, h.elements sub = subs'.map some ∧ Flattens h subs' inner := by
        rintro w hw sub ⟨rfl, kind'⟩
        have within : Nested h o sub := by
          refine ⟨kind, kind', ?_⟩
          rw [elements]
          exact List.mem_map_of_mem hw
        exact ih sub within (.step reached within) kind'
      obtain ⟨inner, within⟩ := flattens_of_elements each
      exact ⟨subs, inner, elements, within⟩
  apply flattens_of_elements
  intro v hv o root
  exact arrays v hv o (nested.descends v hv o root) (.root root) root.2

/-- The conversion of the list returns `result`. -/
def Encodes (h : Heap) (alloc : Allocator P) (x : ObjId) (args : List Value) (r : Registry P)
    (result : List Atom × Registry P) : Prop :=
  ∃ depth, ∀ fuel, depth ≤ fuel → jsUnmarshalArgs h alloc x fuel args r = some result

theorem encodes_iff {args leaves : List Value} (flat : Flattens h args leaves) {r : Registry P}
    {result : List Atom × Registry P} :
    Encodes h alloc x args r result ↔ result = encodeLeaves h alloc x leaves r := by
  obtain ⟨depth, returns⟩ := jsUnmarshalArgs_flattens alloc x flat
  constructor
  · rintro ⟨depth', returns'⟩
    have same := (returns' (depth + depth') (by omega)).symm.trans
      (returns (depth + depth') (by omega) r)
    exact Option.some.inj same
  · rintro rfl
    exact ⟨depth, fun fuel enough => returns fuel enough r⟩

theorem flattens_append {args more leaves leaves' : List Value} (flat : Flattens h args leaves)
    (flat' : Flattens h more leaves') : Flattens h (args ++ more) (leaves ++ leaves') := by
  induction flat with
  | nil => exact flat'
  | leaf single _ ih => exact .leaf single ih
  | array kind elements within _ _ ih =>
    rw [List.append_assoc]
    exact .array kind elements within ih

theorem encodes_append {args more leaves leaves' : List Value} (flat : Flattens h args leaves)
    (flat' : Flattens h more leaves') {r : Registry P} {first rest : List Atom × Registry P}
    (hfirst : Encodes h alloc x args r first) (hrest : Encodes h alloc x more first.2 rest) :
    Encodes h alloc x (args ++ more) r (first.1 ++ rest.1, rest.2) := by
  rw [encodes_iff flat] at hfirst
  rw [encodes_iff flat'] at hrest
  rw [encodes_iff (flattens_append flat flat'), encodeLeaves_append, ← hfirst, ← hrest]

theorem jsMessnamed_encoded {toText : Value → Option JsString} {bound : Symbol → Bool}
    {fuel : Nat} {name : Value} {args : List Value} {r after : Registry P} {text : JsString}
    {atoms : List Atom} (named : toText name = some text)
    (receives : bound (gensym (jsObjectToString (some text))) = true)
    (encoded : jsUnmarshalArgs h alloc x fuel args r = some (atoms, after)) :
    jsMessnamed h alloc T x toText bound fuel (name :: args) r =
      some ((outgoing T atoms).elim .nothing
        (.message (gensym (jsObjectToString (some text)))), after) := by
  rw [jsUnmarshalArgs] at encoded
  simp only [jsMessnamed, named, receives, messnamedLoop_eq, encoded, if_true]
  cases formed : outgoing T atoms <;> simp [formed]

/-- What the leaves of an argument list determine. -/
structure SeenAsLeaves (h : Heap) (alloc : Allocator P) (x : ObjId) (T : SymbolTable)
    (args leaves : List Value) : Prop where
  encodes : ∀ r, Encodes h alloc x args r (encodeLeaves h alloc x leaves r)
  distributes : ∀ more, FinitelyNested h more → ∀ r first rest,
    Encodes h alloc x args r first → Encodes h alloc x more first.2 rest →
      Encodes h alloc x (args ++ more) r (first.1 ++ rest.1, rest.2)
  regroups : ∀ args', Flattens h args' leaves → ∀ r result,
    Encodes h alloc x args r result ↔ Encodes h alloc x args' r result
  sendsAlike : ∀ (toInt32 : Value → Option (BitVec 32)) (outlets : List PortId) (n : Value)
    (num : BitVec 32) (outlet : PortId) (toText : Value → Option JsString)
    (bound : Symbol → Bool) (name : Value) (text : JsString) (r : Registry P),
    outlets.length < 2 ^ 31 → toInt32 n = some num → 0 ≤ num.toInt →
    outlets[num.toInt.toNat]? = some outlet → toText name = some text →
    bound (gensym (jsObjectToString (some text))) = true →
    ∃ depth m after, ∀ fuel, depth ≤ fuel →
      jsOutlet h alloc T x toInt32 outlets fuel (n :: args) r =
          some (Option.elim m .nothing (.message outlet), after) ∧
        jsMessnamed h alloc T x toText bound fuel (name :: args) r =
          some (Option.elim m .nothing (.message (gensym (jsObjectToString (some text)))), after)

/-- A finitely nested list has leaves, and the conversion sees it through them. -/
theorem seenAsLeaves (alloc : Allocator P) (x : ObjId) (T : SymbolTable) {args : List Value}
    (nested : FinitelyNested h args) :
    ∃ leaves, Flattens h args leaves ∧ SeenAsLeaves h alloc x T args leaves := by
  obtain ⟨leaves, flat⟩ := exists_flattens nested
  refine ⟨leaves, flat, fun r => (encodes_iff flat).mpr rfl, ?_, ?_, ?_⟩
  · intro more nested' r first rest hfirst hrest
    obtain ⟨leaves', flat'⟩ := exists_flattens nested'
    exact encodes_append flat flat' hfirst hrest
  · intro args' flat' r result
    rw [encodes_iff flat, encodes_iff flat']
  · intro toInt32 outlets n num outlet toText bound name text r small number nonneg found named
      receives
    obtain ⟨depth, returns⟩ := jsUnmarshalArgs_flattens alloc x flat
    refine ⟨depth, outgoing T (encodeLeaves h alloc x leaves r).1,
      (encodeLeaves h alloc x leaves r).2, ?_⟩
    intro fuel enough
    have encoded := returns fuel enough r
    exact ⟨jsOutlet_encoded small number nonneg found encoded,
      jsMessnamed_encoded named receives encoded⟩

theorem finitelyNested_small : FinitelyNested smallHeap [.object 0] := by
  have only : ∀ o, smallHeap.kind o = .array → o = 0 := by
    intro o kind
    by_contra other
    simp [smallHeap, other] at kind
  constructor
  · rintro _ _ o ⟨_, kind⟩
    constructor
    rintro sub ⟨_, kind', element⟩
    rw [only o kind, only sub kind'] at element
    simp [smallHeap] at element
  · intro v _ o reached
    have kind : smallHeap.kind o = .array :=
      reached.least (fun _ root => root.2) (fun _ _ _ nested => nested.2.1)
    rw [only o kind]
    simp [smallHeap]

theorem seenAsLeaves_small :
    ∃ leaves, Flattens smallHeap [.object 0] leaves ∧
      SeenAsLeaves smallHeap (fun _ : Registry .bits64 => 0x1000) 1 highSymbols [.object 0]
        leaves :=
  seenAsLeaves _ 1 highSymbols finitelyNested_small

end Grouping
