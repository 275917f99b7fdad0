import Pdjs.Engine
import Pdjs.Marshalling

/-!
# What a conversion visits

The conversion of an argument reads the elements of arrays, and a read may run a getter
that changes anything, also the length of the array that is being read, or throws. The
length is asked for again in every round, and an element that throws is passed over.

`Visits` lists the leaves that a conversion comes by with their atoms, and the reads that
throw. It has a derivation exactly where the conversion returns.
-/

namespace Visiting

open PdAtoms ObjectRegistry FloatFormats Marshalling Engine

universe u

variable {P : Platform} {ω : Type u}

def jsUnmarshalString (E : V8 P ω) (x : ObjId) (value : Value) (m : Machine P ω) :
    (CString × Addr P) × Machine P ω :=
  match value with
  | .string s => ((jsObjectToString (some s), 0), m)
  | .object o =>
    if E.kind m.heap o = .stringObject then
      let (text, m) := E.toText (.object o) m
      ((jsObjectToString text, 0), m)
    else
      let (jso, reg) := jsUnmarshalObject x o (E.allocate m) m.reg
      ((.ofAscii "jsobject", jso), { m with reg := reg })
  | _ => ((.ofBytes [], 0), m)

def unmarshalSymbols (E : V8 P ω) (x : ObjId) (arg : Value) (m : Machine P ω) :
    List Atom × Machine P ω :=
  let (t, m) := jsUnmarshalString E x arg m
  (symbolAtoms t, m)

/-- The loop over the elements of an array from index `i`, for at most `n` rounds. -/
def unmarshalElements (E : V8 P ω)
    (arg : Value → Machine P ω → Option (List Atom × Machine P ω)) (o : Ref) :
    Nat → Nat → Machine P ω → Option (List Atom × Machine P ω)
  | 0, _, m => some ([], m)
  | n + 1, i, m =>
    if i < (E.length m.heap o).toNat then
      match E.element o i m with
      | (some subval, m) => do
        let (subs, m) ← arg subval m
        let (args, m) ← unmarshalElements E arg o n (i + 1) m
        return (subs ++ args, m)
      | (none, m) => unmarshalElements E arg o n (i + 1) m
    else
      some ([], m)

/-- The index is a `uint32_t`, and it stays below the length. -/
def elementsFrom (E : V8 P ω) (arg : Value → Machine P ω → Option (List Atom × Machine P ω))
    (o : Ref) (i : Nat) (m : Machine P ω) : Option (List Atom × Machine P ω) :=
  unmarshalElements E arg o (2 ^ 32 - i) i m

def jsUnmarshalArg (E : V8 P ω) (x : ObjId) :
    Nat → Value → Machine P ω → Option (List Atom × Machine P ω)
  | 0, _, _ => none
  | fuel + 1, arg, m =>
    match arg with
    | .number num => some ([.float (narrow num)], m)
    | .object o =>
      if E.kind m.heap o = .array then
        elementsFrom E (jsUnmarshalArg E x fuel) o 0 m
      else
        some (unmarshalSymbols E x (.object o) m)
    | _ => some (unmarshalSymbols E x arg m)

def jsUnmarshalArgs (E : V8 P ω) (x : ObjId) (fuel : Nat) :
    List Value → Machine P ω → Option (List Atom × Machine P ω)
  | [], m => some ([], m)
  | arg :: rest, m => do
    let (uma, m) ← jsUnmarshalArg E x fuel arg m
    let (argv, m) ← jsUnmarshalArgs E x fuel rest m
    return (uma ++ argv, m)

inductive Task where
  | arg (v : Value)
  | elements (o : Ref) (i : Nat)
  | args (vs : List Value)

/-- The conversion of a task. -/
def convert (E : V8 P ω) (x : ObjId) (fuel : Nat) :
    Task → Machine P ω → Option (List Atom × Machine P ω)
  | .arg v, m => jsUnmarshalArg E x fuel v m
  | .elements o i, m => elementsFrom E (jsUnmarshalArg E x fuel) o i m
  | .args vs, m => jsUnmarshalArgs E x fuel vs m

def IsArray (E : V8 P ω) (m : Machine P ω) (v : Value) : Prop :=
  ∃ o, v = .object o ∧ E.kind m.heap o = .array

/-- The encoding of a value that is no array. -/
def encodeLeaf (E : V8 P ω) (x : ObjId) (v : Value) (m : Machine P ω) :
    List Atom × Machine P ω :=
  match v with
  | .number num => ([.float (narrow num)], m)
  | _ => unmarshalSymbols E x v m

/-- What is visited, in order: the atoms of a leaf, or nothing where a read throws. -/
inductive Visits (E : V8 P ω) (x : ObjId) :
    Task → Machine P ω → List (Option (List Atom)) → Machine P ω → Prop where
  | leaf {v : Value} {m : Machine P ω} (single : ¬ IsArray E m v) :
      Visits E x (.arg v) m [some (encodeLeaf E x v m).1] (encodeLeaf E x v m).2
  | array {o : Ref} {m after : Machine P ω} {leaves : List (Option (List Atom))}
      (kind : E.kind m.heap o = .array) (within : Visits E x (.elements o 0) m leaves after) :
      Visits E x (.arg (.object o)) m leaves after
  | stop {o : Ref} {i : Nat} {m : Machine P ω} (beyond : ¬ i < (E.length m.heap o).toNat) :
      Visits E x (.elements o i) m [] m
  | read {o : Ref} {i : Nat} {m m₁ m₂ after : Machine P ω} {v : Value}
      {leaves more : List (Option (List Atom))} (below : i < (E.length m.heap o).toNat)
      (element : E.element o i m = (some v, m₁)) (first : Visits E x (.arg v) m₁ leaves m₂)
      (rest : Visits E x (.elements o (i + 1)) m₂ more after) :
      Visits E x (.elements o i) m (leaves ++ more) after
  | throw {o : Ref} {i : Nat} {m m₁ after : Machine P ω} {more : List (Option (List Atom))}
      (below : i < (E.length m.heap o).toNat) (element : E.element o i m = (none, m₁))
      (rest : Visits E x (.elements o (i + 1)) m₁ more after) :
      Visits E x (.elements o i) m (none :: more) after
  | nil {m : Machine P ω} : Visits E x (.args []) m [] m
  | cons {v : Value} {vs : List Value} {m m₁ after : Machine P ω}
      {leaves more : List (Option (List Atom))} (first : Visits E x (.arg v) m leaves m₁)
      (rest : Visits E x (.args vs) m₁ more after) :
      Visits E x (.args (v :: vs)) m (leaves ++ more) after

/-- The atoms of the leaves that could be read. -/
def readable (leaves : List (Option (List Atom))) : List Atom :=
  leaves.flatMap fun leaf => leaf.getD []

variable {E : V8 P ω} {x : ObjId} {m after : Machine P ω}

theorem elementsFrom_stop {arg : Value → Machine P ω → Option (List Atom × Machine P ω)} {o : Ref}
    {i : Nat} (beyond : ¬ i < (E.length m.heap o).toNat) :
    elementsFrom E arg o i m = some ([], m) := by
  rw [elementsFrom]
  cases 2 ^ 32 - i with
  | zero => rfl
  | succ n => simp [unmarshalElements, beyond]

/-- An index below the length is not the last one. -/
theorem rounds_left {o : Ref} {i : Nat} (below : i < (E.length m.heap o).toNat) :
    2 ^ 32 - i = 2 ^ 32 - (i + 1) + 1 := by
  have := (E.length m.heap o).isLt
  omega

theorem elementsFrom_read {arg : Value → Machine P ω → Option (List Atom × Machine P ω)} {o : Ref}
    {i : Nat} {v : Value} {m₁ : Machine P ω} (below : i < (E.length m.heap o).toNat)
    (element : E.element o i m = (some v, m₁)) :
    elementsFrom E arg o i m = (do
      let (subs, m₂) ← arg v m₁
      let (args, m₃) ← elementsFrom E arg o (i + 1) m₂
      return (subs ++ args, m₃)) := by
  simp only [elementsFrom]
  rw [rounds_left below, unmarshalElements, if_pos below, element]

theorem elementsFrom_throw {arg : Value → Machine P ω → Option (List Atom × Machine P ω)}
    {o : Ref} {i : Nat} {m₁ : Machine P ω} (below : i < (E.length m.heap o).toNat)
    (element : E.element o i m = (none, m₁)) :
    elementsFrom E arg o i m = elementsFrom E arg o (i + 1) m₁ := by
  simp only [elementsFrom]
  rw [rounds_left below, unmarshalElements, if_pos below, element]

theorem jsUnmarshalArg_leaf {v : Value} (single : ¬ IsArray E m v) (fuel : Nat) :
    jsUnmarshalArg E x (fuel + 1) v m = some (encodeLeaf E x v m) := by
  cases v with
  | number num => rfl
  | string s => rfl
  | other p => rfl
  | object o =>
    have plain : E.kind m.heap o ≠ .array := fun kind => single ⟨o, rfl, kind⟩
    simp [jsUnmarshalArg, plain, encodeLeaf]

theorem jsUnmarshalArg_array {o : Ref} (kind : E.kind m.heap o = .array) (fuel : Nat) :
    jsUnmarshalArg E x (fuel + 1) (.object o) m =
      elementsFrom E (jsUnmarshalArg E x fuel) o 0 m := by
  simp [jsUnmarshalArg, kind]

@[simp]
theorem readable_append (leaves more : List (Option (List Atom))) :
    readable (leaves ++ more) = readable leaves ++ readable more := List.flatMap_append

@[simp]
theorem readable_throw (more : List (Option (List Atom))) :
    readable (none :: more) = readable more := rfl

@[simp]
theorem readable_leaf (atoms : List Atom) : readable [some atoms] = atoms :=
  List.append_nil atoms

theorem convert_of_visits {task : Task} {leaves : List (Option (List Atom))}
    (visits : Visits E x task m leaves after) :
    ∃ depth, ∀ fuel, depth ≤ fuel → convert E x fuel task m = some (readable leaves, after) := by
  induction visits with
  | @leaf v m single =>
    refine ⟨1, fun fuel enough => ?_⟩
    obtain ⟨f, rfl⟩ : ∃ f, fuel = f + 1 := ⟨fuel - 1, by omega⟩
    simp only [convert, jsUnmarshalArg_leaf single, readable_leaf]
  | array kind _ ih =>
    obtain ⟨depth, within⟩ := ih
    refine ⟨depth + 1, fun fuel enough => ?_⟩
    obtain ⟨f, rfl⟩ : ∃ f, fuel = f + 1 := ⟨fuel - 1, by omega⟩
    rw [convert, jsUnmarshalArg_array kind]
    exact within f (by omega)
  | stop beyond => exact ⟨0, fun fuel _ => elementsFrom_stop beyond⟩
  | read below element _ _ ihfirst ihrest =>
    obtain ⟨depth, first⟩ := ihfirst
    obtain ⟨depth', rest⟩ := ihrest
    refine ⟨depth + depth', fun fuel enough => ?_⟩
    have hfirst := first fuel (by omega)
    have hrest := rest fuel (by omega)
    simp only [convert] at hfirst hrest
    simp only [convert, elementsFrom_read below element, hfirst, hrest, Option.bind_eq_bind,
      Option.bind_some, readable_append]
    rfl
  | throw below element _ ih =>
    obtain ⟨depth, rest⟩ := ih
    refine ⟨depth, fun fuel enough => ?_⟩
    have hrest := rest fuel enough
    simp only [convert] at hrest
    simp only [convert, elementsFrom_throw below element, hrest, readable_throw]
  | nil => exact ⟨0, fun fuel _ => rfl⟩
  | cons _ _ ihfirst ihrest =>
    obtain ⟨depth, first⟩ := ihfirst
    obtain ⟨depth', rest⟩ := ihrest
    refine ⟨depth + depth', fun fuel enough => ?_⟩
    have hfirst := first fuel (by omega)
    have hrest := rest fuel (by omega)
    simp only [convert] at hfirst hrest
    simp only [convert, jsUnmarshalArgs, hfirst, hrest, Option.bind_eq_bind, Option.bind_some,
      readable_append]
    rfl

/-- The conversion of the task returns what some visit lists. -/
def Listed (E : V8 P ω) (x : ObjId) (task : Task) (m : Machine P ω)
    (result : List Atom × Machine P ω) : Prop :=
  ∃ leaves, Visits E x task m leaves result.2 ∧ result.1 = readable leaves

theorem listed_elements {arg : Value → Machine P ω → Option (List Atom × Machine P ω)}
    (args : ∀ v m result, arg v m = some result → Listed E x (.arg v) m result) (o : Ref) {i : Nat}
    {m : Machine P ω} {result : List Atom × Machine P ω}
    (returns : elementsFrom E arg o i m = some result) : Listed E x (.elements o i) m result := by
  -- by the number of rounds that are left
  induction left : 2 ^ 32 - i generalizing i m result with
  | zero =>
    have beyond : ¬ i < (E.length m.heap o).toNat := by
      have := (E.length m.heap o).isLt
      omega
    rw [elementsFrom_stop beyond] at returns
    cases returns
    exact ⟨[], .stop beyond, rfl⟩
  | succ n ih =>
    by_cases below : i < (E.length m.heap o).toNat
    · have next : 2 ^ 32 - (i + 1) = n := by omega
      cases element : E.element o i m with
      | mk subval m₁ =>
        cases subval with
        | none =>
          rw [elementsFrom_throw below element] at returns
          obtain ⟨more, rest, atoms⟩ := ih returns next
          exact ⟨none :: more, .throw below element rest, atoms⟩
        | some v =>
          rw [elementsFrom_read below element] at returns
          obtain ⟨⟨subs, m₂⟩, hfirst, returns⟩ := Option.bind_eq_some_iff.mp returns
          obtain ⟨⟨rest_atoms, m₃⟩, hrest, same⟩ := Option.bind_eq_some_iff.mp returns
          cases same
          obtain ⟨leaves, first, rfl⟩ := args v m₁ _ hfirst
          obtain ⟨more, rest, rfl⟩ := ih hrest next
          exact ⟨leaves ++ more, .read below element first rest, (readable_append _ _).symm⟩
    · rw [elementsFrom_stop below] at returns
      cases returns
      exact ⟨[], .stop below, rfl⟩

theorem listed_arg {fuel : Nat} {v : Value} {m : Machine P ω} {result : List Atom × Machine P ω}
    (returns : jsUnmarshalArg E x fuel v m = some result) : Listed E x (.arg v) m result := by
  induction fuel generalizing v m result with
  | zero => cases returns
  | succ fuel ih =>
    by_cases isArray : IsArray E m v
    · obtain ⟨o, rfl, kind⟩ := isArray
      rw [jsUnmarshalArg_array kind] at returns
      obtain ⟨leaves, within, atoms⟩ := listed_elements (fun v m result => ih) o returns
      exact ⟨leaves, .array kind within, atoms⟩
    · rw [jsUnmarshalArg_leaf isArray] at returns
      cases returns
      exact ⟨_, .leaf isArray, (readable_leaf _).symm⟩

theorem listed_args {fuel : Nat} {vs : List Value} {m : Machine P ω}
    {result : List Atom × Machine P ω} (returns : jsUnmarshalArgs E x fuel vs m = some result) :
    Listed E x (.args vs) m result := by
  induction vs generalizing m result with
  | nil =>
    cases returns
    exact ⟨[], .nil, rfl⟩
  | cons v vs ih =>
    obtain ⟨⟨uma, m₁⟩, hfirst, returns⟩ := Option.bind_eq_some_iff.mp returns
    obtain ⟨⟨argv, m₂⟩, hrest, same⟩ := Option.bind_eq_some_iff.mp returns
    cases same
    obtain ⟨leaves, first, rfl⟩ := listed_arg hfirst
    obtain ⟨more, rest, rfl⟩ := ih hrest
    exact ⟨leaves ++ more, .cons first rest, (readable_append _ _).symm⟩

/-- A visit that comes to an end is the only one. -/
theorem Visits.unique {task : Task} {leaves leaves' : List (Option (List Atom))}
    {after' : Machine P ω} (visits : Visits E x task m leaves after)
    (visits' : Visits E x task m leaves' after') : leaves = leaves' ∧ after = after' := by
  induction visits generalizing leaves' after' with
  | leaf single =>
    cases visits' with
    | leaf _ => exact ⟨rfl, rfl⟩
    | array kind _ => exact absurd ⟨_, rfl, kind⟩ single
  | array kind _ ih =>
    cases visits' with
    | leaf single => exact absurd ⟨_, rfl, kind⟩ single
    | array _ within => exact ih within
  | stop beyond =>
    cases visits' with
    | stop _ => exact ⟨rfl, rfl⟩
    | read below _ _ _ => exact absurd below beyond
    | throw below _ _ => exact absurd below beyond
  | read below element _ _ ihfirst ihrest =>
    cases visits' with
    | stop beyond => exact absurd below beyond
    | read _ element' first' rest' =>
      cases element.symm.trans element'
      obtain ⟨rfl, rfl⟩ := ihfirst first'
      obtain ⟨rfl, rfl⟩ := ihrest rest'
      exact ⟨rfl, rfl⟩
    | throw _ element' _ => cases element.symm.trans element'
  | throw below element _ ih =>
    cases visits' with
    | stop beyond => exact absurd below beyond
    | read _ element' _ _ => cases element.symm.trans element'
    | throw _ element' rest' =>
      cases element.symm.trans element'
      obtain ⟨rfl, rfl⟩ := ih rest'
      exact ⟨rfl, rfl⟩
  | nil =>
    cases visits'
    exact ⟨rfl, rfl⟩
  | cons _ _ ihfirst ihrest =>
    cases visits' with
    | cons first' rest' =>
      obtain ⟨rfl, rfl⟩ := ihfirst first'
      obtain ⟨rfl, rfl⟩ := ihrest rest'
      exact ⟨rfl, rfl⟩

/-- The engine of a heap that no read changes. -/
def ofHeap (h : Heap) (alloc : Allocator P) : V8 P Unit where
  kind := fun _ o => h.kind o
  length := fun _ o => BitVec.ofNat 32 (h.elements o).length
  bound := fun _ _ => true
  numberText := fun _ => []
  allocate := fun m => alloc m.reg
  element := fun o i m => (((h.elements o)[i]?).join, m)
  objectText := fun o m => (h.text o, m)
  toInt32 := fun _ m => (none, m)
  stackTrace := fun _ m => (none, m)

section OfHeap

variable {h : Heap} {alloc : Allocator P} {r : Registry P} {outlets : List Ports.PortId}

/-- The machine after a conversion that only changes the registry. -/
def withRegistry (outlets : List Ports.PortId) (result : List Atom × Registry P) :
    List Atom × Machine P Unit :=
  (result.1, ⟨result.2, outlets, ()⟩)

theorem unmarshalSymbols_ofHeap (arg : Value) :
    unmarshalSymbols (ofHeap h alloc) x arg ⟨r, outlets, ()⟩ =
      withRegistry outlets (Marshalling.unmarshalSymbols h alloc x arg r) := by
  cases arg with
  | object o =>
    by_cases text : h.kind o = .stringObject
    · simp [unmarshalSymbols, jsUnmarshalString, ofHeap, text, V8.toText, withRegistry,
        Marshalling.unmarshalSymbols, Marshalling.jsUnmarshalString]
    · simp [unmarshalSymbols, jsUnmarshalString, ofHeap, text, withRegistry,
        Marshalling.unmarshalSymbols, Marshalling.jsUnmarshalString]
  | _ => rfl

theorem elementsFrom_ofHeap
    {arg : Value → Machine P Unit → Option (List Atom × Machine P Unit)}
    {arg' : Value → Registry P → Option (List Atom × Registry P)}
    (args : ∀ v r, arg v ⟨r, outlets, ()⟩ = (arg' v r).map (withRegistry outlets)) {o : Ref}
    (short : (h.elements o).length < 2 ^ 32) {i : Nat} (inside : i ≤ (h.elements o).length)
    (r : Registry P) :
    elementsFrom (ofHeap h alloc) arg o i ⟨r, outlets, ()⟩ =
      (unmarshalEach arg' ((h.elements o).drop i) r).map (withRegistry outlets) := by
  have length : ((ofHeap h alloc).length () o).toNat = (h.elements o).length :=
    (BitVec.toNat_ofNat _ _).trans (Nat.mod_eq_of_lt short)
  induction left : (h.elements o).length - i generalizing i r with
  | zero =>
    have beyond : ¬ i < ((ofHeap h alloc).length () o).toNat := by omega
    rw [elementsFrom_stop beyond, List.drop_of_length_le (by omega)]
    rfl
  | succ n ih =>
    have below : i < ((ofHeap h alloc).length () o).toNat := by omega
    have here : i < (h.elements o).length := by omega
    have rest := fun r => ih (i := i + 1) (by omega) r (by omega)
    rw [List.drop_eq_getElem_cons here]
    have element : (ofHeap h alloc).element o i ⟨r, outlets, ()⟩ =
        ((h.elements o)[i], ⟨r, outlets, ()⟩) := by
      simp [ofHeap, List.getElem?_eq_getElem here]
    cases subval : (h.elements o)[i] with
    | none =>
      rw [subval] at element
      rw [elementsFrom_throw below element, rest, unmarshalEach]
    | some v =>
      rw [subval] at element
      rw [elementsFrom_read below element, args, unmarshalEach]
      cases arg' v r with
      | none => rfl
      | some first =>
        simp only [Option.map_some, Option.bind_eq_bind, Option.bind_some, withRegistry, rest]
        cases unmarshalEach arg' (List.drop (i + 1) (h.elements o)) first.2 with
        | none => rfl
        | some more => rfl

/-- Where nothing runs script the conversion is the one of a heap that does not change. -/
theorem jsUnmarshalArg_ofHeap (short : ∀ o, (h.elements o).length < 2 ^ 32) (fuel : Nat)
    (v : Value) (r : Registry P) :
    jsUnmarshalArg (ofHeap h alloc) x fuel v ⟨r, outlets, ()⟩ =
      (Marshalling.jsUnmarshalArg h alloc x fuel v r).map (withRegistry outlets) := by
  induction fuel generalizing v r with
  | zero => rfl
  | succ fuel ih =>
    cases v with
    | number num => rfl
    | string s => rfl
    | other p => rfl
    | object o =>
      by_cases kind : h.kind o = .array
      · have array : (ofHeap h alloc).kind (⟨r, outlets, ()⟩ : Machine P Unit).heap o = .array :=
          kind
        rw [jsUnmarshalArg_array array, elementsFrom_ofHeap ih (short o) (Nat.zero_le _)]
        simp [Marshalling.jsUnmarshalArg, kind]
      · have single : ¬ IsArray (ofHeap h alloc) ⟨r, outlets, ()⟩ (.object o) := by
          rintro ⟨o', same, kind'⟩
          cases same
          exact kind kind'
        rw [jsUnmarshalArg_leaf single]
        simp [Marshalling.jsUnmarshalArg, kind, encodeLeaf, unmarshalSymbols_ofHeap]

theorem jsUnmarshalArgs_ofHeap (short : ∀ o, (h.elements o).length < 2 ^ 32) (fuel : Nat)
    (vs : List Value) (r : Registry P) :
    jsUnmarshalArgs (ofHeap h alloc) x fuel vs ⟨r, outlets, ()⟩ =
      (Marshalling.jsUnmarshalArgs h alloc x fuel vs r).map (withRegistry outlets) := by
  rw [Marshalling.jsUnmarshalArgs]
  induction vs generalizing r with
  | nil => rfl
  | cons v vs ih =>
    simp only [jsUnmarshalArgs, jsUnmarshalArg_ofHeap short, List.map_cons, unmarshalEach]
    cases Marshalling.jsUnmarshalArg h alloc x fuel v r with
    | none => rfl
    | some first =>
      simp only [Option.map_some, Option.bind_eq_bind, Option.bind_some, withRegistry, ih]
      cases unmarshalEach (Marshalling.jsUnmarshalArg h alloc x fuel) (vs.map some) first.2 with
      | none => rfl
      | some more => rfl

end OfHeap

end Visiting
