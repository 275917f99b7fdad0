import Pdjs.Spelling
import Pdjs.Visiting

/-!
# Reads that throw

`outlet` and `messnamed` convert their arguments and send what has come out, if anything
has. An element whose read throws is passed over, though the exception is still pending
and the call will end with it, so the rest of the elements is sent without it.
-/

namespace ThrowingReads

open PdAtoms ObjectRegistry Ports Engine Visiting Sending Spelling

universe u

variable {P : Platform} {ω : Type u}

/-- What a call hands to Pd. An outlet is read at an index that may be none of the
indices of the vector. -/
inductive Handed where
  | nothing
  | outlet (outlet : Option PortId) (m : Message)
  | named (receiver : Symbol) (m : Message)
  deriving DecidableEq

def Handed.message : Handed → Option Message
  | .nothing => none
  | .outlet _ m => some m
  | .named _ m => some m

/-- `x->outlets[outlet_num]` -/
def outletAt (outlets : List PortId) (outletNum : Int) : Option PortId :=
  if outletNum < 0 then none else outlets[outletNum.toNat]?

def jsOutletArgs (E : V8 P ω) (T : SymbolTable) (x : ObjId) (fuel : Nat) (outlet : Option PortId)
    (args : List Value) (m : Machine P ω) : Option (Handed × Machine P ω) := do
  let (argv, m) ← jsUnmarshalArgs E x fuel args m
  return ((outgoing T argv).elim .nothing (.outlet outlet), m)

def jsOutlet (E : V8 P ω) (T : SymbolTable) (x : ObjId) (fuel : Nat) (args : List Value)
    (m : Machine P ω) : Option (Handed × Machine P ω) :=
  match args with
  | [] => some (.nothing, m)
  | n :: argv =>
    match E.toInt32 n m with
    | (none, m) => some (.nothing, m)
    | (some outletNum, m) =>
      if outletNum.toInt < intSize m.outlets.length then
        let outlet := outletAt m.outlets outletNum.toInt
        if argv = [] then
          some (.nothing, m)
        else
          jsOutletArgs E T x fuel outlet argv m
      else
        some (.nothing, m)

/-- `js_messnamed`, which has a copy of the loop over the arguments. -/
def jsMessnamed (E : V8 P ω) (T : SymbolTable) (x : ObjId) (fuel : Nat) (args : List Value)
    (m : Machine P ω) : Option (Handed × Machine P ω) :=
  match args with
  | [] => some (.nothing, m)
  | name :: rest =>
    match E.toText name m with
    | (none, m) => some (.nothing, m)
    | (some text, m) =>
      let sym := gensym (jsObjectToString (some text))
      if E.bound m.heap sym then do
        let (argv, m) ← jsUnmarshalArgs E x fuel rest m
        return ((outgoing T argv).elim .nothing (.named sym), m)
      else
        some (.nothing, m)

inductive Native where
  | outlet
  | messnamed

def Native.call (E : V8 P ω) (T : SymbolTable) (x : ObjId) (fuel : Nat) :
    Native → List Value → Machine P ω → Option (Handed × Machine P ω)
  | .outlet => jsOutlet E T x fuel
  | .messnamed => jsMessnamed E T x fuel

/-- The call comes to convert the arguments `argv`, and the machine is then `before`. -/
inductive Converts (E : V8 P ω) :
    Native → List Value → Machine P ω → List Value → Machine P ω → Prop where
  | outlet {n : Value} {argv : List Value} {m before : Machine P ω} {outletNum : BitVec 32}
      (number : E.toInt32 n m = (some outletNum, before))
      (inside : outletNum.toInt < intSize before.outlets.length) (nonempty : argv ≠ []) :
      Converts E .outlet (n :: argv) m argv before
  | messnamed {name : Value} {argv : List Value} {m before : Machine P ω} {text : JsString}
      (named : E.toText name m = (some text, before))
      (receives : E.bound before.heap (gensym (jsObjectToString (some text))) = true) :
      Converts E .messnamed (name :: argv) m argv before

/-- A message that is sent spells all the leaves of the arguments, and none of the reads
has thrown. -/
def AllOrNothing (E : V8 P ω) (T : SymbolTable) (x : ObjId) (f : Native) (args : List Value)
    (m : Machine P ω) : Prop :=
  ∀ fuel handed after message, f.call E T x fuel args m = some (handed, after) →
    handed.message = some message → ∃ argv before leaves, Converts E f args m argv before ∧
      Visits E x (.args argv) before leaves after ∧ none ∉ leaves ∧
      Spells (readable leaves) message

/-- Every read throws, or no read throws and the first atom is not taken for the selector. -/
def Kept (T : SymbolTable) (leaves : List (Option (List Atom))) : Prop :=
  (∀ leaf ∈ leaves, leaf = none) ∨ none ∉ leaves ∧ ¬ Collides T (readable leaves)

variable {E : V8 P ω} {T : SymbolTable} {x : ObjId} {f : Native} {args argv : List Value}
  {m before after : Machine P ω}

theorem encodeLeaf_atoms (v : Value) (m : Machine P ω) :
    (encodeLeaf E x v m).1 ≠ [] ∧ ∀ a ∈ (encodeLeaf E x v m).1, FloatOrSymbol a := by
  have symbols : ∀ t : CString × Addr P,
      Marshalling.symbolAtoms t ≠ [] ∧ ∀ a ∈ Marshalling.symbolAtoms t, FloatOrSymbol a := by
    intro t
    refine ⟨List.cons_ne_nil _ _, ?_⟩
    rw [Marshalling.symbolAtoms]
    split
    · simp [FloatOrSymbol]
    · simp [FloatOrSymbol]
  cases v with
  | number num => simp [encodeLeaf, FloatOrSymbol]
  | string s => exact symbols _
  | object o => exact symbols _
  | other p => exact symbols _

theorem visits_atoms {task : Task} {leaves : List (Option (List Atom))}
    (visits : Visits E x task m leaves after) :
    ∀ atoms, some atoms ∈ leaves → atoms ≠ [] ∧ ∀ a ∈ atoms, FloatOrSymbol a := by
  induction visits with
  | leaf single =>
    intro atoms here
    cases List.mem_singleton.mp here
    exact encodeLeaf_atoms _ _
  | array _ _ ih => exact ih
  | stop _ => exact fun _ here => absurd here List.not_mem_nil
  | read _ _ _ _ ihfirst ihrest =>
    exact fun atoms here => (List.mem_append.mp here).elim (ihfirst atoms) (ihrest atoms)
  | throw _ _ _ ih =>
    intro atoms here
    rcases List.mem_cons.mp here with thrown | later
    · cases thrown
    · exact ih atoms later
  | nil => exact fun _ here => absurd here List.not_mem_nil
  | cons _ _ ihfirst ihrest =>
    exact fun atoms here => (List.mem_append.mp here).elim (ihfirst atoms) (ihrest atoms)

/-- There is an atom to send as soon as one leaf can be read. -/
theorem readable_eq_nil_iff {task : Task} {leaves : List (Option (List Atom))}
    (visits : Visits E x task m leaves after) :
    readable leaves = [] ↔ ∀ leaf ∈ leaves, leaf = none := by
  simp only [readable, List.flatMap_eq_nil_iff]
  constructor
  · intro empty leaf here
    cases leaf with
    | none => rfl
    | some atoms => exact absurd (empty _ here) (visits_atoms visits atoms here).1
  · intro thrown leaf here
    rw [thrown leaf here]
    rfl

theorem readable_plain {task : Task} {leaves : List (Option (List Atom))}
    (visits : Visits E x task m leaves after) : ∀ a ∈ readable leaves, FloatOrSymbol a := by
  intro a here
  obtain ⟨leaf, hleaf, atom⟩ := List.mem_flatMap.mp here
  cases leaf with
  | none => exact absurd atom List.not_mem_nil
  | some atoms => exact (visits_atoms visits atoms hleaf).2 a atom

/-- A vector whose first float is taken for the selector is not spelled. -/
theorem not_spells_of_collides {atoms : List Atom} {message : Message}
    (collides : Collides T atoms) (formed : outgoing T atoms = some message) :
    ¬ Spells atoms message := by
  rcases atoms with _ | ⟨w | s | _, rest⟩
  · exact absurd collides id
  · rw [outgoing_collision collides] at formed
    intro spells
    have same := congrArg Message.argv ((Option.some.inj formed).trans spells)
    exact List.cons_ne_self _ _ same.symm
  · exact absurd collides id
  · exact absurd collides id

/-- A call that comes to its conversion sends what that makes. -/
theorem call_converts {fuel : Nat} {atoms : List Atom}
    (converts : Converts E f args m argv before)
    (encoded : jsUnmarshalArgs E x fuel argv before = some (atoms, after)) :
    ∃ handed, f.call E T x fuel args m = some (handed, after) ∧
      handed.message = outgoing T atoms := by
  cases converts with
  | @outlet n _ _ _ outletNum number inside nonempty =>
    refine ⟨(outgoing T atoms).elim .nothing
      (.outlet (outletAt before.outlets outletNum.toInt)), ?_, ?_⟩
    · simp [Native.call, jsOutlet, number, inside, nonempty, jsOutletArgs, encoded]
    · cases outgoing T atoms <;> rfl
  | @messnamed _ _ _ _ text named receives =>
    refine ⟨(outgoing T atoms).elim .nothing
      (.named (gensym (jsObjectToString (some text)))), ?_, ?_⟩
    · simp [Native.call, jsMessnamed, named, receives, encoded]
    · cases outgoing T atoms <;> rfl

/-- Nothing is sent but by a call that comes to its conversion. -/
theorem nothing_ne_of_message {handed : Handed} {message : Message}
    (sent : handed.message = some message) (m' : Machine P ω) :
    some (Handed.nothing, m') ≠ some (handed, after) := by
  intro same
  cases same
  cases sent

theorem outlet_converts {fuel : Nat} {handed : Handed} {message : Message}
    (called : jsOutlet E T x fuel args m = some (handed, after))
    (sent : handed.message = some message) :
    ∃ argv before, Converts E .outlet args m argv before ∧
      ∃ result, jsUnmarshalArgs E x fuel argv before = some result := by
  cases args with
  | nil => exact absurd called (nothing_ne_of_message sent _)
  | cons n argv =>
    simp only [jsOutlet] at called
    rcases number : E.toInt32 n m with ⟨outletNum | outletNum, before⟩
    · rw [number] at called
      exact absurd called (nothing_ne_of_message sent _)
    · simp only [number] at called
      by_cases inside : outletNum.toInt < intSize before.outlets.length
      · by_cases nonempty : argv = []
        · simp only [inside, nonempty, if_true] at called
          exact absurd called (nothing_ne_of_message sent _)
        · simp only [inside, nonempty, if_true, if_false, jsOutletArgs] at called
          obtain ⟨result, encoded, _⟩ := Option.bind_eq_some_iff.mp called
          exact ⟨argv, before, .outlet number inside nonempty, result, encoded⟩
      · simp only [inside, if_false] at called
        exact absurd called (nothing_ne_of_message sent _)

theorem messnamed_converts {fuel : Nat} {handed : Handed} {message : Message}
    (called : jsMessnamed E T x fuel args m = some (handed, after))
    (sent : handed.message = some message) :
    ∃ argv before, Converts E .messnamed args m argv before ∧
      ∃ result, jsUnmarshalArgs E x fuel argv before = some result := by
  cases args with
  | nil => exact absurd called (nothing_ne_of_message sent _)
  | cons name argv =>
    simp only [jsMessnamed] at called
    rcases named : E.toText name m with ⟨text | text, before⟩
    · rw [named] at called
      exact absurd called (nothing_ne_of_message sent _)
    · simp only [named] at called
      by_cases receives : E.bound before.heap (gensym (jsObjectToString (some text))) = true
      · simp only [receives, if_true] at called
        obtain ⟨result, encoded, _⟩ := Option.bind_eq_some_iff.mp called
        exact ⟨argv, before, .messnamed named receives, result, encoded⟩
      · simp only [receives] at called
        exact absurd called (nothing_ne_of_message sent _)

/-- A call that sends has come to its conversion. -/
theorem converts_of_message {fuel : Nat} {handed : Handed} {message : Message}
    (called : f.call E T x fuel args m = some (handed, after))
    (sent : handed.message = some message) :
    ∃ argv before atoms, Converts E f args m argv before ∧
      jsUnmarshalArgs E x fuel argv before = some (atoms, after) ∧
      outgoing T atoms = some message := by
  have reached : ∃ argv before, Converts E f args m argv before ∧
      ∃ result, jsUnmarshalArgs E x fuel argv before = some result := by
    cases f with
    | outlet => exact outlet_converts called sent
    | messnamed => exact messnamed_converts called sent
  obtain ⟨argv, before, converts, ⟨atoms, after'⟩, encoded⟩ := reached
  obtain ⟨handed', called', formed⟩ := call_converts (T := T) converts encoded
  cases called.symm.trans called'
  exact ⟨argv, before, atoms, converts, encoded, formed.symm.trans sent⟩

theorem Converts.unique {argv' : List Value} {before' : Machine P ω}
    (converts : Converts E f args m argv before) (converts' : Converts E f args m argv' before') :
    argv = argv' ∧ before = before' := by
  cases converts with
  | outlet number _ _ =>
    cases converts' with
    | outlet number' _ _ =>
      cases number.symm.trans number'
      exact ⟨rfl, rfl⟩
  | messnamed named _ =>
    cases converts' with
    | messnamed named' _ =>
      cases named.symm.trans named'
      exact ⟨rfl, rfl⟩

/-- Where a read throws nothing is sent, if all messages are whole. -/
theorem AllOrNothing.nothing_of_throw (whole : AllOrNothing E T x f args m)
    {leaves : List (Option (List Atom))} {end_ : Machine P ω} {fuel : Nat} {handed : Handed}
    (converts : Converts E f args m argv before)
    (visits : Visits E x (.args argv) before leaves end_) (thrown : none ∈ leaves)
    (called : f.call E T x fuel args m = some (handed, after)) : handed.message = none := by
  cases sent : handed.message with
  | none => rfl
  | some message =>
    obtain ⟨argv', before', leaves', converts', visits', unthrown, _⟩ :=
      whole fuel handed after message called sent
    obtain ⟨rfl, rfl⟩ := converts.unique converts'
    obtain ⟨rfl, _⟩ := visits.unique visits'
    exact absurd thrown unthrown

/-- The messages of a call are whole exactly if in its conversion every read throws or no
read throws, and the first atom is then not taken for the selector. -/
theorem allOrNothing_iff (E : V8 P ω) (T : SymbolTable) (x : ObjId) (f : Native)
    (args : List Value) (m : Machine P ω) :
    AllOrNothing E T x f args m ↔
      ∀ argv before leaves after, Converts E f args m argv before →
        Visits E x (.args argv) before leaves after → Kept T leaves := by
  constructor
  · intro whole argv before leaves after converts visits
    obtain ⟨depth, returns⟩ := convert_of_visits visits
    obtain ⟨handed, called, formed⟩ :=
      call_converts (T := T) converts (returns depth (Nat.le_refl depth))
    by_cases empty : readable leaves = []
    · exact .inl ((readable_eq_nil_iff visits).mp empty)
    · obtain ⟨message, sent⟩ := exists_outgoing T empty (readable_plain visits)
      obtain ⟨argv', before', leaves', converts', visits', unthrown, spells⟩ :=
        whole depth handed after message called (formed.trans sent)
      obtain ⟨rfl, rfl⟩ := converts.unique converts'
      obtain ⟨rfl, _⟩ := visits.unique visits'
      exact .inr ⟨unthrown, fun collides => not_spells_of_collides collides sent spells⟩
  · intro condition fuel handed after message called sent
    obtain ⟨argv, before, atoms, converts, encoded, formed⟩ := converts_of_message called sent
    obtain ⟨leaves, visits, rfl⟩ := listed_args encoded
    rcases condition argv before leaves after converts visits with thrown | ⟨unthrown, apart⟩
    · have empty : readable leaves = [] := (readable_eq_nil_iff visits).mpr thrown
      simp only [empty] at formed
      cases formed
    · have nonempty : readable leaves ≠ [] := by
        intro empty
        simp only [empty] at formed
        cases formed
      obtain ⟨message', formed', spells⟩ := outgoing_spells nonempty (readable_plain visits) apart
      cases formed.symm.trans formed'
      exact ⟨argv, before, leaves, converts, visits, unthrown, spells⟩

/-- An array of two elements: reading the first throws, the second is the number 1. -/
def firstThrows : V8 .bits64 Unit :=
  { inert with
    kind := fun _ _ => .array
    length := fun _ _ => 2
    element := fun _ i m => (if i = 1 then some (.number 0x3ff0000000000000) else none, m) }

/-- A js object with one outlet. -/
def oneOutlet : Machine .bits64 Unit := ⟨.empty, [7], ()⟩

theorem visits_firstThrows :
    Visits firstThrows 1 (.args [.object 0]) oneOutlet
      [none, some [.float 0x3f800000]] oneOutlet := by
  have number : ¬ IsArray firstThrows oneOutlet (.number 0x3ff0000000000000) := by
    rintro ⟨_, same, _⟩
    cases same
  have last : Visits firstThrows 1 (.elements 0 1) oneOutlet [some [.float 0x3f800000]]
      oneOutlet :=
    .read (by decide) rfl (.leaf number) (.stop (by decide))
  exact .cons (.array rfl (.throw (by decide) rfl last)) .nil

/-- `outlet(0, a)` sends the second element of such an array alone. -/
theorem not_allOrNothing_first :
    (∃ fuel after, Native.outlet.call firstThrows Transport.highSymbols 1 fuel
        [.number 0, .object 0] oneOutlet =
          some (.outlet (some 7) ⟨sFloat, [.float 0x3f800000]⟩, after)) ∧
      ¬ AllOrNothing firstThrows Transport.highSymbols 1 .outlet [.number 0, .object 0]
        oneOutlet := by
  have converts : Converts firstThrows .outlet [.number 0, .object 0] oneOutlet [.object 0]
      oneOutlet := .outlet rfl (by decide) (List.cons_ne_nil _ _)
  have sent : outgoing Transport.highSymbols [.float 0x3f800000] =
      some ⟨sFloat, [.float 0x3f800000]⟩ := by
    apply outgoing_float
    simp [Transport.highSymbols]
    omega
  obtain ⟨depth, returns⟩ := convert_of_visits visits_firstThrows
  have encoded := returns depth (Nat.le_refl depth)
  obtain ⟨handed, called, formed⟩ := call_converts (T := Transport.highSymbols) converts encoded
  constructor
  · refine ⟨depth, oneOutlet, ?_⟩
    have number : firstThrows.toInt32 (.number 0) oneOutlet = (some 0, oneOutlet) := rfl
    have inside : (0 : BitVec 32).toInt < intSize oneOutlet.outlets.length := by decide
    have atoms : jsUnmarshalArgs firstThrows 1 depth [.object 0] oneOutlet =
        some ([.float 0x3f800000], oneOutlet) := encoded
    simp only [Native.call, jsOutlet, number, inside, if_true, jsOutletArgs, atoms,
      Option.bind_eq_bind, Option.bind_some, sent]
    rfl
  · intro whole
    have silent := whole.nothing_of_throw converts visits_firstThrows List.mem_cons_self called
    cases (formed.trans sent).symm.trans silent

end ThrowingReads
