import Pdjs.DataProperties
import Pdjs.Handlers
import Pdjs.Properties
import Pdjs.Recompiling

/-!
# The properties of the global object

Six names of a global object are answered by `js_get` from the fields of the js
object, and `js_set` takes an assignment to two of them as a resize. An assignment is
stored as well and a deletion is not intercepted, so that a global object can have
properties under these names; but no read reaches them. A `compile` message makes a new
global object, and what is left of the script before may still use the old one: the six
names are the same in both. A read here is that of a property of the global object; a
variable that a script declares with `let`, `const` or `class` is none.
-/

namespace Interceptors

open GuardedRuns PdAtoms TextEncoding ObjectRegistry Marshalling FloatFormats Ports Loading
open Dispatch Handlers Properties DataProperties Resizing Recompiling

variable {P : Platform}

/-- A property name. A symbol does not convert to a string. -/
inductive Key where
  | text (s : JsString)
  | symbol (id : Nat)
  deriving DecidableEq

def Key.toText : Key → Option JsString
  | .text s => some s
  | .symbol _ => none

/-- The C++ string that the callbacks compare. -/
def Key.name (k : Key) : CString := jsObjectToString k.toText

inductive Known where
  | inlets
  | outlets
  | inlet
  | messagename
  | jsarguments
  | global
  deriving DecidableEq

/-- The comparisons of `js_get`. -/
def known (name : CString) : Option Known :=
  if name = .ofAscii "inlets" then some .inlets
  else if name = .ofAscii "outlets" then some .outlets
  else if name = .ofAscii "inlet" then some .inlet
  else if name = .ofAscii "messagename" then some .messagename
  else if name = .ofAscii "jsarguments" then some .jsarguments
  else if name = .ofAscii "__global__" then some .global
  else none

/-- An integer of 32 bits as a number. -/
def numberOf (n : Int) : Value :=
  .number (BitVec.ofNat 64 (encode binary64 (.finite (n < 0) n.natAbs 0)))

/-- `js_get`: what it sets as the return value, if anything; the arguments are returned
in a new array. -/
def jsGet (r : Registry P) (jsGlobal : Ref) (x : TJs) (name : CString) : Option Stored :=
  match known name with
  | some .inlets => some (.single (numberOf (intSize x.ports.inlets.length)))
  | some .outlets => some (.single (numberOf (intSize x.ports.outlets.length)))
  | some .inlet => some (.single (numberOf x.inlet))
  | some .messagename => some (.single (.string (newFromUtf8 x.messagename)))
  | some .jsarguments => some (.array (decodeAtoms r x.args))
  | some .global => some (.single (.object jsGlobal))
  | none => none

/-- `js_set`, with what the value converts to as an `int32`. Where the conversion throws
there is no result. -/
def jsSet (x : TJs) (name : CString) (value : Option (BitVec 32)) : Option TJs :=
  match known name with
  | some .inlets => value.map fun inlets => { x with ports := jsSetInlets x.self inlets x.ports }
  | some .outlets => value.map fun outlets => { x with ports := jsSetOutlets outlets x.ports }
  | _ => some x

/-- The name of an object's prototype. -/
def proto : Key := .text (jsText "__proto__")

/-- An operation on an object. An assignment to `__proto__` calls an accessor; what changes by
it is a `define` that follows. -/
def operate (o : DataObject Key Value) (op : Op Key Value) : DataObject Key Value :=
  match op with
  | .set k value => if k = proto then o else o.set k value
  | op => o.apply op

/-- An operation assigns to a name, deletes it or leaves it alone, and the prototype too. -/
def Leaves (k : Key) (op : Op Key Value) : Prop :=
  op.Spares k ∧ ∀ value, op ≠ .set proto value

/-- The global objects of its contexts, by their serials. -/
structure Instance where
  x : TJs
  globals : Nat → DataObject Key Value

def scriptName : List Atom → Option CString
  | .symbol s :: _ => some s.name
  | _ => none

/-- A new context, in which nothing ran yet. The global object is that of the template. -/
def Instance.newContext (s : Instance) (files : Files) (name : Option CString)
    (template : DataObject Key Value) : Instance :=
  ⟨makeContext (locate files s.x name true).1,
    Function.update s.globals s.x.contexts template⟩

/-- The object that `js_new` makes. -/
def Instance.created (self : ObjId) (canvasDir : CString) (files : Files) (argv : List Atom)
    (template : DataObject Key Value) : Instance :=
  Instance.newContext
    ⟨⟨self, canvasDir, noText, noText, newPorts self, none, argv, 0, noText, 0⟩,
      fun _ => template⟩ files (scriptName argv) template

def undefined : Value := .other .undefined

/-- A read in a context. -/
def Instance.read (r : Registry P) (jsGlobal : Ref) (s : Instance) (c : Nat) (k : Key) : Stored :=
  (jsGet r jsGlobal s.x k.name).getD (.single (((s.globals c).get k).getD undefined))

def Instance.operate (s : Instance) (c : Nat) (op : Op Key Value) : Instance :=
  { s with globals := Function.update s.globals c (Interceptors.operate (s.globals c) op) }

/-- The callback is called first; unless it throws, V8 goes on with the assignment. -/
def Instance.assign (s : Instance) (c : Nat) (k : Key) (value : Value)
    (converted : Option (BitVec 32)) : Instance :=
  match jsSet s.x k.name converted with
  | some x => { s with x := x }.operate c (.set k value)
  | none => s

/-- A message for which a function was found. -/
def Instance.receive (s : Instance) (index : Nat) (selector : Symbol) : Instance :=
  { s with x := { s.x with inlet := index, messagename := msgName selector } }

/-- The `compile` branch of `js_anything` up to the source. -/
def Instance.compile (s : Instance) (files : Files) (argv : List Atom)
    (template : DataObject Key Value) : Instance :=
  match argv with
  | .symbol name :: _ =>
    Instance.newContext { s with x := reset s.x argv } files (some name.name) template
  | _ => s.newContext files none template

/-- What happens to the object and its global objects, in any order. What a conversion
does before it gives its result comes before the assignment that it is for. An `operate`
is not intercepted: a deletion, or what a declaration or another prototype changes. Where
V8 hands a declared value to `js_set`, an assignment comes first. -/
inductive Label where
  | assign (c : Nat) (k : Key) (value : Value) (converted : Option (BitVec 32))
  | operate (c : Nat) (op : Op Key Value)
  | receive (index : Nat) (selector : Symbol)
  | compile (files : Files) (argv : List Atom) (template : DataObject Key Value)

def Instance.next (s : Instance) : Label → Instance
  | .assign c k value converted => s.assign c k value converted
  | .operate c op => s.operate c op
  | .receive index selector => s.receive index selector
  | .compile files argv template => s.compile files argv template

def Instance.run (s : Instance) (ls : List Label) : Instance := ls.foldl Instance.next s

/-- What the six properties are meant to be: two counts that can be assigned to, and four
properties that cannot. -/
structure Documented where
  inlets : Int
  outlets : Int
  inlet : Int
  messagename : CString
  jsarguments : List Atom

def Documented.created (argv : List Atom) : Documented := ⟨1, 1, 0, noText, argv⟩

def Documented.read (r : Registry P) (jsGlobal : Ref) (d : Documented) : Known → Stored
  | .inlets => .single (numberOf d.inlets)
  | .outlets => .single (numberOf d.outlets)
  | .inlet => .single (numberOf d.inlet)
  | .messagename => .single (.string (decodeUtf8 d.messagename.bytes))
  | .jsarguments => .array (decodeAtoms r d.jsarguments)
  | .global => .single (.object jsGlobal)

/-- The arguments that a `compile` message with a name brings. -/
def Label.arguments : Label → Option (List Atom)
  | .compile _ (.symbol name :: rest) _ => some (.symbol name :: rest)
  | _ => none

def Documented.next (d : Documented) : Label → Documented
  | .assign _ k _ converted =>
    match known k.name with
    | some .inlets => { d with inlets := converted.elim d.inlets fun n => max n.toInt 1 }
    | some .outlets => { d with outlets := converted.elim d.outlets fun n => max n.toInt 0 }
    | _ => d
  | .operate _ _ => d
  | .receive index selector => { d with inlet := index, messagename := msgName selector }
  | .compile _ argv _ =>
    match argv with
    | .symbol _ :: _ => { d with inlets := 1, outlets := 1, jsarguments := argv }
    | _ => d

def Documented.run (d : Documented) (ls : List Label) : Documented := ls.foldl Documented.next d

/-- The fields are those of the object. -/
structure Agrees (x : TJs) (d : Documented) : Prop where
  coherent : Coherent x.self x.ports
  inlets : x.ports.inlets.length = d.inlets
  outlets : x.ports.outlets.length = d.outlets
  inlet : x.inlet = d.inlet
  messagename : x.messagename = d.messagename
  args : x.args = d.jsarguments

variable {s : Instance} {d : Documented} {x : TJs} {o o' : DataObject Key Value} {k : Key}

theorem Agrees.setInlets (h : Agrees x d) (n : BitVec 32) :
    Agrees { x with ports := jsSetInlets x.self n x.ports }
      { d with inlets := max n.toInt 1 } := by
  have positive := one_le_inletCount n
  have same := jsSetInlets_obOutlets x.self n x.ports
  rw [(coherent_jsSetInlets h.coherent n).obOutlets, h.coherent.obOutlets] at same
  refine { h with coherent := coherent_jsSetInlets h.coherent n, inlets := ?_, outlets := ?_ }
  · rw [length_inlets_jsSetInlets h.coherent, ← inletCount_eq]
    exact Int.toNat_of_nonneg (Int.le_of_lt positive)
  · rw [same]
    exact h.outlets

theorem Agrees.setOutlets (h : Agrees x d) (n : BitVec 32) :
    Agrees { x with ports := jsSetOutlets n x.ports }
      { d with outlets := max n.toInt 0 } := by
  have nonneg := outletCount_nonneg n
  refine { h with coherent := coherent_jsSetOutlets h.coherent n, inlets := ?_, outlets := ?_ }
  · rw [jsSetOutlets_inlets]
    exact h.inlets
  · rw [length_outlets_jsSetOutlets h.coherent, ← outletCount_eq]
    exact Int.toNat_of_nonneg nonneg

theorem Agrees.reset (h : Agrees x d) (argv : List Atom) :
    Agrees (reset x argv) { d with inlets := 1, outlets := 1, jsarguments := argv } :=
  { (h.setInlets 1).setOutlets 1 with args := rfl }

/-- A new context changes none of the fields that are answered. -/
theorem Agrees.newContext (h : Agrees x d) (files : Files) (name : Option CString) :
    Agrees (makeContext (locate files x name true).1) d := by
  rcases locate_cases files x name true with same | ⟨_, dir, path, changed⟩
  · rw [same]
    exact { h with }
  · rw [changed]
    exact { h with }

theorem agrees_created (self : ObjId) (canvasDir : CString) (files : Files) (argv : List Atom)
    (template : DataObject Key Value) :
    Agrees (Instance.created self canvasDir files argv template).x (.created argv) := by
  have fresh : Agrees ⟨self, canvasDir, noText, noText, newPorts self, none, argv, 0, noText, 0⟩
      (.created argv) := ⟨coherent_newPorts self, rfl, rfl, rfl, rfl, rfl⟩
  exact fresh.newContext files (scriptName argv)

theorem Agrees.assign (h : Agrees s.x d) (c : Nat) (k : Key) (value : Value)
    (converted : Option (BitVec 32)) :
    Agrees (s.assign c k value converted).x (d.next (.assign c k value converted)) := by
  rw [Instance.assign, jsSet, Documented.next]
  cases known k.name with
  | none => exact h
  | some property =>
    cases property with
    | inlets =>
      cases converted with
      | none => exact h
      | some n => exact h.setInlets n
    | outlets =>
      cases converted with
      | none => exact h
      | some n => exact h.setOutlets n
    | inlet => exact h
    | messagename => exact h
    | jsarguments => exact h
    | global => exact h

theorem Agrees.compile (h : Agrees s.x d) (files : Files) (argv : List Atom)
    (template : DataObject Key Value) :
    Agrees (s.compile files argv template).x (d.next (.compile files argv template)) := by
  rcases argv with _ | ⟨_ | name | _, argv⟩
  · exact h.newContext files none
  · exact h.newContext files none
  · exact (h.reset (.symbol name :: argv)).newContext files (some name.name)
  · exact h.newContext files none

theorem Agrees.next (h : Agrees s.x d) (l : Label) : Agrees (s.next l).x (d.next l) := by
  cases l with
  | assign c k value converted => exact h.assign c k value converted
  | operate c op => exact h
  | receive index selector => exact { h with inlet := rfl, messagename := rfl }
  | compile files argv template => exact h.compile files argv template

theorem Agrees.run (h : Agrees s.x d) (ls : List Label) : Agrees (s.run ls).x (d.run ls) := by
  induction ls generalizing s d with
  | nil => exact h
  | cons l ls ih => exact ih (h.next l)

/-- Whatever the global object is, a name that is answered reads as it is meant to. -/
theorem Agrees.read (h : Agrees s.x d) {property : Known} (name : known k.name = some property)
    (r : Registry P) (jsGlobal : Ref) (c : Nat) :
    s.read r jsGlobal c k = d.read r jsGlobal property := by
  rw [Instance.read, jsGet, name]
  cases property with
  | inlets =>
    simp only [intSize_eq h.coherent.inletSize, h.inlets, Option.getD_some, Documented.read]
  | outlets =>
    simp only [intSize_eq h.coherent.outletSize, h.outlets, Option.getD_some, Documented.read]
  | inlet => simp only [h.inlet, Option.getD_some, Documented.read]
  | messagename => simp only [h.messagename, newFromUtf8, Option.getD_some, Documented.read]
  | jsarguments => simp only [h.args, Option.getD_some, Documented.read]
  | global => rfl

/-- The properties that are numbers. -/
def Documented.count (d : Documented) : Known → Option Int
  | .inlets => some d.inlets
  | .outlets => some d.outlets
  | .inlet => some d.inlet
  | _ => none

theorem Documented.read_count {d : Documented} {property : Known} {n : Int}
    (counted : d.count property = some n) (r : Registry P) (jsGlobal : Ref) :
    d.read r jsGlobal property = .single (numberOf n) := by
  cases property <;> cases counted <;> rfl

theorem jsarguments_next (d : Documented) (l : Label) :
    (d.next l).jsarguments = l.arguments.getD d.jsarguments := by
  cases l with
  | assign c k value converted =>
    rw [Documented.next]
    cases known k.name with
    | none => rfl
    | some property => cases property <;> rfl
  | operate c op => rfl
  | receive index selector => rfl
  | compile files argv template => rcases argv with _ | ⟨_ | name | _, argv⟩ <;> rfl

theorem jsarguments_run (d : Documented) (ls : List Label) :
    (d.run ls).jsarguments = (ls.filterMap Label.arguments).getLast?.getD d.jsarguments := by
  rw [← foldl_getD, Documented.run]
  exact (List.foldl_hom Documented.jsarguments fun d l => (jsarguments_next d l).symm).symm

theorem operate_of_ne_proto {op : Op Key Value} (stays : ∀ value, op ≠ .set proto value)
    (o : DataObject Key Value) : operate o op = o.apply op := by
  cases op with
  | set k' value =>
    have other : k' ≠ proto := by
      rintro rfl
      exact stays value rfl
    rw [operate, if_neg other, DataObject.apply]
  | delete k' => rfl
  | define own inherited => rfl
  | preventExtensions => rfl

/-- `js_set` changes the ports or nothing, and gives no result for two of the names only. -/
theorem jsSet_cases (x : TJs) (name : CString) (value : Option (BitVec 32)) :
    jsSet x name value = none ∧ known name ≠ none ∨
      ∃ ports, jsSet x name value = some { x with ports := ports } := by
  rw [jsSet]
  cases known name with
  | none => exact .inr ⟨x.ports, rfl⟩
  | some property =>
    cases property with
    | inlets =>
      cases value with
      | none => exact .inl ⟨rfl, Option.some_ne_none _⟩
      | some n => exact .inr ⟨jsSetInlets x.self n x.ports, rfl⟩
    | outlets =>
      cases value with
      | none => exact .inl ⟨rfl, Option.some_ne_none _⟩
      | some n => exact .inr ⟨jsSetOutlets n x.ports, rfl⟩
    | inlet => exact .inr ⟨x.ports, rfl⟩
    | messagename => exact .inr ⟨x.ports, rfl⟩
    | jsarguments => exact .inr ⟨x.ports, rfl⟩
    | global => exact .inr ⟨x.ports, rfl⟩

/-- An assignment is an operation on the global object of its context, unless the
conversion for it throws. -/
theorem assign_cases (s : Instance) (c : Nat) (k : Key) (value : Value)
    (converted : Option (BitVec 32)) :
    s.assign c k value converted = s ∧ known k.name ≠ none ∨
      ∃ x, x.contexts = s.x.contexts ∧ s.assign c k value converted =
        ⟨x, Function.update s.globals c (operate (s.globals c) (.set k value))⟩ := by
  rw [Instance.assign]
  rcases jsSet_cases s.x k.name converted with ⟨thrown, answered⟩ | ⟨ports, resized⟩
  · rw [thrown]
    exact .inl ⟨rfl, answered⟩
  · rw [resized]
    exact .inr ⟨{ s.x with ports := ports }, rfl, rfl⟩

/-- A new context has the global object of the template. -/
theorem newContext_globals (s : Instance) (files : Files) (name : Option CString)
    (template : DataObject Key Value) :
    (s.newContext files name template).x.contexts = s.x.contexts + 1 ∧
      (s.newContext files name template).globals =
        Function.update s.globals s.x.contexts template := by
  refine ⟨?_, rfl⟩
  rcases locate_cases files s.x name true with same | ⟨_, dir, path, changed⟩
  · rw [Instance.newContext, same]
    rfl
  · rw [Instance.newContext, changed]
    rfl

theorem compile_globals (s : Instance) (files : Files) (argv : List Atom)
    (template : DataObject Key Value) :
    (s.compile files argv template).x.contexts = s.x.contexts + 1 ∧
      (s.compile files argv template).globals =
        Function.update s.globals s.x.contexts template := by
  rcases argv with _ | ⟨_ | name | _, argv⟩
  · exact newContext_globals s files none template
  · exact newContext_globals s files none template
  · exact newContext_globals { s with x := reset s.x _ } files (some name.name) template
  · exact newContext_globals s files none template

/-- What is done to the global object of a context. -/
def Label.op (c : Nat) : Label → Option (Op Key Value)
  | .assign c' k value _ => if c' = c then some (.set k value) else none
  | .operate c' op => if c' = c then some op else none
  | .receive _ _ => none
  | .compile _ _ _ => none

/-- The global object of one context after an operation on that of another or the same. -/
theorem slot_update {globals : Nat → DataObject Key Value} {c c' : Nat} {op : Op Key Value}
    (leaves : c' = c → Leaves k op) :
    (Function.update globals c' (operate (globals c') op) c).slot k =
      ((if c' = c then some op else none).elim (globals c) (globals c).apply).slot k := by
  by_cases here : c' = c
  · rw [if_pos here, operate_of_ne_proto (leaves here).2, here, Function.update_self,
      Option.elim_some]
  · rw [if_neg here, Function.update_of_ne (Ne.symm here), Option.elim_none]

/-- A context is made only once, and a name in it that is not answered changes by what is
done to its global object. -/
theorem slot_next {c : Nat} (made : c < s.x.contexts) (plain : known k.name = none) {l : Label}
    (leaves : ∀ op ∈ l.op c, Leaves k op) :
    c < (s.next l).x.contexts ∧
      ((s.next l).globals c).slot k =
        ((l.op c).elim (s.globals c) (s.globals c).apply).slot k := by
  cases l with
  | assign c' k' value converted =>
    have spared : c' = c → Leaves k (.set k' value) := fun here => leaves _ (if_pos here)
    rw [Instance.next, Label.op]
    rcases assign_cases s c' k' value converted with ⟨thrown, answered⟩ | ⟨x, contexts, assigned⟩
    · rw [thrown]
      refine ⟨made, ?_⟩
      have other : k ≠ k' := by
        rintro rfl
        exact answered plain
      by_cases here : c' = c
      · rw [if_pos here]
        exact (slot_apply_apart _ (.set k' value) other).symm
      · rw [if_neg here]
        rfl
    · rw [assigned]
      exact ⟨contexts ▸ made, slot_update spared⟩
  | operate c' op => exact ⟨made, slot_update fun here => leaves op (if_pos here)⟩
  | receive index selector => exact ⟨made, rfl⟩
  | compile files argv template =>
    obtain ⟨contexts, globals⟩ := compile_globals s files argv template
    rw [Instance.next, contexts, globals, Function.update_of_ne (Nat.ne_of_lt made)]
    exact ⟨Nat.lt_succ_of_lt made, rfl⟩

theorem slot_run {c : Nat} (made : c < s.x.contexts) (plain : known k.name = none)
    {ls : List Label} (leaves : ∀ op ∈ ls.filterMap (Label.op c), Leaves k op)
    (same : (s.globals c).slot k = o.slot k) :
    ((s.run ls).globals c).slot k = (o.run (ls.filterMap (Label.op c))).slot k := by
  induction ls generalizing s o with
  | nil => exact same
  | cons l ls ih =>
    rw [List.filterMap_cons] at leaves ⊢
    cases op : l.op c with
    | none =>
      simp only [op] at leaves ⊢
      obtain ⟨made', slot⟩ := slot_next (l := l) made plain (by simp [op])
      rw [op] at slot
      exact ih made' leaves (slot.trans same)
    | some first =>
      simp only [op] at leaves ⊢
      obtain ⟨made', slot⟩ := slot_next (l := l) made plain fun op' here => by
        cases op.symm.trans here
        exact leaves first List.mem_cons_self
      rw [op] at slot
      have rest := fun op' later => leaves op' (List.mem_cons_of_mem first later)
      exact ih made' rest (slot.trans (slot_apply_congr same first))

/-- Where a property of a global object that `js_get` does not answer can be assigned to, it
reads as the last assignment to it or deletion of it in its context left it, as long as it is
not declared anew, the prototype stays and the object is not closed. -/
theorem read_written {c : Nat} (made : c < s.x.contexts) (plain : known k.name = none)
    (free : (s.globals c).Open k) {ls : List Label}
    (leaves : ∀ op ∈ ls.filterMap (Label.op c), Leaves k op) (r : Registry P) (jsGlobal : Ref) :
    (s.run ls).read r jsGlobal c k =
      .single (((ls.filterMap (Label.op c)).foldl
        (readAfter k ((s.globals c).fixed k) ((s.globals c).base k))
        ((s.globals c).get k)).getD undefined) := by
  have ended := get_congr (slot_run made plain leaves rfl)
  rw [get_run free fun op member => (leaves op member).1] at ended
  simp only [Instance.read, jsGet, plain, Option.getD_none, ended]

/-- A global object without properties. -/
def noProperties : DataObject Key Value := ⟨fun _ => none, fun _ => none, true⟩

/-- The declaration of a function. -/
def declares (k : Key) (f : Ref) : Op Key Value :=
  .define (fun k' => if k' = k then some (some ⟨.object f, true, false⟩) else none) fun _ => none

/-- A second context is made. There `f` is assigned to and another function is declared; then
`f` is assigned to in the first. -/
theorem read_written_twice :
    let s := (Instance.created 1 (.ofAscii "/patch") oneFile [] noProperties).next
      (.compile oneFile [] noProperties)
    let f : Key := .text (jsText "f")
    (s.run [.assign 1 f (.object 7) none, .operate 1 (declares (.text (jsText "g")) 9),
        .assign 0 f (.object 8) none]).read (.empty : Registry .bits64) 0 1 f =
      .single (.object 7) := by
  intro s f
  have plain : known f.name = none := by decide
  have free : (s.globals 1).Open f :=
    ⟨fun p own => absurd own.symm (Option.some_ne_none p), rfl, rfl⟩
  refine read_written (s := s) (by decide) plain free ?_ .empty 0
  intro op member
  rcases List.mem_pair.mp member with rfl | rfl
  · refine ⟨trivial, fun value same => ?_⟩
    exact absurd (Op.set.inj same).1 (by decide)
  · refine ⟨⟨if_neg (by decide), rfl⟩, fun value same => ?_⟩
    rw [declares] at same
    cases same

end Interceptors
