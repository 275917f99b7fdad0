import Pdjs.Marshalling

/-!
# Dispatch of a message

A message whose selector is not one of the built-in ones is dispatched to the
global function of its name, or to `anything`. The selector `jsobject` with the id
of a live object passes that object as the first argument; the rest of the atoms
is then decoded with a start and a count that are both moved up by one.
-/

namespace Dispatch

open PdAtoms ObjectRegistry Marshalling TextEncoding

variable {P : Platform}

/-- What the conversions and property reads of a dispatch give in the context of
the object; `none` where they throw. `realNamed` reads a property of a function
without interceptors. -/
structure Context where
  heap : Heap
  get : JsString → Option Value
  realNamed : Ref → JsString → Option Value
  toInt32 : Value → Option (BitVec 32)

inductive Branch where
  | compile
  | setprop
  | getprop
  | delprop
  | menuOpen
  | dispatch
  deriving DecidableEq

def msgName (s : Symbol) : CString := if s = sFloat then .ofAscii "msg_float" else s.name

/-- The comparisons of `js_anything`; `open` is compiled on Windows only. -/
def branch (win32 : Bool) (s : Symbol) : Branch :=
  let msgname := msgName s
  if msgname = .ofAscii "compile" then .compile
  else if msgname = .ofAscii "setprop" then .setprop
  else if msgname = .ofAscii "getprop" then .getprop
  else if msgname = .ofAscii "delprop" then .delprop
  else if win32 ∧ msgname = .ofAscii "open" then .menuOpen
  else .dispatch

def globalFunction (c : Context) (name : JsString) : Option Ref :=
  match c.get name with
  | some (.object f) => if c.heap.kind f = .function then some f else none
  | _ => none

/-- Every message but `loadbang` falls back to `anything`. -/
def fallback (s : Symbol) : Bool := msgName s ≠ .ofAscii "loadbang"

def selectedFunction (c : Context) (s : Symbol) : Option Ref :=
  match globalFunction c (decodeUtf8 (msgName s).bytes) with
  | some f => some f
  | none => if fallback s then globalFunction c (jsText "anything") else none

def isPrivate (c : Context) (f : Ref) : Bool :=
  match c.realNamed f (jsText "private") with
  | some v => c.toInt32 v = some 1
  | none => false

/-- The object named by a `jsobject` message. -/
def selectorObject (r : Registry P) (s : Symbol) (argc : Nat) (argv : Nat → Atom) : Option Ref :=
  if msgName s = .ofAscii "jsobject" ∧ 1 ≤ argc then
    match argv 0 with
    | .symbol id => jsMarshalObject r id
    | _ => none
  else
    none

/-- The arguments of the call, with the indices of the atoms that are read. -/
def callArgs (r : Registry P) (s : Symbol) (argc : Nat) (argv : Nat → Atom) : Decoded :=
  let first := if msgName s = .ofAscii "jsobject" ∧ 1 ≤ argc then [0] else []
  match selectorObject r s argc argv with
  | some val =>
    let argi := 1
    let margs := jsMarshalArgs r (argc + argi) (fun i => argv (argi + i))
    ⟨.object val :: margs.values, first ++ margs.reads.map (argi + ·)⟩
  | none =>
    let margs := jsMarshalArgs r argc argv
    ⟨margs.values, first ++ margs.reads⟩

/-- What a message does. A selected function finds `inlet` and `messagename` set,
whether or not it is private; where there is no function the error is posted only
for messages that fall back. -/
inductive Outcome where
  | builtin (b : Branch)
  | call (func : Ref) (args : Decoded) (inlet : Nat) (messagename : CString)
  | privateError (inlet : Nat) (messagename : CString)
  | missing (error : Bool)

def jsAnything (win32 : Bool) (c : Context) (r : Registry P) (index : Nat) (s : Symbol)
    (argc : Nat) (argv : Nat → Atom) : Outcome :=
  match branch win32 s with
  | .dispatch =>
    match selectedFunction c s with
    | some f =>
      if isPrivate c f then .privateError index (msgName s)
      else .call f (callArgs r s argc argv) index (msgName s)
    | none => .missing (fallback s)
  | b => .builtin b

/-- The arguments the message denotes. -/
def denotedArgs (r : Registry P) (s : Symbol) (argc : Nat) (argv : Nat → Atom) : List Value :=
  match selectorObject r s argc argv with
  | some val => .object val :: (jsMarshalArgs r (argc - 1) (fun i => argv (1 + i))).values
  | none => (jsMarshalArgs r argc argv).values

/-- The arguments are those of the message, and only its atoms are read for them. -/
structure Faithful (r : Registry P) (s : Symbol) (argc : Nat) (argv : Nat → Atom)
    (args : Decoded) : Prop where
  values : args.values = denotedArgs r s argc argv
  reads : ∀ i ∈ args.reads, i < argc

theorem callArgs_faithful {r : Registry P} {s : Symbol} {argc : Nat} {argv : Nat → Atom}
    (plain : selectorObject r s argc argv = none) :
    Faithful r s argc argv (callArgs r s argc argv) := by
  constructor
  · simp only [callArgs, denotedArgs, plain]
  · intro i hi
    simp only [callArgs, plain] at hi
    rcases List.mem_append.mp hi with hfirst | hrest
    · by_cases hc : msgName s = .ofAscii "jsobject" ∧ 1 ≤ argc
      · rw [if_pos hc, List.mem_singleton] at hfirst
        exact hfirst ▸ hc.2
      · rw [if_neg hc] at hfirst
        exact absurd hfirst List.not_mem_nil
    · exact (mem_reads_iff r argc argv i).mp hrest

/-- After a resolved id the two atoms behind the message are read. -/
theorem callArgs_beyond {r : Registry P} {s : Symbol} {argc : Nat} {argv : Nat → Atom} {val : Ref}
    (found : selectorObject r s argc argv = some val) :
    argc ∈ (callArgs r s argc argv).reads ∧ argc + 1 ∈ (callArgs r s argc argv).reads := by
  have positive : 1 ≤ argc := by
    by_contra zero
    simp [selectorObject, zero] at found
  have inside : ∀ i, 1 ≤ i → i ≤ argc + 1 → i ∈ (callArgs r s argc argv).reads := by
    intro i hlo hhi
    simp only [callArgs, found]
    apply List.mem_append_right
    apply List.mem_map.mpr
    exact ⟨i - 1, (mem_reads_iff ..).mpr (by omega), by omega⟩
  exact ⟨inside argc positive (by omega), inside (argc + 1) (by omega) (by omega)⟩

theorem callArgs_of_call {win32 : Bool} {c : Context} {r : Registry P} {index : Nat} {s : Symbol}
    {argc : Nat} {argv : Nat → Atom} {f : Ref} {args : Decoded} {inlet : Nat}
    {messagename : CString}
    (called : jsAnything win32 c r index s argc argv = .call f args inlet messagename) :
    args = callArgs r s argc argv := by
  rw [jsAnything] at called
  cases hb : branch win32 s with
  | dispatch =>
    rw [hb] at called
    cases hf : selectedFunction c s with
    | some g =>
      by_cases hp : isPrivate c g = true
      · simp [hf, hp] at called
      · simp only [hf, hp] at called
        exact (Outcome.call.inj called).2.1.symm
    | none => simp [hf] at called
  | _ => simp [hb] at called

/-- The function gets the arguments of the message, and no other atom is read, exactly
when the message is not a `jsobject` message that names a live object. -/
theorem faithful_iff {win32 : Bool} {c : Context} {r : Registry P} {index : Nat} {s : Symbol}
    {argc : Nat} {argv : Nat → Atom} {f : Ref} {args : Decoded} {inlet : Nat}
    {messagename : CString}
    (called : jsAnything win32 c r index s argc argv = .call f args inlet messagename) :
    Faithful r s argc argv args ↔ selectorObject r s argc argv = none := by
  rw [callArgs_of_call called]
  constructor
  · intro faithful
    cases found : selectorObject r s argc argv with
    | none => rfl
    | some val => exact absurd (faithful.reads _ (callArgs_beyond found).1) (Nat.lt_irrefl _)
  · exact callArgs_faithful

/-- A context in which every global is the function 0. -/
def oneFunction : Context where
  heap := { kind := fun _ => .function, elements := fun _ => [], text := fun _ => none }
  get := fun _ => some (.object 0)
  realNamed := fun _ _ => none
  toInt32 := fun _ => none

/-- The object 7 is registered at address 4096. -/
def oneObject : Registry .bits64 := Registry.run .empty (registration 1 7 0x1000)

/-- The vector holds one atom, the id of that object; behind it lies the number 1. -/
def idVector : Nat → Atom := fun i =>
  if i = 0 then .symbol (gensym (.ofAscii "4096")) else .float 0x3f800000

/-- The message `foo 4096` passes the text of the id and nothing else. -/
theorem faithful_iff_idVector :
    ∃ args, jsAnything false oneFunction oneObject 0 (gensym (.ofAscii "foo")) 1 idVector =
        .call 0 args 0 (.ofAscii "foo") ∧
      Faithful oneObject (gensym (.ofAscii "foo")) 1 idVector args := by
  have called : jsAnything false oneFunction oneObject 0 (gensym (.ofAscii "foo")) 1 idVector =
      .call 0 (callArgs oneObject (gensym (.ofAscii "foo")) 1 idVector) 0 (.ofAscii "foo") := rfl
  have plain : selectorObject oneObject (gensym (.ofAscii "foo")) 1 idVector = none := by decide
  exact ⟨_, called, (faithful_iff called).mpr plain⟩

/-- The message `jsobject 4096` passes the object and then two atoms that are not
part of the message. -/
theorem not_faithful_jsobject :
    ∃ args, jsAnything false oneFunction oneObject 0 sJsobject 1 idVector =
        .call 0 args 0 (.ofAscii "jsobject") ∧
      args.values = [.object 7, .number 0x3ff0000000000000, .number 0x3ff0000000000000] ∧
      ¬ Faithful oneObject sJsobject 1 idVector args := by
  refine ⟨_, rfl, ?_, ?_⟩
  · decide
  · intro faithful
    exact absurd (faithful.reads 1 (by decide)) (Nat.lt_irrefl 1)

end Dispatch
