import Pdjs.Sending

/-!
# The engine

The calls of V8 that can run script. A getter or a `toString` method may do whatever a
script may do, so such a call gives a result, or none where it throws, and leaves the
machine in some other state. The type of an object, the length of an array and the text
of a primitive value are read without running script.
-/

namespace Engine

open PdAtoms ObjectRegistry Ports

universe u

/-- What the code of a js object keeps, and the rest of the process. -/
structure Machine (P : Platform) (ω : Type u) where
  reg : Registry P
  outlets : List PortId
  heap : ω

/-- `allocate` is the address that a `new` returns, `bound` tells whether something is
bound to a symbol and `element` is the `Get` of an array at an index. -/
structure V8 (P : Platform) (ω : Type u) where
  kind : ω → Ref → Kind
  length : ω → Ref → BitVec 32
  bound : ω → Symbol → Bool
  numberText : BitVec 64 → JsString
  allocate : Machine P ω → Addr P
  element : Ref → Nat → Machine P ω → Option Value × Machine P ω
  objectText : Ref → Machine P ω → Option JsString × Machine P ω
  toInt32 : Value → Machine P ω → Option (BitVec 32) × Machine P ω
  stackTrace : Value → Machine P ω → Option Value × Machine P ω

variable {P : Platform} {ω : Type u}

/-- `ToString`. A symbol has none, and only that of an object runs script. -/
def V8.toText (E : V8 P ω) (v : Value) (m : Machine P ω) :
    Option JsString × Machine P ω :=
  match v with
  | .number d => (some (E.numberText d), m)
  | .string s => (some s, m)
  | .object o => E.objectText o m
  | .other .undefined => (some (jsText "undefined"), m)
  | .other .null => (some (jsText "null"), m)
  | .other (.boolean b) => (some (jsText (if b then "true" else "false")), m)
  | .other (.symbol _) => (none, m)
  | .other (.bigint n) => (some (jsText (toString n)), m)

/-- A `String::Utf8Value`: its pointer is null if the conversion failed. -/
def V8.utf8Value (E : V8 P ω) (v : Value) (m : Machine P ω) :
    Option CString × Machine P ω :=
  ((E.toText v m).1.map fun s => .ofBytes (TextEncoding.encodeUtf8 s), (E.toText v m).2)

/-- The guard of `js_object_to_string` makes an empty string of a null pointer. -/
theorem utf8Value_getD (E : V8 P ω) (v : Value) (m : Machine P ω) :
    (E.utf8Value v m).1.getD (.ofBytes []) = jsObjectToString (E.toText v m).1 := by
  rw [V8.utf8Value]
  cases (E.toText v m).1 with
  | none => rfl
  | some s => rfl

/-- A machine in which no conversion of an object gives anything. -/
def inert : V8 P Unit where
  kind := fun _ _ => .plain
  length := fun _ _ => 0
  bound := fun _ _ => true
  numberText := fun _ => jsText "0"
  allocate := fun _ => 0
  element := fun _ _ m => (none, m)
  objectText := fun _ m => (none, m)
  toInt32 := fun _ m => (some 0, m)
  stackTrace := fun _ m => (none, m)

def idle : Machine P Unit := ⟨.empty, [], ()⟩

end Engine
