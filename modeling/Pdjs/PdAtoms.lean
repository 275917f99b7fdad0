import Pdjs.DecimalText
import Pdjs.FloatFormats
import Pdjs.TextEncoding

/-!
# Pd atoms and JavaScript values

Pd messages are a selector and a vector of atoms. A symbol is interned, so two
symbols are the same pointer exactly when they have the same name; its address
matters only where the code compares a symbol with an atom's word without
looking at the atom's tag. A JavaScript value is a number, a string, a reference
to an object or one of the remaining primitive values.
-/

namespace PdAtoms

open TextEncoding FloatFormats

/-- What a `char*` denotes: the bytes before the terminating zero. -/
structure CString where
  bytes : List UInt8
  noNul : 0 ∉ bytes
  deriving DecidableEq

namespace CString

theorem ext_bytes {s t : CString} (h : s.bytes = t.bytes) : s = t := by
  cases s
  cases t
  cases h
  rfl

/-- Reading a buffer as a `char*` stops at its first zero. -/
def ofBytes (bs : List UInt8) : CString where
  bytes := bs.takeWhile (· != 0)
  noNul := fun h => by simpa using List.mem_takeWhile_imp h

def ofAscii (s : String) : CString := ofBytes (s.toList.map DecimalText.byteOf)

theorem ofBytes_bytes {bs : List UInt8} (h : 0 ∉ bs) : (ofBytes bs).bytes = bs := by
  rw [ofBytes, List.takeWhile_eq_self_iff]
  intro b hb
  simp only [bne_iff_ne, ne_eq]
  rintro rfl
  exact h hb

end CString

structure Symbol where
  name : CString
  deriving DecidableEq

def gensym (name : CString) : Symbol := ⟨name⟩

def sFloat : Symbol := gensym (.ofAscii "float")
def sList : Symbol := gensym (.ofAscii "list")
def sBang : Symbol := gensym (.ofAscii "bang")
def sJsobject : Symbol := gensym (.ofAscii "jsobject")

/-- Atoms of the remaining types (pointers, separators, dollar arguments) are
kept with their type and their word; nothing converts them. -/
inductive Atom where
  | float (w : BitVec 32)
  | symbol (s : Symbol)
  | other (type word : Nat)
  deriving DecidableEq

instance : Inhabited Atom := ⟨.float 0⟩

/-- Where the symbols lie in memory. Addresses are compared, never computed with. -/
structure SymbolTable where
  addr : Symbol → Nat
  distinct : Function.Injective addr

/-- The word of an atom read as a `t_symbol*`: the word is a union. -/
def SymbolTable.wSymbol (T : SymbolTable) : Atom → Nat
  | .float w => w.toNat
  | .symbol s => T.addr s
  | .other _ word => word

structure Message where
  selector : Symbol
  argv : List Atom
  deriving DecidableEq

abbrev JsString := List UInt16

/-- The identity of a JavaScript object. -/
abbrev Ref := Nat

inductive Primitive where
  | undefined
  | null
  | boolean (b : Bool)
  | symbol (id : Nat)
  | bigint (n : Int)
  deriving DecidableEq

inductive Value where
  | number (d : BitVec 64)
  | string (s : JsString)
  | object (o : Ref)
  | other (p : Primitive)
  deriving DecidableEq

/-- What the type tests of V8 tell apart among objects. -/
inductive Kind where
  | array
  | stringObject
  | function
  | plain
  deriving DecidableEq

def jsText (s : String) : JsString := s.toList.map (fun c => UInt16.ofNat c.toNat)

def jsMarshalAtom : Atom → Option Value
  | .float w => some (.number (widen w))
  | .symbol s => some (.string (decodeUtf8 s.name.bytes))
  | .other _ _ => none

/-- The C++ string made of a converted value: a failed conversion has length 0,
and a buffer is copied up to its first zero. -/
def jsObjectToString : Option JsString → CString
  | some s => .ofBytes (encodeUtf8 s)
  | none => .ofBytes []

/-- A text that the way through a symbol name cannot alter. -/
def Transmissible (s : JsString) : Prop := WellFormed s ∧ 0 ∉ s

instance (s : JsString) : Decidable (Transmissible s) := inferInstanceAs (Decidable (_ ∧ _))

theorem jsObjectToString_bytes {s : JsString} (hs : Transmissible s) :
    (jsObjectToString (some s)).bytes = encodeUtf8 s :=
  CString.ofBytes_bytes (zero_notMem_encodeUtf8 hs.2)

theorem jsMarshalAtom_symbol {s : JsString} (hs : Transmissible s) :
    jsMarshalAtom (.symbol (gensym (jsObjectToString (some s)))) = some (.string s) := by
  rw [jsMarshalAtom, gensym, jsObjectToString_bytes hs, decodeUtf8_encodeUtf8 hs.1]

theorem jsMarshalAtom_number (w : BitVec 32) :
    jsMarshalAtom (.float (narrow (widen w))) = some (.number (widen w)) := by
  rw [jsMarshalAtom, widen_narrow_widen]

/-- Distinct texts have distinct names. -/
theorem jsObjectToString_injective {s t : JsString} (hs : Transmissible s) (ht : Transmissible t)
    (h : jsObjectToString (some s) = jsObjectToString (some t)) : s = t := by
  apply encodeUtf8_injective hs.1 ht.1
  rw [← jsObjectToString_bytes hs, h, jsObjectToString_bytes ht]

end PdAtoms
