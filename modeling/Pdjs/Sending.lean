import Pdjs.Marshalling
import Pdjs.Ports

/-!
# Sending a message

A non-empty atom vector becomes a message: a single float is sent with the
selector `float`, a vector that starts with a symbol with that symbol, and
everything else as a list. The first atom is then dropped if its word, which is a
union, equals the address of the selector.
-/

namespace Sending

open PdAtoms ObjectRegistry Marshalling Ports

variable {P : Platform}

/-- `js_get_type`; it is not called for an empty vector. -/
def jsGetType : List Atom → Option Symbol
  | [] => none
  | [.float _] => some sFloat
  | [.symbol s] => some (if s = gensym (.ofAscii "bang") then sBang else s)
  | [.other _ _] => none
  | .symbol s :: _ :: _ => some (if s = gensym (.ofAscii "list") then sList else s)
  | _ :: _ :: _ => some sList

/-- The message made of a vector by `js_outlet_args` and by `js_messnamed`. -/
def outgoing (T : SymbolTable) (argv : List Atom) : Option Message :=
  match argv, jsGetType argv with
  | first :: rest, some type =>
    if T.addr type = T.wSymbol first then some ⟨type, rest⟩ else some ⟨type, first :: rest⟩
  | _, _ => none

def jsOutletArgs (h : Heap) (alloc : Allocator P) (T : SymbolTable) (x : ObjId) (fuel : Nat)
    (args : List Value) (r : Registry P) : Option (Option Message × Registry P) := do
  let (argv, r) ← jsUnmarshalArgs h alloc x fuel args r
  return (outgoing T argv, r)

/-- What a call of `outlet` does: nothing, a message to an outlet, or a read of the
outlet vector at an index that is not one of its indices. -/
inductive Sent where
  | nothing
  | message (outlet : PortId) (m : Message)
  | beyond (index : Int)
  deriving DecidableEq

/-- `js_outlet` with the conversion of its first argument to an `int32` given. -/
def jsOutlet (h : Heap) (alloc : Allocator P) (T : SymbolTable) (x : ObjId)
    (toInt32 : Value → Option (BitVec 32)) (outlets : List PortId) (fuel : Nat)
    (args : List Value) (r : Registry P) : Option (Sent × Registry P) :=
  match args with
  | [] => some (.nothing, r)
  | n :: argv =>
    match toInt32 n with
    | none => some (.nothing, r)
    | some outletNum =>
      if outletNum.toInt < intSize outlets.length then
        if outletNum.toInt < 0 then
          some (.beyond outletNum.toInt, r)
        else
          match outlets[outletNum.toInt.toNat]? with
          | none => some (.beyond outletNum.toInt, r)
          | some outlet =>
            if argv = [] then
              some (.nothing, r)
            else do
              let (m, r) ← jsOutletArgs h alloc T x fuel argv r
              return (match m with | some m => .message outlet m | none => .nothing, r)
      else
        some (.nothing, r)

/-- A first atom that is a symbol is the selector and is dropped. -/
theorem outgoing_symbol (T : SymbolTable) (s : Symbol) (rest : List Atom) :
    outgoing T (.symbol s :: rest) = some ⟨s, rest⟩ := by
  have type : jsGetType (.symbol s :: rest) = some s := by
    cases rest with
    | nil =>
      by_cases hs : s = gensym (.ofAscii "bang")
      · subst hs
        rfl
      · simp [jsGetType, hs]
    | cons b rest =>
      by_cases hs : s = gensym (.ofAscii "list")
      · subst hs
        rfl
      · simp [jsGetType, hs]
  simp [outgoing, type, SymbolTable.wSymbol]

/-- The selector of a vector that starts with a float. -/
def floatType (rest : List Atom) : Symbol := if rest = [] then sFloat else sList

/-- A first atom that is a float stays, unless its bits are the address of the selector. -/
theorem outgoing_float {T : SymbolTable} {w : BitVec 32} {rest : List Atom}
    (apart : T.addr (floatType rest) ≠ w.toNat) :
    outgoing T (.float w :: rest) = some ⟨floatType rest, .float w :: rest⟩ := by
  have type : jsGetType (.float w :: rest) = some (floatType rest) := by
    cases rest <;> rfl
  simp [outgoing, type, SymbolTable.wSymbol, apart]

/-- A call for an outlet that exists sends what its arguments encode to, if anything. -/
theorem jsOutlet_encoded {h : Heap} {alloc : Allocator P} {T : SymbolTable} {x : ObjId}
    {toInt32 : Value → Option (BitVec 32)} {outlets : List PortId} {fuel : Nat} {n : Value}
    {args : List Value} {r after : Registry P} {num : BitVec 32} {outlet : PortId}
    {atoms : List Atom} (small : outlets.length < 2 ^ 31) (number : toInt32 n = some num)
    (nonneg : 0 ≤ num.toInt) (found : outlets[num.toInt.toNat]? = some outlet)
    (encoded : jsUnmarshalArgs h alloc x fuel args r = some (atoms, after)) :
    jsOutlet h alloc T x toInt32 outlets fuel (n :: args) r =
      some ((outgoing T atoms).elim .nothing (.message outlet), after) := by
  have below : num.toInt < intSize outlets.length := by
    obtain ⟨hlt, _⟩ := List.getElem?_eq_some_iff.mp found
    rw [intSize_eq small]
    omega
  have notneg : ¬ num.toInt < 0 := by omega
  by_cases none_left : args = []
  · subst none_left
    cases encoded
    simp [jsOutlet, number, below, notneg, found, outgoing]
  · cases formed : outgoing T atoms <;>
      simp [jsOutlet, jsOutletArgs, number, below, notneg, found, none_left, encoded, formed]

end Sending
