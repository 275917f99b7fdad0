import Pdjs.PdAtoms
import Mathlib.Data.List.Perm.Basic

/-!
# The registry of objects sent through Pd

`jsobjects` holds the addresses of the persistent handles of objects that were
sent. Sending an object scans the set for a handle to the same object and
otherwise makes one, with a callback record for the garbage collector. The id of
an object in a message is the address of its handle in decimal.

What the code does to the handles is kept as a list of primitive operations, so
that their order and number can be stated.
-/

namespace ObjectRegistry

open PdAtoms DecimalText

/-- Supported pointer widths. -/
inductive Platform where
  | bits32
  | bits64
  deriving DecidableEq

def Platform.width : Platform → Nat
  | .bits32 => 32
  | .bits64 => 64

abbrev Addr (P : Platform) := BitVec P.width

/-- The identity of a js object, that is of one `t_js`. -/
abbrev ObjId := Nat

/-- `t_js_weakcallbackinfo` -/
structure WeakRecord (P : Platform) where
  x : ObjId
  jso : Addr P
  deriving DecidableEq

/-- `jsobjects` is listed in its iteration order. `wrappers` are the allocated
`v8::Persistent` objects, `cell` is what the storage cell of the wrapper at an
address refers to, `records` are the allocated callback records and `armed`
those installed with `SetWeak` whose object has not been reported dead. -/
structure Registry (P : Platform) where
  jsobjects : List (Addr P)
  wrappers : List (Addr P)
  cell : Addr P → Option Ref
  records : List (WeakRecord P)
  armed : List (WeakRecord P)

inductive HandleOp (P : Platform) where
  | newPersistent (jso : Addr P) (o : Ref)
  | newRecord (wcbi : WeakRecord P)
  | insert (jso : Addr P)
  | setWeak (wcbi : WeakRecord P)
  | erase (jso : Addr P)
  | reset (jso : Addr P)
  | deletePersistent (jso : Addr P)
  | deleteRecord (wcbi : WeakRecord P)
  deriving DecidableEq

variable {P : Platform}

def Registry.empty : Registry P := ⟨[], [], fun _ => none, [], []⟩

def HandleOp.apply : HandleOp P → Registry P → Registry P
  | .newPersistent jso o, r =>
    { r with wrappers := jso :: r.wrappers, cell := Function.update r.cell jso (some o) }
  | .newRecord wcbi, r => { r with records := wcbi :: r.records }
  | .insert jso, r =>
    { r with jsobjects := if jso ∈ r.jsobjects then r.jsobjects else jso :: r.jsobjects }
  | .setWeak wcbi, r => { r with armed := wcbi :: r.armed }
  | .erase jso, r => { r with jsobjects := r.jsobjects.erase jso }
  | .reset jso, r =>
    { r with cell := Function.update r.cell jso none
             armed := r.armed.filter (fun wcbi => wcbi.jso ≠ jso) }
  | .deletePersistent jso, r => { r with wrappers := r.wrappers.erase jso }
  | .deleteRecord wcbi, r => { r with records := r.records.erase wcbi }

def Registry.run (r : Registry P) (ops : List (HandleOp P)) : Registry P :=
  ops.foldl (fun r op => op.apply r) r

/-- The scan for a handle that already refers to the object. -/
def Registry.find (r : Registry P) (o : Ref) : Option (Addr P) :=
  r.jsobjects.find? (fun elem => r.cell elem == some o)

/-- What is done with the fresh wrapper at `jso`. -/
def registration (x : ObjId) (o : Ref) (jso : Addr P) : List (HandleOp P) :=
  [.newPersistent jso o, .newRecord ⟨x, jso⟩, .insert jso, .setWeak ⟨x, jso⟩]

/-- The object branch of `js_unmarshal_string`; `new` is the address a `new`
would return. -/
def jsUnmarshalObject (x : ObjId) (o : Ref) (new : Addr P) (r : Registry P) :
    Addr P × Registry P :=
  match r.find o with
  | some elem => (elem, r)
  | none => (new, r.run (registration x o new))

/-- The callback installed with `SetWeak`. -/
def weakCallback (wcbi : WeakRecord P) : List (HandleOp P) :=
  .erase wcbi.jso ::
    ((if wcbi.jso ≠ 0 then [.deletePersistent wcbi.jso] else []) ++ [.deleteRecord wcbi])

/-- The id is sent only if the address is positive as an `intptr_t`. -/
def idText (p : Addr P) : CString := .ofBytes (decimal p.toInt.toNat)

def jsMarshalObject (r : Registry P) (s : Symbol) : Option Ref :=
  match stoull s.name.bytes with
  | none => none
  | some n =>
    let jso : Addr P := BitVec.ofNat P.width n
    if jso ∈ r.jsobjects then r.cell jso else none

/-- The registry holds a handle to the object at the address. -/
def Registry.Holds (r : Registry P) (p : Addr P) (o : Ref) : Prop :=
  p ∈ r.jsobjects ∧ r.cell p = some o

theorem zero_notMem_decimal (n : Nat) : 0 ∉ decimal n := by
  intro h
  obtain ⟨hlo, _⟩ := decimal_digits h
  exact absurd hlo (by decide)

theorem width_le (P : Platform) : P.width ≤ 64 := by
  cases P <;> decide

/-- A positive address comes back from its id. -/
theorem stoull_idText {p : Addr P} (hp : 0 < p.toInt) :
    ∃ n, stoull (idText p).bytes = some n ∧ BitVec.ofNat P.width n = p := by
  have hpos : p.toInt.toNat = p.toNat := by
    rw [BitVec.toInt_eq_toNat_cond] at hp ⊢
    by_cases h : 2 * p.toNat < 2 ^ P.width
    · rw [if_pos h, Int.toNat_natCast]
    · rw [if_neg h] at hp
      have hlt : (p.toNat : Int) < (2 ^ P.width : Nat) := Int.ofNat_lt.mpr p.isLt
      omega
  refine ⟨p.toNat, ?_, by simp⟩
  rw [idText, CString.ofBytes_bytes (zero_notMem_decimal _), hpos]
  apply stoull_decimal
  exact Nat.lt_of_lt_of_le p.isLt (Nat.pow_le_pow_right (by decide) (width_le P))

theorem jsMarshalObject_idText (r : Registry P) {p : Addr P} (hp : 0 < p.toInt) :
    jsMarshalObject r (gensym (idText p)) = if p ∈ r.jsobjects then r.cell p else none := by
  obtain ⟨n, hn, hp'⟩ := stoull_idText hp
  simp only [jsMarshalObject, gensym, hn, hp']

theorem jsMarshalObject_of_holds {r : Registry P} {p : Addr P} {o : Ref} (hp : 0 < p.toInt)
    (h : r.Holds p o) : jsMarshalObject r (gensym (idText p)) = some o := by
  rw [jsMarshalObject_idText r hp, if_pos h.1, h.2]

theorem find_some {r : Registry P} {o : Ref} {p : Addr P} (h : r.find o = some p) :
    r.Holds p o := by
  refine ⟨List.mem_of_find?_eq_some h, ?_⟩
  simpa using List.find?_some h

theorem find_none {r : Registry P} {o : Ref} :
    r.find o = none ↔ ∀ p, ¬ r.Holds p o := by
  simp [Registry.find, Registry.Holds, List.find?_eq_none]

/-- The registry after a registration at an address it did not contain. -/
theorem run_registration (x : ObjId) (o : Ref) {jso : Addr P} {r : Registry P}
    (fresh : jso ∉ r.jsobjects) :
    r.run (registration x o jso) =
      { jsobjects := jso :: r.jsobjects
        wrappers := jso :: r.wrappers
        cell := Function.update r.cell jso (some o)
        records := ⟨x, jso⟩ :: r.records
        armed := ⟨x, jso⟩ :: r.armed } := by
  simp [Registry.run, registration, HandleOp.apply, fresh]

end ObjectRegistry
