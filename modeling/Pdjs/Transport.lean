import Pdjs.Dispatch
import Pdjs.RoundTrip
import Pdjs.Sending
import Mathlib.Data.Nat.Digits.Defs
import Mathlib.Data.List.Basic

/-!
# From one script to another

A list of plain values that one script sends through an outlet is flattened, made
into a message, decoded by the receiving object and passed to one of its
functions. The stages agree on which value is the selector.
-/

namespace Transport

open PdAtoms ObjectRegistry FloatFormats TextEncoding Marshalling Flattening RoundTrip Dispatch
open Sending Ports

variable {P : Platform}

/-- Single-precision numbers and texts that are not the mark of an object. -/
def Plain : Value → Prop
  | .number d => ∃ w : BitVec 32, d = widen w
  | .string s => Transmissible s ∧ s ≠ jsText "jsobject"
  | _ => False

/-- Selectors with a meaning of their own to `js_anything`, and `float`. -/
def reserved : List JsString :=
  [jsText "compile", jsText "setprop", jsText "getprop", jsText "delprop", jsText "open",
    jsText "loadbang", jsText "float"]

/-- The name of the function a list of plain values is for. -/
def handlerName : List Value → JsString
  | [.number _] => jsText "msg_float"
  | .string s :: _ => s
  | _ => jsText "list"

/-- The values that are left for its arguments. -/
def handlerArgs : List Value → List Value
  | .string _ :: rest => rest
  | values => values

/-- The function of that name, or else `anything`. -/
def handler (c : Context) (name : JsString) : Option Ref :=
  match globalFunction c name with
  | some f => some f
  | none => globalFunction c (jsText "anything")

theorem encodable_of_plain {h : Heap} {v : Value} (plain : Plain v) : Encodable h v := by
  cases v with
  | number d => exact plain
  | string s => exact plain
  | object o => exact absurd plain id
  | other p => exact absurd plain id

theorem not_object_of_plain {v : Value} (plain : Plain v) (o : Ref) : v ≠ .object o := by
  rintro rfl
  exact plain

theorem sentHandles_plain {h : Heap} {alloc : Allocator P} {x : ObjId} {vs : List Value}
    (plain : ∀ v ∈ vs, Plain v) (r : Registry P) : sentHandles h alloc x vs r = [] := by
  induction vs generalizing r with
  | nil => rfl
  | cons v vs ih =>
    have rest := ih (fun w hw => plain w (List.mem_cons_of_mem _ hw)) r
    cases v with
    | number d => exact rest
    | string s => exact rest
    | object o => exact absurd (plain _ List.mem_cons_self) id
    | other p => exact rest

/-- Plain values come back from their atoms in any registry. -/
theorem decodeAtoms_plain (h : Heap) (alloc : Allocator P) (x : ObjId) {vs : List Value}
    (plain : ∀ v ∈ vs, Plain v) (r r' : Registry P) :
    decodeAtoms r' (encodeLeaves h alloc x vs r).1 = vs := by
  rw [decodeAtoms_eq, decoded_encodeLeaves (fun v hv => encodable_of_plain (plain v hv))]
  · exact (returnedAll_eq_iff vs r).mpr fun v hv o => not_object_of_plain (plain v hv) o
  · rw [sentHandles_plain plain]
    exact fun p o hmem => absurd hmem List.not_mem_nil

/-- A selector that is handled by a function, and how its name is looked up. -/
structure Selects (s : Symbol) (name : JsString) : Prop where
  dispatched : ∀ win32, branch win32 s = .dispatch
  falls : fallback s = true
  unmarked : msgName s ≠ .ofAscii "jsobject"
  named : decodeUtf8 (msgName s).bytes = name

theorem selects_float : Selects sFloat (jsText "msg_float") := by
  constructor <;> decide

theorem selects_list : Selects sList (jsText "list") := by
  constructor <;> decide

/-- The selector of a text that is not reserved. -/
theorem selects_text {s : JsString} (text : Transmissible s) (unmarked : s ≠ jsText "jsobject")
    (free : s ∉ reserved) : Selects (gensym (jsObjectToString (some s))) s := by
  have apart : ∀ k : String, Transmissible (jsText k) →
      jsObjectToString (some (jsText k)) = .ofAscii k → s ≠ jsText k →
        jsObjectToString (some s) ≠ .ofAscii k := by
    intro k good ascii other heq
    rw [← ascii] at heq
    exact other (jsObjectToString_injective text good heq)
  have each : ∀ {k : JsString}, k ∈ reserved → s ≠ k := fun hk heq => free (heq ▸ hk)
  have hfloat : gensym (jsObjectToString (some s)) ≠ sFloat := by
    intro heq
    exact apart "float" (by decide) (by decide) (each (by decide)) (congrArg Symbol.name heq)
  have name : msgName (gensym (jsObjectToString (some s))) = jsObjectToString (some s) := by
    rw [msgName, if_neg hfloat]
    rfl
  constructor
  · intro win32
    simp only [branch, name]
    rw [if_neg (apart "compile" (by decide) (by decide) (each (by decide))),
      if_neg (apart "setprop" (by decide) (by decide) (each (by decide))),
      if_neg (apart "getprop" (by decide) (by decide) (each (by decide))),
      if_neg (apart "delprop" (by decide) (by decide) (each (by decide))),
      if_neg fun both => apart "open" (by decide) (by decide) (each (by decide)) both.2]
  · simpa [fallback, name] using apart "loadbang" (by decide) (by decide) (each (by decide))
  · rw [name]
    exact apart "jsobject" transmissible_jsobject jsObjectToString_jsobject unmarked
  · rw [name, jsObjectToString_bytes text, decodeUtf8_encodeUtf8 text.1]

/-- What a message with such a selector does to its receiver. -/
theorem jsAnything_selects {s : Symbol} {name : JsString} (sel : Selects s name) (win32 : Bool)
    (c : Context) (r : Registry P) (index : Nat) (argv : List Atom) :
    (∀ f, handler c name = some f → isPrivate c f = false →
      ∃ args, jsAnything win32 c r index s argv.length (vectorData argv) =
          .call f args index (msgName s) ∧ args.values = decodeAtoms r argv) ∧
      (handler c name = none →
        jsAnything win32 c r index s argv.length (vectorData argv) = .missing true) := by
  have lookup : selectedFunction c s = handler c name := by
    simp only [selectedFunction, handler, sel.named, sel.falls]
    cases globalFunction c name <;> rfl
  have unnamed : selectorObject r s argv.length (vectorData argv) = none := by
    simp [selectorObject, sel.unmarked]
  constructor
  · intro f found callable
    refine ⟨callArgs r s argv.length (vectorData argv), ?_, ?_⟩
    · simp [jsAnything, sel.dispatched, lookup, found, callable]
    · simp only [callArgs, unnamed]
      rfl
  · intro none
    simp [jsAnything, sel.dispatched, lookup, none, sel.falls]

/-- The message a non-empty list of plain values is sent as. -/
theorem outgoing_plain (h : Heap) (alloc : Allocator P) (x : ObjId) {T : SymbolTable} {v : Value}
    {rest : List Value} (plain : ∀ w ∈ v :: rest, Plain w)
    (free : ∀ s, v = .string s → s ∉ reserved)
    (apart : ∀ d, v = .number d → ∀ s, T.addr s ≠ (narrow d).toNat) (r : Registry P) :
    ∃ m, outgoing T (encodeLeaves h alloc x (v :: rest) r).1 = some m ∧
      Selects m.selector (handlerName (v :: rest)) ∧
      ∀ r' : Registry P, decodeAtoms r' m.argv = handlerArgs (v :: rest) := by
  have whole := fun r' => decodeAtoms_plain h alloc x plain r r'
  cases v with
  | number d =>
    have kept : outgoing T (encodeLeaves h alloc x (.number d :: rest) r).1 =
        some ⟨floatType (encodeLeaves h alloc x rest r).1,
          (encodeLeaves h alloc x (.number d :: rest) r).1⟩ :=
      outgoing_float (apart d rfl _)
    refine ⟨_, kept, ?_, whole⟩
    cases rest with
    | nil => exact selects_float
    | cons w rest =>
      have several : (encodeLeaves h alloc x (w :: rest) r).1 ≠ [] := by
        cases w with
        | number d' => exact List.cons_ne_nil _ _
        | string s => exact List.cons_ne_nil _ _
        | object o => exact absurd rfl (not_object_of_plain (plain (.object o) (by simp)) o)
        | other p => exact List.cons_ne_nil _ _
      simp only [floatType, several, if_false]
      exact selects_list
  | string s =>
    obtain ⟨text, unmarked⟩ := plain _ List.mem_cons_self
    have parts : (encodeLeaves h alloc x (.string s :: rest) r).1 =
        .symbol (gensym (jsObjectToString (some s))) :: (encodeLeaves h alloc x rest r).1 := by
      simp only [encodeLeaves, encodeLeaf_string, List.singleton_append]
    refine ⟨⟨gensym (jsObjectToString (some s)), (encodeLeaves h alloc x rest r).1⟩, ?_, ?_, ?_⟩
    · rw [parts]
      exact outgoing_symbol T _ _
    · exact selects_text text unmarked (free s rfl)
    · exact decodeAtoms_plain h alloc x (fun w hw => plain w (List.mem_cons_of_mem _ hw)) r
  | object o => exact absurd (plain _ List.mem_cons_self) id
  | other p => exact absurd (plain _ List.mem_cons_self) id

/-- The message reaches the function the values are for, or `anything`, with the
values intact; only where there is neither, nothing is called. -/
structure Reaches (win32 : Bool) (c : Context) (r : Registry P) (index : Nat) (m : Message)
    (values : List Value) : Prop where
  called : ∀ f, handler c (handlerName values) = some f → isPrivate c f = false →
    ∃ args, jsAnything win32 c r index m.selector m.argv.length (vectorData m.argv) =
        .call f args index (msgName m.selector) ∧ args.values = handlerArgs values
  missing : handler c (handlerName values) = none →
    jsAnything win32 c r index m.selector m.argv.length (vectorData m.argv) = .missing true

/-- A call of `outlet` with plain values sends one message through the outlet it
names, and that message reaches its function in every js object that receives it. -/
theorem transport {h : Heap} {T : SymbolTable} {x : ObjId} {p : PortState}
    {toInt32 : Value → Option (BitVec 32)} {n : Value} {num : BitVec 32} {args : List Value}
    {v : Value} {rest : List Value} (alloc : Allocator P) (r : Registry P) (ports : Coherent x p)
    (number : toInt32 n = some num) (nonneg : 0 ≤ num.toInt) (below : num.toInt < p.outlets.length)
    (flat : Flattens h args (v :: rest)) (plain : ∀ w ∈ v :: rest, Plain w)
    (free : ∀ s, v = .string s → s ∉ reserved)
    (apart : ∀ d, v = .number d → ∀ s, T.addr s ≠ (narrow d).toNat) :
    ∃ depth outlet m after,
      p.outlets[num.toInt.toNat]? = some outlet ∧
      (∀ fuel, depth ≤ fuel → jsOutlet h alloc T x toInt32 p.outlets fuel (n :: args) r =
        some (.message outlet m, after)) ∧
      ∀ win32 c (r' : Registry P) index, Reaches win32 c r' index m (v :: rest) := by
  obtain ⟨depth, returns⟩ := jsUnmarshalArgs_flattens alloc x flat
  obtain ⟨m, formed, selects, intact⟩ := outgoing_plain h alloc x plain free apart r
  have inside : num.toInt.toNat < p.outlets.length := by omega
  have found : p.outlets[num.toInt.toNat]? = some p.outlets[num.toInt.toNat] :=
    List.getElem?_eq_getElem inside
  refine ⟨depth, _, m, (encodeLeaves h alloc x (v :: rest) r).2, found, ?_, ?_⟩
  · intro fuel enough
    have encoded : jsUnmarshalArgs h alloc x fuel args r =
        some ((encodeLeaves h alloc x (v :: rest) r).1, (encodeLeaves h alloc x (v :: rest) r).2) :=
      returns fuel enough r
    rw [jsOutlet_encoded ports.outletSize number nonneg found encoded, formed]
    rfl
  · intro win32 c r' index
    obtain ⟨called, missing⟩ := jsAnything_selects selects win32 c r' index m.argv
    refine ⟨?_, missing⟩
    intro f hf callable
    obtain ⟨args, outcome, values⟩ := called f hf callable
    exact ⟨args, outcome, values.trans (intact r')⟩

/-- Symbols above the first four gigabytes, where no float can reach them. -/
def highSymbols : SymbolTable where
  addr := fun s => 2 ^ 32 + Nat.ofDigits 257 (s.name.bytes.map (fun b => b.toNat + 1))
  distinct := by
    intro s t same
    have digits : ∀ u : Symbol,
        Nat.digits 257 (Nat.ofDigits 257 (u.name.bytes.map (fun b => b.toNat + 1))) =
          u.name.bytes.map (fun b => b.toNat + 1) := by
      intro u
      apply Nat.digits_ofDigits
      · decide
      · intro d hd
        obtain ⟨b, _, rfl⟩ := List.mem_map.mp hd
        have := b.toNat_lt
        omega
      · intro nonempty last
        have hmem := List.getLast_mem nonempty
        rw [last] at hmem
        obtain ⟨b, _, zero⟩ := List.mem_map.mp hmem
        omega
    have names := (digits s).symm.trans ((congrArg _ (Nat.add_left_cancel same)).trans (digits t))
    have bytes : s.name.bytes = t.name.bytes := by
      refine List.map_injective_iff.mpr ?_ names
      intro a b heq
      exact UInt8.toNat_inj.mp (Nat.succ.inj heq)
    cases s
    cases t
    exact congrArg _ (CString.ext_bytes bytes)

/-- The conversion of the number 0, and of nothing else. -/
def zeroToInt32 : Value → Option (BitVec 32)
  | .number 0 => some 0
  | _ => none

/-- The arrays `["foo", [1]]` and `[1]`. -/
def nestedHeap : Heap where
  kind := fun o => if o < 2 then .array else .plain
  elements := fun o =>
    if o = 0 then [some (.string (jsText "foo")), some (.object 1)]
    else [some (.number 0x3ff0000000000000)]
  text := fun _ => none

/-- The call `outlet(0, ["foo", [1]])` of an object with one outlet. -/
theorem transport_nested :
    ∃ depth outlet m after,
      (newPorts 1).outlets[0]? = some outlet ∧
      (∀ fuel, depth ≤ fuel →
        jsOutlet nestedHeap (fun _ : Registry .bits64 => 0x1000) highSymbols 1 zeroToInt32
            (newPorts 1).outlets fuel [.number 0, .object 0] .empty =
          some (.message outlet m, after)) ∧
      ∀ win32 c (r' : Registry .bits64) index,
        Reaches win32 c r' index m [.string (jsText "foo"), .number 0x3ff0000000000000] := by
  have text : ¬ IsArray nestedHeap (.string (jsText "foo")) := by
    rintro ⟨o, heq, _⟩
    cases heq
  have one : ¬ IsArray nestedHeap (.number 0x3ff0000000000000) := by
    rintro ⟨o, heq, _⟩
    cases heq
  have inner : Flattens nestedHeap [.object 1] [.number 0x3ff0000000000000] :=
    .array (o := 1) rfl rfl (.leaf one .nil) .nil
  have flat : Flattens nestedHeap [.object 0]
      [.string (jsText "foo"), .number 0x3ff0000000000000] :=
    .array (o := 0) rfl rfl (.leaf text inner) .nil
  have number : zeroToInt32 (.number 0) = some 0 := rfl
  refine transport _ .empty (coherent_newPorts 1) number (by decide) (by decide) flat ?_ ?_ ?_
  · intro w hw
    rcases List.mem_pair.mp hw with rfl | rfl
    · exact ⟨by decide, by decide⟩
    · exact ⟨0x3f800000, by decide⟩
  · rintro s ⟨⟩
    decide
  · rintro d ⟨⟩

end Transport
