import Pdjs.Decoding
import Pdjs.PropertyReads

/-!
# Chains of forwarding objects

A handler that calls `outlet(n, messagename, ...arguments)` passes on what it was sent.
Numbers and texts settle at the first hop and do not change any more. An object is
decoded with its id and encoded with it again, so that every hop adds one more id.
-/

namespace Forwarding

open PdAtoms ObjectRegistry FloatFormats TextEncoding Marshalling Flattening RoundTrip Dispatch
open Decoding Sending Ports Transport PropertyReads

variable {P : Platform}

/-- A js object on the way of a message, with what its handler finds when the message
arrives at the inlet `index`, and the outlet it passes the message on to. -/
structure Relay (P : Platform) where
  x : ObjId
  context : Context
  alloc : Allocator P
  reg : Registry P
  index : Nat
  outlets : List PortId
  number : Value

/-- The message that leaves the object, if the handler is called and sends one. -/
def Relay.forward (win32 : Bool) (T : SymbolTable) (fuel : Nat) (v : Relay P) (m : Message) :
    Option Message :=
  match jsAnything win32 v.context v.reg v.index m.selector m.argv.length (vectorData m.argv) with
  | .call _ args _ messagename =>
    match jsOutlet v.context.heap v.alloc T v.x v.context.toInt32 v.outlets fuel
        (v.number :: .string (decodeUtf8 messagename.bytes) :: args.values) v.reg with
    | some (.message _ sent, _) => some sent
    | _ => none
  | _ => none

def forwardAll (win32 : Bool) (T : SymbolTable) (fuel : Nat) (relays : List (Relay P))
    (m : Message) : Option Message :=
  relays.foldlM (fun m v => v.forward win32 T fuel m) m

/-- A float or a symbol, or an object with the id of its handle and copies of the id. -/
inductive Item (P : Platform) where
  | plain (a : Atom)
  | object (p : Addr P) (o : Ref) (copies : Nat)

def idAtom (p : Addr P) : Atom := .symbol (gensym (idText p))

def idValue (p : Addr P) : Value := .string (decodeUtf8 (idText p).bytes)

def Item.atoms : Item P → List Atom
  | .plain a => [a]
  | .object p _ copies => .symbol sJsobject :: List.replicate (copies + 1) (idAtom p)

/-- What the atoms decode to. -/
def Item.values : Item P → List Value
  | .plain a => (jsMarshalAtom a).toList
  | .object p o copies => .object o :: List.replicate (copies + 1) (idValue p)

/-- The item after some hops. -/
def Item.after : Nat → Item P → Item P
  | 0, i => i
  | _ + 1, .plain a => .plain (resent a)
  | hops + 1, .object p o copies => .object p o (copies + (hops + 1))

/-- The object has a handle, and the scan of the registry finds it. -/
structure Known (h : Heap) (r : Registry P) (p : Addr P) (o : Ref) : Prop where
  positive : 0 < p.toInt
  held : r.Holds p o
  found : r.find o = some p
  plain : h.kind o ≠ .array ∧ h.kind o ≠ .stringObject

def Item.Sendable (h : Heap) (r : Registry P) : Item P → Prop
  | .plain a => Listed a
  | .object p o _ => Known h r p o

/-- The name of the message is a text, and a function is called for it. -/
structure Travels (s : Symbol) (text : JsString) : Prop where
  selects : Selects s text
  formed : WellFormed text
  spelled : (msgName s).bytes = encodeUtf8 text

/-- The object has a handler for the message and the outlet that it names. -/
structure Relay.Ready (v : Relay P) (text : JsString) : Prop where
  handled : ∃ f, handler v.context text = some f ∧ isPrivate v.context f = false
  outlet : ∃ num outlet, v.context.toInt32 v.number = some num ∧ 0 ≤ num.toInt ∧
    v.outlets[num.toInt.toNat]? = some outlet
  small : v.outlets.length < 2 ^ 31

theorem listed_resent {a : Atom} (listed : Listed a) : Listed (resent a) := by
  cases a with
  | float w => trivial
  | symbol s => exact listed
  | other type word => exact listed

theorem resent_resent (a : Atom) : resent (resent a) = resent a := by
  cases a with
  | float w => simp only [resent, widen_narrow_widen]
  | symbol s => rfl
  | other type word => rfl

theorem after_after (hops more : Nat) (i : Item P) :
    (i.after hops).after more = i.after (hops + more) := by
  cases more with
  | zero => rfl
  | succ more =>
    cases hops with
    | zero => rw [Item.after, Nat.zero_add]
    | succ hops =>
      have total : hops + 1 + (more + 1) = hops + more + 1 + 1 := by omega
      rw [total]
      cases i with
      | plain a => simp only [Item.after, resent_resent]
      | object p o copies =>
        simp only [Item.after, Item.object.injEq, true_and]
        omega

theorem after_comp (hops : Nat) :
    (Item.after hops ∘ Item.after 1 : Item P → Item P) = Item.after (hops + 1) := by
  funext i
  rw [Function.comp_apply, after_after, Nat.add_comm]

theorem sendable_after {h : Heap} {r : Registry P} {i : Item P} (hi : i.Sendable h r)
    (hops : Nat) : (i.after hops).Sendable h r := by
  cases hops with
  | zero => exact hi
  | succ hops =>
    cases i with
    | plain a => exact listed_resent hi
    | object p o copies => exact hi

theorem idText_ascii (p : Addr P) : ∀ b ∈ (idText p).bytes, b.toNat < 0x80 := by
  intro b hb
  rw [idText, CString.ofBytes_bytes (zero_notMem_decimal _)] at hb
  obtain ⟨_, hhi⟩ := DecimalText.decimal_digits hb
  omega

theorem idAtom_ne_mark (p : Addr P) : idAtom p ≠ .symbol sJsobject := by
  intro same
  exact idText_ne_mark p (congrArg Symbol.name (Atom.symbol.inj same))

theorem decoded_ids (r : Registry P) (p : Addr P) (n : Nat) (rest : List Atom) :
    decoded r (List.replicate n (idAtom p) ++ rest) =
      List.replicate n (idValue p) ++ decoded r rest := by
  induction n with
  | zero => rfl
  | succ n ih =>
    rw [List.replicate_succ, List.cons_append,
      decoded_unpaired (pairHead_of_ne (idAtom_ne_mark p) _), ih]
    rfl

theorem decoded_items {h : Heap} {r : Registry P} {items : List (Item P)}
    (sendable : ∀ i ∈ items, i.Sendable h r) :
    decoded r (items.flatMap Item.atoms) = items.flatMap Item.values := by
  induction items with
  | nil => rfl
  | cons i items ih =>
    have first := sendable i List.mem_cons_self
    have later := ih fun j hj => sendable j (List.mem_cons_of_mem _ hj)
    simp only [List.flatMap_cons]
    cases i with
    | plain a =>
      have unmarked : a ≠ .symbol sJsobject := by
        rintro rfl
        exact first.1 rfl
      rw [Item.atoms, List.singleton_append, decoded_unpaired (pairHead_of_ne unmarked _), later]
      rfl
    | object p o copies =>
      have paired : pairHead r (.symbol sJsobject :: idAtom p ::
          (List.replicate copies (idAtom p) ++ items.flatMap Item.atoms)) = some o := by
        simpa [pairHead, idAtom] using jsMarshalObject_of_holds first.positive first.held
      have parts : (Item.object p o copies).atoms ++ items.flatMap Item.atoms =
          .symbol sJsobject :: idAtom p ::
            (List.replicate copies (idAtom p) ++ items.flatMap Item.atoms) := by
        simp [Item.atoms, List.replicate_succ]
      rw [parts, decoded_paired paired, decoded_ids, later]
      simp [Item.values, List.replicate_succ, idAtom, idValue, jsMarshalAtom, gensym]

theorem encodeLeaves_ids (h : Heap) (alloc : Allocator P) (x : ObjId) (p : Addr P) (n : Nat)
    (r : Registry P) :
    encodeLeaves h alloc x (List.replicate n (idValue p)) r =
      (List.replicate n (idAtom p), r) := by
  obtain ⟨text, formed, bytes⟩ := exists_text_of_ascii (idText_ascii p)
  have back : gensym (jsObjectToString (some (decodeUtf8 (idText p).bytes))) = gensym (idText p) :=
    jsObjectToString_decodeUtf8 (s := gensym (idText p)) formed bytes
  induction n with
  | zero => rfl
  | succ n ih =>
    simp only [List.replicate_succ, encodeLeaves, idValue, encodeLeaf_string, back] at ih ⊢
    rw [ih]
    rfl

theorem encodeLeaves_items {h : Heap} {r : Registry P} {items : List (Item P)}
    (sendable : ∀ i ∈ items, i.Sendable h r) (alloc : Allocator P) (x : ObjId) :
    encodeLeaves h alloc x (items.flatMap Item.values) r =
      ((items.map (Item.after 1)).flatMap Item.atoms, r) := by
  induction items with
  | nil => rfl
  | cons i items ih =>
    have first := sendable i List.mem_cons_self
    have later := ih fun j hj => sendable j (List.mem_cons_of_mem _ hj)
    have one : encodeLeaves h alloc x i.values r = ((i.after 1).atoms, r) := by
      cases i with
      | plain a =>
        have listed : ∀ b ∈ [a], Listed b := by
          intro b hb
          rw [List.mem_singleton.mp hb]
          exact first
        have encoded := encodeLeaves_listed listed h alloc x r
        cases converted : jsMarshalAtom a <;>
          simpa [Item.values, Item.after, Item.atoms, converted] using encoded
      | object p o copies =>
        have known : jsUnmarshalObject x o (alloc r) r = (p, r) := by
          simp only [jsUnmarshalObject, first.found]
        have marked : symbolAtoms (.ofAscii "jsobject", p) = [.symbol sJsobject, idAtom p] := by
          simp only [symbolAtoms, if_pos first.positive]
          rfl
        simp only [Item.values, encodeLeaves, encodeLeaf_object first.plain.2, known, marked,
          encodeLeaves_ids]
        rfl
    simp only [List.flatMap_cons, List.map_cons, encodeLeaves_append, one, later]

theorem values_not_array {h : Heap} {r : Registry P} {items : List (Item P)}
    (sendable : ∀ i ∈ items, i.Sendable h r) :
    ∀ v ∈ items.flatMap Item.values, ¬ IsArray h v := by
  rintro v hv ⟨o, rfl, kind⟩
  obtain ⟨i, hi, inside⟩ := List.mem_flatMap.mp hv
  have first := sendable i hi
  cases i with
  | plain a => cases a <;> simp [Item.values, jsMarshalAtom] at inside
  | object p o' copies =>
    have same : o = o' := by simpa [Item.values, idValue, List.mem_replicate] using inside
    exact first.plain.1 (same ▸ kind)

/-- The name of the forwarded message is the name that the handler read. -/
theorem Travels.steady {s : Symbol} {text : JsString} (travels : Travels s text) :
    Travels (gensym (msgName s)) text ∧ msgName (gensym (msgName s)) = msgName s := by
  have unfloat : gensym (msgName s) ≠ sFloat := by
    by_cases float : s = sFloat
    · rw [float]
      decide
    · rw [msgName, if_neg float]
      exact float
  have name : msgName (gensym (msgName s)) = msgName s := by
    rw [msgName, if_neg unfloat]
    rfl
  obtain ⟨⟨dispatched, falls, unmarked, named⟩, formed, spelled⟩ := travels
  refine ⟨⟨⟨?_, ?_, ?_, ?_⟩, formed, ?_⟩, name⟩
  · intro win32
    rw [← dispatched win32, branch, branch, name]
  · rw [← falls, fallback, fallback, name]
  · rwa [name]
  · rwa [name]
  · rwa [name]

/-- A ready object that knows the objects in a message passes it on with one more id
behind each of them, and registers nothing. -/
theorem forward_items {v : Relay P} {s : Symbol} {text : JsString} (travels : Travels s text)
    (ready : v.Ready text) {items : List (Item P)}
    (sendable : ∀ i ∈ items, i.Sendable v.context.heap v.reg) (win32 : Bool) (T : SymbolTable) :
    ∃ depth, ∀ fuel, depth ≤ fuel →
      v.forward win32 T fuel ⟨s, items.flatMap Item.atoms⟩ =
        some ⟨gensym (msgName s), (items.map (Item.after 1)).flatMap Item.atoms⟩ := by
  obtain ⟨f, found, callable⟩ := ready.handled
  obtain ⟨num, outlet, number, nonneg, exists_outlet⟩ := ready.outlet
  obtain ⟨called, _⟩ := jsAnything_selects travels.selects win32 v.context v.reg v.index
    (items.flatMap Item.atoms)
  obtain ⟨args, outcome, values⟩ := called f found callable
  rw [decodeAtoms_eq, decoded_items sendable] at values
  have name : gensym (jsObjectToString (some (decodeUtf8 (msgName s).bytes))) =
      gensym (msgName s) :=
    jsObjectToString_decodeUtf8 (s := gensym (msgName s)) travels.formed travels.spelled
  have single : ∀ w ∈ Value.string (decodeUtf8 (msgName s).bytes) :: args.values,
      ¬ IsArray v.context.heap w := by
    rw [values]
    intro w hw
    rcases List.mem_cons.mp hw with rfl | hw
    · rintro ⟨o, same, _⟩
      cases same
    · exact values_not_array sendable w hw
  have encoded : encodeLeaves v.context.heap v.alloc v.x
      (.string (decodeUtf8 (msgName s).bytes) :: args.values) v.reg =
        (.symbol (gensym (msgName s)) :: (items.map (Item.after 1)).flatMap Item.atoms, v.reg) := by
    rw [values]
    simp only [encodeLeaves, encodeLeaf_string, name, encodeLeaves_items sendable]
    rfl
  obtain ⟨depth, returns⟩ := jsUnmarshalArgs_flattens v.alloc v.x (flattens_singles single)
  refine ⟨depth, ?_⟩
  intro fuel enough
  have sent := jsOutlet_encoded (T := T) ready.small number nonneg exists_outlet
    ((returns fuel enough v.reg).trans (congrArg some encoded))
  simp only [Relay.forward, outcome, sent, outgoing_symbol]
  rfl

/-- Every object of the chain has a handler and an outlet and knows the objects. -/
def AllReady (text : JsString) (items : List (Item P)) (relays : List (Relay P)) : Prop :=
  ∀ v ∈ relays, v.Ready text ∧ ∀ i ∈ items, i.Sendable v.context.heap v.reg

theorem AllReady.after {text : JsString} {items : List (Item P)} {relays : List (Relay P)}
    (each : AllReady text items relays) (hops : Nat) :
    AllReady text (items.map (Item.after hops)) relays := by
  intro v hv
  obtain ⟨ready, sendable⟩ := each v hv
  refine ⟨ready, ?_⟩
  intro i hi
  obtain ⟨j, hj, rfl⟩ := List.mem_map.mp hi
  exact sendable_after (sendable j hj) hops

/-- The chain from the second object on. -/
theorem forwardAll_steady {s : Symbol} {text : JsString} (travels : Travels s text)
    (steady : gensym (msgName s) = s) (win32 : Bool) (T : SymbolTable) (relays : List (Relay P)) :
    ∀ items : List (Item P), AllReady text items relays →
      ∃ depth, ∀ fuel, depth ≤ fuel →
        forwardAll win32 T fuel relays ⟨s, items.flatMap Item.atoms⟩ =
          some ⟨s, (items.map (Item.after relays.length)).flatMap Item.atoms⟩ := by
  induction relays with
  | nil =>
    intro items _
    have same : items.map (Item.after 0) = items := List.map_id _
    refine ⟨0, fun fuel _ => ?_⟩
    rw [List.length_nil, same]
    rfl
  | cons v relays ih =>
    intro items each
    obtain ⟨ready, sendable⟩ := each v List.mem_cons_self
    obtain ⟨depth, first⟩ := forward_items travels ready sendable win32 T
    have rest : AllReady text items relays := fun w hw => each w (List.mem_cons_of_mem _ hw)
    obtain ⟨depth', later⟩ := ih (items.map (Item.after 1)) (rest.after 1)
    rw [steady] at first
    rw [List.map_map, after_comp] at later
    refine ⟨max depth depth', ?_⟩
    intro fuel enough
    rw [forwardAll, List.foldlM_cons, first fuel (by omega)]
    exact later fuel (by omega)

/-- A message that is passed on by a chain of objects, of any length, arrives with its
numbers and texts settled and one more id behind every object for each hop. -/
theorem forwarded {s : Symbol} {text : JsString} (travels : Travels s text)
    {items : List (Item P)} {relays : List (Relay P)} (nonempty : relays ≠ [])
    (each : AllReady text items relays) (win32 : Bool) (T : SymbolTable) :
    ∃ depth, ∀ fuel, depth ≤ fuel →
      forwardAll win32 T fuel relays ⟨s, items.flatMap Item.atoms⟩ =
        some ⟨gensym (msgName s),
          (items.map (Item.after relays.length)).flatMap Item.atoms⟩ := by
  obtain ⟨v, relays, rfl⟩ := List.exists_cons_of_ne_nil nonempty
  obtain ⟨ready, sendable⟩ := each v List.mem_cons_self
  have rest : AllReady text items relays := fun w hw => each w (List.mem_cons_of_mem _ hw)
  obtain ⟨steady, name⟩ := travels.steady
  obtain ⟨depth, first⟩ := forward_items travels ready sendable win32 T
  obtain ⟨depth', later⟩ := forwardAll_steady steady (by rw [name]) win32 T relays
    (items.map (Item.after 1)) (rest.after 1)
  rw [List.map_map, after_comp] at later
  refine ⟨max depth depth', ?_⟩
  intro fuel enough
  rw [forwardAll, List.foldlM_cons, first fuel (by omega)]
  exact later fuel (by omega)

/-- An object whose functions forward to its only outlet. -/
def forwarder : Relay .bits64 where
  x := 1
  context := { oneFunction with toInt32 := zeroToInt32 }
  alloc := fun _ => 0x2000
  reg := oneObject
  index := 0
  outlets := [5]
  number := .number 0

/-- The message `foo 1 jsobject 4096`, with that many ids of the object. -/
def fooMessage (ids : Nat) : Message where
  selector := gensym (.ofAscii "foo")
  argv := .float 0x3f800000 :: .symbol sJsobject ::
    List.replicate ids (idAtom (0x1000 : Addr .bits64))

theorem forwarded_twice :
    ∃ depth, ∀ fuel, depth ≤ fuel →
      forwardAll false highSymbols fuel [forwarder, forwarder] (fooMessage 1) =
        some (fooMessage 3) := by
  have selects : Selects (gensym (.ofAscii "foo")) (jsText "foo") := by
    constructor <;> decide
  have travels : Travels (gensym (.ofAscii "foo")) (jsText "foo") :=
    ⟨selects, by decide, by decide⟩
  have ready : forwarder.Ready (jsText "foo") :=
    ⟨⟨0, rfl, rfl⟩, ⟨0, 5, rfl, by decide, rfl⟩, by decide⟩
  have known : Known forwarder.context.heap oneObject 0x1000 7 :=
    ⟨by decide, ⟨by decide, by decide⟩, by decide, by decide, by decide⟩
  have each : AllReady (jsText "foo")
      [.plain (.float 0x3f800000), .object (0x1000 : Addr .bits64) 7 0] [forwarder, forwarder] := by
    intro v hv
    obtain rfl : v = forwarder := by simpa using hv
    refine ⟨ready, ?_⟩
    intro i hi
    rcases List.mem_pair.mp hi with rfl | rfl
    · trivial
    · exact known
  obtain ⟨depth, arrives⟩ := forwarded travels (List.cons_ne_nil _ _) each false highSymbols
  refine ⟨depth, fun fuel enough => (arrives fuel enough).trans ?_⟩
  decide

end Forwarding
