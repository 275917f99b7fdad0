import Pdjs.Forwarding
import Pdjs.Interceptors

/-!
# Properties over a run

`setprop`, `getprop` and `delprop` work on the global object of the last context. Between
them scripts run, other properties are set and deleted, and messages are received. A name
that all this leaves alone reads as the last `setprop` or `delprop` message for it left it:
`getprop` sends one message that spells the list, or none. An object in the list is stored
with its id and sent with one more.
-/

namespace PropertyRuns

open GuardedRuns PdAtoms ObjectRegistry FloatFormats TextEncoding Marshalling Flattening RoundTrip
open Ports Sending Spelling Properties Transport PropertyReads Forwarding DataProperties
open Interceptors Loading Handlers

variable {P : Platform}

/-- `made` are the arrays that `setprop` messages have made. -/
structure Store where
  heap : Heap
  made : List Ref
  object : Instance

/-- The last context. -/
def Store.current (s : Store) : Nat := s.object.x.contexts - 1

/-- The `setprop` branch of `js_anything`, with what the value converts to as an `int32`.
An array is made at `new`. There is no result if it reads past its values. -/
def Store.setprop (s : Store) (r : Registry P) (new : Ref) (argv : List Atom)
    (converted : Option (BitVec 32)) : Option Store :=
  match jsSetprop r argv.length (vectorData argv) with
  | .nothing => some s
  | .emptyRead => none
  | .store name stored =>
    let (heap, val) := storedValue s.heap new stored
    some ⟨heap, new :: s.made, s.object.assign s.current (.text name) val converted⟩

/-- The `delprop` branch of `js_anything`. -/
def Store.delprop (s : Store) (argv : List Atom) : Store :=
  match propName 0 argv.length (vectorData argv) with
  | some name => { s with object := s.object.operate s.current (.delete (.text name)) }
  | none => s

/-- The `getprop` branch reads the name once; `js_get` makes its array at `new`. -/
def Store.scope (r : Registry P) (jsGlobal new : Ref) (s : Store) (name : JsString) : Scope :=
  let (heap, val) := storedValue s.heap new (s.object.read r jsGlobal s.current (.text name))
  ⟨heap, ⟨fun _ => none, fun _ => none, fun n => if n = name then some val else none⟩⟩

def Store.getprop (s : Store) (jsGlobal new : Ref) (alloc : Allocator P) (T : SymbolTable)
    (fuel : Nat) (argv : List Atom) (r : Registry P) : Option (Sent × Registry P) :=
  match propName 0 argv.length (vectorData argv) with
  | some name =>
    jsGetprop (s.scope r jsGlobal new name) alloc T s.object.x.self s.object.x.ports.outlets fuel
      argv.length (vectorData argv) r
  | none => some (.nothing, r)

/-- `other` is anything else that happens to the object, with the state of V8 after it. -/
inductive Label (P : Platform) where
  | setprop (r : Registry P) (new : Ref) (argv : List Atom) (converted : Option (BitVec 32))
  | delprop (argv : List Atom)
  | other (heap : Heap) (l : Interceptors.Label)

/-- What the list that was set last under the name stood for, if it was not deleted. -/
def leftAfter (p : JsString) (left : Option (List Value)) : Label P → Option (List Value)
  | .setprop r _ argv _ =>
    if propName 1 argv.length (vectorData argv) = some p then some (decoded r argv.tail) else left
  | .delprop argv => if propName 0 argv.length (vectorData argv) = some p then none else left
  | .other _ (.compile _ _ _) => none
  | .other _ _ => left

def Store.next (s : Store) : Label P → Option Store
  | .setprop r new argv converted => s.setprop r new argv converted
  | .delprop argv => some (s.delprop argv)
  | .other heap l => some ⟨heap, s.made, s.object.next l⟩

/-- A global object that has no property of that name and does not inherit one. -/
def Lacks (o : DataObject Key Value) (p : JsString) : Prop :=
  o.own (.text p) = none ∧ o.inherited (.text p) = none ∧ o.extensible = true

/-- What else happens leaves the property in the last context alone, and the prototype. -/
def Harmless (p : JsString) (s : Store) : Interceptors.Label → Prop
  | .assign c k _ _ => c = s.current → .text p ≠ k ∧ k ≠ proto
  | .operate c op => c = s.current → op.Apart (.text p) ∧ ∀ value, op ≠ .set proto value
  | .receive _ _ => True
  | .compile _ _ template => Lacks template p

/-- `__proto__` is not set. Every array is new, and those that were made stay as they are. -/
def Spares (p : JsString) (s : Store) : Label P → Prop
  | .setprop _ new argv _ =>
    new ∉ s.made ∧ propName 1 argv.length (vectorData argv) ≠ some (jsText "__proto__")
  | .delprop _ => True
  | .other heap l => Harmless p s l ∧
      ∀ o ∈ s.made, heap.kind o = s.heap.kind o ∧ heap.elements o = s.heap.elements o

/-- A store beside what is meant to be left under the name. -/
structure Paired where
  store : Store
  left : Option (List Value)

def properties (P : Platform) (p : JsString) : System Paired (Label P) :=
  .ofNext
    (fun s => s.left = none ∧ s.store.made = [] ∧ ∃ self canvasDir files argv template,
      s.store.object = .created self canvasDir files argv template ∧ Lacks template p)
    (fun s l => (s.store.next l).map fun t => ⟨t, leftAfter p s.left l⟩)

/-- The value stands for the list: it is its one element or an array that was made for it. -/
def Carries (h : Heap) (made : List Ref) (v : Value) (values : List Value) : Prop :=
  values = [v] ∨
    ∃ o ∈ made, v = .object o ∧ h.kind o = .array ∧ h.elements o = values.map some

theorem Carries.mono {h h' : Heap} {made made' : List Ref} {v : Value} {values : List Value}
    (carries : Carries h made v values)
    (same : ∀ o ∈ made, h'.kind o = h.kind o ∧ h'.elements o = h.elements o)
    (more : ∀ o ∈ made, o ∈ made') : Carries h' made' v values := by
  rcases carries with single | ⟨o, member, isObject, kind, elements⟩
  · exact .inl single
  · obtain ⟨sameKind, sameElements⟩ := same o member
    exact .inr ⟨o, more o member, isObject, sameKind.trans kind, sameElements.trans elements⟩

theorem storing_cases (name : JsString) (values : List Value) :
    storing name values = .emptyRead ∨ ∃ stored, storing name values = .store name stored ∧
      values ≠ [] ∧ ∀ (h : Heap) (made : List Ref) (new : Ref),
        Carries (storedValue h new stored).1 (new :: made) (storedValue h new stored).2 values := by
  rcases values with _ | ⟨val, _ | ⟨val', rest⟩⟩
  · exact .inl rfl
  · exact .inr ⟨.single val, rfl, List.cons_ne_nil _ _, fun _ _ _ => .inl rfl⟩
  · refine .inr ⟨.array (val :: val' :: rest), rfl, List.cons_ne_nil _ _, ?_⟩
    intro h made new
    refine .inr ⟨new, List.mem_cons_self, rfl, ?_, ?_⟩
    · exact Function.update_self ..
    · exact Function.update_self ..

/-- Making an array changes no other one. -/
theorem storedValue_other (h : Heap) {new o : Ref} (other : o ≠ new) (stored : Stored) :
    (storedValue h new stored).1.kind o = h.kind o ∧
      (storedValue h new stored).1.elements o = h.elements o := by
  cases stored with
  | single v => exact ⟨rfl, rfl⟩
  | array vs => exact ⟨Function.update_of_ne other .., Function.update_of_ne other ..⟩

/-- If no array is among the values, the one that carries them flattens to them. -/
theorem Carries.flattens {h : Heap} {made : List Ref} {v : Value} {values : List Value}
    (carries : Carries h made v values)
    (singles : ∀ w ∈ values, ¬ IsArray h w ∧ w ≠ .other .undefined) :
    v ≠ .other .undefined ∧ Flattens h [v] values := by
  have flat : Flattens h values values := flattens_singles fun w hw => (singles w hw).1
  rcases carries with single | ⟨o, _, rfl, kind, elements⟩
  · have member : v ∈ values := single ▸ List.mem_singleton_self v
    exact ⟨(singles v member).2, single ▸ flat⟩
  · have whole := Flattens.array kind elements flat .nil
    rw [List.append_nil] at whole
    exact ⟨Value.noConfusion, whole⟩

/-- The global object of the last context. -/
def Store.global (s : Store) : DataObject Key Value := s.object.globals s.current

/-- The name is inherited from nowhere, and its property can be set and deleted. -/
structure Free (o : DataObject Key Value) (p : JsString) : Prop where
  free : o.Open (.text p)
  inherited : o.inherited (.text p) = none
  deletable : o.fixed (.text p) = false

theorem free_of_lacks {o : DataObject Key Value} {p : JsString} (lacks : Lacks o p) :
    Free o p ∧ o.get (.text p) = none := by
  obtain ⟨own, inherited, extensible⟩ := lacks
  have absent : o.get (.text p) = none := by
    simp [DataObject.get, DataObject.base, own, inherited]
  refine ⟨⟨⟨?_, by simp [inherited], extensible⟩, inherited, by simp [DataObject.fixed, own]⟩,
    absent⟩
  intro q isOwn
  cases own.symm.trans isOwn

theorem Free.congr {o o' : DataObject Key Value} {p : JsString} (h : Free o p)
    (same : o'.slot (.text p) = o.slot (.text p)) : Free o' p := by
  obtain ⟨own, inherited, extensible⟩ := Slot.mk.inj same
  obtain ⟨⟨writable, base, opened⟩, inherits, deletable⟩ := h
  refine ⟨⟨own ▸ writable, inherited ▸ base, extensible ▸ opened⟩, inherited.trans inherits, ?_⟩
  rw [DataObject.fixed, own]
  exact deletable

theorem Free.apply {o : DataObject Key Value} {p : JsString} (h : Free o p)
    {op : Op Key Value} (spares : op.Spares (.text p)) : Free (o.apply op) p :=
  ⟨h.free.apply spares, (inherited_apply spares).trans h.inherited,
    (fixed_apply h.free spares).trans h.deletable⟩

/-- An operation on another name of a global object. -/
theorem slot_other {globals : Nat → DataObject Key Value} {c c' : Nat} {op : Op Key Value}
    {p : JsString}
    (apart : c = c' → op.Apart (.text p) ∧ ∀ value, op ≠ .set proto value) :
    (Function.update globals c (operate (globals c) op) c').slot (.text p) =
      (globals c').slot (.text p) := by
  by_cases here : c = c'
  · obtain ⟨other, stays⟩ := apart here
    subst here
    rw [Function.update_self, operate_of_ne_proto stays, slot_apply_apart _ op other]
  · rw [Function.update_of_ne (Ne.symm here)]

/-- The last context of an object after a step, and what it has under a name. -/
structure Stays (p : JsString) (before after : Instance) (c : Nat) : Prop where
  contexts : after.x.contexts = before.x.contexts
  same : (after.globals c).slot (.text p) = (before.globals c).slot (.text p)

theorem stays_assign {p : JsString} {s : Instance} {c c' : Nat} {k : Key}
    (other : c = c' → .text p ≠ k ∧ k ≠ proto) (value : Value)
    (converted : Option (BitVec 32)) : Stays p s (s.assign c k value converted) c' := by
  rcases assign_cases s c k value converted with ⟨thrown, _⟩ | ⟨x, contexts, assigned⟩
  · rw [thrown]
    exact ⟨rfl, rfl⟩
  · rw [assigned]
    refine ⟨contexts, slot_other fun here => ?_⟩
    obtain ⟨apart, plain⟩ := other here
    exact ⟨apart, fun _ same => plain (Op.set.inj same).1⟩

theorem stays_operate {p : JsString} {s : Instance} {c c' : Nat} {op : Op Key Value}
    (other : c = c' → op.Apart (.text p) ∧ ∀ value, op ≠ .set proto value) :
    Stays p s (s.operate c op) c' :=
  ⟨rfl, slot_other other⟩

/-- What is left under the name is what a read finds. -/
structure Kept (p : JsString) (s : Paired) : Prop where
  contexts : s.store.current + 1 = s.store.object.x.contexts
  free : Free s.store.global p
  absent : s.left = none → s.store.global.get (.text p) = none
  present : ∀ values, s.left = some values → values ≠ [] ∧
    ∃ v, s.store.global.get (.text p) = some v ∧ Carries s.store.heap s.store.made v values

variable {p : JsString} {s : Paired}

theorem current_of_contexts {s t : Store}
    (contexts : t.object.x.contexts = s.object.x.contexts) : t.current = s.current := by
  rw [Store.current, contexts]
  rfl

/-- An operation on the global object of the last context. -/
theorem global_operate (s : Store) {op : Op Key Value}
    (stays : ∀ value, op ≠ .set proto value) {t : Store}
    (contexts : t.object.x.contexts = s.object.x.contexts)
    (globals : t.object.globals =
      Function.update s.object.globals s.current (operate s.global op)) :
    t.global = s.global.apply op := by
  rw [Store.global, current_of_contexts contexts, globals, Function.update_self,
    operate_of_ne_proto stays]

/-- A step that leaves the name and the arrays alone. -/
theorem Kept.stays (h : Kept p s) {t : Store}
    (stays : Stays p s.store.object t.object s.store.current)
    (same : ∀ o ∈ s.store.made, t.heap.kind o = s.store.heap.kind o ∧
      t.heap.elements o = s.store.heap.elements o)
    (more : ∀ o ∈ s.store.made, o ∈ t.made) : Kept p ⟨t, s.left⟩ := by
  have current : t.current = s.store.current := current_of_contexts stays.contexts
  have reads : t.global.get (.text p) = s.store.global.get (.text p) := by
    rw [Store.global, current]
    exact get_congr stays.same
  refine ⟨?_, ?_, ?_, ?_⟩
  · rw [current, h.contexts, stays.contexts]
  · rw [Store.global, current]
    exact h.free.congr stays.same
  · exact fun nothing => reads.trans (h.absent nothing)
  · intro values left
    obtain ⟨nonempty, v, reads', carries⟩ := h.present values left
    exact ⟨nonempty, v, reads.trans reads', carries.mono same more⟩

/-- Nothing is left by a deletion, and by a new context. -/
theorem kept_absent {t : Store} {o : DataObject Key Value}
    (contexts : t.current + 1 = t.object.x.contexts) (global : t.global = o) (free : Free o p)
    (absent : o.get (.text p) = none) : Kept p ⟨t, none⟩ := by
  subst global
  exact ⟨contexts, free, fun _ => absent, fun _ left => absurd left.symm (Option.some_ne_none _)⟩

theorem kept_newContext {t : Store} {n : Nat} {globals : Nat → DataObject Key Value}
    {template : DataObject Key Value}
    (made : t.object.x.contexts = n + 1 ∧ t.object.globals = Function.update globals n template)
    (lacks : Lacks template p) : Kept p ⟨t, none⟩ := by
  obtain ⟨contexts, updated⟩ := made
  obtain ⟨free, absent⟩ := free_of_lacks lacks
  have current : t.current = n := Nat.sub_eq_of_eq_add contexts
  refine kept_absent ?_ ?_ free absent
  · rw [current, contexts]
  · rw [Store.global, current, updated, Function.update_self]

theorem Kept.delprop (h : Kept p s) (argv : List Atom) :
    Kept p ⟨s.store.delprop argv,
      if propName 0 argv.length (vectorData argv) = some p then none else s.left⟩ := by
  rw [Store.delprop]
  cases propName 0 argv.length (vectorData argv) with
  | none =>
    rw [if_neg (Option.some_ne_none p).symm]
    exact h
  | some name =>
    dsimp only
    have plain : ∀ value, (.delete (.text name) : Op Key Value) ≠ .set proto value := by
      rintro value ⟨⟩
    by_cases here : name = p
    · subst here
      rw [if_pos rfl]
      have spares : Op.Spares (.text name) (.delete (.text name) : Op Key Value) := trivial
      have absent : (s.store.global.apply (.delete (.text name))).get (.text name) = none := by
        rw [get_apply h.free.free spares, readAfter, if_pos ⟨rfl, h.free.deletable⟩,
          DataObject.base, h.free.inherited, Option.map_none]
      exact kept_absent h.contexts (global_operate s.store plain rfl rfl) (h.free.apply spares)
        absent
    · rw [if_neg fun same => here (Option.some.inj same)]
      have other : Key.text p ≠ .text name := fun same => here (Key.text.inj same).symm
      exact h.stays (stays_operate fun _ => ⟨other, plain⟩) (fun _ _ => ⟨rfl, rfl⟩)
        (fun _ member => member)

/-- A `setprop` message for the name. -/
theorem Kept.set (h : Kept p s) {values : List Value} (nonempty : values ≠ [])
    {heap : Heap} {made : List Ref} {val : Value} (carries : Carries heap made val values)
    {x : TJs} (contexts : x.contexts = s.store.object.x.contexts)
    (plain : p ≠ jsText "__proto__") :
    Kept p ⟨⟨heap, made, x, Function.update s.store.object.globals s.store.current
      (operate s.store.global (.set (.text p) val))⟩, some values⟩ := by
  obtain ⟨t, ht⟩ : ∃ t : Store, t = ⟨heap, made, x, Function.update s.store.object.globals
    s.store.current (operate s.store.global (.set (.text p) val))⟩ := ⟨_, rfl⟩
  have sameContexts : t.object.x.contexts = s.store.object.x.contexts := by rw [ht]; exact contexts
  have stays : ∀ value, (.set (.text p) val : Op Key Value) ≠ .set proto value :=
    fun _ same => plain (Key.text.inj (Op.set.inj same).1)
  have global : t.global = s.store.global.apply (.set (.text p) val) :=
    global_operate s.store stays sameContexts (by rw [ht])
  have spares : Op.Spares (.text p) (.set (.text p) val : Op Key Value) := trivial
  rw [← ht]
  refine ⟨?_, ?_, ?_, ?_⟩
  · rw [current_of_contexts sameContexts, sameContexts]
    exact h.contexts
  · rw [global]
    exact h.free.apply spares
  · exact fun nothing => absurd nothing (Option.some_ne_none _)
  · rintro _ ⟨⟩
    refine ⟨nonempty, val, ?_, ?_⟩
    · rw [global, get_apply h.free.free spares, readAfter, if_pos rfl]
    · rw [ht]
      exact carries

/-- A message that names a property and brings values is made of the name and a list. -/
theorem propName_eq_some {least : Nat} {argv : List Atom} {name : JsString}
    (named : propName least argv.length (vectorData argv) = some name) :
    ∃ (s : Symbol) (atoms : List Atom), argv = .symbol s :: atoms ∧
      decodeUtf8 s.name.bytes = name ∧ least ≤ atoms.length := by
  rw [propName] at named
  obtain ⟨more, named⟩ := Option.ite_none_right_eq_some.mp named
  rcases argv with _ | ⟨w | s | _, atoms⟩
  · exact absurd more (Nat.not_lt_zero _)
  · cases named
  · exact ⟨s, atoms, rfl, Option.some.inj named, Nat.lt_succ_iff.mp more⟩
  · cases named

theorem Kept.setprop (h : Kept p s) (plain : known (Key.text p).name = none) {r : Registry P}
    {new : Ref} {argv : List Atom} {converted : Option (BitVec 32)} (fresh : new ∉ s.store.made)
    (apartFromProto : propName 1 argv.length (vectorData argv) ≠ some (jsText "__proto__"))
    {t : Store} (step : s.store.setprop r new argv converted = some t) :
    Kept p ⟨t, if propName 1 argv.length (vectorData argv) = some p then
      some (decoded r argv.tail) else s.left⟩ := by
  cases named : propName 1 argv.length (vectorData argv) with
  | none =>
    simp only [Store.setprop, jsSetprop, named, Option.some.injEq] at step
    rw [if_neg (Option.some_ne_none p).symm, ← step]
    exact h
  | some name =>
    obtain ⟨sym, atoms, rfl, rfl, more⟩ := propName_eq_some named
    have message := jsSetprop_message r sym (List.ne_nil_of_length_pos more)
    have stays : decodeUtf8 sym.name.bytes ≠ jsText "__proto__" :=
      fun same => apartFromProto (named.trans (congrArg some same))
    have apart : ∀ o ∈ s.store.made, o ≠ new := fun o member same => fresh (same ▸ member)
    rw [Store.setprop, List.length_cons, message] at step
    rcases storing_cases (decodeUtf8 sym.name.bytes) (decoded r atoms) with
      empty | ⟨stored, stores, nonempty, carries⟩
    · simp [empty] at step
    · simp only [stores, Option.some.injEq] at step
      rw [← step]
      by_cases here : decodeUtf8 sym.name.bytes = p
      · subst here
        rw [if_pos rfl]
        rcases assign_cases s.store.object s.store.current (.text (decodeUtf8 sym.name.bytes))
          (storedValue s.store.heap new stored).2 converted with
          ⟨_, answered⟩ | ⟨x, contexts, assigned⟩
        · exact absurd plain answered
        · rw [assigned]
          exact h.set nonempty (carries s.store.heap s.store.made new) contexts stays
      · rw [if_neg fun same => here (Option.some.inj same)]
        have other : Key.text p ≠ .text (decodeUtf8 sym.name.bytes) :=
          fun same => here (Key.text.inj same).symm
        have plainKey : Key.text (decodeUtf8 sym.name.bytes) ≠ proto :=
          fun same => stays (Key.text.inj same)
        refine h.stays (stays_assign (fun _ => ⟨other, plainKey⟩) _ converted) ?_ ?_
        · exact fun o member => storedValue_other s.store.heap (apart o member) stored
        · exact fun o member => List.mem_cons_of_mem _ member

theorem Kept.other (h : Kept p s) {heap : Heap} {l : Interceptors.Label}
    (leaves : Harmless p s.store l)
    (same : ∀ o ∈ s.store.made, heap.kind o = s.store.heap.kind o ∧
      heap.elements o = s.store.heap.elements o) :
    Kept p ⟨⟨heap, s.store.made, s.store.object.next l⟩,
      leftAfter p s.left (.other heap l : Label P)⟩ := by
  have stays : Stays p s.store.object (s.store.object.next l) s.store.current →
      Kept p ⟨⟨heap, s.store.made, s.store.object.next l⟩, s.left⟩ :=
    fun stays => h.stays stays same fun _ member => member
  cases l with
  | assign c k value converted => exact stays (stays_assign leaves value converted)
  | operate c op => exact stays (stays_operate leaves)
  | receive index selector => exact stays ⟨rfl, rfl⟩
  | compile files argv template =>
    exact kept_newContext (compile_globals s.store.object files argv template) leaves

theorem kept (plain : known (Key.text p).name = none)
    (h : Reachable (properties P p) (fun s => Spares p s.store) s) : Kept p s := by
  apply h.invariant
  · rintro ⟨store, left⟩ ⟨rfl, _, self, canvasDir, files, argv, template, made, lacks⟩
    have object : store.object = .created self canvasDir files argv template := made
    have first : Kept p ⟨⟨store.heap, store.made, .created self canvasDir files argv template⟩,
        none⟩ := kept_newContext (newContext_globals _ files _ template) lacks
    rwa [← object] at first
  · rintro s l t _ hs step spares
    obtain ⟨store, next, rfl⟩ := Option.map_eq_some_iff.mp step
    cases l with
    | setprop r new argv converted => exact hs.setprop plain spares.1 spares.2 next
    | delprop argv =>
      cases next
      exact hs.delprop argv
    | other heap l =>
      cases next
      exact hs.other spares.1 spares.2

/-- A name that `js_get` does not answer is read from the global object. -/
theorem scope_plain (store : Store) (plain : known (Key.text p).name = none) (r : Registry P)
    (jsGlobal new : Ref) :
    (store.scope r jsGlobal new p).heap = store.heap ∧
      (store.scope r jsGlobal new p).global.get p =
        (store.global.get (.text p)).getD (.other .undefined) := by
  have read : store.object.read r jsGlobal store.current (.text p) =
      .single ((store.global.get (.text p)).getD (.other .undefined)) := by
    simp only [Instance.read, jsGet, plain, Option.getD_none]
    rfl
  simp [Store.scope, read, storedValue, GlobalObject.get]

/-- What is sent for a list that was read back. -/
def sentBack (items : List (Item P)) : List Atom := (items.map (Item.after 1)).flatMap Item.atoms

theorem floatOrSymbol_items {h : Heap} {r : Registry P} {items : List (Item P)}
    (sendable : ∀ i ∈ items, i.Sendable h r) : ∀ a ∈ items.flatMap Item.atoms, FloatOrSymbol a := by
  intro a ha
  obtain ⟨i, hi, inside⟩ := List.mem_flatMap.mp ha
  have first := sendable i hi
  cases i with
  | plain b =>
    cases List.mem_singleton.mp inside
    cases a with
    | float w => trivial
    | symbol s => trivial
    | other type word => exact absurd first id
  | object p o copies =>
    rcases List.mem_cons.mp inside with rfl | copied
    · trivial
    · cases (List.mem_replicate.mp copied).2
      trivial

theorem not_collides_of_apart {atoms : List Atom} {T : SymbolTable}
    (apart : ∀ w, .float w ∈ atoms → ∀ s, T.addr s ≠ w.toNat) : ¬ Collides T atoms := by
  intro collision
  rcases atoms with _ | ⟨w | s | _, rest⟩
  · exact collision
  · exact apart _ List.mem_cons_self _ collision
  · exact collision
  · exact collision

theorem values_singles {h : Heap} {r : Registry P} {items : List (Item P)}
    (sendable : ∀ i ∈ items, i.Sendable h r) :
    ∀ v ∈ items.flatMap Item.values, ¬ IsArray h v ∧ v ≠ .other .undefined := by
  intro v hv
  refine ⟨values_not_array sendable v hv, ?_⟩
  rintro rfl
  obtain ⟨i, _, inside⟩ := List.mem_flatMap.mp hv
  cases i with
  | plain a => cases a <;> simp [Item.values, jsMarshalAtom] at inside
  | object p o copies => simp [Item.values, idValue] at inside

/-- What carries the values of a list is sent as the list, with one more id behind every
object. -/
theorem getprop_carries {store : Store} {name : Symbol} {items : List (Item P)}
    {r : Registry P} {jsGlobal new : Ref}
    (sendable : ∀ i ∈ items,
      i.Sendable (store.scope r jsGlobal new (decodeUtf8 name.name.bytes)).heap r)
    {made : List Ref}
    (carries : Carries (store.scope r jsGlobal new (decodeUtf8 name.name.bytes)).heap made
      ((store.scope r jsGlobal new (decodeUtf8 name.name.bytes)).global.get
        (decodeUtf8 name.name.bytes)) (items.flatMap Item.values))
    (alloc : Allocator P) (T : SymbolTable) {outlet : PortId} {outlets : List PortId}
    (ports : store.object.x.ports.outlets = outlet :: outlets) :
    ∃ depth, ∀ fuel, depth ≤ fuel →
      store.getprop jsGlobal new alloc T fuel [.symbol name] r =
        some ((outgoing T (sentBack items)).elim .nothing (.message outlet), r) := by
  have reads : propName 0 [Atom.symbol name].length (vectorData [.symbol name]) =
      some (decodeUtf8 name.name.bytes) := rfl
  obtain ⟨defined, flat⟩ := carries.flattens (values_singles sendable)
  obtain ⟨depth, sends⟩ := jsGetprop_flattens defined flat alloc T store.object.x.self outlet
    outlets r
  refine ⟨depth, fun fuel enough => ?_⟩
  have sent := sends fuel enough
  rw [encodeLeaves_items sendable] at sent
  simp only [Store.getprop, reads, ports]
  exact sent

/-- A list with something in it is sent as a message. -/
theorem sentBack_spells {h : Heap} {r : Registry P} {items : List (Item P)}
    (nonempty : items ≠ []) (sendable : ∀ i ∈ items, i.Sendable h r) {T : SymbolTable}
    (apart : ∀ w, .float w ∈ sentBack items → ∀ t, T.addr t ≠ w.toNat) :
    ∃ m, outgoing T (sentBack items) = some m ∧ Spells (sentBack items) m := by
  have onward : ∀ i ∈ items.map (Item.after 1), i.Sendable h r := by
    intro i hi
    obtain ⟨j, hj, rfl⟩ := List.mem_map.mp hi
    exact sendable_after (sendable j hj) 1
  have some_sent : sentBack items ≠ [] := by
    intro none_sent
    obtain ⟨i, rest, rfl⟩ := List.exists_cons_of_ne_nil nonempty
    have first := List.append_eq_nil_iff.mp none_sent
    cases i with
    | plain a => exact absurd first.1 (List.cons_ne_nil _ _)
    | object p o copies => exact absurd first.1 (List.cons_ne_nil _ _)
  exact outgoing_spells some_sent (floatOrSymbol_items onward) (not_collides_of_apart apart)

/-- In every run, `getprop` sends the list of the last `setprop` message for the name, or
nothing where there was none or it was deleted. -/
theorem getprop_run {name : Symbol} (named : decodeUtf8 name.name.bytes = p)
    (plain : known (Key.text p).name = none)
    (h : Reachable (properties P p) (fun s => Spares p s.store) s) (jsGlobal new : Ref)
    (alloc : Allocator P) (T : SymbolTable) (r : Registry P) :
    (s.left = none → ∀ fuel,
      s.store.getprop jsGlobal new alloc T fuel [.symbol name] r = some (.nothing, r)) ∧
    ∀ items : List (Item P), s.left = some (items.flatMap Item.values) →
      (∀ i ∈ items, i.Sendable s.store.heap r) →
      (∀ w, .float w ∈ sentBack items → ∀ t, T.addr t ≠ w.toNat) →
      ∀ outlet outlets, s.store.object.x.ports.outlets = outlet :: outlets →
        ∃ depth m,
          (∀ fuel, depth ≤ fuel →
            s.store.getprop jsGlobal new alloc T fuel [.symbol name] r =
              some (.message outlet m, r)) ∧
          Spells (sentBack items) m := by
  subst named
  have kept := kept plain h
  have reads : propName 0 [Atom.symbol name].length (vectorData [.symbol name]) =
      some (decodeUtf8 name.name.bytes) := rfl
  obtain ⟨heap, get⟩ := scope_plain s.store plain r jsGlobal new
  constructor
  · intro nothing fuel
    rw [kept.absent nothing] at get
    simp only [Store.getprop, reads, jsGetprop]
    cases s.store.object.x.ports.outlets with
    | nil => rfl
    | cons outlet outlets => simp [get]
  · intro items left sendable apart outlet outlets ports
    obtain ⟨nonempty, v, found, carries⟩ := kept.present _ left
    rw [found, Option.getD_some] at get
    rw [← heap] at sendable
    rw [← get, ← heap] at carries
    have some_item : items ≠ [] := fun none_set => nonempty (none_set ▸ rfl)
    obtain ⟨m, formed, spells⟩ := sentBack_spells some_item sendable apart
    obtain ⟨depth, sends⟩ := getprop_carries sendable carries alloc T ports
    rw [formed] at sends
    exact ⟨depth, m, sends, spells⟩

/-- The number 1 and the object 7, whose handle is at 0x1000. -/
def oneAndObject : List (Item .bits64) := [.plain (.float 0x3f800000), .object 0x1000 7 0]

/-- A new object without a script. -/
def emptyStore : Store :=
  ⟨emptyScope.heap, [], .created 1 (.ofAscii "/patch") Recompiling.oneFile [] noProperties⟩

/-- No symbol is where a float can have its bits. -/
theorem apart_highSymbols (atoms : List Atom) :
    ∀ w, .float w ∈ atoms → ∀ t, highSymbols.addr t ≠ w.toNat := by
  intro w _ t same
  have bound := w.isLt
  simp only [highSymbols] at same
  omega

theorem reachable_next (h : Reachable (properties P p) (fun s => Spares p s.store) s)
    (l : Label P) {t : Store} (step : s.store.next l = some t) (spares : Spares p s.store l) :
    Reachable (properties P p) (fun s => Spares p s.store) ⟨t, leftAfter p s.left l⟩ :=
  .next h (Option.map_eq_some_iff.mpr ⟨t, step, rfl⟩) spares

theorem sendable_oneAndObject {h : Heap} (kind : h.kind 7 = .plain) :
    ∀ i ∈ oneAndObject, i.Sendable h Dispatch.oneObject := by
  intro i hi
  rcases List.mem_pair.mp hi with rfl | rfl
  · trivial
  · refine ⟨by decide, ⟨by decide, by decide⟩, by decide, ?_⟩
    rw [kind]
    exact ⟨Kind.noConfusion, Kind.noConfusion⟩

/-- The message `setprop p 1 jsobject 4096`, a call of a function and the message
`getprop p`. -/
theorem getprop_run_list :
    ∃ s : Paired, s.left = some (oneAndObject.flatMap Item.values) ∧ ∃ depth m,
      (∀ fuel, depth ≤ fuel →
        s.store.getprop 0 9 (fun _ : Registry .bits64 => 0x2000) highSymbols fuel
          [.symbol propAtom] Dispatch.oneObject = some (.message 1 m, Dispatch.oneObject)) ∧
      Spells (sentBack oneAndObject) m := by
  have start : Reachable (properties .bits64 (jsText "p"))
      (fun s => Spares (jsText "p") s.store) ⟨emptyStore, none⟩ :=
    .start ⟨rfl, rfl, _, _, _, _, _, rfl, rfl, rfl, rfl⟩
  have set := reachable_next start
    (.setprop Dispatch.oneObject 8 (.symbol propAtom :: oneAndObject.flatMap Item.atoms) none) rfl
    ⟨List.not_mem_nil, by decide⟩
  have called := reachable_next set (.other _ (.receive 0 sBang)) rfl
    ⟨trivial, fun _ _ => ⟨rfl, rfl⟩⟩
  have plain : known (Key.text (jsText "p")).name = none := by decide
  have named : decodeUtf8 propAtom.name.bytes = jsText "p" := by decide
  have both := getprop_run named plain called 0 9
    (fun _ : Registry .bits64 => 0x2000) highSymbols Dispatch.oneObject
  have left := decoded_items (sendable_oneAndObject (h := emptyScope.heap) rfl)
  have sent := both.2 oneAndObject (congrArg some left) (sendable_oneAndObject rfl)
    (apart_highSymbols _) 1 [] rfl
  refine ⟨_, ?_, sent⟩
  exact congrArg some left

theorem scope_arguments (store : Store) (r : Registry P) (jsGlobal new : Ref) :
    store.scope r jsGlobal new (jsText "jsarguments") =
      ⟨(storedValue store.heap new (.array (decodeAtoms r store.object.x.args))).1,
        ⟨fun _ => none, fun _ => none,
          fun n => if n = jsText "jsarguments" then some (.object new) else none⟩⟩ := by
  have name : known (Key.text (jsText "jsarguments")).name = some .jsarguments := by decide
  have read : store.object.read r jsGlobal store.current (.text (jsText "jsarguments")) =
      .array (decodeAtoms r store.object.x.args) := by
    simp only [Instance.read, jsGet, name, Option.getD_some]
  simp only [Store.scope, read]
  rfl

/-- An array that is made is none of the objects in a list. -/
theorem sendable_storedValue {h : Heap} {r : Registry P} {items : List (Item P)}
    (sendable : ∀ i ∈ items, i.Sendable h r) {new : Ref}
    (fresh : ∀ p o copies, .object p o copies ∈ items → o ≠ new) (stored : Stored) :
    ∀ i ∈ items, i.Sendable (storedValue h new stored).1 r := by
  intro i hi
  have first := sendable i hi
  cases i with
  | plain a => exact first
  | object p o copies =>
    have kind := (storedValue_other h (fresh p o copies hi) stored).1
    exact ⟨first.positive, first.held, first.found, by rw [kind]; exact first.plain⟩

/-- In every run, `getprop jsarguments` sends the arguments that the last `compile` message
with a name brought, or those that the object was made with. Without arguments it sends
nothing. -/
theorem getprop_arguments (self : ObjId) (canvasDir : CString) (files : Files)
    {argv : List Atom} (template : DataObject Key Value) {ls : List Interceptors.Label}
    {items : List (Item P)}
    (brought : (ls.filterMap Label.arguments).getLast?.getD argv = items.flatMap Item.atoms)
    {heap : Heap} {r : Registry P} (sendable : ∀ i ∈ items, i.Sendable heap r) {new : Ref}
    (fresh : ∀ p o copies, .object p o copies ∈ items → o ≠ new) {name : Symbol}
    (named : decodeUtf8 name.name.bytes = jsText "jsarguments") (made : List Ref)
    (jsGlobal : Ref) (alloc : Allocator P) {T : SymbolTable}
    (apart : ∀ w, .float w ∈ sentBack items → ∀ t, T.addr t ≠ w.toNat) :
    let store : Store :=
      ⟨heap, made, (Instance.created self canvasDir files argv template).run ls⟩
    ∀ outlet outlets, store.object.x.ports.outlets = outlet :: outlets → ∃ depth,
      (items = [] → ∀ fuel, depth ≤ fuel →
        store.getprop jsGlobal new alloc T fuel [.symbol name] r = some (.nothing, r)) ∧
      (items ≠ [] → ∃ m,
        (∀ fuel, depth ≤ fuel →
          store.getprop jsGlobal new alloc T fuel [.symbol name] r =
            some (.message outlet m, r)) ∧
        Spells (sentBack items) m) := by
  intro store outlet outlets ports
  have agrees : Agrees store.object.x ((Documented.created argv).run ls) :=
    (agrees_created self canvasDir files argv template).run ls
  have fields : store.object.x.args = items.flatMap Item.atoms := by
    rw [agrees.args, jsarguments_run]
    exact brought
  have scope := scope_arguments store r jsGlobal new
  have values : decodeAtoms r store.object.x.args = items.flatMap Item.values := by
    rw [fields, decodeAtoms_eq, decoded_items sendable]
  rw [values, ← named] at scope
  have get : (store.scope r jsGlobal new (decodeUtf8 name.name.bytes)).global.get
      (decodeUtf8 name.name.bytes) = .object new := by
    rw [scope]
    simp [GlobalObject.get]
  have carries : Carries (store.scope r jsGlobal new (decodeUtf8 name.name.bytes)).heap [new]
      ((store.scope r jsGlobal new (decodeUtf8 name.name.bytes)).global.get
        (decodeUtf8 name.name.bytes)) (items.flatMap Item.values) := by
    rw [get, scope]
    exact .inr ⟨new, List.mem_singleton_self new, rfl, Function.update_self ..,
      Function.update_self ..⟩
  have still : ∀ i ∈ items,
      i.Sendable (store.scope r jsGlobal new (decodeUtf8 name.name.bytes)).heap r := by
    rw [scope]
    exact sendable_storedValue sendable fresh _
  obtain ⟨depth, sends⟩ := getprop_carries still carries alloc T ports
  refine ⟨depth, ?_, ?_⟩
  · rintro rfl
    exact sends
  · intro nonempty
    obtain ⟨m, formed, spells⟩ := sentBack_spells nonempty sendable apart
    rw [formed] at sends
    exact ⟨m, sends, spells⟩

/-- The arguments `test.js 1 jsobject 4096`. -/
def testArguments : List (Item .bits64) := .plain (Recompiling.fileArg "test.js") :: oneAndObject

theorem getprop_arguments_compiled :
    ∃ depth m,
      (∀ fuel, depth ≤ fuel →
        Store.getprop ⟨emptyScope.heap, [], (Instance.created 1 (.ofAscii "/patch")
            Recompiling.oneFile [] noProperties).run
              [.compile Recompiling.oneFile (testArguments.flatMap Item.atoms) noProperties]⟩
          0 8 (fun _ : Registry .bits64 => 0x2000) highSymbols fuel
          [.symbol (gensym (.ofAscii "jsarguments"))] Dispatch.oneObject =
            some (.message 1 m, Dispatch.oneObject)) ∧
      Spells (sentBack testArguments) m := by
  have sendable : ∀ i ∈ testArguments, i.Sendable emptyScope.heap Dispatch.oneObject := by
    intro i hi
    rcases List.mem_cons.mp hi with rfl | hi
    · exact ⟨by decide, jsText "test.js", by decide, by decide⟩
    · exact sendable_oneAndObject rfl i hi
  have fresh : ∀ p o copies, .object p o copies ∈ testArguments → o ≠ 8 := by
    intro p o copies hi
    have same : p = 0x1000 ∧ o = 7 ∧ copies = 0 := by simpa [testArguments, oneAndObject] using hi
    rw [same.2.1]
    decide
  have named : decodeUtf8 (gensym (.ofAscii "jsarguments")).name.bytes = jsText "jsarguments" := by
    decide
  have brought : (List.filterMap Label.arguments
      [.compile Recompiling.oneFile (testArguments.flatMap Item.atoms)
        noProperties]).getLast?.getD [] = testArguments.flatMap Item.atoms := rfl
  obtain ⟨depth, _, sends⟩ := getprop_arguments 1 (.ofAscii "/patch") Recompiling.oneFile
    noProperties brought sendable fresh named [] 0 (fun _ => 0x2000) (apart_highSymbols _) 1 [] rfl
  exact ⟨depth, sends (List.cons_ne_nil _ _)⟩

/-- A number up to 2 ^ 24 converts to a float and back. -/
theorem widen_narrow_numberOf {n : Int} (small : n.natAbs ≤ 2 ^ 24) :
    ∃ d, numberOf n = .number d ∧ widen (narrow d) = d :=
  ⟨_, rfl, widen_narrow_integer _ small⟩

/-- In every run, `getprop` with the name of a count or of `inlet` sends one float, and up to
2 ^ 24 it converts to the number again. -/
theorem getprop_count (self : ObjId) (canvasDir : CString) (files : Files) (argv : List Atom)
    (template : DataObject Key Value) (ls : List Interceptors.Label) {name : Symbol}
    {property : Interceptors.Known}
    (named : known (Key.text (decodeUtf8 name.name.bytes)).name = some property) {n : Int}
    (counted : ((Documented.created argv).run ls).count property = some n)
    (small : n.natAbs ≤ 2 ^ 24) (heap : Heap) (made : List Ref) (jsGlobal new : Ref)
    (alloc : Allocator P) (T : SymbolTable) (r : Registry P) :
    let store : Store :=
      ⟨heap, made, (Instance.created self canvasDir files argv template).run ls⟩
    ∀ outlet outlets, store.object.x.ports.outlets = outlet :: outlets →
      ∃ w depth, jsMarshalAtom (.float w) = some (numberOf n) ∧
        (T.addr sFloat ≠ w.toNat → ∀ fuel, depth ≤ fuel →
          store.getprop jsGlobal new alloc T fuel [.symbol name] r =
            some (.message outlet ⟨sFloat, [.float w]⟩, r)) := by
  intro store outlet outlets ports
  obtain ⟨d, number, exact⟩ := widen_narrow_numberOf small
  have agrees : Agrees store.object.x ((Documented.created argv).run ls) :=
    (agrees_created self canvasDir files argv template).run ls
  have read : store.object.read r jsGlobal store.current (.text (decodeUtf8 name.name.bytes)) =
      .single (.number d) := by
    rw [agrees.read named, Documented.read_count counted, number]
  have scope : (store.scope r jsGlobal new (decodeUtf8 name.name.bytes)).heap = heap ∧
      (store.scope r jsGlobal new (decodeUtf8 name.name.bytes)).global.get
        (decodeUtf8 name.name.bytes) = .number d := by
    simp [Store.scope, read, storedValue, GlobalObject.get, store]
  have defined : (store.scope r jsGlobal new (decodeUtf8 name.name.bytes)).global.get
      (decodeUtf8 name.name.bytes) ≠ .other .undefined := by
    rw [scope.2]
    exact Value.noConfusion
  have single : ∀ v ∈ [Value.number d], ¬ IsArray heap v := by
    rintro v hv ⟨o, rfl, _⟩
    cases List.mem_singleton.mp hv
  have flat : Flattens (store.scope r jsGlobal new (decodeUtf8 name.name.bytes)).heap
      [(store.scope r jsGlobal new (decodeUtf8 name.name.bytes)).global.get
        (decodeUtf8 name.name.bytes)] [.number d] := by
    rw [scope.1, scope.2]
    exact flattens_singles single
  obtain ⟨depth, sends⟩ := jsGetprop_flattens defined flat alloc T store.object.x.self outlet
    outlets r
  refine ⟨narrow d, depth, ?_, ?_⟩
  · rw [jsMarshalAtom, exact, number]
  · intro apart fuel enough
    have reads : propName 0 [Atom.symbol name].length (vectorData [.symbol name]) =
        some (decodeUtf8 name.name.bytes) := rfl
    have sent := sends fuel enough
    have formed : outgoing T [.float (narrow d)] = some ⟨sFloat, [.float (narrow d)]⟩ :=
      outgoing_float apart
    simp only [encodeLeaves, encodeLeaf, List.append_nil, formed, Option.elim_some] at sent
    simp only [Store.getprop, reads, ports]
    exact sent

/-- A script that sets three inlets, and the message `getprop inlets`. -/
theorem getprop_count_inlets :
    ∃ w depth, jsMarshalAtom (.float w) = some (numberOf 3) ∧
      (highSymbols.addr sFloat ≠ w.toNat → ∀ fuel, depth ≤ fuel →
        Store.getprop ⟨emptyScope.heap, [], (Instance.created 1 (.ofAscii "/patch")
            Recompiling.oneFile [] noProperties).run
              [.assign 0 (.text (jsText "inlets")) (numberOf 3) (some 3)]⟩
          0 7 (fun _ : Registry .bits64 => 0x1000) highSymbols fuel
          [.symbol (gensym (.ofAscii "inlets"))] .empty =
            some (.message 1 ⟨sFloat, [.float w]⟩, .empty)) := by
  have named : known (Key.text (decodeUtf8 (gensym (.ofAscii "inlets")).name.bytes)).name =
      some .inlets := by decide
  have counted : (((Documented.created []).run
      [.assign 0 (.text (jsText "inlets")) (numberOf 3) (some 3)]).count .inlets) = some 3 := by
    decide
  exact getprop_count 1 (.ofAscii "/patch") Recompiling.oneFile [] noProperties _ named counted
    (by decide) emptyScope.heap [] 0 7 _ highSymbols .empty 1 [] rfl

end PropertyRuns
