import Pdjs.Decoding
import Pdjs.ObjectReferences

/-!
# Messages on their way

A message may be kept by a patch and reach its receiver later. In between other
messages are sent, objects are collected and the set is iterated in another order. The
atoms of a message are written once; what they stand for is read from the registry of
the moment it is delivered.
-/

namespace Deliveries

open GuardedRuns PdAtoms ObjectRegistry TextEncoding Marshalling Flattening RoundTrip WeakHandles
open ObjectReferences Decoding

variable {P : Platform}

/-- The handles for the leaves are looked up or made one after the other. -/
def sendLeaves (h : Heap) (alloc : Allocator P) (x : ObjId) : List Value → State P → State P
  | [], s => s
  | .object o :: vs, s =>
    if h.kind o = .stringObject then sendLeaves h alloc x vs s
    else sendLeaves h alloc x vs (s.send x o (alloc s.reg))
  | _ :: vs, s => sendLeaves h alloc x vs s

/-- Every one of these sends meets a condition. -/
def EachSend (ok : State P → WeakHandles.Label P → Prop) (h : Heap) (alloc : Allocator P)
    (x : ObjId) : List Value → State P → Prop
  | [], _ => True
  | .object o :: vs, s =>
    if h.kind o = .stringObject then EachSend ok h alloc x vs s
    else ok s (.send x o (alloc s.reg)) ∧ EachSend ok h alloc x vs (s.send x o (alloc s.reg))
  | _ :: vs, s => EachSend ok h alloc x vs s

/-- What the collector and the allocator guarantee of a send. -/
def Permitted (s : State P) : WeakHandles.Label P → Prop
  | .send _ o new => s.Live o ∧ new ≠ 0 ∧ new ∉ s.reg.wrappers
  | _ => True

/-- A message that was sent: its leaves, the heap they were read from, and its atoms. -/
structure Transit where
  heap : Heap
  leaves : List Value
  atoms : List Atom

structure Traffic (P : Platform) where
  handles : State P
  flight : List Transit

inductive Label (P : Platform) where
  | handle (l : WeakHandles.Label P)
  | transmit (h : Heap) (alloc : Allocator P) (x : ObjId) (args leaves : List Value)

inductive Step : Traffic P → Label P → Traffic P → Prop where
  | handle {s : Traffic P} {l : WeakHandles.Label P} {t : State P}
      (step : WeakHandles.Step s.handles l t) : Step s (.handle l) ⟨t, s.flight⟩
  | transmit {s : Traffic P} {h : Heap} {alloc : Allocator P} {x : ObjId}
      {args leaves : List Value} {atoms : List Atom} {after : Registry P}
      (flat : Flattens h args leaves) (permitted : EachSend Permitted h alloc x leaves s.handles)
      (returns : ∃ depth, ∀ fuel, depth ≤ fuel →
        jsUnmarshalArgs h alloc x fuel args s.handles.reg = some (atoms, after)) :
      Step s (.transmit h alloc x args leaves)
        ⟨sendLeaves h alloc x leaves s.handles, ⟨h, leaves, atoms⟩ :: s.flight⟩

def traffic (P : Platform) : System (Traffic P) (Label P) := ⟨fun s => s = ⟨.start, []⟩, Step⟩

/-- Every send, of a message or alone, meets the condition. -/
def Guarded (ok : State P → WeakHandles.Label P → Prop) (s : Traffic P) : Label P → Prop
  | .handle l => ok s.handles l
  | .transmit h alloc x _ leaves => EachSend ok h alloc x leaves s.handles

/-- New handles lie at positive addresses, and not at those of ids that were sent. -/
def Sound (s : State P) (l : WeakHandles.Label P) : Prop :=
  FreshIds s l ∧ ∀ x o new, l = .send x o new → 0 < new.toInt

section Leaves

variable {h : Heap} {alloc : Allocator P} {x : ObjId}

theorem encodeLeaf_other (p : Primitive) (r : Registry P) :
    encodeLeaf h alloc x (.other p) r = ([.symbol (gensym (.ofBytes []))], r) := by
  simp only [encodeLeaf, unmarshalSymbols, jsUnmarshalString, symbolAtoms_text]

/-- The registry of the sends is the registry that the encoder leaves. -/
theorem reg_sendLeaves (vs : List Value) (s : State P) :
    (sendLeaves h alloc x vs s).reg = (encodeLeaves h alloc x vs s.reg).2 := by
  induction vs generalizing s with
  | nil => rfl
  | cons v vs ih =>
    cases v with
    | number d => exact ih s
    | string t =>
      simp only [sendLeaves, encodeLeaves, encodeLeaf_string]
      exact ih s
    | other p =>
      simp only [sendLeaves, encodeLeaves, encodeLeaf_other]
      exact ih s
    | object o =>
      by_cases kind : h.kind o = .stringObject
      · simp only [sendLeaves, if_pos kind, encodeLeaves, encodeLeaf_stringObject kind]
        exact ih s
      · simp only [sendLeaves, if_neg kind, encodeLeaves, encodeLeaf_object kind]
        exact ih (s.send x o (alloc s.reg))

theorem reachable_sendLeaves {ok : State P → WeakHandles.Label P → Prop} {vs : List Value}
    {s : State P} (before : Reachable (handles P) ok s)
    (permitted : EachSend Permitted h alloc x vs s) (allowed : EachSend ok h alloc x vs s) :
    Reachable (handles P) ok (sendLeaves h alloc x vs s) := by
  induction vs generalizing s with
  | nil => exact before
  | cons v vs ih =>
    cases v with
    | number d => exact ih before permitted allowed
    | string t => exact ih before permitted allowed
    | other p => exact ih before permitted allowed
    | object o =>
      by_cases kind : h.kind o = .stringObject
      · simp only [EachSend, if_pos kind] at permitted allowed
        simp only [sendLeaves, if_pos kind]
        exact ih before permitted allowed
      · simp only [EachSend, if_neg kind] at permitted allowed
        simp only [sendLeaves, if_neg kind]
        obtain ⟨⟨live, nonnull, free⟩, permitted⟩ := permitted
        exact ih (.next before (.send x live nonnull free) allowed.1) permitted allowed.2

theorem eachSend_always (vs : List Value) (s : State P) : EachSend always h alloc x vs s := by
  induction vs generalizing s with
  | nil => trivial
  | cons v vs ih =>
    cases v with
    | number d => exact ih s
    | string t => exact ih s
    | other p => exact ih s
    | object o =>
      by_cases kind : h.kind o = .stringObject
      · simpa only [EachSend, if_pos kind] using ih s
      · simp only [EachSend, if_neg kind]
        exact ⟨trivial, ih (s.send x o (alloc s.reg))⟩

end Leaves

theorem reachable_handles {ok : State P → WeakHandles.Label P → Prop} {s : Traffic P}
    (h : Reachable (traffic P) (Guarded ok) s) : Reachable (handles P) ok s.handles := by
  induction h with
  | start initial =>
    obtain rfl := initial
    exact .start rfl
  | next _ step allowed ih =>
    cases step with
    | handle step => exact .next ih step allowed
    | transmit flat permitted returns =>
      exact reachable_sendLeaves ih permitted allowed

theorem guarded_always {s : Traffic P} (h : Reachable (traffic P) always s) :
    Reachable (traffic P) (Guarded always) s := by
  refine h.mono ?_
  intro s l _
  cases l with
  | handle l => exact trivial
  | transmit heap alloc x args leaves => exact eachSend_always leaves s.handles

/-- The atoms are those of the leaves, with ids that were returned for the objects. -/
inductive Written (s : State P) (h : Heap) : List Value → List Atom → Prop where
  | nil : Written s h [] []
  | value {v : Value} {vs : List Value} {first rest : List Atom}
      (single : ∀ o, v = .object o → h.kind o = .stringObject)
      (fixed : ∀ (alloc : Allocator P) (x : ObjId) (r : Registry P),
        encodeLeaf h alloc x v r = (first, r))
      (later : Written s h vs rest) : Written s h (v :: vs) (first ++ rest)
  | object {o : Ref} {p : Addr P} {vs : List Value} {rest : List Atom}
      (kind : h.kind o ≠ .stringObject) (sent : (p, o) ∈ s.encoded)
      (later : Written s h vs rest) :
      Written s h (.object o :: vs) (symbolAtoms (.ofAscii "jsobject", p) ++ rest)

theorem Written.mono {s t : State P} {h : Heap} {leaves : List Value} {atoms : List Atom}
    (written : Written s h leaves atoms) (kept : s.encoded ⊆ t.encoded) :
    Written t h leaves atoms := by
  induction written with
  | nil => exact .nil
  | value single fixed _ ih => exact .value single fixed ih
  | object kind sent _ ih => exact .object kind (kept sent) ih

theorem encoded_send (s : State P) (x : ObjId) (o : Ref) (new : Addr P) :
    (s.send x o new).encoded = ((jsUnmarshalObject x o new s.reg).1, o) :: s.encoded := rfl

theorem encoded_sendLeaves {h : Heap} {alloc : Allocator P} {x : ObjId} (vs : List Value)
    (s : State P) : s.encoded ⊆ (sendLeaves h alloc x vs s).encoded := by
  induction vs generalizing s with
  | nil => exact List.Subset.refl _
  | cons v vs ih =>
    cases v with
    | number d => exact ih s
    | string t => exact ih s
    | other p => exact ih s
    | object o =>
      by_cases kind : h.kind o = .stringObject
      · simpa only [sendLeaves, if_pos kind] using ih s
      · simp only [sendLeaves, if_neg kind]
        exact fun e he => ih (s.send x o (alloc s.reg)) (List.mem_cons_of_mem _ he)

theorem encoded_step {s t : State P} {l : WeakHandles.Label P} (step : WeakHandles.Step s l t) :
    s.encoded ⊆ t.encoded := by
  cases step with
  | make => exact List.Subset.refl _
  | send x live nonnull free => exact List.subset_cons_self _ _
  | collect live => exact (collect_encoded s _).symm ▸ List.Subset.refl _
  | reorder same => exact List.Subset.refl _

/-- The encoder writes what its sends returned. -/
theorem written_encodeLeaves {h : Heap} {alloc : Allocator P} {x : ObjId} (vs : List Value)
    (s : State P) :
    Written (sendLeaves h alloc x vs s) h vs (encodeLeaves h alloc x vs s.reg).1 := by
  induction vs generalizing s with
  | nil => exact .nil
  | cons v vs ih =>
    cases v with
    | number d => exact .value (fun _ same => Value.noConfusion same) (fun _ _ _ => rfl) (ih s)
    | string t =>
      simp only [sendLeaves, encodeLeaves, encodeLeaf_string]
      exact .value (fun _ same => Value.noConfusion same) (fun _ _ r => encodeLeaf_string t r)
        (ih s)
    | other p =>
      simp only [sendLeaves, encodeLeaves, encodeLeaf_other]
      exact .value (fun _ same => Value.noConfusion same) (fun _ _ r => encodeLeaf_other p r)
        (ih s)
    | object o =>
      by_cases kind : h.kind o = .stringObject
      · simp only [sendLeaves, if_pos kind, encodeLeaves, encodeLeaf_stringObject kind]
        refine .value ?_ (fun _ _ r => encodeLeaf_stringObject kind r) (ih s)
        rintro _ ⟨⟩
        exact kind
      · simp only [sendLeaves, if_neg kind, encodeLeaves, encodeLeaf_object kind]
        refine .object kind ?_ (ih (s.send x o (alloc s.reg)))
        exact encoded_sendLeaves vs _ (List.mem_cons_self)

/-- Every message is what its leaves were written as. -/
theorem written_flight {s : Traffic P} (h : Reachable (traffic P) always s) :
    ∀ m ∈ s.flight, Written s.handles m.heap m.leaves m.atoms := by
  apply h.invariant
  · rintro s rfl
    exact fun m hm => absurd hm List.not_mem_nil
  · intro s l t _ hs step _
    cases step with
    | handle step => exact fun m hm => (hs m hm).mono (encoded_step step)
    | @transmit heap alloc x args leaves atoms after flat permitted returns =>
      intro m hm
      rcases List.mem_cons.mp hm with rfl | older
      · obtain ⟨depth, returns⟩ := returns
        obtain ⟨depth', encodes⟩ := jsUnmarshalArgs_flattens alloc x flat
        have same := (returns (max depth depth') (Nat.le_max_left _ _)).symm.trans
          (encodes (max depth depth') (Nat.le_max_right _ _) s.handles.reg)
        have atoms_eq : atoms = (encodeLeaves heap alloc x leaves s.handles.reg).1 :=
          congrArg Prod.fst (Option.some.inj same)
        exact atoms_eq ▸ written_encodeLeaves leaves s.handles
      · exact (hs m older).mono (encoded_sendLeaves leaves s.handles)

theorem encodeLeaves_written {s : State P} (c : Consistent s) {h : Heap} {leaves : List Value}
    {atoms : List Atom} (written : Written s h leaves atoms)
    (live : ∀ o, .object o ∈ leaves → h.kind o ≠ .stringObject → s.Live o) (alloc : Allocator P)
    (x : ObjId) : encodeLeaves h alloc x leaves s.reg = (atoms, s.reg) := by
  induction written with
  | nil => rfl
  | value _ fixed _ ih =>
    have later := ih fun o ho => live o (List.mem_cons_of_mem _ ho)
    simp only [encodeLeaves, fixed alloc x s.reg, later]
  | @object o p vs rest kind sent _ ih =>
    have later := ih fun o' ho => live o' (List.mem_cons_of_mem _ ho)
    have known := (identifies c sent (live o List.mem_cons_self kind)).again x (alloc s.reg)
    simp only [encodeLeaves, encodeLeaf_object kind, known, later]

/-- Two heaps have the same leaves if they have the same String objects among them. -/
def SameLeaves (h h' : Heap) (leaves : List Value) : Prop :=
  ∀ o, .object o ∈ leaves → h.kind o = h'.kind o ∧ h.text o = h'.text o

theorem encodeLeaves_congr {h h' : Heap} {leaves : List Value} (same : SameLeaves h h' leaves)
    (alloc : Allocator P) (x : ObjId) (r : Registry P) :
    encodeLeaves h alloc x leaves r = encodeLeaves h' alloc x leaves r := by
  induction leaves generalizing r with
  | nil => rfl
  | cons v vs ih =>
    have first : encodeLeaf h alloc x v r = encodeLeaf h' alloc x v r := by
      cases v with
      | number d => rfl
      | string t => rfl
      | other p => rfl
      | object o =>
        obtain ⟨kind, text⟩ := same o List.mem_cons_self
        simp only [encodeLeaf, unmarshalSymbols, jsUnmarshalString, kind, text]
    have later := ih fun o ho => same o (List.mem_cons_of_mem _ ho)
    simp only [encodeLeaves, first, later]

/-- At any later time arguments that flatten to the leaves of a message, whatever arrays they
are in, are written as that message was, by every js object, and nothing is registered, if the
objects among the leaves are alive. -/
theorem sent_again {s : Traffic P} (h : Reachable (traffic P) always s) {m : Transit}
    (sent : m ∈ s.flight)
    (live : ∀ o, .object o ∈ m.leaves → m.heap.kind o ≠ .stringObject → s.handles.Live o)
    {heap : Heap} (same : SameLeaves heap m.heap m.leaves) {args : List Value}
    (flat : Flattens heap args m.leaves) (alloc : Allocator P) (x : ObjId) :
    ∃ depth, ∀ fuel, depth ≤ fuel →
      jsUnmarshalArgs heap alloc x fuel args s.handles.reg = some (m.atoms, s.handles.reg) := by
  have c := consistent (reachable_handles (guarded_always h))
  have again := encodeLeaves_written c (written_flight h m sent) live alloc x
  rw [← encodeLeaves_congr same] at again
  obtain ⟨depth, returns⟩ := jsUnmarshalArgs_flattens alloc x flat
  exact ⟨depth, fun fuel enough => (returns fuel enough s.handles.reg).trans (congrArg some again)⟩

/-- What leaves arrive as: texts and numbers as they are, a String object as its text, a
living object followed by its id, and in the place of a dead one the text of the mark. -/
inductive Arrives (s : State P) (h : Heap) : List Value → List Value → Prop where
  | nil : Arrives s h [] []
  | value {v : Value} {vs ws : List Value} (single : ∀ o, v ≠ .object o)
      (later : Arrives s h vs ws) : Arrives s h (v :: vs) (v :: ws)
  | text {o : Ref} {vs ws : List Value} (kind : h.kind o = .stringObject)
      (later : Arrives s h vs ws) :
      Arrives s h (.object o :: vs)
        (.string (decodeUtf8 (jsObjectToString (h.text o)).bytes) :: ws)
  | living {o : Ref} {p : Addr P} {vs ws : List Value} (kind : h.kind o ≠ .stringObject)
      (live : s.Live o) (sent : Emitted s p o) (later : Arrives s h vs ws) :
      Arrives s h (.object o :: vs) (.object o :: .string (decodeUtf8 (idText p).bytes) :: ws)
  | dead {o : Ref} {p : Addr P} {vs ws : List Value} (kind : h.kind o ≠ .stringObject)
      (dead : ¬ s.Live o) (sent : Emitted s p o) (later : Arrives s h vs ws) :
      Arrives s h (.object o :: vs)
        (.string (jsText "jsobject") :: .string (decodeUtf8 (idText p).bytes) :: ws)

/-- The handles in the set and those that were sent lie at positive addresses. -/
def AllPositive (s : State P) : Prop :=
  (∀ p ∈ s.reg.jsobjects, 0 < p.toInt) ∧ ∀ p o, (p, o) ∈ s.encoded → 0 < p.toInt

theorem allPositive_send {s : State P} (c : Consistent s) (hs : AllPositive s) {x : ObjId}
    {o : Ref} {new : Addr P} (free : new ∉ s.reg.wrappers) (positive : 0 < new.toInt) :
    AllPositive (s.send x o new) := by
  cases hf : s.reg.find o with
  | some q =>
    rw [send_known hf]
    refine ⟨hs.1, ?_⟩
    intro p o' sent
    rcases List.mem_cons.mp sent with heq | earlier
    · cases heq
      exact hs.1 q (find_some hf).1
    · exact hs.2 p o' earlier
  | none =>
    rw [send_fresh hf x (c.fresh free)]
    constructor
    · intro p hp
      rcases List.mem_cons.mp hp with rfl | older
      · exact positive
      · exact hs.1 p older
    · intro p o' sent
      rcases List.mem_cons.mp sent with heq | earlier
      · cases heq
        exact positive
      · exact hs.2 p o' earlier

theorem allPositive {s : State P} (h : Reachable (handles P) Sound s) : AllPositive s := by
  apply h.invariant
  · rintro s rfl
    exact ⟨fun p hp => absurd hp List.not_mem_nil, fun p o sent => absurd sent List.not_mem_nil⟩
  · intro s l t before hs step ok
    have c := consistent before.unguarded
    cases step with
    | make => exact hs
    | send x live nonnull free => exact allPositive_send c hs free (ok.2 _ _ _ rfl)
    | collect live =>
      refine ⟨fun p hp => hs.1 p (collect_holds c hp).1, ?_⟩
      intro p o sent
      rw [collect_encoded] at sent
      exact hs.2 p o sent
    | reorder same => exact ⟨fun p hp => hs.1 p (same.mem_iff.mp hp), hs.2⟩

/-- The two atoms of an object decode to the object while it lives and to their texts
when it is dead. -/
theorem decoded_object {s : State P} (c : Consistent s) (ids : IdsKept s) {p : Addr P} {o : Ref}
    (sent : Emitted s p o) (rest : List Atom) :
    (s.Live o → decoded s.reg (symbolAtoms (.ofAscii "jsobject", p) ++ rest) =
      .object o :: .string (decodeUtf8 (idText p).bytes) :: decoded s.reg rest) ∧
    (¬ s.Live o → decoded s.reg (symbolAtoms (.ofAscii "jsobject", p) ++ rest) =
      .string (jsText "jsobject") :: .string (decodeUtf8 (idText p).bytes) ::
        decoded s.reg rest) := by
  have atoms : symbolAtoms (.ofAscii "jsobject", p) ++ rest =
      .symbol sJsobject :: .symbol (gensym (idText p)) :: rest := by
    simp only [symbolAtoms, if_pos sent.2]
    rfl
  have pair : pairHead s.reg (.symbol sJsobject :: .symbol (gensym (idText p)) :: rest) =
      jsMarshalObject s.reg (gensym (idText p)) := by
    rw [pairHead, if_pos rfl]
  have mark : jsMarshalAtom (.symbol sJsobject) = some (.string (jsText "jsobject")) := by decide
  rw [atoms]
  constructor
  · intro live
    have found := jsMarshalObject_of_holds sent.2 (c.kept p o sent.1 live)
    rw [decoded_paired (pair.trans found)]
    rfl
  · intro dead
    have lost : jsMarshalObject s.reg (gensym (idText p)) = none := by
      rw [jsMarshalObject_idText s.reg sent.2, if_neg]
      intro hp
      obtain ⟨o', cell, live⟩ := c.refers p hp
      cases cell.symm.trans (ids p o sent hp)
      exact dead live
    rw [decoded_unpaired (pair.trans lost), mark, decoded_text (idText_ne_mark p)]
    rfl

theorem arrives_of_written {s : State P} (c : Consistent s) (ids : IdsKept s)
    (positive : AllPositive s) {h : Heap} {leaves : List Value} {atoms : List Atom}
    (written : Written s h leaves atoms) (domain : ∀ v ∈ leaves, Encodable h v) :
    Arrives s h leaves (decoded s.reg atoms) := by
  induction written with
  | nil => exact .nil
  | @value v vs first rest single fixed _ ih =>
    have later := ih fun w hw => domain w (List.mem_cons_of_mem _ hw)
    have unsent : LeafLive h (fun _ => 0) 0 s.reg s.reg v :=
      fun o same plain => absurd (single o same) plain
    have back := decoded_encodeLeaf (domain v List.mem_cons_self) unsent rest
    rw [fixed] at back
    rw [back]
    cases v with
    | number d => exact .value (fun _ same => Value.noConfusion same) later
    | string t => exact .value (fun _ same => Value.noConfusion same) later
    | other p => exact absurd (domain _ List.mem_cons_self) id
    | object o =>
      have kind := single o rfl
      simp only [returned, if_pos kind]
      exact .text kind later
  | @object o p vs rest kind sent _ ih =>
    have later := ih fun w hw => domain w (List.mem_cons_of_mem _ hw)
    have emitted : Emitted s p o := ⟨sent, positive.2 p o sent⟩
    obtain ⟨living, dead⟩ := decoded_object c ids emitted rest
    by_cases live : s.Live o
    · rw [living live]
      exact .living kind live emitted later
    · rw [dead live]
      exact .dead kind live emitted later

/-- Whenever a message of values that have an encoding is delivered, in any run in which no
new handle gets the address of an id that was sent, its leaves arrive, and no object in the
place of another. -/
theorem delivered {s : Traffic P} (h : Reachable (traffic P) (Guarded Sound) s) {m : Transit}
    (sent : m ∈ s.flight) (domain : ∀ v ∈ m.leaves, Encodable m.heap v) :
    Arrives s.handles m.heap m.leaves (decodeAtoms s.handles.reg m.atoms) := by
  have reached := reachable_handles h
  have fresh : Reachable (handles P) FreshIds s.handles := reached.mono fun _ _ ok => ok.1
  rw [decodeAtoms_eq]
  exact arrives_of_written (consistent reached.unguarded) (idsKept fresh) (allPositive reached)
    (written_flight h.unguarded m sent) domain

/-- No object is an array or a String object. -/
def plainHeap : Heap := ⟨fun _ => .plain, fun _ => [], fun _ => none⟩

/-- A number and the first of two objects. -/
def numberAndObject : List Value := [.number 0x3ff0000000000000, .object 0]

theorem flattens_numberAndObject : Flattens plainHeap numberAndObject numberAndObject := by
  have single : ∀ v, ¬ IsArray plainHeap v := by
    rintro v ⟨o, _, kind⟩
    cases kind
  exact .leaf (single _) (.leaf (single _) .nil)

/-- Where the first handle is made. -/
def atFirst : Allocator .bits64 := fun _ => 0x1000

def firstMessage : Transit where
  heap := plainHeap
  leaves := numberAndObject
  atoms := (encodeLeaves plainHeap atFirst 1 numberAndObject .empty).1

/-- The js object 1 has sent the message. -/
def oneMessage : Traffic .bits64 := ⟨firstSent, [firstMessage]⟩

theorem sound_make (s : State .bits64) : Sound s .make := by
  constructor
  · intro x o new same
    cases same
  · intro x o new same
    cases same

theorem sound_collect (s : State .bits64) (o : Ref) : Sound s (.collect o) := by
  constructor
  · intro x o' new same
    cases same
  · intro x o' new same
    cases same

theorem reachable_oneMessage : Reachable (traffic .bits64) (Guarded Sound) oneMessage := by
  have made : Reachable (traffic .bits64) (Guarded Sound) ⟨{ State.start with born := 2 }, []⟩ :=
    .next (.next (.start rfl) (.handle (.make _)) (sound_make _)) (.handle (.make _))
      (sound_make _)
  have returns : ∃ depth, ∀ fuel, depth ≤ fuel →
      jsUnmarshalArgs plainHeap atFirst 1 fuel numberAndObject .empty =
        some (firstMessage.atoms, firstSent.reg) := by
    obtain ⟨depth, returns⟩ := jsUnmarshalArgs_flattens atFirst 1 flattens_numberAndObject
    exact ⟨depth, fun fuel enough => returns fuel enough .empty⟩
  have permitted : EachSend Permitted plainHeap atFirst 1 numberAndObject
      { State.start with born := 2 } := by
    refine ⟨⟨?_, ?_, List.not_mem_nil⟩, trivial⟩
    · decide
    · decide
  have step : Step ⟨{ State.start with born := 2 }, []⟩
      (.transmit plainHeap atFirst 1 numberAndObject numberAndObject) oneMessage :=
    .transmit flattens_numberAndObject permitted returns
  refine .next made step ⟨⟨?_, ?_⟩, trivial⟩
  · rintro x o new ⟨⟩ _ o' ⟨sent, _⟩
    exact absurd sent List.not_mem_nil
  · rintro x o new ⟨⟩
    decide

/-- The object is collected before the message is delivered. -/
theorem delivered_dead :
    Arrives (firstSent.collect 0) plainHeap numberAndObject
      (decodeAtoms (firstSent.collect 0).reg firstMessage.atoms) := by
  have collected : Reachable (traffic .bits64) (Guarded Sound)
      ⟨firstSent.collect 0, [firstMessage]⟩ :=
    .next reachable_oneMessage (.handle (.collect (by decide))) (sound_collect _ _)
  have sent : firstMessage ∈ [firstMessage] := List.mem_cons_self
  refine delivered collected sent ?_
  intro v hv
  rcases List.mem_pair.mp hv with rfl | rfl
  · exact ⟨0x3f800000, by decide⟩
  · exact ⟨Kind.noConfusion, Kind.noConfusion⟩

/-- The values in a new array. -/
def arrayHeap : Heap :=
  ⟨fun o => if o = 9 then .array else .plain, fun _ => numberAndObject.map some, fun _ => none⟩

/-- Another js object sends the same values in an array. -/
theorem sent_again_oneMessage :
    ∃ depth, ∀ fuel, depth ≤ fuel →
      jsUnmarshalArgs arrayHeap (fun _ : Registry .bits64 => 0x2000) 2 fuel [.object 9]
        firstSent.reg = some (firstMessage.atoms, firstSent.reg) := by
  have sent : firstMessage ∈ oneMessage.flight := List.mem_cons_self
  have only : ∀ o, .object o ∈ firstMessage.leaves → o = 0 := by
    intro o ho
    simpa [firstMessage, numberAndObject] using ho
  have single : ∀ v ∈ numberAndObject, ¬ IsArray arrayHeap v := by
    rintro v hv ⟨o, rfl, kind⟩
    rw [only o hv] at kind
    cases kind
  have flat : Flattens arrayHeap [.object 9] numberAndObject := by
    have within : Flattens arrayHeap numberAndObject numberAndObject :=
      .leaf (single _ (by decide)) (.leaf (single _ (by decide)) .nil)
    exact .array (o := 9) rfl rfl within .nil
  refine sent_again reachable_oneMessage.unguarded sent ?_ ?_ flat _ 2
  · intro o ho _
    obtain rfl := only o ho
    decide
  · intro o ho
    obtain rfl := only o ho
    exact ⟨rfl, rfl⟩

end Deliveries
