import Pdjs.RoundTrip

/-!
# Addresses in messages

The address of a handle passes through a signed integer, a sign test, a decimal
text and an unsigned 64-bit integer before it is a pointer again. The sign test is
there to tell an address from the zero that stands for no object. It drops the id
of every address in the upper half of the address space as well.
-/

namespace Addresses

open PdAtoms ObjectRegistry DecimalText Marshalling Flattening RoundTrip

variable {P : Platform} {h : Heap} {alloc : Allocator P} {x : ObjId} {o : Ref} {r : Registry P}

/-- Sending `o` finds its handle at `a`, or makes it there. -/
def RegisteredAt (alloc : Allocator P) (r : Registry P) (o : Ref) (a : Addr P) : Prop :=
  r.find o = some a ∨ r.find o = none ∧ alloc r = a

/-- The pointer that the receiver makes of an id. -/
def pointer (P : Platform) (id : Symbol) : Option (Addr P) :=
  (stoull id.name.bytes).map (BitVec.ofNat P.width)

/-- The object is sent as its mark and an id, and the id leads back to it through
the address `a`. -/
def LeadsBack (h : Heap) (alloc : Allocator P) (x : ObjId) (r : Registry P) (o : Ref)
    (a : Addr P) : Prop :=
  ∃ id after,
    (∀ fuel, jsUnmarshalArg h alloc x (fuel + 1) (.object o) r =
      some ([.symbol sJsobject, .symbol id], after)) ∧
      pointer P id = some a ∧ jsMarshalObject after id = some o

theorem mem_run_registration (x : ObjId) (o : Ref) (a : Addr P) (r : Registry P) :
    (r.run (registration x o a)).Holds a o := by
  by_cases known : a ∈ r.jsobjects <;>
    simp [Registry.run, registration, HandleOp.apply, Registry.Holds, known]

theorem jsUnmarshalObject_registered (x : ObjId) {a : Addr P}
    (registered : RegisteredAt alloc r o a) :
    (jsUnmarshalObject x o (alloc r) r).1 = a ∧
      (jsUnmarshalObject x o (alloc r) r).2.Holds a o := by
  rcases registered with found | ⟨unknown, rfl⟩
  · simp only [jsUnmarshalObject, found, true_and]
    exact find_some found
  · simp only [jsUnmarshalObject, unknown, true_and]
    exact mem_run_registration x o (alloc r) r

theorem toInt_pos_iff {a : Addr P} (nonnull : a ≠ 0) :
    0 < a.toInt ↔ a.toNat < 2 ^ (P.width - 1) := by
  have positive : a.toNat ≠ 0 := fun zero => nonnull (BitVec.eq_of_toNat_eq zero)
  have halves : 2 ^ P.width = 2 * 2 ^ (P.width - 1) := by cases P <;> rfl
  have below : (a.toNat : Int) < (2 ^ P.width : Nat) := Int.ofNat_lt.mpr a.isLt
  rw [BitVec.toInt_eq_toNat_cond]
  by_cases lower : 2 * a.toNat < 2 ^ P.width
  · rw [if_pos lower]
    omega
  · rw [if_neg lower]
    omega

/-- The id of an object leads back to it exactly if its address is in the lower half
of the address space. -/
theorem leadsBack_iff (alloc : Allocator P) (x : ObjId) {r : Registry P} {o : Ref} {a : Addr P}
    (single : h.kind o ≠ .array) (object : h.kind o ≠ .stringObject)
    (registered : RegisteredAt alloc r o a) (nonnull : a ≠ 0) :
    LeadsBack h alloc x r o a ↔ a.toNat < 2 ^ (P.width - 1) := by
  obtain ⟨address, held⟩ := jsUnmarshalObject_registered x registered
  have encoded : ∀ fuel, jsUnmarshalArg h alloc x (fuel + 1) (.object o) r =
      some (symbolAtoms (.ofAscii "jsobject", a), (jsUnmarshalObject x o (alloc r) r).2) := by
    intro fuel
    have leaf : ¬ IsArray h (.object o) := by
      rintro ⟨o', same, kind⟩
      cases same
      exact single kind
    rw [jsUnmarshalArg_leaf leaf, encodeLeaf_object object, address]
  rw [← toInt_pos_iff nonnull]
  constructor
  · rintro ⟨id, after, sent, _, _⟩
    have atoms := (encoded 0).symm.trans (sent 0)
    by_contra negative
    simp [symbolAtoms, negative] at atoms
  · intro positive
    refine ⟨gensym (idText a), _, ?_, ?_, jsMarshalObject_of_holds positive held⟩
    · intro fuel
      rw [encoded]
      simp only [symbolAtoms, if_pos positive]
      rfl
    · obtain ⟨n, parsed, back⟩ := stoull_idText positive
      simp [pointer, gensym, parsed, back]

/-- A heap with ordinary objects only. -/
def plainHeap : Heap := ⟨fun _ => .plain, fun _ => [], fun _ => none⟩

theorem leadsBack_iff_lower :
    LeadsBack plainHeap (fun _ : Registry .bits32 => 0x1000) 1 .empty 0 0x1000 := by
  have iff := leadsBack_iff (h := plainHeap) (fun _ : Registry .bits32 => 0x1000) 1 (r := .empty)
    (o := 0) (a := 0x1000) (by decide) (by decide) (.inr ⟨rfl, rfl⟩) (by decide)
  exact iff.mpr (by decide)

/-- On a 32-bit platform an object with its handle in the upper half of the address
space is sent without an id. -/
theorem not_leadsBack_upper :
    RegisteredAt (fun _ : Registry .bits32 => 0x80000000) .empty 0 0x80000000 ∧
      ¬ LeadsBack plainHeap (fun _ : Registry .bits32 => 0x80000000) 1 .empty 0 0x80000000 := by
  refine ⟨.inr ⟨rfl, rfl⟩, ?_⟩
  rintro ⟨id, after, sent, _, _⟩
  have alone : ∃ last, jsUnmarshalArg plainHeap (fun _ : Registry .bits32 => 0x80000000) 1 1
      (.object 0) .empty = some ([.symbol sJsobject], last) := ⟨_, rfl⟩
  obtain ⟨last, alone⟩ := alone
  have atoms := alone.symm.trans (sent 0)
  simp at atoms

end Addresses
