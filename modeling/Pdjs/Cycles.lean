import Pdjs.Flattening
import Pdjs.RootedGraphs
import Mathlib.Data.Set.Finite.Basic

/-!
# Arrays that contain themselves

The conversion of an array converts its elements and keeps no record of the arrays
it is in. On a heap with finitely many arrays it returns for exactly those values
from which no array on a cycle is in reach.
-/

namespace Cycles

open PdAtoms ObjectRegistry Marshalling Flattening RootedGraphs

/-- The value is the array `o`. -/
def IsArrayAt (h : Heap) (v : Value) (o : Ref) : Prop := v = .object o ∧ h.kind o = .array

/-- The array `sub` is an element of the array `o`. -/
def Nested (h : Heap) (o sub : Ref) : Prop :=
  h.kind o = .array ∧ h.kind sub = .array ∧ some (.object sub) ∈ h.elements o

variable {P : Platform} {h : Heap}

/-- The recursion of the conversion is finite. -/
def Returns (h : Heap) (alloc : Allocator P) (x : ObjId) (v : Value) (r : Registry P) : Prop :=
  ∃ fuel, (jsUnmarshalArg h alloc x fuel v r).isSome

theorem finite_reach {root : Ref → Prop} (roots : ∀ o, root o → h.kind o = .array)
    (finite : {o | h.kind o = .array}.Finite) : {o | Reach root (Nested h) o}.Finite := by
  apply finite.subset
  intro o reached
  exact reached.least roots (fun _ _ _ nested => nested.2.1)

theorem unmarshalEach_element {arg : Value → Registry P → Option (List Atom × Registry P)}
    {vs : List (Option Value)} {r : Registry P} (returns : (unmarshalEach arg vs r).isSome)
    {v : Value} (hv : some v ∈ vs) : ∃ r', (arg v r').isSome := by
  induction vs generalizing r with
  | nil => exact absurd hv List.not_mem_nil
  | cons w vs ih =>
    cases w with
    | none =>
      apply ih returns
      simpa using hv
    | some w =>
      obtain ⟨result, hresult⟩ := Option.isSome_iff_exists.mp returns
      obtain ⟨first, hfirst, later⟩ := Option.bind_eq_some_iff.mp hresult
      obtain ⟨rest, hrest, _⟩ := Option.bind_eq_some_iff.mp later
      rcases List.mem_cons.mp hv with same | hv
      · cases same
        exact ⟨r, by rw [hfirst]; rfl⟩
      · exact ih (r := first.2) (by rw [hrest]; rfl) hv

/-- The recursion on an array contains the recursion on each of its elements, with a
call less. -/
theorem descends_of_isSome {alloc : Allocator P} {x : ObjId} {fuel : Nat} {o : Ref}
    {r : Registry P} (kind : h.kind o = .array)
    (returns : (jsUnmarshalArg h alloc x fuel (.object o) r).isSome) : Descends (Nested h) o := by
  induction fuel generalizing o r with
  | zero => simp [jsUnmarshalArg] at returns
  | succ fuel ih =>
    constructor
    rintro sub ⟨_, kind', element⟩
    simp only [jsUnmarshalArg, kind, if_true] at returns
    obtain ⟨r', inner⟩ := unmarshalEach_element returns element
    exact ih kind' inner

theorem unmarshalEach_returns {arg : Nat → Value → Registry P → Option (List Atom × Registry P)}
    {vs : List (Option Value)}
    (each : ∀ v, some v ∈ vs → ∃ depth, ∀ fuel, depth ≤ fuel → ∀ r, (arg fuel v r).isSome) :
    ∃ depth, ∀ fuel, depth ≤ fuel → ∀ r, (unmarshalEach (arg fuel) vs r).isSome := by
  induction vs with
  | nil => exact ⟨0, fun _ _ _ => rfl⟩
  | cons w vs ih =>
    obtain ⟨depth, rest⟩ := ih (fun v hv => each v (List.mem_cons_of_mem _ hv))
    cases w with
    | none => exact ⟨depth, rest⟩
    | some w =>
      obtain ⟨depth', first⟩ := each w List.mem_cons_self
      refine ⟨depth + depth', ?_⟩
      intro fuel enough r
      obtain ⟨result, hresult⟩ := Option.isSome_iff_exists.mp (first fuel (by omega) r)
      obtain ⟨result', hresult'⟩ :=
        Option.isSome_iff_exists.mp (rest fuel (by omega) result.2)
      simp [unmarshalEach, hresult, hresult']

theorem isSome_of_single (alloc : Allocator P) (x : ObjId) {v : Value} (single : ¬ IsArray h v) :
    ∃ depth, ∀ fuel, depth ≤ fuel → ∀ r, (jsUnmarshalArg h alloc x fuel v r).isSome := by
  refine ⟨1, ?_⟩
  intro fuel enough r
  obtain ⟨f, rfl⟩ : ∃ f, fuel = f + 1 := ⟨fuel - 1, by omega⟩
  rw [jsUnmarshalArg_leaf single]
  rfl

theorem isSome_of_descends (alloc : Allocator P) (x : ObjId) {o : Ref} (kind : h.kind o = .array)
    (descends : Descends (Nested h) o) :
    ∃ depth, ∀ fuel, depth ≤ fuel → ∀ r,
      (jsUnmarshalArg h alloc x fuel (.object o) r).isSome := by
  induction descends with
  | intro o _ ih =>
    have each : ∀ v, some v ∈ h.elements o → ∃ depth, ∀ fuel, depth ≤ fuel → ∀ r,
        (jsUnmarshalArg h alloc x fuel v r).isSome := by
      intro v element
      by_cases isArray : IsArray h v
      · obtain ⟨sub, rfl, kind'⟩ := isArray
        exact ih sub ⟨kind, kind', element⟩ kind'
      · exact isSome_of_single alloc x isArray
    obtain ⟨depth, elements⟩ := unmarshalEach_returns each
    refine ⟨depth + 1, ?_⟩
    intro fuel enough r
    obtain ⟨f, rfl⟩ : ∃ f, fuel = f + 1 := ⟨fuel - 1, by omega⟩
    simpa [jsUnmarshalArg, kind] using elements f (by omega) r

theorem returns_iff_descends {alloc : Allocator P} {x : ObjId} {v : Value} {r : Registry P} :
    Returns h alloc x v r ↔ ∀ o, IsArrayAt h v o → Descends (Nested h) o := by
  constructor
  · rintro ⟨fuel, returns⟩ o ⟨rfl, kind⟩
    exact descends_of_isSome kind returns
  · intro descends
    have enough : ∃ depth, ∀ fuel, depth ≤ fuel →
        ∀ r, (jsUnmarshalArg h alloc x fuel v r).isSome := by
      by_cases isArray : IsArray h v
      · obtain ⟨o, rfl, kind⟩ := isArray
        exact isSome_of_descends alloc x kind (descends o ⟨rfl, kind⟩)
      · exact isSome_of_single alloc x isArray
    obtain ⟨depth, some_result⟩ := enough
    exact ⟨depth, some_result depth (Nat.le_refl depth) r⟩

/-- The conversion of a value returns exactly if no array on a cycle is in reach. -/
theorem returns_iff_acyclic (finite : {o | h.kind o = .array}.Finite) (alloc : Allocator P)
    (x : ObjId) (v : Value) (r : Registry P) :
    Returns h alloc x v r ↔ ∀ o, Reach (IsArrayAt h v) (Nested h) o → ¬ OnCycle (Nested h) o := by
  rw [returns_iff_descends]
  exact descends_iff (finite_reach (fun _ root => root.2) finite)

/-- The heap after `a = []; a[0] = a`. -/
def selfHeap : Heap :=
  { kind := fun o => if o = 0 then .array else .plain
    elements := fun _ => [some (.object 0)]
    text := fun _ => none }

theorem finite_selfHeap : {o | selfHeap.kind o = .array}.Finite := by
  apply (Set.finite_singleton 0).subset
  intro o kind
  by_contra other
  simp [selfHeap, show o ≠ 0 from other] at kind

theorem onCycle_selfHeap : OnCycle (Nested selfHeap) 0 :=
  .single ⟨rfl, rfl, List.mem_cons_self⟩

theorem returns_iff_acyclic_self :
    ¬ Returns selfHeap (fun _ : Registry .bits64 => 1) 0 (.object 0) .empty := by
  rw [returns_iff_acyclic finite_selfHeap]
  exact fun acyclic => acyclic 0 (.root ⟨rfl, rfl⟩) onCycle_selfHeap

theorem not_returns_self :
    {o | selfHeap.kind o = .array}.Finite ∧
      ∀ fuel, jsUnmarshalArg selfHeap (fun _ : Registry .bits64 => 1) 0 fuel (.object 0) .empty =
        none := by
  refine ⟨finite_selfHeap, ?_⟩
  intro fuel
  by_contra returns
  have descends := descends_of_isSome rfl (Option.isSome_iff_ne_none.mpr returns)
  exact descends.not_onCycle onCycle_selfHeap

end Cycles
