import Mathlib.Logic.Function.Basic

/-!
# Objects with data properties

An object has properties of its own and inherits others. Two attributes tell whether a
property of its own can be assigned to and whether it can be deleted; an assignment or
deletion that is refused changes nothing. Names can also be declared or defined anew,
what is inherited under them can change, and an object can be closed to new properties.
What an operation does to one name does not depend on the others. A name whose property
can be assigned to stays so while only assignments and deletions touch it, and reads as
the last of them left it.
-/

namespace DataProperties

universe u v

structure Property (V : Type v) where
  value : V
  writable : Bool
  configurable : Bool

structure Inherited (V : Type v) where
  value : V
  writable : Bool

structure DataObject (K : Type u) (V : Type v) where
  own : K → Option (Property V)
  inherited : K → Option (Inherited V)
  extensible : Bool

variable {K : Type u} {V : Type v}

/-- What is inherited under a name. -/
def DataObject.base (o : DataObject K V) (k : K) : Option V := (o.inherited k).map Inherited.value

def DataObject.get (o : DataObject K V) (k : K) : Option V :=
  match o.own k with
  | some p => some p.value
  | none => o.base k

/-- All that the operations look at under a name. -/
structure Slot (V : Type v) where
  own : Option (Property V)
  inherited : Option (Inherited V)
  extensible : Bool

def DataObject.slot (o : DataObject K V) (k : K) : Slot V :=
  ⟨o.own k, o.inherited k, o.extensible⟩

variable [DecidableEq K]

/-- A name without a property of its own gets one, unless one that it inherits cannot be
assigned to or the object is closed. -/
def DataObject.set (o : DataObject K V) (k : K) (value : V) : DataObject K V :=
  match o.own k with
  | some p =>
    if p.writable then { o with own := Function.update o.own k (some { p with value := value }) }
    else o
  | none =>
    if (o.inherited k).all Inherited.writable ∧ o.extensible then
      { o with own := Function.update o.own k (some ⟨value, true, true⟩) }
    else o

def DataObject.delete (o : DataObject K V) (k : K) : DataObject K V :=
  match o.own k with
  | some p => if p.configurable then { o with own := Function.update o.own k none } else o
  | none => o

/-- `define` is whatever gives some names another property of their own or changes what they
inherit: a declaration, the definition of a property, or another prototype. -/
inductive Op (K : Type u) (V : Type v) where
  | set (k : K) (value : V)
  | delete (k : K)
  | define (own : K → Option (Option (Property V))) (inherited : K → Option (Option (Inherited V)))
  | preventExtensions

def DataObject.apply (o : DataObject K V) : Op K V → DataObject K V
  | .set k value => o.set k value
  | .delete k => o.delete k
  | .define own inherited =>
    { o with
      own := fun k => (own k).getD (o.own k)
      inherited := fun k => (inherited k).getD (o.inherited k) }
  | .preventExtensions => { o with extensible := false }

def DataObject.run (o : DataObject K V) (ops : List (Op K V)) : DataObject K V :=
  ops.foldl DataObject.apply o

/-- The operation assigns to the name, deletes it or leaves it alone. -/
def Op.Spares (k : K) : Op K V → Prop
  | .define own inherited => own k = none ∧ inherited k = none
  | .preventExtensions => False
  | _ => True

/-- An operation on one name leaves the others alone. -/
def Op.Apart (k : K) : Op K V → Prop
  | .set k' _ => k ≠ k'
  | .delete k' => k ≠ k'
  | op => op.Spares k

variable {o o' : DataObject K V} {k : K} {op : Op K V}

theorem slot_apply_apart (o : DataObject K V) (op : Op K V) (apart : op.Apart k) :
    (o.apply op).slot k = o.slot k := by
  cases op with
  | set k' value =>
    have other : k ≠ k' := apart
    rw [DataObject.apply, DataObject.set]
    split <;> split <;> simp [DataObject.slot, other]
  | delete k' =>
    have other : k ≠ k' := apart
    rw [DataObject.apply, DataObject.delete]
    split
    · split <;> simp [DataObject.slot, other]
    · rfl
  | define own inherited =>
    obtain ⟨sameOwn, sameInherited⟩ := apart
    simp [DataObject.apply, DataObject.slot, sameOwn, sameInherited]
  | preventExtensions => exact absurd apart id

/-- What an operation leaves under a name depends on what was there. -/
theorem slot_apply_congr (same : o.slot k = o'.slot k) (op : Op K V) :
    (o.apply op).slot k = (o'.apply op).slot k := by
  obtain ⟨own, inherited, extensible⟩ := Slot.mk.inj same
  cases op with
  | set k' value =>
    by_cases here : k = k'
    · subst here
      simp only [DataObject.apply, DataObject.set, DataObject.slot, own, inherited, extensible]
      split <;> split <;> simp [own, inherited, extensible]
    · rw [slot_apply_apart o (.set k' value) here,
        slot_apply_apart o' (.set k' value) here, same]
  | delete k' =>
    by_cases here : k = k'
    · subst here
      simp only [DataObject.apply, DataObject.delete, DataObject.slot, own]
      split
      · split <;> simp [own, inherited, extensible]
      · simp [own, inherited, extensible]
    · rw [slot_apply_apart o (.delete k') here, slot_apply_apart o' (.delete k') here,
        same]
  | define _ _ => simp [DataObject.apply, DataObject.slot, own, inherited, extensible]
  | preventExtensions => simp [DataObject.apply, DataObject.slot, own, inherited]

/-- The name can be assigned to. -/
structure DataObject.Open (o : DataObject K V) (k : K) : Prop where
  own : ∀ p, o.own k = some p → p.writable = true
  inherited : (o.inherited k).all Inherited.writable = true
  extensible : o.extensible = true

/-- The name has a property of its own that cannot be deleted. -/
def DataObject.fixed (o : DataObject K V) (k : K) : Bool := (o.own k).any fun p => !p.configurable

omit [DecidableEq K] in
theorem get_congr (same : o.slot k = o'.slot k) : o.get k = o'.get k := by
  obtain ⟨own, inherited, _⟩ := Slot.mk.inj same
  simp only [DataObject.get, DataObject.base, own, inherited]

theorem inherited_apply (spares : op.Spares k) : (o.apply op).inherited k = o.inherited k := by
  cases op with
  | set k' value =>
    rw [DataObject.apply, DataObject.set]
    split <;> split <;> rfl
  | delete k' =>
    rw [DataObject.apply, DataObject.delete]
    split
    · split <;> rfl
    · rfl
  | define _ _ => simp [DataObject.apply, spares.2]
  | preventExtensions => rfl

theorem extensible_apply (spares : op.Spares k) : (o.apply op).extensible = o.extensible := by
  cases op with
  | set k' value =>
    rw [DataObject.apply, DataObject.set]
    split <;> split <;> rfl
  | delete k' =>
    rw [DataObject.apply, DataObject.delete]
    split
    · split <;> rfl
    · rfl
  | define _ _ => rfl
  | preventExtensions => exact absurd spares id

theorem own_set_self (free : o.Open k) (value : V) :
    (o.set k value).own k = some ⟨value, true, (o.own k).all Property.configurable⟩ := by
  cases here : o.own k with
  | none => simp [DataObject.set, here, free.inherited, free.extensible]
  | some p => simp [DataObject.set, here, free.own p here]

theorem own_delete_self (o : DataObject K V) (k : K) :
    (o.delete k).own k = if o.fixed k then o.own k else none := by
  cases here : o.own k with
  | none => simp [DataObject.delete, DataObject.fixed, here]
  | some p =>
    cases configurable : p.configurable <;>
      simp [DataObject.delete, DataObject.fixed, here, configurable]

/-- The property of its own that an operation leaves a name that can be assigned to. -/
def DataObject.ownAfter (o : DataObject K V) (k : K) : Op K V → Option (Property V)
  | .set k' value =>
    if k = k' then some ⟨value, true, (o.own k).all Property.configurable⟩ else o.own k
  | .delete k' => if k = k' ∧ o.fixed k = false then none else o.own k
  | _ => o.own k

theorem own_apply (free : o.Open k) (spares : op.Spares k) :
    (o.apply op).own k = o.ownAfter k op := by
  cases op with
  | set k' value =>
    rw [DataObject.ownAfter]
    by_cases here : k = k'
    · subst here
      rw [if_pos rfl]
      exact own_set_self free value
    · rw [if_neg here]
      exact (Slot.mk.inj (slot_apply_apart o (.set k' value) here)).1
  | delete k' =>
    rw [DataObject.ownAfter]
    by_cases here : k = k'
    · subst here
      rw [DataObject.apply, own_delete_self]
      cases o.fixed k <;> simp
    · rw [if_neg fun both => here both.1]
      exact (Slot.mk.inj (slot_apply_apart o (.delete k') here)).1
  | define _ _ => simp [DataObject.apply, DataObject.ownAfter, spares.1]
  | preventExtensions => rfl

theorem DataObject.Open.apply (free : o.Open k) (spares : op.Spares k) : (o.apply op).Open k := by
  refine ⟨?_, ?_, ?_⟩
  · rw [own_apply free spares]
    intro p own
    cases op with
    | set k' value =>
      rw [DataObject.ownAfter] at own
      by_cases here : k = k'
      · rw [if_pos here] at own
        cases own
        rfl
      · rw [if_neg here] at own
        exact free.own p own
    | delete k' =>
      rw [DataObject.ownAfter] at own
      by_cases here : k = k' ∧ o.fixed k = false
      · rw [if_pos here] at own
        cases own
      · rw [if_neg here] at own
        exact free.own p own
    | define _ _ => exact free.own p own
    | preventExtensions => exact free.own p own
  · rw [inherited_apply spares]
    exact free.inherited
  · rw [extensible_apply spares]
    exact free.extensible

theorem base_apply (spares : op.Spares k) : (o.apply op).base k = o.base k := by
  rw [DataObject.base, DataObject.base, inherited_apply spares]

/-- A property that cannot be deleted stays one, and no operation makes one. -/
theorem fixed_apply (free : o.Open k) (spares : op.Spares k) :
    (o.apply op).fixed k = o.fixed k := by
  rw [DataObject.fixed, own_apply free spares]
  cases op with
  | set k' value =>
    rw [DataObject.ownAfter]
    by_cases here : k = k'
    · rw [if_pos here, DataObject.fixed]
      cases o.own k <;> rfl
    · rw [if_neg here]
      rfl
  | delete k' =>
    rw [DataObject.ownAfter]
    by_cases here : k = k' ∧ o.fixed k = false
    · rw [if_pos here, here.2]
      rfl
    · rw [if_neg here]
      rfl
  | define _ _ => rfl
  | preventExtensions => rfl

/-- How a name reads after an operation, if it read as `left` before. -/
def readAfter (k : K) (fixed : Bool) (base left : Option V) : Op K V → Option V
  | .set k' value => if k = k' then some value else left
  | .delete k' => if k = k' ∧ fixed = false then base else left
  | _ => left

theorem get_apply (free : o.Open k) (spares : op.Spares k) :
    (o.apply op).get k = readAfter k (o.fixed k) (o.base k) (o.get k) op := by
  rw [DataObject.get, own_apply free spares, base_apply spares]
  cases op with
  | set k' value =>
    rw [DataObject.ownAfter]
    by_cases here : k = k'
    · rw [readAfter, if_pos here, if_pos here]
    · rw [readAfter, if_neg here, if_neg here]
      rfl
  | delete k' =>
    rw [DataObject.ownAfter]
    by_cases here : k = k' ∧ o.fixed k = false
    · rw [readAfter, if_pos here, if_pos here]
    · rw [readAfter, if_neg here, if_neg here]
      rfl
  | define _ _ => rfl
  | preventExtensions => rfl

/-- The last writer wins, and a deletion brings back what is inherited. -/
theorem get_run (free : o.Open k) {ops : List (Op K V)} (spares : ∀ op ∈ ops, op.Spares k) :
    (o.run ops).get k = ops.foldl (readAfter k (o.fixed k) (o.base k)) (o.get k) := by
  induction ops generalizing o with
  | nil => rfl
  | cons op ops ih =>
    have first := spares op List.mem_cons_self
    have rest := ih (free.apply first) fun op' later => spares op' (List.mem_cons_of_mem _ later)
    rw [base_apply first, fixed_apply free first, get_apply free first] at rest
    exact rest

end DataProperties
