import Pdjs.Grouping
import Pdjs.Loading

/-!
# Outlet numbers

A script names an outlet by any number. The number is compared with the size of the
outlet vector from above only, so every negative number passes the test and is used
as an index.
-/

namespace OutletNumbers

open GuardedRuns PdAtoms ObjectRegistry Marshalling Sending Spelling Grouping Ports Loading
open Transport RoundTrip

variable {P : Platform} {h : Heap} {alloc : Allocator P} {x : ObjId}

theorem floatOrSymbol_symbolAtoms (t : CString × Addr P) :
    ∀ a ∈ symbolAtoms t, FloatOrSymbol a := by
  intro a ha
  rw [symbolAtoms] at ha
  rcases List.mem_cons.mp ha with rfl | ha
  · trivial
  · by_cases positive : 0 < t.2.toInt
    · rw [if_pos positive, List.mem_singleton] at ha
      subst ha
      trivial
    · rw [if_neg positive] at ha
      exact absurd ha List.not_mem_nil

theorem floatOrSymbol_unmarshalEach
    {arg : Value → Registry P → Option (List Atom × Registry P)}
    (each : ∀ v r result, arg v r = some result → ∀ a ∈ result.1, FloatOrSymbol a)
    {vs : List (Option Value)} {r : Registry P} {result : List Atom × Registry P}
    (encoded : unmarshalEach arg vs r = some result) : ∀ a ∈ result.1, FloatOrSymbol a := by
  induction vs generalizing r result with
  | nil =>
    cases encoded
    exact fun a ha => absurd ha List.not_mem_nil
  | cons v vs ih =>
    cases v with
    | none => exact ih encoded
    | some v =>
      obtain ⟨first, hfirst, later⟩ := Option.bind_eq_some_iff.mp encoded
      obtain ⟨rest, hrest, whole⟩ := Option.bind_eq_some_iff.mp later
      cases whole
      intro a ha
      rcases List.mem_append.mp ha with ha | ha
      · exact each v r first hfirst a ha
      · exact ih hrest a ha

theorem floatOrSymbol_jsUnmarshalArg (fuel : Nat) :
    ∀ v (r : Registry P) result, jsUnmarshalArg h alloc x fuel v r = some result →
      ∀ a ∈ result.1, FloatOrSymbol a := by
  induction fuel with
  | zero => exact fun v r result encoded => nomatch encoded
  | succ fuel ih =>
    intro v r result encoded
    cases v with
    | number num =>
      cases encoded
      intro a ha
      obtain rfl := List.mem_singleton.mp ha
      trivial
    | object o =>
      rw [jsUnmarshalArg] at encoded
      by_cases kind : h.kind o = .array
      · rw [if_pos kind] at encoded
        exact floatOrSymbol_unmarshalEach ih encoded
      · rw [if_neg kind] at encoded
        cases encoded
        exact floatOrSymbol_symbolAtoms _
    | string s =>
      cases encoded
      exact floatOrSymbol_symbolAtoms _
    | other p =>
      cases encoded
      exact floatOrSymbol_symbolAtoms _

theorem floatOrSymbol_jsUnmarshalArgs {fuel : Nat} {args : List Value} {r : Registry P}
    {result : List Atom × Registry P}
    (encoded : jsUnmarshalArgs h alloc x fuel args r = some result) :
    ∀ a ∈ result.1, FloatOrSymbol a :=
  floatOrSymbol_unmarshalEach (floatOrSymbol_jsUnmarshalArg fuel) encoded

/-- A call for outlet number `n` with arguments that encode to `atoms` reads the vector
at one of its indices only, and sends one message, through that outlet, exactly if
there is such an outlet and there are atoms. -/
structure Addressed (outlets : List PortId) (n : Int) (atoms : List Atom) (sent : Sent) :
    Prop where
  inside : ∀ index, sent ≠ .beyond index
  present : ∀ outlet, 0 ≤ n → outlets[n.toNat]? = some outlet →
    ((∃ m, sent = .message outlet m) ↔ atoms ≠ []) ∧ (sent = .nothing ↔ atoms = [])
  absent : ¬ (0 ≤ n ∧ n < outlets.length) → sent = .nothing

variable {T : SymbolTable} {toInt32 : Value → Option (BitVec 32)} {outlets : List PortId}
  {n : Value} {num : BitVec 32} {args : List Value} {r after : Registry P} {fuel : Nat}
  {atoms : List Atom}

theorem jsOutlet_negative (small : outlets.length < 2 ^ 31) (number : toInt32 n = some num)
    (negative : num.toInt < 0) :
    jsOutlet h alloc T x toInt32 outlets fuel (n :: args) r = some (.beyond num.toInt, r) := by
  have below : num.toInt < intSize outlets.length := by
    rw [intSize_eq small]
    omega
  simp [jsOutlet, number, below, negative]

theorem jsOutlet_absent (small : outlets.length < 2 ^ 31) (number : toInt32 n = some num)
    (above : outlets.length ≤ num.toInt) :
    jsOutlet h alloc T x toInt32 outlets fuel (n :: args) r = some (.nothing, r) := by
  have notBelow : ¬ num.toInt < intSize outlets.length := by
    rw [intSize_eq small]
    omega
  simp [jsOutlet, number, notBelow]

theorem addressed_present (small : outlets.length < 2 ^ 31) (number : toInt32 n = some num)
    (nonneg : 0 ≤ num.toInt) (below : num.toInt < outlets.length)
    (encoded : jsUnmarshalArgs h alloc x fuel args r = some (atoms, after)) :
    ∃ sent r', jsOutlet h alloc T x toInt32 outlets fuel (n :: args) r = some (sent, r') ∧
      Addressed outlets num.toInt atoms sent := by
  have inside : num.toInt.toNat < outlets.length := by omega
  have found := List.getElem?_eq_getElem inside
  have call := jsOutlet_encoded (T := T) small number nonneg found encoded
  refine ⟨_, _, call, ?_⟩
  by_cases empty : atoms = []
  · subst empty
    refine ⟨fun index => Sent.noConfusion, ?_, fun _ => rfl⟩
    intro outlet _ _
    simp [outgoing]
  · obtain ⟨m, formed⟩ := exists_outgoing T empty (floatOrSymbol_jsUnmarshalArgs encoded)
    rw [formed]
    refine ⟨fun index => Sent.noConfusion, ?_, fun out => absurd ⟨nonneg, below⟩ out⟩
    intro outlet _ found'
    cases found.symm.trans found'
    simp [empty]

/-- In every state of an object, a call for an outlet is sound exactly if the number
is not negative. -/
theorem addressed_iff {me : ObjId} {canvas : CString} {object : TJs}
    (reached : Reachable (Loading.object me canvas) always object) (T : SymbolTable)
    (number : toInt32 n = some num)
    (encoded : jsUnmarshalArgs h alloc me fuel args r = some (atoms, after)) :
    ∃ sent r', jsOutlet h alloc T me toInt32 object.ports.outlets fuel (n :: args) r =
        some (sent, r') ∧
      (Addressed object.ports.outlets num.toInt atoms sent ↔ 0 ≤ num.toInt) := by
  have small := (wellMade reached).coherent.outletSize
  by_cases nonneg : 0 ≤ num.toInt
  · by_cases below : num.toInt < object.ports.outlets.length
    · obtain ⟨sent, r', call, addressed⟩ :=
        addressed_present (T := T) small number nonneg below encoded
      exact ⟨sent, r', call, fun _ => nonneg, fun _ => addressed⟩
    · have above : object.ports.outlets.length ≤ num.toInt := by omega
      refine ⟨_, _, jsOutlet_absent small number above, fun _ => nonneg, fun _ => ?_⟩
      refine ⟨fun index => Sent.noConfusion, ?_, fun _ => rfl⟩
      intro outlet _ found
      obtain ⟨inside, _⟩ := List.getElem?_eq_some_iff.mp found
      omega
  · refine ⟨_, _, jsOutlet_negative small number (by omega), ?_, fun n => absurd n nonneg⟩
    exact fun addressed => absurd rfl (addressed.inside num.toInt)

/-- The object `js` without arguments, which has one outlet. -/
def bareObject : TJs :=
  (jsNew 1 noText ⟨fun _ _ => none, fun _ => none⟩ (fun _ _ => .syntaxError noText) []).1

theorem reachable_bareObject : Reachable (Loading.object 1 noText) always bareObject :=
  .start ⟨_, _, _, rfl⟩

theorem addressed_iff_zero :
    ∃ sent r', jsOutlet smallHeap (fun _ : Registry .bits64 => 0x1000) highSymbols 1 zeroToInt32
        bareObject.ports.outlets 1 [.number 0, .number 0x3ff0000000000000] .empty =
          some (sent, r') ∧
      Addressed bareObject.ports.outlets 0 [.float 0x3f800000] sent := by
  have number : zeroToInt32 (.number 0) = some 0 := rfl
  have encoded : jsUnmarshalArgs smallHeap (fun _ : Registry .bits64 => 0x1000) 1 1
      [.number 0x3ff0000000000000] .empty = some ([.float 0x3f800000], .empty) := rfl
  obtain ⟨sent, r', call, addressed⟩ :=
    addressed_iff reachable_bareObject highSymbols number encoded
  exact ⟨sent, r', call, addressed.mpr (by decide)⟩

/-- The conversion of the number -1, and of nothing else. -/
def minusOneToInt32 : Value → Option (BitVec 32)
  | .number 0xbff0000000000000 => some (-1)
  | _ => none

/-- The call `outlet(-1, 1)` reads the vector before its first element. -/
theorem not_addressed_negative :
    jsOutlet smallHeap (fun _ : Registry .bits64 => 0x1000) highSymbols 1 minusOneToInt32
        bareObject.ports.outlets 1 [.number 0xbff0000000000000, .number 0x3ff0000000000000]
        .empty = some (.beyond (-1), .empty) ∧
      ¬ Addressed bareObject.ports.outlets (-1) [.float 0x3f800000] (.beyond (-1)) := by
  refine ⟨rfl, ?_⟩
  exact fun addressed => addressed.inside (-1) rfl

end OutletNumbers
