import Pdjs.PatchCords

/-!
# Resizing

However often a script changes the number of its inlets and outlets, the vectors
and the lists of Pd stay the same sequence, and the entry at a position of the
inlet vector carries that position. A resize keeps what it does not cut off and
frees what it cuts off, each port once.
-/

namespace Resizing

open GuardedRuns PdAtoms ObjectRegistry Ports PatchCords

universe u

/-- The vectors of the object `x` and the lists of Pd are the same sequences, and
every entry of the inlet vector has its place, its owner and an inlet of its own
that is not freed. -/
structure Represented (x : ObjId) (p : PortState) : Prop where
  nonempty : 1 ≤ p.inlets.length
  entries : ∀ k (hk : k < p.inlets.length), p.inlets[k].index = k ∧ p.inlets[k].owner = x
  own : (p.inlets.map JsInlet.inlet).Nodup
  live : ∀ e ∈ p.inlets, e.inlet ∉ p.freed
  obInlets : p.obInlets = p.inlets.map JsInlet.inlet
  obOutlets : p.obOutlets = p.outlets

/-- The resize of a vector to `n` entries. `port` is the port of an entry; the ports
released before and after the resize are in `freed` and `freed'`. -/
structure Resized {α : Type u} (port : α → PortId) (n : Nat) (old new : List α)
    (freed freed' : List PortId) : Prop where
  length : new.length = n
  kept : new.take (min old.length n) = old.take (min old.length n)
  once : ∀ e ∈ old.drop n, port e ∉ freed ∧ freed'.count (port e) = 1
  only : ∀ i ∈ freed', i ∈ freed ∨ ∃ e ∈ old.drop n, port e = i
  spared : ∀ e ∈ new, port e ∉ freed'

/-- What assigning `m` to the counts of the object `x` does. -/
structure Resizes (x : ObjId) (m : BitVec 32) (p : PortState) : Prop where
  inlets : Resized JsInlet.inlet (max m.toInt 1).toNat p.inlets (jsSetInlets x m p).inlets
    p.freed (jsSetInlets x m p).freed
  outletsKept : (jsSetInlets x m p).outlets = p.outlets
  outlets : Resized id (max m.toInt 0).toNat p.outlets (jsSetOutlets m p).outlets
    p.freed (jsSetOutlets m p).freed
  inletsKept : (jsSetOutlets m p).inlets = p.inlets

theorem inletCount_eq (m : BitVec 32) : inletCount m = max m.toInt 1 := by
  rw [inletCount]
  split <;> omega

theorem outletCount_eq (m : BitVec 32) : outletCount m = max m.toInt 0 := by
  rw [outletCount]
  split <;> omega

/-- A resize keeps the entries before position `n`, appends some and frees the rest. -/
theorem resized_of_parts {α : Type u} {port : α → PortId} {n : Nat} {old new : List α}
    {freed freed' : List PortId} (parts : ∃ added, new = old.take n ++ added)
    (released : freed' = ((old.drop n).map port).reverse ++ freed) (length : new.length = n)
    (nodup : (new.map port ++ freed').Nodup) : Resized port n old new freed freed' := by
  obtain ⟨_, nodup', apart⟩ := List.nodup_append.mp nodup
  refine ⟨length, ?_, ?_, ?_, ?_⟩
  · obtain ⟨added, rfl⟩ := parts
    have short : (old.take n).length = min old.length n := by
      rw [List.length_take, Nat.min_comm]
    calc (old.take n ++ added).take (min old.length n)
        = old.take n := List.take_left' short
      _ = old.take (min n old.length) := List.take_eq_take_min
      _ = old.take (min old.length n) := by rw [Nat.min_comm]
  · intro e he
    have dropped : port e ∈ ((old.drop n).map port).reverse :=
      List.mem_reverse.mpr (List.mem_map_of_mem he)
    rw [released] at nodup' ⊢
    refine ⟨fun before => ?_, ?_⟩
    · exact (List.disjoint_of_nodup_append nodup') dropped before
    · exact List.count_eq_one_of_mem nodup' (List.mem_append_left _ dropped)
  · intro i hi
    rw [released] at hi
    rcases List.mem_append.mp hi with dropped | before
    · obtain ⟨e, he, same⟩ := List.mem_map.mp (List.mem_reverse.mp dropped)
      exact .inr ⟨e, he, same⟩
    · exact .inl before
  · exact fun e he freed => apart _ (List.mem_map_of_mem he) _ freed rfl

theorem nodup_inlets {x : ObjId} {p : PortState} (h : Coherent x p) :
    (p.inlets.map JsInlet.inlet ++ p.freed).Nodup := by
  rw [← h.obInlets]
  exact h.nodup.sublist ((List.sublist_append_left _ _).append_right _)

theorem nodup_outlets {x : ObjId} {p : PortState} (h : Coherent x p) :
    (p.outlets.map id ++ p.freed).Nodup := by
  rw [List.map_id, ← h.obOutlets]
  exact h.nodup.sublist ((List.sublist_append_right _ _).append_right _)

theorem parts_jsSetInlets {x : ObjId} {p : PortState} (h : Coherent x p) (m : BitVec 32) :
    (∃ added, (jsSetInlets x m p).inlets = p.inlets.take (inletCount m).toNat ++ added) ∧
      (jsSetInlets x m p).freed =
        ((p.inlets.drop (inletCount m).toNat).map JsInlet.inlet).reverse ++ p.freed := by
  by_cases enough : (inletCount m).toNat ≤ p.inlets.length
  · rw [jsSetInlets_cut h m enough]
    refine ⟨⟨[], (List.append_nil _).symm⟩, ?_⟩
    simp only [h.obInlets, List.map_drop]
  · have short : p.inlets.length ≤ (inletCount m).toNat := Nat.le_of_not_le enough
    rw [jsSetInlets_grow h m (Nat.lt_of_not_le enough), growInlets_eq,
      List.take_of_length_le short, List.drop_of_length_le short]
    exact ⟨⟨_, rfl⟩, rfl⟩

theorem resized_inlets {x : ObjId} {p : PortState} (h : Coherent x p) (m : BitVec 32) :
    Resized JsInlet.inlet (max m.toInt 1).toNat p.inlets (jsSetInlets x m p).inlets p.freed
      (jsSetInlets x m p).freed := by
  obtain ⟨parts, released⟩ := parts_jsSetInlets h m
  rw [← inletCount_eq]
  exact resized_of_parts parts released (length_inlets_jsSetInlets h m)
    (nodup_inlets (coherent_jsSetInlets h m))

theorem parts_jsSetOutlets {x : ObjId} {p : PortState} (h : Coherent x p) (m : BitVec 32) :
    (∃ added, (jsSetOutlets m p).outlets = p.outlets.take (outletCount m).toNat ++ added) ∧
      (jsSetOutlets m p).freed =
        ((p.outlets.drop (outletCount m).toNat).map id).reverse ++ p.freed := by
  by_cases enough : (outletCount m).toNat ≤ p.outlets.length
  · rw [jsSetOutlets_cut h m enough]
    refine ⟨⟨[], (List.append_nil _).symm⟩, ?_⟩
    rw [h.obOutlets, List.map_id]
  · have short : p.outlets.length ≤ (outletCount m).toNat := Nat.le_of_not_le enough
    rw [jsSetOutlets_grow h m (Nat.lt_of_not_le enough), growOutlets_eq,
      List.take_of_length_le short, List.drop_of_length_le short]
    exact ⟨⟨_, rfl⟩, rfl⟩

theorem resized_outlets {x : ObjId} {p : PortState} (h : Coherent x p) (m : BitVec 32) :
    Resized id (max m.toInt 0).toNat p.outlets (jsSetOutlets m p).outlets p.freed
      (jsSetOutlets m p).freed := by
  obtain ⟨parts, released⟩ := parts_jsSetOutlets h m
  rw [← outletCount_eq]
  exact resized_of_parts parts released (length_outlets_jsSetOutlets h m)
    (nodup_outlets (coherent_jsSetOutlets h m))

theorem inlets_pos {x : ObjId} {s : State} (h : Reachable (patch x) always s) :
    0 < s.ports.inlets.length := by
  apply h.invariant
  · rintro s rfl
    exact inlets_newPorts_pos x
  · intro s l t before hs step _
    cases step with
    | connect _ => exact hs
    | disconnect => exact hs
    | setInlets m => exact inlets_jsSetInlets_pos (coherent before) m
    | setOutlets m => simpa only [jsSetOutlets_inlets] using hs
    | compile argv =>
      rcases argv with _ | ⟨_ | name | _, argv⟩
      · exact hs
      · exact hs
      · simp only [compilePorts, jsSetOutlets_inlets]
        exact inlets_jsSetInlets_pos (coherent before) 1
      · exact hs

theorem represented {x : ObjId} {p : PortState} (h : Coherent x p) (pos : 0 < p.inlets.length) :
    Represented x p := by
  have nodup := nodup_inlets h
  obtain ⟨own, _, apart⟩ := List.nodup_append.mp nodup
  refine ⟨pos, fun k hk => (h.entries k hk).symm, own, ?_, h.obInlets, h.obOutlets⟩
  exact fun e he freed => apart _ (List.mem_map_of_mem he) _ freed rfl

/-- In every run the vectors represent the ports of the object, and every resize is
a resize of the vector it is meant for. -/
theorem represented_and_resized {x : ObjId} {s : State} (h : Reachable (patch x) always s) :
    Represented x s.ports ∧ ∀ m, Resizes x m s.ports := by
  have c := coherent h
  refine ⟨represented c (inlets_pos h), fun m => ⟨resized_inlets c m, ?_, resized_outlets c m,
    jsSetOutlets_inlets m s.ports⟩⟩
  have same := jsSetInlets_obOutlets x m s.ports
  rw [(coherent_jsSetInlets c m).obOutlets, c.obOutlets] at same
  exact same

theorem represented_and_resized_connected :
    Represented 1 connected.ports ∧ ∀ m, Resizes 1 m connected.ports :=
  represented_and_resized (reachable_connected trivial trivial)

end Resizing
