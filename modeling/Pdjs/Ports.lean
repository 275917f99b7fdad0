import Pdjs.ObjectRegistry
import Mathlib.Data.List.Nodup

/-!
# Inlets and outlets

A js object keeps its inlets and outlets in two vectors beside the lists that Pd
keeps in the object itself. A resize frees what is cut off and appends what is
missing. Ports are named by the order of their allocation, so a name is not used
twice; `inlet_new` and `outlet_new` append to the list of the object, and
`inlet_free` and `outlet_free` unlink from it.
-/

namespace Ports

open PdAtoms ObjectRegistry

abbrev PortId := Nat

/-- `t_js_inlet` -/
structure JsInlet where
  owner : ObjId
  index : Int
  inlet : PortId
  deriving DecidableEq

/-- The ports of one js object. `obInlets` and `obOutlets` are the lists of `x_obj`
and `freed` are the ports released so far. -/
structure PortState where
  obInlets : List PortId
  obOutlets : List PortId
  inlets : List JsInlet
  outlets : List PortId
  next : PortId
  freed : List PortId
  deriving DecidableEq

def PortState.empty : PortState := ⟨[], [], [], [], 0, []⟩

/-- A container size narrowed to `int`. -/
def intSize (n : Nat) : Int := (BitVec.ofNat 32 n).toInt

def inletFree (i : PortId) (p : PortState) : PortState :=
  { p with obInlets := p.obInlets.erase i, freed := i :: p.freed }

def outletFree (o : PortId) (p : PortState) : PortState :=
  { p with obOutlets := p.obOutlets.erase o, freed := o :: p.freed }

/-- The body of the growing loop of `js_set_inlets` at index `i`. -/
def pushInlet (x : ObjId) (i : Int) (p : PortState) : PortState :=
  { p with
    obInlets := p.obInlets ++ [p.next]
    inlets := p.inlets ++ [⟨x, i, p.next⟩]
    next := p.next + 1 }

def pushOutlet (p : PortState) : PortState :=
  { p with
    obOutlets := p.obOutlets ++ [p.next]
    outlets := p.outlets ++ [p.next]
    next := p.next + 1 }

def growInlets (x : ObjId) : Nat → Int → PortState → PortState
  | 0, _, p => p
  | n + 1, i, p => growInlets x n (i + 1) (pushInlet x i p)

def growOutlets : Nat → PortState → PortState
  | 0, p => p
  | n + 1, p => growOutlets n (pushOutlet p)

def inletCount (inlets : BitVec 32) : Int := if inlets.toInt < 1 then 1 else inlets.toInt

def outletCount (outlets : BitVec 32) : Int := if outlets.toInt < 0 then 0 else outlets.toInt

def jsSetInlets (x : ObjId) (inlets : BitVec 32) (p : PortState) : PortState :=
  let inlets := inletCount inlets
  let size := intSize p.inlets.length
  if inlets < size then
    let p := (p.inlets.drop inlets.toNat).foldl (fun p e => inletFree e.inlet p) p
    { p with inlets := p.inlets.take inlets.toNat }
  else if size < inlets then
    growInlets x (inlets - size).toNat size p
  else
    p

def jsSetOutlets (outlets : BitVec 32) (p : PortState) : PortState :=
  let outlets := outletCount outlets
  let size := intSize p.outlets.length
  if outlets < size then
    let p := (p.outlets.drop outlets.toNat).foldl (fun p o => outletFree o p) p
    { p with outlets := p.outlets.take outlets.toNat }
  else if size < outlets then
    growOutlets (outlets - size).toNat p
  else
    p

/-- The `compile` message with a file name first sets both counts to one. -/
def compilePorts (x : ObjId) (argv : List Atom) (p : PortState) : PortState :=
  match argv with
  | .symbol _ :: _ => jsSetOutlets 1 (jsSetInlets x 1 p)
  | _ => p

/-- The ports `js_new` makes before it loads the script. -/
def newPorts (x : ObjId) : PortState := jsSetOutlets 1 (jsSetInlets x 1 .empty)

/-- The vectors and the lists of Pd agree, every port is allocated once, the entry
at a position of `inlets` carries that position, and the sizes fit an `int`. -/
structure Coherent (x : ObjId) (p : PortState) : Prop where
  obInlets : p.obInlets = p.inlets.map JsInlet.inlet
  obOutlets : p.obOutlets = p.outlets
  nodup : (p.obInlets ++ p.obOutlets ++ p.freed).Nodup
  older : ∀ i ∈ p.obInlets ++ p.obOutlets ++ p.freed, i < p.next
  entries : ∀ k (hk : k < p.inlets.length), p.inlets[k].owner = x ∧ p.inlets[k].index = k
  inletSize : p.inlets.length < 2 ^ 31
  outletSize : p.outlets.length < 2 ^ 31

theorem intSize_eq {n : Nat} (small : n < 2 ^ 31) : intSize n = n := by
  have hmod : n % 2 ^ 32 = n := Nat.mod_eq_of_lt (by omega)
  rw [intSize, BitVec.toInt_eq_toNat_cond, BitVec.toNat_ofNat, hmod, if_pos (by omega)]

theorem one_le_inletCount (m : BitVec 32) : 1 ≤ inletCount m := by
  rw [inletCount]
  split <;> omega

theorem outletCount_nonneg (m : BitVec 32) : 0 ≤ outletCount m := by
  rw [outletCount]
  split <;> omega

theorem inletCount_lt (m : BitVec 32) : inletCount m < 2 ^ 31 := by
  have upper := BitVec.toInt_lt (x := m)
  rw [inletCount]
  split <;> omega

theorem outletCount_lt (m : BitVec 32) : outletCount m < 2 ^ 31 := by
  have upper := BitVec.toInt_lt (x := m)
  rw [outletCount]
  split <;> omega

theorem foldl_erase_append {kept cut : List PortId} (nodup : (kept ++ cut).Nodup) :
    cut.foldl List.erase (kept ++ cut) = kept := by
  induction cut with
  | nil => exact List.append_nil kept
  | cons c cut ih =>
    obtain ⟨fresh, nodup'⟩ := List.nodup_cons.mp (List.nodup_middle.mp nodup)
    have hc : c ∉ kept := fun hk => fresh (List.mem_append_left _ hk)
    rw [List.foldl_cons, List.erase_append_right _ hc, List.erase_cons_head]
    exact ih nodup'

theorem foldl_inletFree (es : List JsInlet) (p : PortState) :
    es.foldl (fun p e => inletFree e.inlet p) p =
      { p with
        obInlets := (es.map JsInlet.inlet).foldl List.erase p.obInlets
        freed := (es.map JsInlet.inlet).reverse ++ p.freed } := by
  induction es generalizing p with
  | nil => rfl
  | cons e es ih =>
    rw [List.foldl_cons, ih]
    simp [inletFree]

theorem foldl_outletFree (os : List PortId) (p : PortState) :
    os.foldl (fun p o => outletFree o p) p =
      { p with obOutlets := os.foldl List.erase p.obOutlets, freed := os.reverse ++ p.freed } := by
  induction os generalizing p with
  | nil => rfl
  | cons o os ih =>
    rw [List.foldl_cons, ih]
    simp [outletFree]

theorem growInlets_eq (x : ObjId) (n : Nat) (i : Int) (p : PortState) :
    growInlets x n i p =
      { p with
        obInlets := p.obInlets ++ List.range' p.next n
        inlets := p.inlets ++ (List.range n).map (fun k => ⟨x, i + k, p.next + k⟩)
        next := p.next + n } := by
  induction n generalizing i p with
  | zero => simp [growInlets]
  | succ n ih =>
    have entries : (List.range n).map (fun k : Nat => (⟨x, i + 1 + k, p.next + 1 + k⟩ : JsInlet)) =
        (List.range n).map (fun k : Nat => ⟨x, i + (k + 1 : Nat), p.next + (k + 1)⟩) := by
      apply List.map_congr_left
      intro k _
      simp only [JsInlet.mk.injEq, true_and]
      exact ⟨by omega, Nat.add_right_comm p.next 1 k⟩
    have total : p.next + 1 + n = p.next + (n + 1) := Nat.add_right_comm p.next 1 n
    rw [growInlets, ih]
    simp only [pushInlet, entries, total]
    simp [List.range'_succ, List.range_succ_eq_map]

theorem growOutlets_eq (n : Nat) (p : PortState) :
    growOutlets n p =
      { p with
        obOutlets := p.obOutlets ++ List.range' p.next n
        outlets := p.outlets ++ List.range' p.next n
        next := p.next + n } := by
  induction n generalizing p with
  | zero => simp [growOutlets]
  | succ n ih =>
    rw [growOutlets, ih]
    simp [pushOutlet, List.range'_succ, Nat.add_comm, Nat.add_left_comm]

theorem jsSetInlets_cut {x : ObjId} {p : PortState} (h : Coherent x p) (m : BitVec 32)
    (enough : (inletCount m).toNat ≤ p.inlets.length) :
    jsSetInlets x m p =
      { p with
        obInlets := p.obInlets.take (inletCount m).toNat
        inlets := p.inlets.take (inletCount m).toNat
        freed := (p.obInlets.drop (inletCount m).toNat).reverse ++ p.freed } := by
  have positive := one_le_inletCount m
  by_cases hlt : inletCount m < p.inlets.length
  · have split : p.obInlets = (p.inlets.take (inletCount m).toNat).map JsInlet.inlet ++
        (p.inlets.drop (inletCount m).toNat).map JsInlet.inlet := by
      rw [← List.map_append, List.take_append_drop, h.obInlets]
    have nodup := (List.nodup_append.mp (List.nodup_append.mp h.nodup).1).1
    rw [jsSetInlets, intSize_eq h.inletSize, if_pos hlt, foldl_inletFree]
    simp only [h.obInlets, ← List.map_take, ← List.map_drop]
    rw [split] at nodup
    have kept := foldl_erase_append nodup
    rw [← split, h.obInlets] at kept
    rw [kept]
  · have hlen : p.inlets.length = (inletCount m).toNat := by omega
    have hob : p.obInlets.length = (inletCount m).toNat := by simp [h.obInlets, hlen]
    rw [jsSetInlets, intSize_eq h.inletSize, if_neg hlt, if_neg (by omega)]
    simp [List.take_of_length_le (Nat.le_of_eq hlen), List.take_of_length_le (Nat.le_of_eq hob),
      List.drop_of_length_le (Nat.le_of_eq hob)]

theorem jsSetInlets_grow {x : ObjId} {p : PortState} (h : Coherent x p) (m : BitVec 32)
    (short : p.inlets.length < (inletCount m).toNat) :
    jsSetInlets x m p =
      growInlets x ((inletCount m).toNat - p.inlets.length) p.inlets.length p := by
  have positive := one_le_inletCount m
  have count : (inletCount m - p.inlets.length).toNat =
      (inletCount m).toNat - p.inlets.length := by omega
  rw [jsSetInlets, intSize_eq h.inletSize, if_neg (by omega), if_pos (by omega), count]

theorem jsSetOutlets_cut {x : ObjId} {p : PortState} (h : Coherent x p) (m : BitVec 32)
    (enough : (outletCount m).toNat ≤ p.outlets.length) :
    jsSetOutlets m p =
      { p with
        obOutlets := p.obOutlets.take (outletCount m).toNat
        outlets := p.outlets.take (outletCount m).toNat
        freed := (p.obOutlets.drop (outletCount m).toNat).reverse ++ p.freed } := by
  have nonneg := outletCount_nonneg m
  by_cases hlt : outletCount m < p.outlets.length
  · have nodup := (List.nodup_append.mp (List.nodup_append.mp h.nodup).1).2.1
    rw [jsSetOutlets, intSize_eq h.outletSize, if_pos hlt, foldl_outletFree]
    rw [h.obOutlets] at nodup
    rw [← List.take_append_drop (outletCount m).toNat p.outlets] at nodup
    have kept := foldl_erase_append nodup
    rw [List.take_append_drop] at kept
    simp only [h.obOutlets, kept]
  · have hlen : p.outlets.length = (outletCount m).toNat := by omega
    rw [jsSetOutlets, intSize_eq h.outletSize, if_neg hlt, if_neg (by omega)]
    have hob : p.obOutlets.length = (outletCount m).toNat := by rw [h.obOutlets, hlen]
    simp [List.take_of_length_le (Nat.le_of_eq hlen), List.take_of_length_le (Nat.le_of_eq hob),
      List.drop_of_length_le (Nat.le_of_eq hob)]

theorem jsSetOutlets_grow {x : ObjId} {p : PortState} (h : Coherent x p) (m : BitVec 32)
    (short : p.outlets.length < (outletCount m).toNat) :
    jsSetOutlets m p = growOutlets ((outletCount m).toNat - p.outlets.length) p := by
  have nonneg := outletCount_nonneg m
  have count : (outletCount m - p.outlets.length).toNat =
      (outletCount m).toNat - p.outlets.length := by omega
  rw [jsSetOutlets, intSize_eq h.outletSize, if_neg (by omega), if_pos (by omega), count]

theorem length_inlets_jsSetInlets {x : ObjId} {p : PortState} (h : Coherent x p) (m : BitVec 32) :
    (jsSetInlets x m p).inlets.length = (inletCount m).toNat := by
  by_cases enough : (inletCount m).toNat ≤ p.inlets.length
  · rw [jsSetInlets_cut h m enough]
    simp [enough]
  · rw [jsSetInlets_grow h m (by omega), growInlets_eq]
    simp only [List.length_append, List.length_map, List.length_range]
    omega

theorem length_outlets_jsSetOutlets {x : ObjId} {p : PortState} (h : Coherent x p)
    (m : BitVec 32) : (jsSetOutlets m p).outlets.length = (outletCount m).toNat := by
  by_cases enough : (outletCount m).toNat ≤ p.outlets.length
  · rw [jsSetOutlets_cut h m enough]
    simp [enough]
  · rw [jsSetOutlets_grow h m (by omega), growOutlets_eq]
    simp only [List.length_append, List.length_range']
    omega

/-- A port of the object stays in Pd's list unless the resize cuts it off. -/
theorem mem_obInlets_jsSetInlets {x : ObjId} {p : PortState} (h : Coherent x p) (m : BitVec 32)
    {i : PortId} (hi : i ∈ p.obInlets) :
    i ∈ (jsSetInlets x m p).obInlets ↔ i ∉ p.obInlets.drop (inletCount m).toNat := by
  have hlen : p.obInlets.length = p.inlets.length := by rw [h.obInlets, List.length_map]
  by_cases enough : (inletCount m).toNat ≤ p.inlets.length
  · have nodup := (List.nodup_append.mp (List.nodup_append.mp h.nodup).1).1
    have parts : p.obInlets.take (inletCount m).toNat ++ p.obInlets.drop (inletCount m).toNat =
        p.obInlets := List.take_append_drop ..
    rw [jsSetInlets_cut h m enough]
    constructor
    · intro kept cut
      rw [← parts] at nodup
      exact (List.disjoint_of_nodup_append nodup) kept cut
    · intro stays
      exact (List.mem_append.mp (parts.symm ▸ hi)).resolve_right stays
  · rw [jsSetInlets_grow h m (by omega), growInlets_eq, List.drop_of_length_le (by omega)]
    constructor
    · exact fun _ => List.not_mem_nil
    · exact fun _ => List.mem_append_left _ hi

theorem mem_obOutlets_jsSetOutlets {x : ObjId} {p : PortState} (h : Coherent x p) (m : BitVec 32)
    {o : PortId} (ho : o ∈ p.obOutlets) :
    o ∈ (jsSetOutlets m p).obOutlets ↔ o ∉ p.obOutlets.drop (outletCount m).toNat := by
  have hlen : p.obOutlets.length = p.outlets.length := by rw [h.obOutlets]
  by_cases enough : (outletCount m).toNat ≤ p.outlets.length
  · have nodup := (List.nodup_append.mp (List.nodup_append.mp h.nodup).1).2.1
    have parts : p.obOutlets.take (outletCount m).toNat ++ p.obOutlets.drop (outletCount m).toNat =
        p.obOutlets := List.take_append_drop ..
    rw [jsSetOutlets_cut h m enough]
    constructor
    · intro kept cut
      rw [← parts] at nodup
      exact (List.disjoint_of_nodup_append nodup) kept cut
    · intro stays
      exact (List.mem_append.mp (parts.symm ▸ ho)).resolve_right stays
  · rw [jsSetOutlets_grow h m (by omega), growOutlets_eq, List.drop_of_length_le (by omega)]
    constructor
    · exact fun _ => List.not_mem_nil
    · exact fun _ => List.mem_append_left _ ho

theorem jsSetInlets_obOutlets (x : ObjId) (m : BitVec 32) (p : PortState) :
    (jsSetInlets x m p).obOutlets = p.obOutlets := by
  simp only [jsSetInlets, foldl_inletFree, growInlets_eq]
  split
  · rfl
  · split <;> rfl

theorem jsSetOutlets_inlets (m : BitVec 32) (p : PortState) :
    (jsSetOutlets m p).inlets = p.inlets := by
  simp only [jsSetOutlets, foldl_outletFree, growOutlets_eq]
  split
  · rfl
  · split <;> rfl

theorem jsSetOutlets_obInlets (m : BitVec 32) (p : PortState) :
    (jsSetOutlets m p).obInlets = p.obInlets := by
  simp only [jsSetOutlets, foldl_outletFree, growOutlets_eq]
  split
  · rfl
  · split <;> rfl

/-- Allocating ports adds names that were not in use. -/
theorem append_fresh {ports : List PortId} {next : PortId} (nodup : ports.Nodup)
    (older : ∀ i ∈ ports, i < next) (n : Nat) :
    (ports ++ List.range' next n).Nodup ∧ ∀ i ∈ ports ++ List.range' next n, i < next + n := by
  constructor
  · refine List.nodup_append.mpr ⟨nodup, List.nodup_range', ?_⟩
    intro i hi j hj heq
    have lower := (List.mem_range'_1.mp hj).1
    exact absurd (older i hi) (Nat.not_lt.mpr (heq ▸ lower))
  · intro i hi
    rcases List.mem_append.mp hi with hold | hnew
    · exact Nat.lt_of_lt_of_le (older i hold) (Nat.le_add_right next n)
    · exact (List.mem_range'_1.mp hnew).2

theorem coherent_growInlets {x : ObjId} {p : PortState} (h : Coherent x p) (n : Nat)
    (small : p.inlets.length + n < 2 ^ 31) :
    Coherent x (growInlets x n p.inlets.length p) := by
  have same : (p.obInlets ++ List.range' p.next n ++ p.obOutlets ++ p.freed).Perm
      (p.obInlets ++ p.obOutlets ++ p.freed ++ List.range' p.next n) := by
    apply List.perm_iff_count.mpr
    intro a
    simp only [List.count_append]
    omega
  obtain ⟨nodup, older⟩ := append_fresh h.nodup h.older n
  rw [growInlets_eq]
  refine { h with obInlets := ?_, nodup := same.nodup_iff.mpr nodup, older := ?_, entries := ?_,
                  inletSize := ?_ }
  · simp only [h.obInlets, List.map_append, List.map_map, List.range'_eq_map_range]
    rfl
  · exact fun i hi => older i (same.mem_iff.mp hi)
  · intro k hk
    by_cases hold : k < p.inlets.length
    · simp only [List.getElem_append_left hold]
      exact h.entries k hold
    · simp only [List.getElem_append_right (Nat.not_lt.mp hold), List.getElem_map,
        List.getElem_range, true_and]
      omega
  · simpa using small

theorem coherent_growOutlets {x : ObjId} {p : PortState} (h : Coherent x p) (n : Nat)
    (small : p.outlets.length + n < 2 ^ 31) : Coherent x (growOutlets n p) := by
  have same : (p.obInlets ++ (p.obOutlets ++ List.range' p.next n) ++ p.freed).Perm
      (p.obInlets ++ p.obOutlets ++ p.freed ++ List.range' p.next n) := by
    apply List.perm_iff_count.mpr
    intro a
    simp only [List.count_append]
    omega
  obtain ⟨nodup, older⟩ := append_fresh h.nodup h.older n
  rw [growOutlets_eq]
  refine { h with obOutlets := ?_, nodup := same.nodup_iff.mpr nodup, older := ?_,
                  outletSize := ?_ }
  · simp only [h.obOutlets]
  · exact fun i hi => older i (same.mem_iff.mp hi)
  · simpa using small

theorem coherent_jsSetInlets {x : ObjId} {p : PortState} (h : Coherent x p) (m : BitVec 32) :
    Coherent x (jsSetInlets x m p) := by
  have positive := one_le_inletCount m
  have bound := inletCount_lt m
  by_cases enough : (inletCount m).toNat ≤ p.inlets.length
  · have same : (p.obInlets.take (inletCount m).toNat ++ p.obOutlets ++
        ((p.obInlets.drop (inletCount m).toNat).reverse ++ p.freed)).Perm
        (p.obInlets ++ p.obOutlets ++ p.freed) := by
      apply List.perm_iff_count.mpr
      intro a
      have parts := congrArg (List.count a) (List.take_append_drop (inletCount m).toNat p.obInlets)
      simp only [List.count_append, List.count_reverse] at parts ⊢
      omega
    rw [jsSetInlets_cut h m enough]
    refine { h with obInlets := ?_, nodup := same.nodup_iff.mpr h.nodup, older := ?_,
                    entries := ?_, inletSize := ?_ }
    · simp only [h.obInlets, List.map_take]
    · exact fun i hi => h.older i (same.mem_iff.mp hi)
    · intro k hk
      rw [List.getElem_take]
      exact h.entries k _
    · have hsize := h.inletSize
      simp only [List.length_take]
      omega
  · rw [jsSetInlets_grow h m (by omega)]
    exact coherent_growInlets h _ (by omega)

theorem coherent_jsSetOutlets {x : ObjId} {p : PortState} (h : Coherent x p) (m : BitVec 32) :
    Coherent x (jsSetOutlets m p) := by
  have nonneg := outletCount_nonneg m
  have bound := outletCount_lt m
  by_cases enough : (outletCount m).toNat ≤ p.outlets.length
  · have same : (p.obInlets ++ p.obOutlets.take (outletCount m).toNat ++
        ((p.obOutlets.drop (outletCount m).toNat).reverse ++ p.freed)).Perm
        (p.obInlets ++ p.obOutlets ++ p.freed) := by
      apply List.perm_iff_count.mpr
      intro a
      have parts :=
        congrArg (List.count a) (List.take_append_drop (outletCount m).toNat p.obOutlets)
      simp only [List.count_append, List.count_reverse] at parts ⊢
      omega
    rw [jsSetOutlets_cut h m enough]
    refine { h with obOutlets := ?_, nodup := same.nodup_iff.mpr h.nodup, older := ?_,
                    outletSize := ?_ }
    · simp only [h.obOutlets]
    · exact fun i hi => h.older i (same.mem_iff.mp hi)
    · have hsize := h.outletSize
      simp only [List.length_take]
      omega
  · rw [jsSetOutlets_grow h m (by omega)]
    exact coherent_growOutlets h _ (by omega)

theorem coherent_empty (x : ObjId) : Coherent x .empty := by
  constructor <;> simp [PortState.empty]

theorem coherent_newPorts (x : ObjId) : Coherent x (newPorts x) :=
  coherent_jsSetOutlets (coherent_jsSetInlets (coherent_empty x) 1) 1

theorem inlets_jsSetInlets_pos {x : ObjId} {p : PortState} (h : Coherent x p) (m : BitVec 32) :
    0 < (jsSetInlets x m p).inlets.length := by
  have positive := one_le_inletCount m
  rw [length_inlets_jsSetInlets h m]
  omega

theorem inlets_newPorts_pos (x : ObjId) : 0 < (newPorts x).inlets.length := by
  rw [newPorts, jsSetOutlets_inlets]
  exact inlets_jsSetInlets_pos (coherent_empty x) 1

theorem coherent_compilePorts {x : ObjId} {p : PortState} (h : Coherent x p) (argv : List Atom) :
    Coherent x (compilePorts x argv p) := by
  rcases argv with _ | ⟨_ | s | _, argv⟩
  · exact h
  · exact h
  · exact coherent_jsSetOutlets (coherent_jsSetInlets h 1) 1
  · exact h

end Ports
