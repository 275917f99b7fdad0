import Pdjs.GuardedRuns
import Pdjs.Ports

/-!
# Patch cords

Cords are made and removed by the patch at the inlets and outlets of a js object.
A script may change the number of inlets and outlets at any time, and a `compile`
message with a file name sets both to one before the new script runs. Freeing an
inlet or an outlet leaves the cords at it where they are: the cords of an object
are sound in exactly the runs that cut off no port with a cord.
-/

namespace PatchCords

open GuardedRuns PdAtoms ObjectRegistry Ports

inductive Port where
  | inlet (i : PortId)
  | outlet (o : PortId)
  deriving DecidableEq

/-- A cord between a port of the object and something else in the patch. -/
structure Cord where
  port : Port
  other : Nat
  deriving DecidableEq

structure State where
  ports : PortState
  cords : List Cord

/-- A `compile` step ends before the script runs; what the script assigns are
further steps. -/
inductive Label where
  | connect (c : Cord)
  | disconnect (c : Cord)
  | setInlets (m : BitVec 32)
  | setOutlets (m : BitVec 32)
  | compile (argv : List Atom)

def Allocated (p : PortState) : Port → Prop
  | .inlet i => i ∈ p.obInlets
  | .outlet o => o ∈ p.obOutlets

instance (p : PortState) : (port : Port) → Decidable (Allocated p port)
  | .inlet i => inferInstanceAs (Decidable (i ∈ p.obInlets))
  | .outlet o => inferInstanceAs (Decidable (o ∈ p.obOutlets))

inductive Step (x : ObjId) : State → Label → State → Prop where
  | connect {s : State} {c : Cord} (allocated : Allocated s.ports c.port) :
      Step x s (.connect c) { s with cords := c :: s.cords }
  | disconnect (s : State) (c : Cord) :
      Step x s (.disconnect c) { s with cords := s.cords.erase c }
  | setInlets (s : State) (m : BitVec 32) :
      Step x s (.setInlets m) { s with ports := jsSetInlets x m s.ports }
  | setOutlets (s : State) (m : BitVec 32) :
      Step x s (.setOutlets m) { s with ports := jsSetOutlets m s.ports }
  | compile (s : State) (argv : List Atom) :
      Step x s (.compile argv) { s with ports := compilePorts x argv s.ports }

def patch (x : ObjId) : System State Label := ⟨fun s => s = ⟨newPorts x, []⟩, Step x⟩

/-- Every cord is at a port that is allocated. -/
def Sound (s : State) : Prop := ∀ c ∈ s.cords, Allocated s.ports c.port

/-- The ports at the positions from `n` on. -/
def inletsFrom (p : PortState) (n : Int) : List Port := (p.obInlets.drop n.toNat).map .inlet

def outletsFrom (p : PortState) (n : Int) : List Port := (p.obOutlets.drop n.toNat).map .outlet

@[simp] theorem inlet_mem_inletsFrom {p : PortState} {n : Int} {i : PortId} :
    .inlet i ∈ inletsFrom p n ↔ i ∈ p.obInlets.drop n.toNat := by
  simp [inletsFrom, -List.map_drop]

@[simp] theorem outlet_notMem_inletsFrom {p : PortState} {n : Int} {o : PortId} :
    .outlet o ∉ inletsFrom p n := by
  simp [inletsFrom, -List.map_drop]

@[simp] theorem outlet_mem_outletsFrom {p : PortState} {n : Int} {o : PortId} :
    .outlet o ∈ outletsFrom p n ↔ o ∈ p.obOutlets.drop n.toNat := by
  simp [outletsFrom, -List.map_drop]

@[simp] theorem inlet_notMem_outletsFrom {p : PortState} {n : Int} {i : PortId} :
    .inlet i ∉ outletsFrom p n := by
  simp [outletsFrom, -List.map_drop]

/-- The ports a step cuts off. -/
def cutOff (p : PortState) : Label → List Port
  | .setInlets m => inletsFrom p (inletCount m)
  | .setOutlets m => outletsFrom p (outletCount m)
  | .compile (.symbol _ :: _) => inletsFrom p 1 ++ outletsFrom p 1
  | _ => []

/-- No cord is at a port the step cuts off. -/
def SparesCords (s : State) (l : Label) : Prop := ∀ c ∈ s.cords, c.port ∉ cutOff s.ports l

theorem allocated_jsSetInlets {x : ObjId} {p : PortState} (h : Coherent x p) (m : BitVec 32)
    {port : Port} (allocated : Allocated p port) :
    Allocated (jsSetInlets x m p) port ↔ port ∉ inletsFrom p (inletCount m) := by
  cases port with
  | inlet i => simpa [Allocated] using mem_obInlets_jsSetInlets h m allocated
  | outlet o => simpa [Allocated, jsSetInlets_obOutlets] using allocated

theorem allocated_jsSetOutlets {x : ObjId} {p : PortState} (h : Coherent x p) (m : BitVec 32)
    {port : Port} (allocated : Allocated p port) :
    Allocated (jsSetOutlets m p) port ↔ port ∉ outletsFrom p (outletCount m) := by
  cases port with
  | inlet i => simpa [Allocated, jsSetOutlets_obInlets] using allocated
  | outlet o => simpa [Allocated] using mem_obOutlets_jsSetOutlets h m allocated

theorem allocated_compilePorts {x : ObjId} {p : PortState} (h : Coherent x p) (argv : List Atom)
    {port : Port} (allocated : Allocated p port) :
    Allocated (compilePorts x argv p) port ↔ port ∉ cutOff p (.compile argv) := by
  rcases argv with _ | ⟨_ | s | _, argv⟩
  · simpa [compilePorts, cutOff] using allocated
  · simpa [compilePorts, cutOff] using allocated
  · have inlets := allocated_jsSetInlets h 1 allocated
    have coherent := coherent_jsSetInlets h 1
    have later : outletsFrom (jsSetInlets x 1 p) 1 = outletsFrom p 1 := by
      simp only [outletsFrom, jsSetInlets_obOutlets]
    have one : inletCount 1 = 1 ∧ outletCount 1 = 1 := by decide
    rw [one.1] at inlets
    simp only [compilePorts, cutOff, List.mem_append, not_or]
    rw [← inlets]
    constructor
    · intro both
      have kept : Allocated (jsSetInlets x 1 p) port := by
        cases port with
        | inlet i => simpa [Allocated, jsSetOutlets_obInlets] using both
        | outlet o => simpa [Allocated, jsSetInlets_obOutlets] using allocated
      have outlets := (allocated_jsSetOutlets coherent 1 kept).mp both
      rw [one.2, later] at outlets
      exact ⟨kept, outlets⟩
    · rintro ⟨kept, outlets⟩
      apply (allocated_jsSetOutlets coherent 1 kept).mpr
      rw [one.2, later]
      exact outlets
  · simpa [compilePorts, cutOff] using allocated

theorem coherent {x : ObjId} {s : State} (h : Reachable (patch x) always s) :
    Coherent x s.ports := by
  apply h.invariant
  · rintro s rfl
    exact coherent_newPorts x
  · intro s l t _ hs step _
    cases step with
    | connect _ => exact hs
    | disconnect => exact hs
    | setInlets m => exact coherent_jsSetInlets hs m
    | setOutlets m => exact coherent_jsSetOutlets hs m
    | compile argv => exact coherent_compilePorts hs argv

/-- A step from a sound state ends in one exactly if it spares the cords. -/
theorem sound_step_iff {x : ObjId} {s t : State} {l : Label} (h : Coherent x s.ports)
    (sound : Sound s) (step : Step x s l t) : Sound t ↔ SparesCords s l := by
  have resized : ∀ p, (∀ c ∈ s.cords, Allocated p c.port ↔ c.port ∉ cutOff s.ports l) →
      ((∀ c ∈ s.cords, Allocated p c.port) ↔ SparesCords s l) :=
    fun p each => forall₂_congr each
  cases step with
  | connect allocated =>
    refine ⟨fun _ c _ => List.not_mem_nil, fun _ => ?_⟩
    intro c hc
    rcases List.mem_cons.mp hc with rfl | old
    · exact allocated
    · exact sound c old
  | disconnect =>
    refine ⟨fun _ c _ => List.not_mem_nil, fun _ => ?_⟩
    exact fun c hc => sound c (List.mem_of_mem_erase hc)
  | setInlets m => exact resized _ fun c hc => allocated_jsSetInlets h m (sound c hc)
  | setOutlets m => exact resized _ fun c hc => allocated_jsSetOutlets h m (sound c hc)
  | compile argv => exact resized _ fun c hc => allocated_compilePorts h argv (sound c hc)

theorem sound_of_spares {x : ObjId} {s : State} (h : Reachable (patch x) SparesCords s) :
    Sound s := by
  apply h.invariant
  · rintro s rfl
    exact fun c hc => absurd hc List.not_mem_nil
  · intro s l t before sound step spared
    exact (sound_step_iff (coherent before.unguarded) sound step).mpr spared

/-- The cords are sound in every run whose steps cut off no port with a cord, and
the first step of a run that cuts one off leaves a cord at a freed port. -/
theorem sound_while_spared (x : ObjId) :
    (∀ s, Reachable (patch x) SparesCords s → Sound s) ∧
      ∀ s t l, Reachable (patch x) SparesCords s → (patch x).step s l t →
        ¬ SparesCords s l → ¬ Sound t := by
  constructor
  · exact fun s h => sound_of_spares h
  · intro s t l h step cut sound
    exact cut ((sound_step_iff (coherent h.unguarded) (sound_of_spares h) step).mp sound)

/-- The second inlet is made and connected. -/
def connected : State :=
  { ports := jsSetInlets 1 2 (newPorts 1), cords := [⟨.inlet 2, 0⟩] }

theorem reachable_connected {ok : State → Label → Prop} (grow : ok ⟨newPorts 1, []⟩ (.setInlets 2))
    (connect : ok ⟨jsSetInlets 1 2 (newPorts 1), []⟩ (.connect ⟨.inlet 2, 0⟩)) :
    Reachable (patch 1) ok connected := by
  refine .next (.next (.start rfl) (.setInlets _ 2) grow) (.connect ?_) connect
  decide

theorem sound_while_spared_connected :
    Sound connected ∧ ¬ Sound { connected with ports := jsSetInlets 1 1 connected.ports } := by
  have spared : Reachable (patch 1) SparesCords connected :=
    reachable_connected (fun c hc => absurd hc List.not_mem_nil)
      (fun c hc => absurd hc List.not_mem_nil)
  constructor
  · exact (sound_while_spared 1).1 _ spared
  · refine (sound_while_spared 1).2 _ _ _ spared (.setInlets _ 1) ?_
    intro spares
    exact spares ⟨.inlet 2, 0⟩ List.mem_cons_self (by decide)

/-- The script sets `inlets` back to one while the cord is there. -/
theorem not_sound_shrunk :
    Reachable (patch 1) always { connected with ports := jsSetInlets 1 1 connected.ports } ∧
      ¬ Sound { connected with ports := jsSetInlets 1 1 connected.ports } := by
  refine ⟨.next (reachable_connected trivial trivial) (.setInlets _ 1) trivial, fun sound => ?_⟩
  exact absurd (sound ⟨.inlet 2, 0⟩ List.mem_cons_self) (by decide)

end PatchCords
