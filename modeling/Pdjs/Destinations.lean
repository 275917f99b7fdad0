import Pdjs.Activations

/-!
# The destination of a message

An outlet is fetched, and the receiver of a symbol is tested, before the arguments
are converted; the message is sent after. The conversion may run script, and the
patch through it, so the outlet may be cut off, its object deleted or the symbol
left without a receiver. A destination is awaited from the check until the send.
If no step takes an awaited destination away, every send finds its own.
-/

namespace Destinations

open GuardedRuns PdAtoms ObjectRegistry Ports Activations

/-- The outlets that are fetched and not sent to. -/
def fetched (code : List Instr) : List PortId :=
  code.filterMap fun
    | .send o => some o
    | _ => none

/-- The symbols that are tested and not sent to. -/
def tested (code : List Instr) : List Symbol :=
  code.filterMap fun
    | .sendNamed name => some name
    | _ => none

/-- The outlet handed to `outlet_anything` is allocated and one of the outlets of the
object, and the symbol whose `s_thing` is handed to `pd_typedmess` has a receiver. -/
def Valid (s : State) : Prop :=
  ∀ f below, s.stack = f :: below →
    (∀ o, f.code.head? = some (.send o) →
      o ∈ (s.objs f.owner).ports.obOutlets ∧ o ∈ (s.objs f.owner).ports.outlets) ∧
    ∀ name, f.code.head? = some (.sendNamed name) → s.bound name ≠ []

/-- The outlets that the step frees, with their objects. -/
def cutOff (s : State) (l : Label) : List (ObjId × PortId) :=
  match l, s.stack with
  | .exec, ⟨x, .setOutlets m :: _, _⟩ :: _ =>
    ((s.objs x).ports.obOutlets.drop (outletCount m).toNat).map (Prod.mk x)
  | .free x, _ => (s.objs x).ports.obOutlets.map (Prod.mk x)
  | _, _ => []

/-- The symbol that loses its last receiver in the step. -/
def emptied (s : State) : Label → Option Symbol
  | .unbind name receiver => if (s.bound name).erase receiver = [] then some name else none
  | _ => none

/-- The step takes no awaited destination away. -/
def SparesDestinations (s : State) (l : Label) : Prop :=
  ∀ f ∈ s.stack, (∀ o ∈ fetched f.code, (f.owner, o) ∉ cutOff s l) ∧
    ∀ name ∈ tested f.code, name ∉ emptied s l

instance (s : State) (l : Label) : Decidable (SparesDestinations s l) :=
  inferInstanceAs (Decidable (∀ f ∈ s.stack, (∀ o ∈ fetched f.code, (f.owner, o) ∉ cutOff s l) ∧
    ∀ name ∈ tested f.code, name ∉ emptied s l))

theorem awaits_jsLoad (result : Loaded) :
    fetched (jsLoad result) = [] ∧ tested (jsLoad result) = [] := by
  cases result <;> exact ⟨rfl, rfl⟩

theorem awaits_native (n : Native) : fetched n.code = [] ∧ tested n.code = [] := by
  cases n with
  | jsGet property => cases property <;> exact ⟨rfl, rfl⟩
  | jsSet property value => cases property <;> cases value <;> exact ⟨rfl, rfl⟩
  | jsError => exact ⟨rfl, rfl⟩
  | jsOutlet n sends => cases n <;> exact ⟨rfl, rfl⟩
  | jsMessnamed name sends => cases name <;> exact ⟨rfl, rfl⟩
  | jsInclude result => rcases result with _ | _ | _ | _ <;> exact ⟨rfl, rfl⟩
  | jsRequire result => rcases result with _ | _ | _ | _ <;> exact ⟨rfl, rfl⟩

theorem awaits_request (inlet : Int) (request : Request) :
    fetched (request.code inlet) = [] ∧ tested (request.code inlet) = [] := by
  cases request with
  | compile named result => cases named <;> cases result <;> exact ⟨rfl, rfl⟩
  | setprop error => cases error <;> exact ⟨rfl, rfl⟩
  | getprop defined sends => cases defined <;> exact ⟨rfl, rfl⟩
  | delprop => exact ⟨rfl, rfl⟩
  | menuOpen => exact ⟨rfl, rfl⟩
  | dispatch name result =>
    cases result with
    | missing error => cases error <;> exact ⟨rfl, rfl⟩
    | hidden => exact ⟨rfl, rfl⟩
    | returned => exact ⟨rfl, rfl⟩
    | threw => exact ⟨rfl, rfl⟩

/-- The destinations that an activation awaits are there. -/
structure Served (s : State) (x : ObjId) (code : List Instr) : Prop where
  outlets : ∀ o ∈ fetched code, o ∈ (s.objs x).ports.obOutlets
  receivers : ∀ name ∈ tested code, s.bound name ≠ []

theorem Served.tail {s : State} {x : ObjId} {i : Instr} {code : List Instr}
    (h : Served s x (i :: code)) : Served s x code := by
  have later : ∀ {α : Type} (g : Instr → Option α) a, a ∈ code.filterMap g →
      a ∈ (i :: code).filterMap g := by
    intro α g a ha
    obtain ⟨j, hj, heq⟩ := List.mem_filterMap.mp ha
    exact List.mem_filterMap.mpr ⟨j, List.mem_cons_of_mem _ hj, heq⟩
  exact ⟨fun o ho => h.outlets o (later _ o ho), fun name hn => h.receivers name (later _ name hn)⟩

theorem Served.of_awaits {s : State} {x : ObjId} {code : List Instr}
    (h : fetched code = [] ∧ tested code = []) : Served s x code := by
  constructor
  · rw [h.1]
    exact fun o ho => absurd ho List.not_mem_nil
  · rw [h.2]
    exact fun name hn => absurd hn List.not_mem_nil

def Awaited (s : State) : Prop := ∀ f ∈ s.stack, Served s f.owner f.code

theorem valid_of_awaited {s : State} (coherent : ∀ x, Coherent x (s.objs x).ports)
    (hs : Awaited s) : Valid s := by
  intro f below top
  have served := hs f (mem_of_top top)
  have first : ∀ i, f.code.head? = some i → i ∈ f.code := fun i => List.mem_of_head?
  constructor
  · intro o head
    have allocated := served.outlets o (List.mem_filterMap.mpr ⟨_, first _ head, rfl⟩)
    exact ⟨allocated, (coherent f.owner).obOutlets ▸ allocated⟩
  · intro name head
    exact served.receivers name (List.mem_filterMap.mpr ⟨_, first _ head, rfl⟩)

theorem Awaited.setCode {s : State} (hs : Awaited s) {f : Frame} {below : List Frame}
    (top : s.stack = f :: below) {code : List Instr} (served : Served s f.owner code) :
    Awaited (s.setCode f below code) := by
  refine List.forall_mem_cons.mpr ⟨⟨served.outlets, served.receivers⟩, fun g hg => ?_⟩
  have old := hs g (mem_of_below top hg)
  exact ⟨old.outlets, old.receivers⟩

/-- The next instruction of the topmost activation. -/
theorem Awaited.advance {s : State} (hs : Awaited s) {f : Frame} {below : List Frame} {i : Instr}
    {code : List Instr} (top : s.stack = f :: below) (head : f.code = i :: code) :
    Awaited (s.setCode f below code) := by
  have served := hs f (mem_of_top top)
  rw [head] at served
  exact hs.setCode top served.tail

theorem Awaited.push {s : State} (hs : Awaited s) {f : Frame}
    (fresh : fetched f.code = [] ∧ tested f.code = []) : Awaited (s.push f) := by
  refine List.forall_mem_cons.mpr ⟨.of_awaits fresh, fun g hg => ?_⟩
  exact ⟨(hs g hg).outlets, (hs g hg).receivers⟩

/-- What is awaited may be looked for in a state that has kept it. -/
theorem Awaited.mono {s t : State} (hs : Awaited s) (stack : t.stack = s.stack)
    (outlets : ∀ f ∈ s.stack, ∀ o ∈ fetched f.code, o ∈ (s.objs f.owner).ports.obOutlets →
      o ∈ (t.objs f.owner).ports.obOutlets)
    (receivers : ∀ f ∈ s.stack, ∀ name ∈ tested f.code, s.bound name ≠ [] → t.bound name ≠ []) :
    Awaited t := by
  intro f hf
  rw [stack] at hf
  constructor
  · exact fun o ho => outlets f hf o ho ((hs f hf).outlets o ho)
  · exact fun name hn => receivers f hf name hn ((hs f hf).receivers name hn)

theorem Awaited.setTJs {s : State} (hs : Awaited s) {x : ObjId} {v : TJs}
    (outlets : ∀ f ∈ s.stack, f.owner = x → ∀ o ∈ fetched f.code,
      o ∈ (s.objs x).ports.obOutlets → o ∈ v.ports.obOutlets) : Awaited (s.setTJs x v) := by
  apply hs.mono (t := s.setTJs x v) rfl
  · intro f hf o ho there
    by_cases owner : f.owner = x
    · rw [owner] at there
      simpa [State.setTJs, owner] using outlets f hf owner o ho there
    · simpa [State.setTJs, Function.update_of_ne owner] using there
  · exact fun _ _ _ _ bound => bound

theorem awaited_setOutlets {s : State} (hs : Awaited s) {f : Frame} {below : List Frame}
    {m : BitVec 32} {code : List Instr} (coherent : Coherent f.owner (s.objs f.owner).ports)
    (top : s.stack = f :: below) (head : f.code = .setOutlets m :: code)
    (spares : SparesDestinations s .exec) :
    Awaited (s.setTJs f.owner
      { s.objs f.owner with ports := jsSetOutlets m (s.objs f.owner).ports }) := by
  apply hs.setTJs
  intro g hg owner o ho there
  refine (mem_obOutlets_jsSetOutlets coherent m there).mpr fun cut => ?_
  apply (spares g hg).1 o ho
  rw [owner]
  obtain ⟨x, _, locals⟩ := f
  subst head
  simp only [cutOff, top]
  exact List.mem_map_of_mem cut

theorem awaited_create {s : State} (hs : Awaited s) (old : Numbered s) (result : Loaded)
    (v : TJs) (refs : Holder → List ObjId) :
    Awaited { s with
      objs := Function.update s.objs s.next v
      alive := s.next :: s.alive
      next := s.next + 1
      refs := refs
      stack := ⟨s.next, jsLoad result, []⟩ :: s.stack } := by
  refine List.forall_mem_cons.mpr ⟨.of_awaits (awaits_jsLoad result), fun g hg => ?_⟩
  have other : g.owner ≠ s.next := Nat.ne_of_lt (old.stack g hg g.owner List.mem_cons_self)
  refine ⟨fun o ho => ?_, (hs g hg).receivers⟩
  simpa [Function.update_of_ne other] using (hs g hg).outlets o ho

theorem awaited_free {s : State} (hs : Awaited s) (x : ObjId)
    (spares : SparesDestinations s (.free x)) :
    Awaited { s with
      objs := Function.update s.objs x { s.objs x with ports := freePorts (s.objs x).ports }
      alive := s.alive.filter (· ≠ x) } := by
  have kept : Awaited (s.setTJs x { s.objs x with ports := freePorts (s.objs x).ports }) := by
    apply hs.setTJs
    intro f hf owner o ho there
    refine absurd ?_ ((spares f hf).1 o ho)
    simpa [cutOff, owner] using there
  exact kept.mono rfl (fun _ _ _ _ there => there) (fun _ _ _ _ bound => bound)

theorem awaited_unbind {s : State} (hs : Awaited s) (name : Symbol) (receiver : Nat)
    (spares : SparesDestinations s (.unbind name receiver)) :
    Awaited { s with
      bound := Function.update s.bound name ((s.bound name).erase receiver) } := by
  refine hs.mono rfl (fun _ _ _ _ there => there) ?_
  intro f hf other hother there
  by_cases same : other = name
  · subst same
    intro last
    simp only [Function.update_self] at last
    exact (spares f hf).2 other hother (by simp [emptied, last])
  · simpa [Function.update_of_ne same] using there

theorem awaited_bind {s : State} (hs : Awaited s) (name : Symbol) (receiver : Nat) :
    Awaited { s with bound := Function.update s.bound name (receiver :: s.bound name) } := by
  refine hs.mono rfl (fun _ _ _ _ there => there) fun f hf other _ there => ?_
  by_cases same : other = name
  · simp [same]
  · simpa [Function.update_of_ne same] using there

/-- The outlet that the activation now awaits has just been read from the vector. -/
theorem awaited_fetchOutlet {s : State} (hs : Awaited s) {f : Frame} {below : List Frame}
    {n : BitVec 32} {sends : Bool} {code : List Instr} {o : PortId}
    (top : s.stack = f :: below) (head : f.code = .fetchOutlet n sends :: code)
    (allocated : o ∈ (s.objs f.owner).ports.obOutlets) :
    Awaited (s.setCode f below (.script :: if sends then .send o :: code else code)) := by
  have served := hs f (mem_of_top top)
  rw [head] at served
  apply hs.setCode top
  cases sends with
  | false => exact ⟨served.outlets, served.receivers⟩
  | true => exact ⟨List.forall_mem_cons.mpr ⟨allocated, served.outlets⟩, served.receivers⟩

theorem awaited_checkBound {s : State} (hs : Awaited s) {f : Frame} {below : List Frame}
    {name : Symbol} {sends : Bool} {code : List Instr} (top : s.stack = f :: below)
    (head : f.code = .checkBound name sends :: code) (bound : s.bound name ≠ []) :
    Awaited (s.setCode f below (.script :: if sends then .sendNamed name :: code else code)) := by
  have served := hs f (mem_of_top top)
  rw [head] at served
  apply hs.setCode top
  cases sends with
  | false => exact ⟨served.outlets, served.receivers⟩
  | true => exact ⟨served.outlets, List.forall_mem_cons.mpr ⟨bound, served.receivers⟩⟩

/-- After the send nothing is awaited in its place. -/
theorem awaited_sent {s : State} (hs : Awaited s) {f : Frame} {below : List Frame} {i : Instr}
    {code : List Instr} (top : s.stack = f :: below) (head : f.code = i :: code) :
    Awaited (s.setCode f below (.patch :: code)) := by
  have served := hs f (mem_of_top top)
  rw [head] at served
  exact hs.setCode top ⟨served.tail.outlets, served.tail.receivers⟩

theorem awaited_take {s : State} (hs : Awaited s) {f : Frame} {below : List Frame}
    (top : s.stack = f :: below) (locals : List ObjId) :
    Awaited { s with stack := { f with locals := locals } :: below } := by
  refine List.forall_mem_cons.mpr ⟨?_, fun g hg => ?_⟩
  · have served := hs f (mem_of_top top)
    exact ⟨served.outlets, served.receivers⟩
  · have served := hs g (mem_of_below top hg)
    exact ⟨served.outlets, served.receivers⟩

theorem awaited {s : State} (h : Reachable activations SparesDestinations s) : Awaited s := by
  apply h.invariant
  · rintro s ⟨bound, rfl⟩
    exact fun f hf => absurd hf List.not_mem_nil
  · intro s l t before hs step spares
    have coherent := coherent_ports before.unguarded
    have same : ∀ t : State, t.stack = s.stack → t.objs = s.objs → t.bound = s.bound → Awaited t :=
      fun t stack objs bound => hs.mono stack (fun _ _ _ _ there => objs ▸ there)
        (fun _ _ _ _ there => bound ▸ there)
    cases move_of_next step with
    | advance _ top head _ => exact hs.advance top head
    | @enter f below inlet name code top head _ =>
      have kept : Awaited (s.setTJs f.owner
          { s.objs f.owner with inlet := inlet, messagename := name }) :=
        hs.setTJs fun _ _ _ _ _ there => there
      exact kept.advance top head
    | @setInlets f below m code top head _ =>
      have outlets := jsSetInlets_obOutlets f.owner m (s.objs f.owner).ports
      have kept : Awaited (s.setTJs f.owner
          { s.objs f.owner with ports := jsSetInlets f.owner m (s.objs f.owner).ports }) :=
        hs.setTJs fun _ _ _ _ _ there => outlets ▸ there
      exact kept.advance top head
    | setOutlets top head _ =>
      exact (awaited_setOutlets hs (coherent _) top head spares).advance top head
    | fetchOutlet top head _ found =>
      exact awaited_fetchOutlet hs top head ((coherent _).obOutlets ▸ found)
    | send top head => exact awaited_sent hs top head
    | checkBound top head bound => exact awaited_checkBound hs top head bound
    | sendNamed top head => exact awaited_sent hs top head
    | leave top =>
      intro g hg
      have old := hs g (mem_of_below top hg)
      exact ⟨old.outlets, old.receivers⟩
    | callback _ _ _ => exact hs.push (awaits_native _)
    | take _ top _ _ => exact awaited_take hs top _
    | link _ _ _ _ => exact same _ rfl rfl rfl
    | unlink _ _ => exact same _ rfl rfl rfl
    | message _ _ _ => exact hs.push (awaits_request _ _)
    | create _ => exact awaited_create hs (numbered before.unguarded) _ _ _
    | free _ _ => exact awaited_free hs _ spares
    | bind _ => exact awaited_bind hs _ _
    | unbind _ => exact awaited_unbind hs _ _ spares

/-- In every run in which no step takes an awaited destination away, every message is
sent to an outlet or a receiver that is there. -/
theorem valid_while_spared {s : State} (h : Reachable activations SparesDestinations s) :
    Valid s :=
  valid_of_awaited (coherent_ports h.unguarded) (awaited h)

/-- A handler calls `outlet`, and the conversion of the argument sets `outlets`. -/
def converting (outlets : BitVec 32) : List Label :=
  [.create .notRun, .exec, .leave,
    .message 0 0 (.dispatch (.ofBytes [98, 97, 110, 103]) .returned),
    .exec, .resume, .exec, .resume,
    .callback 0 (.jsOutlet (some 0) true), .exec, .resume, .exec,
    .callback 0 (.jsSet .outlets (some outlets)), .exec, .exec, .resume, .exec, .leave,
    .resume]

theorem valid_while_spared_grown :
    ∃ s, Reachable activations SparesDestinations s ∧ Valid s ∧
      s.stack.head?.map Frame.code = some [.send 1] := by
  obtain ⟨s, run⟩ : ∃ s, runLabels next SparesDestinations (start fun _ => []) (converting 2) =
      some s := ⟨_, rfl⟩
  have reached := reachable_of_runLabels run
  have valid := valid_while_spared reached
  cases run
  exact ⟨_, reached, valid, rfl⟩

theorem not_valid_cut : ∃ s, Reachable activations always s ∧ ¬ Valid s := by
  obtain ⟨s, run⟩ : ∃ s, runLabels next always (start fun _ => []) (converting 0) = some s :=
    ⟨_, rfl⟩
  refine ⟨s, reachable_of_runLabels run, fun valid => ?_⟩
  cases run
  exact absurd ((valid _ _ rfl).1 1 rfl).1 (by decide)

end Destinations
