import Pdjs.GuardedRuns
import Pdjs.Ports

/-!
# Nested activations

Native code runs script and the patch, and both call native code again. An
activation is a piece of native code on behalf of one js object; what is left of
it is a list of instructions, in the order of the source. Between two
instructions of an activation anything may happen that script or the patch can
do: callbacks of any object that is in reach, messages to any object, new and
deleted objects, receivers that come and go.

Which branch an activation takes may depend on script that it runs itself, such as
the conversion of an argument. The result is a parameter of its code.

The heap is kept as far as lifetimes depend on it: an edge says that a value of a
context, of `__global__`, of the registry or of a pending promise job refers to a value
of a context, and through it to the native functions of that context, which refer to
their object by its address. A weak reference is an edge until it is cleared. An
instruction that reads a deleted object has no successor.
-/

namespace Activations

open GuardedRuns PdAtoms ObjectRegistry Ports

inductive Instr where
  /-- the address of the `t_js` is taken from a function or handed on -/
  | pointer
  /-- a field of the `t_js` is read that no other instruction stands for -/
  | owner
  /-- a call of V8 that may run script -/
  | script
  /-- the call of the selected function, with the inlet and the message name -/
  | handler (inlet : Int) (messagename : CString)
  /-- `x->inlet` and `x->messagename` are set -/
  | enter (inlet : Int) (messagename : CString)
  | setInlets (m : BitVec 32)
  | setOutlets (m : BitVec 32)
  /-- the bound check and the read of `x->outlets`; a conversion and a send follow -/
  | fetchOutlet (n : BitVec 32) (sends : Bool)
  /-- `outlet_anything` -/
  | send (o : PortId)
  /-- the test of `s_thing`; a conversion and a send follow -/
  | checkBound (name : Symbol) (sends : Bool)
  /-- `pd_typedmess` -/
  | sendNamed (name : Symbol)
  /-- the receivers of a message run -/
  | patch
  deriving DecidableEq

/-- How `js_load` ends: no script is run, it runs to its end, or it fails to compile
or to run, which is reported. -/
inductive Loaded where
  | notRun
  | ran
  | failed
  deriving DecidableEq

def jsLoad : Loaded → List Instr
  | .notRun => [.owner]
  | .ran => [.owner, .script]
  | .failed => [.owner, .script, .script, .pointer]

/-- The names that `js_get` and `js_set` know. -/
inductive Property where
  | inlets
  | outlets
  | inlet
  | messagename
  | jsarguments
  | globalObject
  | other
  deriving DecidableEq

def jsGet : Property → List Instr
  | .inlets | .outlets | .inlet | .messagename | .jsarguments => [.pointer, .owner]
  | .globalObject | .other => [.pointer]

def jsSet : Property → Option (BitVec 32) → List Instr
  | .inlets, none => [.pointer, .owner, .script]
  | .inlets, some m => [.pointer, .owner, .script, .setInlets m]
  | .outlets, none => [.pointer, .owner, .script]
  | .outlets, some m => [.pointer, .owner, .script, .setOutlets m]
  | _, _ => [.pointer]

/-- The native callbacks, called with as many arguments as they ask for. The last
parameters are what the conversions at their start give. -/
inductive Native where
  | jsGet (property : Property)
  | jsSet (property : Property) (value : Option (BitVec 32))
  | jsError
  | jsOutlet (n : Option (BitVec 32)) (sends : Bool)
  | jsMessnamed (name : Option Symbol) (sends : Bool)
  | jsInclude (result : Option Loaded)
  | jsRequire (result : Option Loaded)
  deriving DecidableEq

/-- Every callback takes its object from the data of the function. `sends` tells whether
the arguments, once converted, make a message. -/
def Native.code : Native → List Instr
  | .jsGet property => Activations.jsGet property
  | .jsSet property value => Activations.jsSet property value
  | .jsError => [.pointer, .script, .pointer]
  | .jsOutlet none _ => [.pointer, .script]
  | .jsOutlet (some n) sends => [.pointer, .script, .fetchOutlet n sends]
  | .jsMessnamed none _ => [.pointer, .script]
  | .jsMessnamed (some name) sends => [.pointer, .script, .checkBound name sends]
  | .jsInclude none => [.pointer]
  | .jsInclude (some result) => .pointer :: jsLoad result
  | .jsRequire none => [.pointer, .script]
  | .jsRequire (some result) => .pointer :: .script :: jsLoad result ++ [.script]

/-- How a dispatch ends: there is no function, it is private, it returns or it throws. -/
inductive Dispatched where
  | missing (error : Bool)
  | hidden
  | returned
  | threw
  deriving DecidableEq

/-- The branches of `js_anything`. -/
inductive Request where
  | compile (named : Bool) (result : Loaded)
  | setprop (error : Bool)
  | getprop (defined sends : Bool)
  | delprop
  | menuOpen
  | dispatch (messagename : CString) (result : Dispatched)
  deriving DecidableEq

def Request.code (inlet : Int) : Request → List Instr
  | .compile true result => .owner :: .setInlets 1 :: .setOutlets 1 :: jsLoad result
  | .compile false result => .owner :: jsLoad result
  | .setprop false => [.owner, .script]
  | .setprop true => [.owner, .script, .pointer]
  | .getprop false _ => [.owner, .script]
  | .getprop true sends => [.owner, .script, .fetchOutlet 0 sends]
  | .delprop => [.owner, .script]
  | .menuOpen => [.owner]
  | .dispatch _ (.missing false) => [.owner, .script]
  | .dispatch _ (.missing true) => [.owner, .script, .pointer]
  | .dispatch name .hidden => [.owner, .script, .enter inlet name, .script, .pointer]
  | .dispatch name .returned =>
    [.owner, .script, .enter inlet name, .script, .handler inlet name]
  | .dispatch name .threw =>
    [.owner, .script, .enter inlet name, .script, .handler inlet name, .script, .pointer]

/-- `locals` are the objects whose values the script in this activation has got hold of. -/
structure Frame where
  owner : ObjId
  code : List Instr
  locals : List ObjId
  deriving DecidableEq

/-- What of a `t_js` the activations read and write. -/
structure TJs where
  ports : PortState
  inlet : Int
  messagename : CString

/-- `jobs` is the queue of promise reactions and continuations that V8 has not run yet. -/
inductive Holder where
  | context (x : ObjId)
  | global
  | registry
  | jobs
  deriving DecidableEq

structure State where
  objs : ObjId → TJs
  alive : List ObjId
  next : ObjId
  /-- the receivers bound to a symbol; `s_thing` is null if there are none -/
  bound : Symbol → List Nat
  refs : Holder → List ObjId
  stack : List Frame

inductive Label where
  /-- the topmost activation runs its next instruction -/
  | exec
  /-- the script or the patch that it waits for returns -/
  | resume
  /-- it returns -/
  | leave
  | callback (y : ObjId) (n : Native)
  | take (h : Holder) (y : ObjId)
  /-- a pending job runs at the end of the outermost call of V8 -/
  | job (y : ObjId)
  /-- script asks for the `caller` of a function -/
  | caller (y : ObjId)
  | link (h : Holder) (y : ObjId)
  | unlink (h : Holder) (y : ObjId)
  | message (x : ObjId) (inlet : Int) (request : Request)
  | create (result : Loaded)
  | free (x : ObjId)
  | bind (name : Symbol) (receiver : Nat)
  | unbind (name : Symbol) (receiver : Nat)

def freePorts (p : PortState) : PortState :=
  { p with obInlets := [], obOutlets := [], inlets := [], outlets := []
           freed := p.obInlets ++ p.obOutlets ++ p.freed }

def State.setCode (s : State) (f : Frame) (rest : List Frame) (code : List Instr) : State :=
  { s with stack := { f with code := code } :: rest }

def State.setTJs (s : State) (x : ObjId) (v : TJs) : State :=
  { s with objs := Function.update s.objs x v }

/-- The instruction reads or writes the `t_js` of its activation. -/
def Instr.reads : Instr → Bool
  | .owner | .enter _ _ | .setInlets _ | .setOutlets _ | .fetchOutlet _ _ => true
  | _ => false

/-- One instruction of the topmost activation. -/
def exec (s : State) : Option State :=
  match s.stack with
  | [] => none
  | f :: rest =>
    match f.code with
    | [] => none
    | i :: code =>
      let x := s.objs f.owner
      if i.reads ∧ f.owner ∉ s.alive then none
      else match i with
        | .pointer => some (s.setCode f rest code)
        | .owner => some (s.setCode f rest code)
        | .enter inlet name =>
          some ((s.setCode f rest code).setTJs f.owner
            { x with inlet := inlet, messagename := name })
        | .setInlets m =>
          some ((s.setCode f rest code).setTJs f.owner
            { x with ports := jsSetInlets f.owner m x.ports })
        | .setOutlets m =>
          some ((s.setCode f rest code).setTJs f.owner
            { x with ports := jsSetOutlets m x.ports })
        | .fetchOutlet n sends =>
          if n.toInt < intSize x.ports.outlets.length then
            if n.toInt < 0 then none
            else match x.ports.outlets[n.toInt.toNat]? with
              | some o =>
                some (s.setCode f rest (.script :: if sends then .send o :: code else code))
              | none => none
          else some (s.setCode f rest code)
        | .send o =>
          if o ∈ x.ports.outlets then some (s.setCode f rest (.patch :: code)) else none
        | .checkBound name sends =>
          if s.bound name ≠ [] then
            some (s.setCode f rest (.script :: if sends then .sendNamed name :: code else code))
          else some (s.setCode f rest code)
        | .sendNamed name =>
          if s.bound name ≠ [] then some (s.setCode f rest (.patch :: code)) else none
        | .script => none
        | .handler _ _ => none
        | .patch => none

/-- Script is running in the activation. -/
def Frame.running (f : Frame) : Bool :=
  match f.code with
  | .script :: _ => true
  | .handler _ _ :: _ => true
  | _ => false

/-- The patch is running: nothing native is active, or the topmost activation has sent
a message. -/
def State.patchTurn (s : State) : Bool :=
  match s.stack with
  | [] => true
  | f :: _ => f.code.head? = some .patch

/-- The script in the activation can read from the holder. No script reads from the jobs. -/
def Frame.holds (f : Frame) : Holder → Prop
  | .context z => z ∈ f.owner :: f.locals
  | .global | .registry => True
  | .jobs => False

instance (f : Frame) : (h : Holder) → Decidable (f.holds h)
  | .context z => inferInstanceAs (Decidable (z ∈ f.owner :: f.locals))
  | .global => isTrue trivial
  | .registry => isTrue trivial
  | .jobs => isFalse id

/-- Script that has not returned has got hold of the value. -/
def State.onStack (s : State) (y : ObjId) : Prop :=
  ∃ g ∈ s.stack, g.running ∧ y ∈ g.owner :: g.locals

instance (s : State) (y : ObjId) : Decidable (s.onStack y) :=
  inferInstanceAs (Decidable (∃ g ∈ s.stack, g.running ∧ y ∈ g.owner :: g.locals))

def State.push (s : State) (f : Frame) : State := { s with stack := f :: s.stack }

/-- A new context refers to no other. `__global__` is made in the context of the first
object, and its prototype leads back there. -/
def State.createdRefs (s : State) : Holder → List ObjId :=
  Function.update (Function.update s.refs (.context s.next) []) .global
    (if s.next = 0 then s.next :: s.refs .global else s.refs .global)

/-- The arguments of a callback are values that its caller has got hold of. -/
def next (s : State) : Label → Option State
  | .exec => exec s
  | .resume =>
    match s.stack with
    | [] => none
    | f :: rest =>
      match f.code with
      | .script :: code => some (s.setCode f rest code)
      | .handler _ _ :: code => some (s.setCode f rest code)
      | .patch :: code => some (s.setCode f rest code)
      | _ => none
  | .leave =>
    match s.stack with
    | ⟨_, [], _⟩ :: rest => some { s with stack := rest }
    | _ => none
  | .callback y n =>
    match s.stack with
    | [] => none
    | f :: _ =>
      if f.running ∧ y ∈ f.owner :: f.locals then
        some (s.push ⟨y, n.code, f.owner :: f.locals⟩)
      else none
  | .take h y =>
    match s.stack with
    | [] => none
    | f :: rest =>
      if f.running ∧ f.holds h ∧ y ∈ s.refs h then
        some { s with stack := { f with locals := y :: f.locals } :: rest }
      else none
  | .job y =>
    match s.stack with
    | [] => none
    | f :: rest =>
      if f.running ∧ (∀ g ∈ rest, ¬ g.running) ∧ y ∈ s.refs .jobs then
        some { s with stack := { f with locals := y :: f.locals } :: rest }
      else none
  | .caller y =>
    match s.stack with
    | [] => none
    | f :: rest =>
      if f.running ∧ s.onStack y then
        some { s with stack := { f with locals := y :: f.locals } :: rest }
      else none
  | .link h y =>
    match s.stack with
    | [] => none
    | f :: _ =>
      if f.running ∧ (f.holds h ∨ h = .jobs) ∧ y ∈ f.owner :: f.locals then
        some { s with refs := Function.update s.refs h (y :: s.refs h) }
      else none
  | .unlink h y => some { s with refs := Function.update s.refs h ((s.refs h).erase y) }
  | .message x inlet request =>
    if s.patchTurn ∧ x ∈ s.alive ∧ ∃ e ∈ (s.objs x).ports.inlets, e.index = inlet then
      some (s.push ⟨x, request.code inlet, []⟩)
    else none
  | .create result =>
    if s.patchTurn then
      some
        { s with
          objs := Function.update s.objs s.next ⟨newPorts s.next, 0, .ofBytes []⟩
          alive := s.next :: s.alive
          next := s.next + 1
          refs := s.createdRefs
          stack := ⟨s.next, jsLoad result, []⟩ :: s.stack }
    else none
  | .free x =>
    if s.patchTurn ∧ x ∈ s.alive then
      some
        { s with
          objs := Function.update s.objs x
            { s.objs x with ports := freePorts (s.objs x).ports }
          alive := s.alive.filter (· ≠ x) }
    else none
  | .bind name receiver =>
    if s.patchTurn then
      some { s with bound := Function.update s.bound name (receiver :: s.bound name) }
    else none
  | .unbind name receiver =>
    if s.patchTurn then
      some { s with bound := Function.update s.bound name ((s.bound name).erase receiver) }
    else none

/-- No js object has been made yet; other receivers may be bound. -/
def start (bound : Symbol → List Nat) : State where
  objs := fun _ => ⟨.empty, 0, .ofBytes []⟩
  alive := []
  next := 0
  bound := bound
  refs := fun _ => []
  stack := []

def activations : System State Label := .ofNext (fun s => ∃ bound, s = start bound) next

/-- The instruction takes the activation no further than to its next one. -/
def Instr.plain : Instr → Bool
  | .enter _ _ | .setInlets _ | .setOutlets _ | .send _ | .sendNamed _ => false
  | _ => true

/-- What the running script gets hold of. -/
def Label.gets : Label → Option ObjId
  | .take _ y | .job y | .caller y => some y
  | _ => none

/-- Where it can get it from. -/
def State.Offers (s : State) (f : Frame) (y : ObjId) : Prop :=
  (∃ h, (f.holds h ∨ h = .jobs) ∧ y ∈ s.refs h) ∨ s.onStack y

/-- The cases of a step. `advance` goes on to the next instruction and changes nothing else. -/
inductive Move (s : State) : Label → State → Prop where
  | advance {l : Label} {f : Frame} {rest : List Frame} {i : Instr} {code : List Instr}
      (own : l = .exec ∨ l = .resume) (top : s.stack = f :: rest) (head : f.code = i :: code)
      (plain : i.plain) : Move s l (s.setCode f rest code)
  | enter {f : Frame} {rest : List Frame} {inlet : Int} {name : CString} {code : List Instr}
      (top : s.stack = f :: rest) (head : f.code = .enter inlet name :: code)
      (alive : f.owner ∈ s.alive) :
      Move s .exec ((s.setCode f rest code).setTJs f.owner
        { s.objs f.owner with inlet := inlet, messagename := name })
  | setInlets {f : Frame} {rest : List Frame} {m : BitVec 32} {code : List Instr}
      (top : s.stack = f :: rest) (head : f.code = .setInlets m :: code)
      (alive : f.owner ∈ s.alive) :
      Move s .exec ((s.setCode f rest code).setTJs f.owner
        { s.objs f.owner with ports := jsSetInlets f.owner m (s.objs f.owner).ports })
  | setOutlets {f : Frame} {rest : List Frame} {m : BitVec 32} {code : List Instr}
      (top : s.stack = f :: rest) (head : f.code = .setOutlets m :: code)
      (alive : f.owner ∈ s.alive) :
      Move s .exec ((s.setCode f rest code).setTJs f.owner
        { s.objs f.owner with ports := jsSetOutlets m (s.objs f.owner).ports })
  | fetchOutlet {f : Frame} {rest : List Frame} {n : BitVec 32} {sends : Bool}
      {code : List Instr} {o : PortId} (top : s.stack = f :: rest)
      (head : f.code = .fetchOutlet n sends :: code) (alive : f.owner ∈ s.alive)
      (found : o ∈ (s.objs f.owner).ports.outlets) :
      Move s .exec (s.setCode f rest (.script :: if sends then .send o :: code else code))
  | send {f : Frame} {rest : List Frame} {o : PortId} {code : List Instr}
      (top : s.stack = f :: rest) (head : f.code = .send o :: code) :
      Move s .exec (s.setCode f rest (.patch :: code))
  | checkBound {f : Frame} {rest : List Frame} {name : Symbol} {sends : Bool}
      {code : List Instr} (top : s.stack = f :: rest)
      (head : f.code = .checkBound name sends :: code) (bound : s.bound name ≠ []) :
      Move s .exec (s.setCode f rest (.script :: if sends then .sendNamed name :: code else code))
  | sendNamed {f : Frame} {rest : List Frame} {name : Symbol} {code : List Instr}
      (top : s.stack = f :: rest) (head : f.code = .sendNamed name :: code) :
      Move s .exec (s.setCode f rest (.patch :: code))
  | leave {f : Frame} {rest : List Frame} (top : s.stack = f :: rest) :
      Move s .leave { s with stack := rest }
  | callback {f : Frame} {rest : List Frame} {y : ObjId} {n : Native}
      (top : s.stack = f :: rest) (running : f.running) (reached : y ∈ f.owner :: f.locals) :
      Move s (.callback y n) (s.push ⟨y, n.code, f.owner :: f.locals⟩)
  | take {l : Label} {f : Frame} {rest : List Frame} {y : ObjId} (own : l.gets = some y)
      (top : s.stack = f :: rest) (running : f.running) (offered : s.Offers f y) :
      Move s l { s with stack := { f with locals := y :: f.locals } :: rest }
  | link {f : Frame} {rest : List Frame} {h : Holder} {y : ObjId} (top : s.stack = f :: rest)
      (running : f.running) (holds : f.holds h ∨ h = .jobs) (reached : y ∈ f.owner :: f.locals) :
      Move s (.link h y) { s with refs := Function.update s.refs h (y :: s.refs h) }
  | unlink (h : Holder) (y : ObjId) :
      Move s (.unlink h y) { s with refs := Function.update s.refs h ((s.refs h).erase y) }
  | message {x : ObjId} {inlet : Int} {request : Request} (turn : s.patchTurn)
      (alive : x ∈ s.alive) (found : ∃ e ∈ (s.objs x).ports.inlets, e.index = inlet) :
      Move s (.message x inlet request) (s.push ⟨x, request.code inlet, []⟩)
  | create {result : Loaded} (turn : s.patchTurn) :
      Move s (.create result)
        { s with
          objs := Function.update s.objs s.next ⟨newPorts s.next, 0, .ofBytes []⟩
          alive := s.next :: s.alive
          next := s.next + 1
          refs := s.createdRefs
          stack := ⟨s.next, jsLoad result, []⟩ :: s.stack }
  | free {x : ObjId} (turn : s.patchTurn) (alive : x ∈ s.alive) :
      Move s (.free x)
        { s with
          objs := Function.update s.objs x
            { s.objs x with ports := freePorts (s.objs x).ports }
          alive := s.alive.filter (· ≠ x) }
  | bind {name : Symbol} {receiver : Nat} (turn : s.patchTurn) :
      Move s (.bind name receiver)
        { s with bound := Function.update s.bound name (receiver :: s.bound name) }
  | unbind {name : Symbol} {receiver : Nat} (turn : s.patchTurn) :
      Move s (.unbind name receiver)
        { s with bound := Function.update s.bound name ((s.bound name).erase receiver) }

theorem move_of_exec {s t : State} (h : exec s = some t) : Move s .exec t := by
  rw [exec] at h
  cases top : s.stack with
  | nil => simp [top] at h
  | cons f rest =>
    cases head : f.code with
    | nil => simp [top, head] at h
    | cons i code =>
      simp only [top, head] at h
      obtain ⟨live, heq⟩ := Option.ite_none_left_eq_some.mp h
      have alive : i.reads → f.owner ∈ s.alive :=
        fun reads => by_contra fun dead => live ⟨reads, dead⟩
      cases i with
      | pointer => exact Option.some.inj heq ▸ .advance (Or.inl rfl) top head rfl
      | owner => exact Option.some.inj heq ▸ .advance (Or.inl rfl) top head rfl
      | script => exact absurd heq nofun
      | handler _ _ => exact absurd heq nofun
      | patch => exact absurd heq nofun
      | enter _ _ => exact Option.some.inj heq ▸ .enter top head (alive rfl)
      | setInlets _ => exact Option.some.inj heq ▸ .setInlets top head (alive rfl)
      | setOutlets _ => exact Option.some.inj heq ▸ .setOutlets top head (alive rfl)
      | fetchOutlet n sends =>
        by_cases below : n.toInt < intSize (s.objs f.owner).ports.outlets.length
        · simp only [below, if_true] at heq
          obtain ⟨_, heq⟩ := Option.ite_none_left_eq_some.mp heq
          cases found : (s.objs f.owner).ports.outlets[n.toInt.toNat]? with
          | none => simp [found] at heq
          | some o =>
            simp only [found] at heq
            exact Option.some.inj heq ▸
              .fetchOutlet top head (alive rfl) (List.mem_of_getElem? found)
        · simp only [below, if_false] at heq
          exact Option.some.inj heq ▸ .advance (Or.inl rfl) top head rfl
      | send _ =>
        obtain ⟨_, heq⟩ := Option.ite_none_right_eq_some.mp heq
        exact Option.some.inj heq ▸ .send top head
      | checkBound name sends =>
        by_cases bound : s.bound name ≠ []
        · simp only [if_pos bound] at heq
          exact Option.some.inj heq ▸ .checkBound top head bound
        · simp only [if_neg bound] at heq
          exact Option.some.inj heq ▸ .advance (Or.inl rfl) top head rfl
      | sendNamed _ =>
        obtain ⟨_, heq⟩ := Option.ite_none_right_eq_some.mp heq
        exact Option.some.inj heq ▸ .sendNamed top head

theorem move_of_resume {s t : State} (h : next s .resume = some t) : Move s .resume t := by
  simp only [next] at h
  cases top : s.stack with
  | nil => simp [top] at h
  | cons f rest =>
    cases head : f.code with
    | nil => simp [top, head] at h
    | cons i code =>
      simp only [top, head] at h
      cases i with
      | script => exact Option.some.inj h ▸ .advance (Or.inr rfl) top head rfl
      | handler _ _ => exact Option.some.inj h ▸ .advance (Or.inr rfl) top head rfl
      | patch => exact Option.some.inj h ▸ .advance (Or.inr rfl) top head rfl
      | _ => exact absurd h nofun

theorem move_of_leave {s t : State} (h : next s .leave = some t) : Move s .leave t := by
  simp only [next] at h
  cases top : s.stack with
  | nil => simp [top] at h
  | cons f rest =>
    obtain ⟨owner, code, locals⟩ := f
    cases code with
    | nil =>
      simp only [top] at h
      exact Option.some.inj h ▸ .leave top
    | cons i code => simp [top] at h

theorem move_of_next {s t : State} {l : Label} (h : next s l = some t) : Move s l t := by
  cases l with
  | exec => exact move_of_exec h
  | resume => exact move_of_resume h
  | leave => exact move_of_leave h
  | callback y n =>
    simp only [next] at h
    cases top : s.stack with
    | nil => simp [top] at h
    | cons f rest =>
      simp only [top] at h
      obtain ⟨⟨running, reached⟩, heq⟩ := Option.ite_none_right_eq_some.mp h
      exact Option.some.inj heq ▸ .callback top running reached
  | take h' y =>
    simp only [next] at h
    cases top : s.stack with
    | nil => simp [top] at h
    | cons f rest =>
      simp only [top] at h
      obtain ⟨⟨running, holds, held⟩, heq⟩ := Option.ite_none_right_eq_some.mp h
      exact Option.some.inj heq ▸ .take rfl top running (.inl ⟨h', .inl holds, held⟩)
  | job y =>
    simp only [next] at h
    cases top : s.stack with
    | nil => simp [top] at h
    | cons f rest =>
      simp only [top] at h
      obtain ⟨⟨running, _, held⟩, heq⟩ := Option.ite_none_right_eq_some.mp h
      exact Option.some.inj heq ▸ .take rfl top running (.inl ⟨.jobs, .inr rfl, held⟩)
  | caller y =>
    simp only [next] at h
    cases top : s.stack with
    | nil => simp [top] at h
    | cons f rest =>
      simp only [top] at h
      obtain ⟨⟨running, held⟩, heq⟩ := Option.ite_none_right_eq_some.mp h
      exact Option.some.inj heq ▸ .take rfl top running (.inr held)
  | link h' y =>
    simp only [next] at h
    cases top : s.stack with
    | nil => simp [top] at h
    | cons f rest =>
      simp only [top] at h
      obtain ⟨⟨running, holds, reached⟩, heq⟩ := Option.ite_none_right_eq_some.mp h
      exact Option.some.inj heq ▸ top ▸ .link top running holds reached
  | unlink h' y => exact Option.some.inj h ▸ .unlink h' y
  | message x inlet request =>
    obtain ⟨⟨turn, alive, found⟩, heq⟩ := Option.ite_none_right_eq_some.mp h
    exact Option.some.inj heq ▸ .message turn alive found
  | create result =>
    obtain ⟨turn, heq⟩ := Option.ite_none_right_eq_some.mp h
    exact Option.some.inj heq ▸ .create turn
  | free x =>
    obtain ⟨⟨turn, alive⟩, heq⟩ := Option.ite_none_right_eq_some.mp h
    exact Option.some.inj heq ▸ .free turn alive
  | bind name receiver =>
    obtain ⟨turn, heq⟩ := Option.ite_none_right_eq_some.mp h
    exact Option.some.inj heq ▸ .bind turn
  | unbind name receiver =>
    obtain ⟨turn, heq⟩ := Option.ite_none_right_eq_some.mp h
    exact Option.some.inj heq ▸ .unbind turn

theorem reachable_of_runLabels {ok : State → Label → Prop} [∀ s l, Decidable (ok s l)]
    {bound : Symbol → List Nat} {ls : List Label} {s : State}
    (run : runLabels next ok (start bound) ls = some s) : Reachable activations ok s :=
  Reachable.run (.start ⟨bound, rfl⟩) run

theorem mem_update_refs {refs : Holder → List ObjId} {h k : Holder} {ys : List ObjId} {x : ObjId}
    (hx : x ∈ Function.update refs h ys k) : x ∈ ys ∨ x ∈ refs k := by
  rw [Function.update_apply] at hx
  split at hx
  · exact Or.inl hx
  · exact Or.inr hx

theorem mem_of_top {s : State} {f : Frame} {rest : List Frame} (top : s.stack = f :: rest) :
    f ∈ s.stack :=
  top ▸ List.mem_cons_self

theorem mem_of_below {s : State} {f g : Frame} {rest : List Frame} (top : s.stack = f :: rest)
    (below : g ∈ rest) : g ∈ s.stack :=
  top ▸ List.mem_cons_of_mem _ below

/-- What the state refers to has been created. -/
structure Numbered (s : State) : Prop where
  alive : ∀ x ∈ s.alive, x < s.next
  stack : ∀ f ∈ s.stack, ∀ x ∈ f.owner :: f.locals, x < s.next
  refs : ∀ h, ∀ x ∈ s.refs h, x < s.next

theorem Numbered.setCode {s : State} (hs : Numbered s) {f : Frame} {rest : List Frame}
    (top : s.stack = f :: rest) (code : List Instr) : Numbered (s.setCode f rest code) := by
  refine ⟨hs.alive, ?_, hs.refs⟩
  intro g hg
  rcases List.mem_cons.mp hg with rfl | below
  · exact hs.stack f (mem_of_top top)
  · exact hs.stack g (mem_of_below top below)

theorem Numbered.setTJs {s : State} (hs : Numbered s) (x : ObjId) (v : TJs) :
    Numbered (s.setTJs x v) :=
  ⟨hs.alive, hs.stack, hs.refs⟩

theorem Numbered.push {s : State} (hs : Numbered s) {f : Frame}
    (older : ∀ x ∈ f.owner :: f.locals, x < s.next) : Numbered (s.push f) := by
  refine ⟨hs.alive, ?_, hs.refs⟩
  intro g hg
  rcases List.mem_cons.mp hg with rfl | below
  · exact older
  · exact hs.stack g below

theorem Numbered.setRefs {s : State} (hs : Numbered s) (h : Holder) {ys : List ObjId}
    (older : ∀ x ∈ ys, x < s.next) : Numbered { s with refs := Function.update s.refs h ys } := by
  refine ⟨hs.alive, hs.stack, fun k x hx => ?_⟩
  rcases mem_update_refs hx with new | old
  · exact older x new
  · exact hs.refs k x old

theorem Numbered.take {s : State} (hs : Numbered s) {f : Frame} {rest : List Frame}
    (top : s.stack = f :: rest) {y : ObjId} (older : y < s.next) :
    Numbered { s with stack := { f with locals := y :: f.locals } :: rest } := by
  refine ⟨hs.alive, fun g hg => ?_, hs.refs⟩
  rcases List.mem_cons.mp hg with rfl | below
  · obtain ⟨owner, locals⟩ := List.forall_mem_cons.mp (hs.stack f (mem_of_top top))
    exact List.forall_mem_cons.mpr ⟨owner, List.forall_mem_cons.mpr ⟨older, locals⟩⟩
  · exact hs.stack g (mem_of_below top below)

theorem Numbered.offered {s : State} (hs : Numbered s) {f : Frame} {y : ObjId}
    (offered : s.Offers f y) : y < s.next := by
  rcases offered with ⟨h, _, held⟩ | ⟨g, hg, _, mem⟩
  · exact hs.refs h y held
  · exact hs.stack g hg y mem

/-- The one new reference leads to the new object. -/
theorem mem_createdRefs {s : State} {k : Holder} {x : ObjId} (hx : x ∈ s.createdRefs k) :
    k = .global ∧ x = s.next ∨ k ≠ .context s.next ∧ x ∈ s.refs k := by
  by_cases global : k = .global
  · subst global
    rw [State.createdRefs, Function.update_self] at hx
    by_cases first : s.next = 0
    · rw [if_pos first] at hx
      rcases List.mem_cons.mp hx with new | old
      · exact Or.inl ⟨rfl, new⟩
      · exact Or.inr ⟨nofun, old⟩
    · rw [if_neg first] at hx
      exact Or.inr ⟨nofun, hx⟩
  · rw [State.createdRefs, Function.update_of_ne global] at hx
    by_cases new : k = .context s.next
    · rw [new, Function.update_self] at hx
      exact absurd hx List.not_mem_nil
    · rw [Function.update_of_ne new] at hx
      exact Or.inr ⟨new, hx⟩

theorem createdRefs_context {s : State} {x : ObjId} (old : x ≠ s.next) :
    s.createdRefs (.context x) = s.refs (.context x) := by
  simp [State.createdRefs, Function.update_of_ne, old]

theorem createdRefs_of_ne {s : State} {k : Holder} (old : k ≠ .context s.next) {x : ObjId}
    (hx : x ∈ s.refs k) : x ∈ s.createdRefs k := by
  by_cases global : k = .global
  · subst global
    rw [State.createdRefs, Function.update_self]
    split
    · exact List.mem_cons_of_mem _ hx
    · exact hx
  · rw [State.createdRefs, Function.update_of_ne global, Function.update_of_ne old]
    exact hx

theorem Numbered.create {s : State} (hs : Numbered s) (result : Loaded)
    (objs : ObjId → TJs) :
    Numbered { s with
      objs := objs
      alive := s.next :: s.alive
      next := s.next + 1
      refs := s.createdRefs
      stack := ⟨s.next, jsLoad result, []⟩ :: s.stack } := by
  refine ⟨?_, ?_, fun k x hx => ?_⟩
  · exact List.forall_mem_cons.mpr
      ⟨Nat.lt_succ_self _, fun x hx => Nat.lt_succ_of_lt (hs.alive x hx)⟩
  · refine List.forall_mem_cons.mpr ⟨?_, fun g hg x hx => Nat.lt_succ_of_lt (hs.stack g hg x hx)⟩
    exact List.forall_mem_cons.mpr ⟨Nat.lt_succ_self _, fun x hx => absurd hx List.not_mem_nil⟩
  · rcases mem_createdRefs hx with ⟨_, rfl⟩ | ⟨_, old⟩
    · exact Nat.lt_succ_self _
    · exact Nat.lt_succ_of_lt (hs.refs k x old)

theorem numbered {s : State} (h : Reachable activations always s) : Numbered s := by
  apply h.invariant
  · rintro s ⟨bound, rfl⟩
    exact ⟨fun x hx => absurd hx List.not_mem_nil, fun f hf => absurd hf List.not_mem_nil,
      fun _ x hx => absurd hx List.not_mem_nil⟩
  · intro s l t _ hs step _
    cases move_of_next step with
    | advance _ top _ _ => exact hs.setCode top _
    | enter top _ _ => exact (hs.setCode top _).setTJs _ _
    | setInlets top _ _ => exact (hs.setCode top _).setTJs _ _
    | setOutlets top _ _ => exact (hs.setCode top _).setTJs _ _
    | fetchOutlet top _ _ _ => exact hs.setCode top _
    | send top _ => exact hs.setCode top _
    | checkBound top _ _ => exact hs.setCode top _
    | sendNamed top _ => exact hs.setCode top _
    | leave top => exact ⟨hs.alive, fun g hg => hs.stack g (mem_of_below top hg), hs.refs⟩
    | callback top _ reached =>
      have caller := hs.stack _ (mem_of_top top)
      exact hs.push (List.forall_mem_cons.mpr ⟨caller _ reached, caller⟩)
    | take _ top _ offered => exact hs.take top (hs.offered offered)
    | link top _ _ reached =>
      have caller := hs.stack _ (mem_of_top top)
      exact hs.setRefs _ (List.forall_mem_cons.mpr ⟨caller _ reached, hs.refs _⟩)
    | unlink h' y => exact hs.setRefs h' fun x hx => hs.refs h' x (List.mem_of_mem_erase hx)
    | message _ alive _ =>
      exact hs.push (List.forall_mem_cons.mpr
        ⟨hs.alive _ alive, fun x hx => absurd hx List.not_mem_nil⟩)
    | create _ => exact hs.create _ _
    | free _ _ => exact ⟨fun x hx => hs.alive x (List.mem_of_mem_filter hx), hs.stack, hs.refs⟩
    | bind _ => exact ⟨hs.alive, hs.stack, hs.refs⟩
    | unbind _ => exact ⟨hs.alive, hs.stack, hs.refs⟩

theorem coherent_freePorts {x : ObjId} {p : PortState} (h : Coherent x p) :
    Coherent x (freePorts p) where
  obInlets := rfl
  obOutlets := rfl
  nodup := by simpa [freePorts] using h.nodup
  older := by simpa [freePorts] using h.older
  entries := fun _ hk => absurd hk (Nat.not_lt_zero _)
  inletSize := Nat.two_pow_pos 31
  outletSize := Nat.two_pow_pos 31

theorem coherent_ports {s : State} (h : Reachable activations always s) :
    ∀ x, Coherent x (s.objs x).ports := by
  apply h.invariant
  · rintro s ⟨bound, rfl⟩ x
    exact coherent_empty x
  · intro s l t _ hs step _
    have updated : ∀ (x : ObjId) (v : TJs), Coherent x v.ports →
        ∀ y, Coherent y (Function.update s.objs x v y).ports := by
      intro x v hv
      apply (Function.forall_update_iff s.objs fun y v => Coherent y v.ports).mpr
      exact ⟨hv, fun y _ => hs y⟩
    cases move_of_next step with
    | enter _ _ _ => exact updated _ _ (hs _)
    | setInlets _ _ _ => exact updated _ _ (coherent_jsSetInlets (hs _) _)
    | setOutlets _ _ _ => exact updated _ _ (coherent_jsSetOutlets (hs _) _)
    | create _ => exact updated _ _ (coherent_newPorts _)
    | free _ _ => exact updated _ _ (coherent_freePorts (hs _))
    | _ => exact hs

/-- A live object has its first inlet, so it can be sent a message. -/
theorem first_inlet {s : State} (h : Reachable activations always s) :
    ∀ x ∈ s.alive, ∃ e ∈ (s.objs x).ports.inlets, e.index = 0 := by
  have inlets : ∀ x ∈ s.alive, 0 < (s.objs x).ports.inlets.length := by
    apply h.invariant
    · rintro s ⟨bound, rfl⟩ x hx
      exact absurd hx List.not_mem_nil
    · intro s l t before hs step _
      have coherent := coherent_ports before
      have updated : ∀ (x : ObjId) (v : TJs) (alive : List ObjId),
          (x ∈ alive → 0 < v.ports.inlets.length) → (∀ y ∈ alive, y ≠ x → y ∈ s.alive) →
            ∀ y, y ∈ alive → 0 < (Function.update s.objs x v y).ports.inlets.length := by
        intro x v alive new old
        apply (Function.forall_update_iff s.objs fun y v =>
          y ∈ alive → 0 < v.ports.inlets.length).mpr
        exact ⟨new, fun y other hy => hs y (old y hy other)⟩
      cases move_of_next step with
      | enter _ _ alive => exact updated _ _ _ (fun _ => hs _ alive) (fun _ hy _ => hy)
      | setInlets _ _ _ =>
        exact updated _ _ _ (fun _ => inlets_jsSetInlets_pos (coherent _) _) (fun _ hy _ => hy)
      | setOutlets _ _ alive =>
        refine updated _ _ _ (fun _ => ?_) (fun _ hy _ => hy)
        rw [jsSetOutlets_inlets]
        exact hs _ alive
      | create _ =>
        refine updated _ _ _ (fun _ => inlets_newPorts_pos _) ?_
        exact fun y hy other => (List.mem_cons.mp hy).resolve_left other
      | free _ _ =>
        refine updated _ _ _ (fun still => ?_) (fun y hy _ => List.mem_of_mem_filter hy)
        have other := List.of_mem_filter still
        exact absurd rfl (of_decide_eq_true other)
      | _ => exact hs
  intro x hx
  have first := (coherent_ports h x).entries 0 (inlets x hx)
  exact ⟨_, List.getElem_mem (inlets x hx), first.2⟩

end Activations
