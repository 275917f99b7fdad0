import Pdjs.Activations

/-!
# The message context of a handler

The two fields behind `inlet` and `messagename` belong to the object and are set at
the start of a dispatch. A handler that sends may be entered again before it goes
on. A message is stored from the time an activation sets the fields until its
handler returns. The fields stay those of every stored message as long as a
dispatch to the same object carries the same context.
-/

namespace MessageContext

open GuardedRuns PdAtoms ObjectRegistry Ports Activations

abbrev Context := Int × CString

def context (x : TJs) : Context := (x.inlet, x.messagename)

/-- The context that an activation has set and whose handler has not returned. -/
def stored : List Instr → Option Context
  | [] => none
  | .enter _ _ :: _ => none
  | .handler inlet name :: _ => some (inlet, name)
  | _ :: code => stored code

/-- Script that runs on behalf of a dispatch, be it the handler itself or script that a
native callback of the handler waits for, finds the context of that dispatch. -/
def Stable (s : State) : Prop :=
  ∀ above f below inlet name, s.stack = above ++ f :: below → (∀ g ∈ above, g.running) →
    f.code.head? = some (.handler inlet name) → f.owner ∈ s.alive →
      context (s.objs f.owner) = (inlet, name)

/-- The object whose fields the step sets, and what it sets them to. -/
def entered (s : State) (l : Label) : Option (ObjId × Context) :=
  match l, s.stack with
  | .exec, ⟨x, .enter inlet name :: _, _⟩ :: _ => some (x, inlet, name)
  | _, _ => none

/-- The step does not set the fields to another context while one is stored. -/
def KeepsContext (s : State) (l : Label) : Prop :=
  ∀ e ∈ entered s l, ∀ g ∈ s.stack, g.owner = e.1 → ∀ c ∈ stored g.code, c = e.2

instance (s : State) (l : Label) : Decidable (KeepsContext s l) :=
  inferInstanceAs (Decidable (∀ e ∈ entered s l, ∀ g ∈ s.stack, g.owner = e.1 →
    ∀ c ∈ stored g.code, c = e.2))

/-- The handler gets the context that has been set before it, and nothing is stored
after it. -/
def Ordered : List Instr → Prop
  | [] => True
  | .enter inlet name :: code => (∀ c, stored code = some c → c = (inlet, name)) ∧ Ordered code
  | .handler _ _ :: code => stored code = none ∧ Ordered code
  | _ :: code => Ordered code

theorem Ordered.tail {i : Instr} {code : List Instr} (h : Ordered (i :: code)) : Ordered code := by
  cases i with
  | enter _ _ => exact h.2
  | handler _ _ => exact h.2
  | _ => exact h

theorem stored_cons {i : Instr} {code : List Instr} (h : Ordered (i :: code)) (plain : i.plain)
    {c : Context} (tail : stored code = some c) : stored (i :: code) = some c := by
  cases i with
  | enter _ _ => exact absurd plain nofun
  | handler _ _ => exact absurd (h.1.symm.trans tail) nofun
  | _ => exact tail

theorem ordered_jsLoad (result : Loaded) :
    Ordered (jsLoad result) ∧ stored (jsLoad result) = none := by
  cases result with
  | notRun => exact ⟨trivial, rfl⟩
  | ran => exact ⟨trivial, rfl⟩
  | failed => exact ⟨trivial, rfl⟩

theorem ordered_native (n : Native) : Ordered n.code ∧ stored n.code = none := by
  cases n with
  | jsGet property => cases property <;> exact ⟨trivial, rfl⟩
  | jsSet property value => cases property <;> cases value <;> exact ⟨trivial, rfl⟩
  | jsError => exact ⟨trivial, rfl⟩
  | jsOutlet n sends => cases n <;> exact ⟨trivial, rfl⟩
  | jsMessnamed name sends => cases name <;> exact ⟨trivial, rfl⟩
  | jsInclude result =>
    cases result with
    | none => exact ⟨trivial, rfl⟩
    | some result => exact ordered_jsLoad result
  | jsRequire result =>
    rcases result with _ | _ | _ | _ <;> exact ⟨trivial, rfl⟩

theorem ordered_request (inlet : Int) (request : Request) :
    Ordered (request.code inlet) ∧ stored (request.code inlet) = none := by
  cases request with
  | compile named result => cases named <;> exact ordered_jsLoad result
  | setprop error => cases error <;> exact ⟨trivial, rfl⟩
  | getprop defined sends => cases defined <;> exact ⟨trivial, rfl⟩
  | delprop => exact ⟨trivial, rfl⟩
  | menuOpen => exact ⟨trivial, rfl⟩
  | dispatch name result =>
    cases result with
    | missing error => cases error <;> exact ⟨trivial, rfl⟩
    | hidden => exact ⟨⟨nofun, trivial⟩, rfl⟩
    | returned =>
      refine ⟨⟨?_, rfl, trivial⟩, rfl⟩
      exact fun c same => (Option.some.inj same).symm
    | threw =>
      refine ⟨⟨?_, rfl, trivial⟩, rfl⟩
      exact fun c same => (Option.some.inj same).symm

structure Kept (s : State) : Prop where
  ordered : ∀ f ∈ s.stack, Ordered f.code
  fields : ∀ f ∈ s.stack, f.owner ∈ s.alive →
    ∀ c, stored f.code = some c → context (s.objs f.owner) = c

theorem stable_of_kept {s : State} (hs : Kept s) : Stable s := by
  intro above f below inlet name split _ head alive
  apply hs.fields f (split ▸ List.mem_append_right _ List.mem_cons_self) alive
  cases code : f.code with
  | nil => simp [code] at head
  | cons i rest =>
    rw [code] at head
    cases head
    rfl

theorem Kept.setCode {s : State} (hs : Kept s) {f : Frame} {below : List Frame}
    (top : s.stack = f :: below) {code : List Instr} (ordered : Ordered code)
    (same : ∀ c, stored code = some c → stored f.code = some c) :
    Kept (s.setCode f below code) := by
  have topmost : f ∈ s.stack := mem_of_top top
  have others : ∀ g ∈ below, g ∈ s.stack := fun g hg => mem_of_below top hg
  constructor
  · exact List.forall_mem_cons.mpr ⟨ordered, fun g hg => hs.ordered g (others g hg)⟩
  · refine List.forall_mem_cons.mpr ⟨?_, fun g hg => hs.fields g (others g hg)⟩
    exact fun alive c hc => hs.fields f topmost alive c (same c hc)

/-- Instructions that do not touch the context come in place of one. -/
theorem Kept.replace {s : State} (hs : Kept s) {f : Frame} {below : List Frame} {i : Instr}
    {code code' : List Instr} (top : s.stack = f :: below) (head : f.code = i :: code)
    (ordered : Ordered (i :: code) → Ordered code') (same : stored code' = stored (i :: code)) :
    Kept (s.setCode f below code') := by
  apply hs.setCode top
  · exact ordered (head ▸ hs.ordered f (mem_of_top top))
  · intro c hc
    rw [head, ← same, hc]

theorem Kept.advance {s : State} (hs : Kept s) {f : Frame} {below : List Frame} {i : Instr}
    {code : List Instr} (top : s.stack = f :: below) (head : f.code = i :: code)
    (plain : i.plain) : Kept (s.setCode f below code) := by
  have ordered : Ordered (i :: code) := head ▸ hs.ordered f (mem_of_top top)
  refine hs.setCode top ordered.tail ?_
  intro c hc
  rw [head]
  exact stored_cons ordered plain hc

theorem Kept.setTJs {s : State} (hs : Kept s) {x : ObjId} {v : TJs}
    (same : context v = context (s.objs x)) : Kept (s.setTJs x v) := by
  refine ⟨hs.ordered, fun f hf alive c hc => ?_⟩
  have old := hs.fields f hf alive c hc
  by_cases owner : f.owner = x
  · simpa [State.setTJs, owner, same] using owner ▸ old
  · simpa [State.setTJs, Function.update_of_ne owner] using old

theorem Kept.push {s : State} (hs : Kept s) {f : Frame}
    (fresh : Ordered f.code ∧ stored f.code = none) : Kept (s.push f) := by
  constructor
  · exact List.forall_mem_cons.mpr ⟨fresh.1, hs.ordered⟩
  · refine List.forall_mem_cons.mpr ⟨?_, hs.fields⟩
    exact fun _ c hc => absurd (fresh.2.symm.trans hc) nofun

/-- The fields are set while every message stored for the object has the same context. -/
theorem Kept.enter {s : State} (hs : Kept s) {f : Frame} {below : List Frame} {inlet : Int}
    {name : CString} {code : List Instr} (top : s.stack = f :: below)
    (head : f.code = .enter inlet name :: code)
    (keeps : KeepsContext s .exec) :
    Kept ((s.setCode f below code).setTJs f.owner
      { s.objs f.owner with inlet := inlet, messagename := name }) := by
  have ordered : Ordered (.enter inlet name :: code) :=
    head ▸ hs.ordered f (mem_of_top top)
  have others : ∀ g ∈ below, g ∈ s.stack := fun g hg => mem_of_below top hg
  have entering : entered s .exec = some (f.owner, inlet, name) := by
    obtain ⟨owner, _, locals⟩ := f
    subst head
    simp [entered, top]
  have set : ∀ g : Frame, g.owner = f.owner → ∀ c, c = (inlet, name) →
      context (Function.update s.objs f.owner
        { s.objs f.owner with inlet := inlet, messagename := name } g.owner) = c := by
    rintro g owner c rfl
    rw [owner, Function.update_self]
    rfl
  constructor
  · exact List.forall_mem_cons.mpr ⟨ordered.2, fun g hg => hs.ordered g (others g hg)⟩
  · refine List.forall_mem_cons.mpr ⟨?_, fun g hg alive c hc => ?_⟩
    · exact fun _ c hc => set _ rfl c (ordered.1 c hc)
    · by_cases owner : g.owner = f.owner
      · exact set g owner c (keeps _ entering g (others g hg) owner c hc)
      · simp only [State.setTJs, Function.update_of_ne owner]
        exact hs.fields g (others g hg) alive c hc

theorem Kept.create {s : State} (hs : Kept s) (old : Numbered s) (result : Loaded) (v : TJs)
    (refs : Holder → List ObjId) :
    Kept { s with
      objs := Function.update s.objs s.next v
      alive := s.next :: s.alive
      next := s.next + 1
      refs := refs
      stack := ⟨s.next, jsLoad result, []⟩ :: s.stack } := by
  have script := ordered_jsLoad result
  constructor
  · exact List.forall_mem_cons.mpr ⟨script.1, hs.ordered⟩
  · refine List.forall_mem_cons.mpr ⟨?_, fun g hg alive c hc => ?_⟩
    · exact fun _ c hc => absurd (script.2.symm.trans hc) nofun
    · have other : g.owner ≠ s.next :=
        Nat.ne_of_lt (old.stack g hg g.owner List.mem_cons_self)
      simp only [Function.update_of_ne other]
      exact hs.fields g hg ((List.mem_cons.mp alive).resolve_left other) c hc

theorem Kept.free {s : State} (hs : Kept s) (x : ObjId) (p : PortState) :
    Kept { s with
      objs := Function.update s.objs x { s.objs x with ports := p }
      alive := s.alive.filter (· ≠ x) } := by
  have kept := hs.setTJs (x := x) (v := { s.objs x with ports := p }) rfl
  exact ⟨kept.ordered, fun g hg alive => kept.fields g hg (List.mem_of_mem_filter alive)⟩

theorem kept {s : State} (h : Reachable activations KeepsContext s) : Kept s := by
  apply h.invariant
  · rintro s ⟨bound, rfl⟩
    exact ⟨fun f hf => absurd hf List.not_mem_nil, fun f hf => absurd hf List.not_mem_nil⟩
  · intro s l t before hs step keeps
    cases move_of_next step with
    | advance _ top head plain => exact hs.advance top head plain
    | enter top head _ => exact hs.enter top head keeps
    | @setInlets f below m code top head _ =>
      have same : Kept (s.setCode f below code) := hs.replace top head id rfl
      exact same.setTJs rfl
    | @setOutlets f below m code top head _ =>
      have same : Kept (s.setCode f below code) := hs.replace top head id rfl
      exact same.setTJs rfl
    | @fetchOutlet f below n sends code o top head _ _ =>
      cases sends <;> exact hs.replace top head id rfl
    | send top head => exact hs.replace top head id rfl
    | @checkBound f below name sends code top head _ =>
      cases sends <;> exact hs.replace top head id rfl
    | sendNamed top head => exact hs.replace top head id rfl
    | leave top =>
      have others := fun g (hg : g ∈ _) => mem_of_below top hg
      exact ⟨fun g hg => hs.ordered g (others g hg), fun g hg => hs.fields g (others g hg)⟩
    | callback _ _ _ => exact hs.push (ordered_native _)
    | @take l f below y _ top _ _ =>
      have same : Kept (s.setCode f below f.code) :=
        hs.setCode top (hs.ordered f (mem_of_top top)) (fun c hc => hc)
      exact ⟨List.forall_mem_cons.mpr (List.forall_mem_cons.mp same.ordered),
        List.forall_mem_cons.mpr (List.forall_mem_cons.mp same.fields)⟩
    | link _ _ _ _ => exact ⟨hs.ordered, hs.fields⟩
    | unlink _ _ => exact ⟨hs.ordered, hs.fields⟩
    | message _ _ _ => exact hs.push (ordered_request _ _)
    | create _ => exact hs.create (numbered before.unguarded) _ _ _
    | free _ _ => exact hs.free _ _
    | bind _ => exact ⟨hs.ordered, hs.fields⟩
    | unbind _ => exact ⟨hs.ordered, hs.fields⟩

/-- In every run in which no dispatch sets the fields to another context while one is
stored for the same object, handlers find the context of their own message. -/
theorem stable_while_kept {s : State} (h : Reachable activations KeepsContext s) : Stable s :=
  stable_of_kept (kept h)

/-- A message to the object, up to the call of its handler. -/
def calling (name : CString) : List Label :=
  [.message 0 0 (.dispatch name .returned), .exec, .resume, .exec, .resume]

/-- The handler calls `outlet`, up to the time the patch runs. -/
def sending : List Label :=
  [.callback 0 (.jsOutlet (some 0) true), .exec, .resume, .exec, .resume, .exec]

/-- The handler of `outer` sends, the patch sends `inner` back, and both return to the
handler of `outer`. -/
def reentered (outer inner : CString) : List Label :=
  [.create .notRun, .exec, .leave] ++ calling outer ++ sending ++
    calling inner ++ [.resume, .leave, .resume, .leave]

theorem stable_while_kept_sameMessage :
    ∃ s, Reachable activations KeepsContext s ∧ Stable s ∧
      s.stack = [⟨0, [.handler 0 (.ofBytes [97])], []⟩] := by
  obtain ⟨s, run⟩ : ∃ s, runLabels next KeepsContext (start fun _ => [])
      (reentered (.ofBytes [97]) (.ofBytes [97])) = some s := ⟨_, rfl⟩
  have reached := reachable_of_runLabels run
  have stable := stable_while_kept reached
  cases run
  exact ⟨_, reached, stable, rfl⟩

theorem not_stable_reentered :
    ∃ s, Reachable activations always s ∧ ¬ Stable s := by
  obtain ⟨s, run⟩ : ∃ s, runLabels next always (start fun _ => [])
      (reentered (.ofBytes [97]) (.ofBytes [98])) = some s := ⟨_, rfl⟩
  refine ⟨s, reachable_of_runLabels run, fun stable => ?_⟩
  have own := stable [] ⟨0, [.handler 0 (.ofBytes [97])], []⟩ [] 0 (.ofBytes [97])
  cases run
  exact absurd (own rfl nofun rfl (by decide)) (by decide)

end MessageContext
