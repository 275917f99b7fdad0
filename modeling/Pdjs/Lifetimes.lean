import Pdjs.Activations
import Pdjs.RootedGraphs

/-!
# The use of deleted objects

The native functions of a context refer to their object by its address, and a context
lives as long as script can get hold of one of its values, whatever has become of the
object. Every object is alive that script can get hold of, as long as only objects
are deleted that are out of reach once they no longer keep their own context.
-/

namespace Lifetimes

open GuardedRuns RootedGraphs PdAtoms ObjectRegistry Ports Activations

/-- The instruction uses the object of its activation. -/
def uses : Instr → Bool
  | .pointer => true
  | i => i.reads

/-- No activation goes on with an object for which `js_free` has run. -/
def Safe (s : State) : Prop :=
  ∀ f below i code, s.stack = f :: below → f.code = i :: code → uses i → f.owner ∈ s.alive

/-- Neither script nor a use of the object is left when the instruction is done. -/
def idle : Instr → Bool
  | .send _ | .sendNamed _ | .patch => true
  | _ => false

def Busy (f : Frame) : Prop := ∃ i ∈ f.code, idle i = false

/-- What belongs to no context. -/
def shared : Holder → Bool
  | .context _ => false
  | .global | .registry | .jobs => true

/-- What keeps a context, or has a value of it, and can be got hold of by the next script
to run. Jobs are run at the end of an outermost call of V8 only. -/
def Anchor (s : State) (x : ObjId) : Prop :=
  x ∈ s.alive ∨ ∃ h, shared h ∧ (h = .jobs → ∀ g ∈ s.stack, ¬ g.running) ∧ x ∈ s.refs h

/-- All pending jobs, and script that has not returned, have values as well. -/
def Root (s : State) (x : ObjId) : Prop :=
  (x ∈ s.alive ∨ ∃ h, shared h ∧ x ∈ s.refs h) ∨
    ∃ f ∈ s.stack, Busy f ∧ x ∈ f.owner :: f.locals

def Edge (s : State) (x y : ObjId) : Prop := y ∈ s.refs (.context x)

/-- Script can get hold of a value of the context. -/
def InReach (s : State) : ObjId → Prop := Reach (Root s) (Edge s)

def deleted (s : State) (x : ObjId) : State := { s with alive := s.alive.filter (· ≠ x) }

/-- An object is deleted only if it is out of reach without itself. -/
def SafeDeletion (s : State) : Label → Prop
  | .free x => ¬ InReach (deleted s x) x
  | _ => True

/-- Everything in reach is alive. -/
def Covered (s : State) : Prop := ∀ y, InReach s y → y ∈ s.alive

theorem safe_of_covered {s : State} (hs : Covered s) : Safe s := by
  intro f below i code top head use
  apply hs
  refine .root (Or.inr ⟨f, mem_of_top top, ⟨i, ?_, ?_⟩, List.mem_cons_self⟩)
  · exact head ▸ List.mem_cons_self
  · cases i with
    | send _ => exact absurd use nofun
    | sendNamed _ => exact absurd use nofun
    | patch => exact absurd use nofun
    | _ => rfl

theorem busy_of_running {f : Frame} (running : f.running) : Busy f := by
  obtain ⟨owner, code, locals⟩ := f
  cases code with
  | nil => exact absurd running nofun
  | cons i code =>
    refine ⟨i, List.mem_cons_self, ?_⟩
    cases i with
    | script => rfl
    | handler _ _ => rfl
    | _ => exact absurd running nofun

theorem busy_of_tail {f : Frame} {i : Instr} {code : List Instr} (head : f.code = i :: code)
    (h : Busy { f with code := code }) : Busy f := by
  obtain ⟨j, hj, work⟩ := h
  exact ⟨j, head ▸ List.mem_cons_of_mem _ hj, work⟩

theorem busy_of_sent {f : Frame} {i : Instr} {code : List Instr} (head : f.code = i :: code)
    (h : Busy { f with code := .patch :: code }) : Busy f := by
  obtain ⟨j, hj, work⟩ := h
  rcases List.mem_cons.mp hj with rfl | later
  · exact absurd work nofun
  · exact ⟨j, head ▸ List.mem_cons_of_mem _ later, work⟩

theorem busy_of_head {f : Frame} {i : Instr} {code : List Instr} (head : f.code = i :: code)
    (work : idle i = false) : Busy f :=
  ⟨i, head ▸ List.mem_cons_self, work⟩

theorem Covered.mono {s t : State} (hs : Covered s) (alive : ∀ y ∈ s.alive, y ∈ t.alive)
    (roots : ∀ r, Root t r → InReach s r) (edges : ∀ x y, InReach s x → Edge t x y → InReach s y) :
    Covered t :=
  fun y hy => alive y (hs y (hy.mono roots edges))

theorem Covered.setCode {s : State} (hs : Covered s) {f : Frame} {below : List Frame}
    (top : s.stack = f :: below) {code : List Instr}
    (busy : Busy { f with code := code } → Busy f) :
    Covered (s.setCode f below code) := by
  refine hs.mono (fun _ hy => hy) (fun r hr => ?_) (fun x y hx hxy => .step hx hxy)
  rcases hr with kept | ⟨g, hg, work, mem⟩
  · exact .root (Or.inl kept)
  · rcases List.mem_cons.mp hg with rfl | old
    · exact .root (Or.inr ⟨f, mem_of_top top, busy work, mem⟩)
    · exact .root (Or.inr ⟨g, mem_of_below top old, work, mem⟩)

theorem Covered.setTJs {s : State} (hs : Covered s) (x : ObjId) (v : TJs) :
    Covered (s.setTJs x v) :=
  hs.mono (fun _ hy => hy) (fun _ hr => .root hr) (fun _ _ hx hxy => .step hx hxy)

theorem Covered.push {s : State} (hs : Covered s) {f : Frame}
    (inReach : ∀ x ∈ f.owner :: f.locals, InReach s x) : Covered (s.push f) := by
  refine hs.mono (fun _ hy => hy) (fun r hr => ?_) (fun x y hx hxy => .step hx hxy)
  rcases hr with kept | ⟨g, hg, work, mem⟩
  · exact .root (Or.inl kept)
  · rcases List.mem_cons.mp hg with rfl | old
    · exact inReach r mem
    · exact .root (Or.inr ⟨g, old, work, mem⟩)

/-- What running script takes hold of, or links to, it has been able to reach. -/
theorem inReach_of_running {s : State} {f : Frame} {below : List Frame}
    (top : s.stack = f :: below) (running : f.running) {y : ObjId}
    (mem : y ∈ f.owner :: f.locals) : InReach s y :=
  .root (Or.inr ⟨f, mem_of_top top, busy_of_running running, mem⟩)

theorem inReach_of_shared {s : State} {h : Holder} (outside : shared h) {y : ObjId}
    (held : y ∈ s.refs h) : InReach s y :=
  .root (Or.inl (Or.inr ⟨h, outside, held⟩))

theorem inReach_of_offered {s : State} {f : Frame} {below : List Frame}
    (top : s.stack = f :: below) (running : f.running) {y : ObjId} (offered : s.Offers f y) :
    InReach s y := by
  rcases offered with ⟨h, readable, held⟩ | ⟨g, hg, active, mem⟩
  · cases h with
    | context z =>
      have holds : f.holds (.context z) := readable.resolve_right Holder.noConfusion
      exact .step (inReach_of_running top running holds) held
    | global => exact inReach_of_shared rfl held
    | registry => exact inReach_of_shared rfl held
    | jobs => exact inReach_of_shared rfl held
  · exact .root (Or.inr ⟨g, hg, busy_of_running active, mem⟩)

/-- New references only lead to values that were in reach. -/
theorem Covered.setRefs {s : State} (hs : Covered s) (h : Holder) {ys : List ObjId}
    (inReach : ∀ y ∈ ys, y ∈ s.refs h ∨ InReach s y) :
    Covered { s with refs := Function.update s.refs h ys } := by
  have known : ∀ k y, y ∈ Function.update s.refs h ys k → y ∈ s.refs k ∨ InReach s y := by
    intro k y hy
    by_cases same : k = h
    · subst same
      rw [Function.update_self] at hy
      exact inReach y hy
    · rw [Function.update_of_ne same] at hy
      exact Or.inl hy
  refine hs.mono (fun _ hy => hy) (fun r hr => ?_) (fun x y hx hxy => ?_)
  · rcases hr with (alive | ⟨k, outside, held⟩) | script
    · exact .root (Or.inl (Or.inl alive))
    · rcases known _ _ held with old | reached
      · exact inReach_of_shared outside old
      · exact reached
    · exact .root (Or.inr script)
  · rcases known _ _ hxy with old | reached
    · exact .step hx old
    · exact reached

theorem covered_take {s : State} (hs : Covered s) {f : Frame} {below : List Frame}
    (top : s.stack = f :: below) (running : f.running) {y : ObjId} (reached : InReach s y) :
    Covered { s with stack := { f with locals := y :: f.locals } :: below } := by
  refine hs.mono (fun _ hy => hy) (fun r hr => ?_) (fun x y hx hxy => .step hx hxy)
  rcases hr with kept | ⟨g, hg, work, mem⟩
  · exact .root (Or.inl kept)
  · rcases List.mem_cons.mp hg with rfl | old
    · rcases List.mem_cons.mp mem with rfl | mem
      · exact inReach_of_running top running List.mem_cons_self
      · rcases List.mem_cons.mp mem with rfl | mem
        · exact reached
        · exact inReach_of_running top running (List.mem_cons_of_mem _ mem)
    · exact .root (Or.inr ⟨g, mem_of_below top old, work, mem⟩)

theorem covered_create {s : State} (hs : Covered s) (result : Loaded) (v : TJs) :
    Covered { s with
      objs := Function.update s.objs s.next v
      alive := s.next :: s.alive
      next := s.next + 1
      refs := s.createdRefs
      stack := ⟨s.next, jsLoad result, []⟩ :: s.stack } := by
  have known : ∀ y, InReach s y → y ∈ s.next :: s.alive :=
    fun y hy => List.mem_cons_of_mem _ (hs y hy)
  intro y hy
  refine hy.least ?_ ?_
  · intro r hr
    rcases hr with (alive | ⟨k, outside, held⟩) | ⟨f, hf, work, mem⟩
    · exact alive
    · rcases mem_createdRefs (s := s) (k := k) held with ⟨_, rfl⟩ | ⟨_, old⟩
      · exact List.mem_cons_self
      · exact known r (inReach_of_shared outside old)
    · rcases List.mem_cons.mp hf with rfl | old
      · exact List.mem_singleton.mp mem ▸ List.mem_cons_self
      · exact known r (.root (Or.inr ⟨f, old, work, mem⟩))
  · intro x y hx hxy
    rcases mem_createdRefs (s := s) (k := .context x) hxy with ⟨no, _⟩ | ⟨other, old⟩
    · exact absurd no nofun
    · have alive : x ∈ s.alive :=
        (List.mem_cons.mp hx).resolve_left fun same => other (congrArg _ same)
      exact known y (.step (.root (Or.inl (Or.inl alive))) old)

/-- After a safe deletion everything in reach was in reach before and is not the object. -/
theorem covered_free {s : State} (hs : Covered s) (x : ObjId) (v : TJs)
    (safe : ¬ InReach (deleted s x) x) : Covered (deleted (s.setTJs x v) x) := by
  have fewer : ∀ y, InReach (deleted s x) y → InReach s y := by
    intro y hy
    refine hy.of_subset (fun r hr => ?_) (fun _ _ hxy => hxy)
    rcases hr with (alive | held) | script
    · exact Or.inl (Or.inl (List.mem_of_mem_filter alive))
    · exact Or.inl (Or.inr held)
    · exact Or.inr script
  intro y hy
  have reached : InReach (deleted s x) y := hy
  have other : y ≠ x := fun same => safe (same ▸ reached)
  exact List.mem_filter.mpr ⟨hs y (fewer y reached), decide_eq_true other⟩

theorem covered {s : State} (h : Reachable activations SafeDeletion s) : Covered s := by
  apply h.invariant
  · rintro s ⟨bound, rfl⟩ y hy
    refine hy.least (fun r hr => ?_) (fun x y _ hxy => absurd hxy List.not_mem_nil)
    rcases hr with (alive | ⟨_, _, held⟩) | ⟨f, hf, _⟩
    · exact alive
    · exact absurd held List.not_mem_nil
    · exact absurd hf List.not_mem_nil
  · intro s l t _ hs step safe
    cases move_of_next step with
    | advance _ top head _ => exact hs.setCode top (busy_of_tail head)
    | enter top head _ => exact (hs.setCode top (busy_of_tail head)).setTJs _ _
    | setInlets top head _ => exact (hs.setCode top (busy_of_tail head)).setTJs _ _
    | setOutlets top head _ => exact (hs.setCode top (busy_of_tail head)).setTJs _ _
    | fetchOutlet top head _ _ => exact hs.setCode top (fun _ => busy_of_head head rfl)
    | send top head => exact hs.setCode top (busy_of_sent head)
    | checkBound top head _ => exact hs.setCode top (fun _ => busy_of_head head rfl)
    | sendNamed top head => exact hs.setCode top (busy_of_sent head)
    | leave top =>
      refine hs.mono (fun _ hy => hy) (fun r hr => ?_) (fun _ _ hx hxy => .step hx hxy)
      rcases hr with kept | ⟨g, hg, script⟩
      · exact .root (Or.inl kept)
      · exact .root (Or.inr ⟨g, mem_of_below top hg, script⟩)
    | callback top running reached =>
      exact hs.push (List.forall_mem_cons.mpr
        ⟨inReach_of_running top running reached, fun x hx => inReach_of_running top running hx⟩)
    | take _ top running offered =>
      exact covered_take hs top running (inReach_of_offered top running offered)
    | link top running _ reached =>
      apply hs.setRefs
      intro y hy
      rcases List.mem_cons.mp hy with rfl | old
      · exact Or.inr (inReach_of_running top running reached)
      · exact Or.inl old
    | unlink h' y => exact hs.setRefs h' fun x hx => Or.inl (List.mem_of_mem_erase hx)
    | message _ alive _ =>
      refine hs.push (List.forall_mem_cons.mpr ⟨?_, fun x hx => absurd hx List.not_mem_nil⟩)
      exact .root (Or.inl (Or.inl alive))
    | create _ => exact covered_create hs _ _
    | free _ _ => exact covered_free hs _ _ safe
    | bind _ =>
      exact hs.mono (fun _ hy => hy) (fun _ hr => .root hr) (fun _ _ hx hxy => .step hx hxy)
    | unbind _ =>
      exact hs.mono (fun _ hy => hy) (fun _ hr => .root hr) (fun _ _ hx hxy => .step hx hxy)

/-- The runs that go on from a state. -/
def after (t : State) : System State Label := .ofNext (fun s => s = t) next

/-- A run from `t` has come to script that has got hold of the context, and nothing it
could get hold of at `t` has been lost or revived. -/
structure InHand (t u : State) (y : ObjId) : Prop where
  run : Reachable (after t) always u
  dead : ∀ x < t.next, x ∈ u.alive → x ∈ t.alive
  heap : ∀ x < t.next, u.refs (.context x) = t.refs (.context x)
  hand : ∃ f below, u.stack = f :: below ∧ f.running ∧ y ∈ f.owner :: f.locals

theorem InHand.take {t u : State} {x y : ObjId} (h : InHand t u x) (older : x < t.next)
    (edge : Edge t x y) : ∃ v, InHand t v y := by
  obtain ⟨f, below, top, running, mem⟩ := h.hand
  have held : y ∈ u.refs (.context x) := by
    rw [h.heap x older]
    exact edge
  have step : next u (.take (.context x) y) =
      some { u with stack := { f with locals := y :: f.locals } :: below } := by
    simp only [next, top]
    exact if_pos ⟨running, mem, held⟩
  refine ⟨_, .next h.run step trivial, h.dead, h.heap, _, _, rfl, running, ?_⟩
  exact List.mem_cons_of_mem _ List.mem_cons_self

theorem step_message {s : State} {x : ObjId} (request : Request) (turn : s.patchTurn)
    (alive : x ∈ s.alive) (inlet : ∃ e ∈ (s.objs x).ports.inlets, e.index = 0) :
    activations.step s (.message x 0 request) (s.push ⟨x, request.code 0, []⟩) :=
  if_pos ⟨turn, alive, inlet⟩

/-- The patch sends a message to a live object, whose dispatch looks up a function. -/
theorem inHand_alive {t : State} (turn : t.patchTurn) {x : ObjId} (alive : x ∈ t.alive)
    (inlet : ∃ e ∈ (t.objs x).ports.inlets, e.index = 0) : ∃ u, InHand t u x := by
  have sent := step_message (.dispatch (.ofBytes []) (.missing false)) turn alive inlet
  have looked : next (t.push ⟨x, [.owner, .script], []⟩) .exec =
      some (t.push ⟨x, [.script], []⟩) :=
    if_neg fun stuck => stuck.2 alive
  refine ⟨t.push ⟨x, [.script], []⟩, ?_, fun _ _ hx => hx, fun _ _ => rfl, ?_⟩
  · exact .next (.next (.start rfl) sent trivial) looked trivial
  · exact ⟨_, _, rfl, rfl, List.mem_cons_self⟩

/-- The object of a `js_new` is there, and its script has not run yet. -/
def made (t : State) : State :=
  { t with
    objs := Function.update t.objs t.next ⟨newPorts t.next, 0, .ofBytes []⟩
    alive := t.next :: t.alive
    next := t.next + 1
    refs := t.createdRefs }

/-- A new object runs its script, and pending jobs run with it if no other script does. -/
theorem inHand_shared {t : State} (turn : t.patchTurn) {h : Holder} (outside : shared h)
    (quiet : h = .jobs → ∀ g ∈ t.stack, ¬ g.running) {y : ObjId} (held : y ∈ t.refs h) :
    ∃ u, InHand t u y := by
  have created : next t (.create .ran) = some ((made t).push ⟨t.next, [.owner, .script], []⟩) :=
    if_pos turn
  have started : next ((made t).push ⟨t.next, [.owner, .script], []⟩) .exec =
      some ((made t).push ⟨t.next, [.script], []⟩) :=
    if_neg fun stuck => stuck.2 List.mem_cons_self
  have new : h ≠ .context t.next := by
    rintro rfl
    exact absurd outside Bool.false_ne_true
  have there : y ∈ (made t).refs h := createdRefs_of_ne new held
  obtain ⟨l, taken⟩ : ∃ l, next ((made t).push ⟨t.next, [.script], []⟩) l =
      some ((made t).push ⟨t.next, [.script], [y]⟩) := by
    cases h with
    | context x => exact absurd outside Bool.false_ne_true
    | global => exact ⟨.take .global y, if_pos ⟨rfl, trivial, there⟩⟩
    | registry => exact ⟨.take .registry y, if_pos ⟨rfl, trivial, there⟩⟩
    | jobs => exact ⟨.job y, if_pos ⟨rfl, quiet rfl, there⟩⟩
  refine ⟨(made t).push ⟨t.next, [.script], [y]⟩, ?_, ?_, ?_, ?_⟩
  · exact .next (.next (.next (.start rfl) created trivial) started trivial) taken trivial
  · intro x older alive
    exact (List.mem_cons.mp alive).resolve_left (Nat.ne_of_lt older)
  · intro x older
    exact createdRefs_context (Nat.ne_of_lt older)
  · exact ⟨_, _, rfl, rfl, List.mem_cons_of_mem _ List.mem_cons_self⟩

theorem inHand_of_reach {t : State} (h : Reachable activations always t) (turn : t.patchTurn)
    {y : ObjId} (reached : Reach (Anchor t) (Edge t) y) : y < t.next ∧ ∃ u, InHand t u y := by
  have old := numbered h
  induction reached with
  | root anchor =>
    rcases anchor with alive | ⟨k, outside, quiet, held⟩
    · exact ⟨old.alive _ alive, inHand_alive turn alive (first_inlet h _ alive)⟩
    · exact ⟨old.refs k _ held, inHand_shared turn outside quiet held⟩
  | step _ edge ih =>
    obtain ⟨older, u, hand⟩ := ih
    exact ⟨old.refs _ _ edge, hand.take older edge⟩

theorem unsafe_of_inHand {t u : State} {x : ObjId} (h : InHand t u x) (older : x < t.next)
    (gone : x ∉ t.alive) : ∃ v, Reachable (after t) always v ∧ ¬ Safe v := by
  obtain ⟨f, below, top, running, mem⟩ := h.hand
  have called : next u (.callback x (.jsGet .other)) =
      some (u.push ⟨x, [.pointer], f.owner :: f.locals⟩) := by
    simp only [next, top]
    exact if_pos ⟨running, mem⟩
  refine ⟨_, .next h.run called trivial, fun safe => ?_⟩
  exact gone (h.dead x older (safe _ _ _ _ rfl rfl rfl))

theorem used_after_deletion {s t : State} {x : ObjId} (h : Reachable activations always s)
    (step : activations.step s (.free x) t) (left : Reach (Anchor t) (Edge t) x) :
    ∃ u, Reachable (after t) always u ∧ ¬ Safe u := by
  have reached : Reachable activations always t := .next h step trivial
  cases move_of_next step with
  | advance own _ _ _ => exact absurd own nofun
  | take own _ _ _ => exact absurd own nofun
  | free turn alive =>
    obtain ⟨older, u, hand⟩ := inHand_of_reach reached turn left
    refine unsafe_of_inHand hand older fun still => ?_
    simpa using List.of_mem_filter still

/-- No deleted object is used in a run in which objects are only deleted once they are
out of reach. A deleted object that a live object, `__global__`, the registry or, while
no script runs, a pending job leads to is used in a continuation of the run. -/
theorem safe_while_unreached {s : State} (h : Reachable activations always s) :
    (Reachable activations SafeDeletion s → Safe s) ∧
      ∀ t x, activations.step s (.free x) t → Reach (Anchor t) (Edge t) x →
        ∃ u, Reachable (after t) always u ∧ ¬ Safe u :=
  ⟨fun unreached => safe_of_covered (covered unreached),
    fun _ _ step left => used_after_deletion h step left⟩

def created : List Label := [.create .notRun, .exec, .leave]

/-- The script of the first object puts a function into `__global__`. -/
def published : List Label := [.create .ran, .exec, .link .global 0, .resume, .leave]

/-- The first object is deleted, and the script of the second calls the function. -/
def called : List Label :=
  published ++ [.free 0, .create .ran, .exec, .take .global 0,
    .callback 0 (.jsOutlet (some 0) true)]

/-- No step of the run deletes an object. -/
def Keeps (_ : State) (l : Label) : Prop := ∀ x, l ≠ .free x

instance (s : State) : (l : Label) → Decidable (Keeps s l)
  | .free x => isFalse fun keeps => keeps x rfl
  | .exec | .resume | .leave | .callback _ _ | .take _ _ | .job _ | .caller _ | .link _ _
  | .unlink _ _ | .message _ _ _ | .create _ | .bind _ _ | .unbind _ _ => isTrue nofun

theorem safe_of_keeps {s : State} (h : Reachable activations Keeps s) :
    Reachable activations SafeDeletion s := by
  refine h.mono fun s l keeps => ?_
  cases l with
  | free x => exact absurd rfl (keeps x)
  | _ => trivial

/-- Contexts that refer to nothing are reached only where the roots are. -/
theorem alive_of_noRefs {s : State} (quiet : s.stack = []) (refs : ∀ x, s.refs (.context x) = [])
    (held : ∀ h x, shared h → x ∈ s.refs h → x ∈ s.alive) {y : ObjId} (h : InReach s y) :
    y ∈ s.alive := by
  refine h.least (fun r hr => ?_) (fun x y _ hxy => ?_)
  · rcases hr with (alive | ⟨k, outside, there⟩) | ⟨f, hf, _⟩
    · exact alive
    · exact held k r outside there
    · simp [quiet] at hf
  · simp [Edge, refs] at hxy

/-- An object is deleted while nothing runs. -/
theorem step_free {s : State} (quiet : s.stack = []) {x : ObjId} (alive : x ∈ s.alive) :
    activations.step s (.free x)
      (deleted (s.setTJs x { s.objs x with ports := freePorts (s.objs x).ports }) x) := by
  have turn : s.patchTurn := by simp [State.patchTurn, quiet]
  exact if_pos ⟨turn, alive⟩

/-- Of two objects without references of their own the second is deleted, and the first
gets a message. -/
theorem safe_while_unreached_twoObjects :
    (∃ s, Reachable activations SafeDeletion s ∧ Safe s ∧ s.alive = [0] ∧
      s.stack = [⟨0, [.owner], []⟩]) ∧
    ∃ t, Reachable activations always t ∧ t.alive = [] ∧
      ∃ u, Reachable (after t) always u ∧ ¬ Safe u := by
  constructor
  · obtain ⟨s, run, alive, quiet, refs, held, inlet⟩ : ∃ s,
        runLabels next Keeps (start fun _ => []) (created ++ created) = some s ∧
          s.alive = [1, 0] ∧ s.stack = [] ∧ (∀ x, s.refs (.context x) = []) ∧
            (∀ h x, shared h → x ∈ s.refs h → x = 0) ∧
              ∃ e ∈ (s.objs 0).ports.inlets, e.index = 0 := by
      refine ⟨_, rfl, rfl, rfl, fun x => ?_, fun h x outside there => ?_, by decide⟩
      · simp [start, State.setCode, State.createdRefs, Function.update_apply]
      · cases h with
        | context y => exact absurd outside Bool.false_ne_true
        | global => exact List.mem_singleton.mp there
        | registry => exact absurd there List.not_mem_nil
        | jobs => exact absurd there List.not_mem_nil
    have both := safe_of_keeps (reachable_of_runLabels run)
    have unreached : ¬ InReach (deleted s 1) 1 := by
      intro reached
      have left := alive_of_noRefs (s := deleted s 1) quiet refs
        (fun h x outside there => by simp [deleted, alive, held h x outside there]) reached
      simp [deleted] at left
    have gone := Reachable.next both (step_free quiet (by simp [alive])) unreached
    have sent := Reachable.next gone
      (step_message (x := 0) .menuOpen (by simp [State.patchTurn, deleted, State.setTJs, quiet])
        (by simp [deleted, State.setTJs, alive])
        (by simpa [deleted, State.setTJs] using inlet)) trivial
    refine ⟨_, sent, (safe_while_unreached sent.unguarded).1 sent, ?_, ?_⟩
    · simp [State.push, deleted, State.setTJs, alive]
    · simp [State.push, deleted, State.setTJs, quiet, Request.code]
  · obtain ⟨s, run, alive, quiet, global⟩ : ∃ s,
        runLabels next always (start fun _ => []) published = some s ∧
          s.alive = [0] ∧ s.stack = [] ∧ 0 ∈ s.refs .global :=
      ⟨_, rfl, rfl, rfl, by decide⟩
    have before := reachable_of_runLabels run
    have step := step_free quiet (x := 0) (by simp [alive])
    refine ⟨_, .next before step trivial, by simp [deleted, State.setTJs, alive], ?_⟩
    have left : ∀ v, Anchor (deleted (s.setTJs 0 v) 0) 0 :=
      fun _ => Or.inr ⟨.global, rfl, Holder.noConfusion, global⟩
    exact (safe_while_unreached before).2 _ 0 step (.root (left _))

theorem not_safe_called : ∃ s, Reachable activations always s ∧ ¬ Safe s := by
  obtain ⟨s, run⟩ : ∃ s, runLabels next always (start fun _ => []) called = some s := ⟨_, rfl⟩
  refine ⟨s, reachable_of_runLabels run, fun safe => ?_⟩
  cases run
  exact absurd (safe _ _ _ _ rfl rfl rfl) (by decide)

end Lifetimes
