import Pdjs.Dispatch
import Pdjs.GuardedRuns
import Pdjs.Loading

/-!
# Handlers

A message that is not one of the built-in ones is dispatched to a global function. Each
lookup, the test of `private` and the call itself may run script, and script may send
messages that are dispatched before it returns. Between two steps of a dispatch the state
of V8 is therefore any other one, and more dispatches may have begun and ended.

A dispatch keeps what it has done, each lookup with the state of V8 in which it ended.
Objects are not deleted in these runs, and no name is so long that V8 ends the process.
-/

namespace Handlers

open GuardedRuns PdAtoms TextEncoding ObjectRegistry Marshalling Dispatch Loading

universe u

variable {P : Platform} {ω : Type u}

/-- `String::NewFromUtf8` without a length, which is never empty. -/
def newFromUtf8 (data : CString) : JsString := decodeUtf8 data.bytes

/-- The errors of a dispatch; the last one comes with the text of the exception. -/
inductive HandlerError where
  | isPrivate
  | doesNotExist
  | calling (exception : CString)

def HandlerError.text (name : CString) : HandlerError → List UInt8
  | .isPrivate => ascii "Function '" ++ name.bytes ++ ascii "' is private."
  | .doesNotExist => ascii "Function '" ++ name.bytes ++ ascii "' does not exist."
  | .calling e => ascii "Error calling '" ++ name.bytes ++ ascii "':\n" ++ e.bytes

/-- What the lookups on behalf of an object give in a state of V8. -/
structure World (P : Platform) (ω : Type u) where
  view : ω → ObjId → Context
  reg : ω → Registry P

/-- The arguments of `js_anything`. -/
structure Received where
  owner : ObjId
  index : Nat
  s : Symbol
  argc : Nat
  argv : Nat → Atom

/-- `js_loadbang`, called with the action of loading or with another one. -/
def jsLoadbang (owner : ObjId) (lbLoad : Bool) : Option Received :=
  if lbLoad then some ⟨owner, 0, gensym (.ofAscii "loadbang"), 0, fun _ => default⟩ else none

/-- A `set` sets the fields behind `inlet` and `messagename`, and a `read` is that of the
property `private` of a function. -/
inductive Event (ω : Type u) where
  | looked (w : ω) (name : JsString)
  | set (w : ω) (inlet : Nat) (messagename : CString)
  | read (w : ω) (f : Ref)
  | converted (w : ω) (f : Ref) (privateVal : Value)
  | called (f : Ref) (args : Decoded)
  | error (text : List UInt8)

/-- What a dispatch does next, or waits for. -/
inductive Phase where
  | lookup (funcName : JsString)
  | lookupAnything
  | enter (f : Ref)
  | readPrivate (f : Ref) (args : Decoded)
  | convert (f : Ref) (args : Decoded) (privateVal : Value)
  | calling (f : Ref)
  | done

structure Activation (ω : Type u) where
  message : Received
  phase : Phase
  history : List (Event ω)

/-- The fields of a `t_js` that a dispatch sets. -/
structure Fields where
  inlet : Nat
  messagename : CString

/-- The last dispatch to begin is the first in `running`. -/
structure State (ω : Type u) where
  heap : ω
  fields : ObjId → Fields
  running : List (Activation ω)
  finished : List (Activation ω)

def Activation.next (a : Activation ω) (phase : Phase) (events : List (Event ω)) :
    Activation ω :=
  { a with phase := phase, history := a.history ++ events }

/-- The start of a dispatch. -/
def begin (m : Received) : Activation ω := ⟨m, .lookup (newFromUtf8 (msgName m.s)), []⟩

/-- The next step of a dispatch in a state of V8. A call ends with a step of its own. -/
def advance (W : World P ω) (heap : ω) (a : Activation ω) : Option (Activation ω) :=
  let c := W.view heap a.message.owner
  let name := msgName a.message.s
  match a.phase with
  | .lookup funcName =>
    match globalFunction c funcName with
    | some f => some (a.next (.enter f) [.looked heap funcName])
    | none =>
      if fallback a.message.s then
        some (a.next .lookupAnything [.looked heap funcName])
      else
        some (a.next .done [.looked heap funcName])
  | .lookupAnything =>
    match globalFunction c (jsText "anything") with
    | some f => some (a.next (.enter f) [.looked heap (jsText "anything")])
    | none =>
      some (a.next .done [.looked heap (jsText "anything"),
        .error (HandlerError.doesNotExist.text name)])
  | .enter f =>
    let args := callArgs (W.reg heap) a.message.s a.message.argc a.message.argv
    some (a.next (.readPrivate f args) [.set heap a.message.index name])
  | .readPrivate f args =>
    match c.realNamed f (jsText "private") with
    | none => some (a.next (.calling f) [.read heap f, .called f args])
    | some privateVal => some (a.next (.convert f args privateVal) [.read heap f])
  | .convert f args privateVal =>
    if c.toInt32 privateVal = some 1 then
      some (a.next .done [.converted heap f privateVal, .error (HandlerError.isPrivate.text name)])
    else
      some (a.next (.calling f) [.converted heap f privateVal, .called f args])
  | .calling _ => none
  | .done => none

/-- The fields of its object after that step. -/
def entered (a : Activation ω) (fields : ObjId → Fields) : ObjId → Fields :=
  match a.phase with
  | .enter _ => Function.update fields a.message.owner ⟨a.message.index, msgName a.message.s⟩
  | _ => fields

/-- Script may run on behalf of the dispatch. -/
def Phase.waits : Phase → Bool
  | .enter _ => false
  | .done => false
  | _ => true

/-- Script or the patch is running. -/
def State.open (s : State ω) : Bool :=
  match s.running with
  | [] => true
  | a :: _ => a.phase.waits

inductive Label (ω : Type u) where
  /-- the last dispatch takes its next step -/
  | exec
  /-- its call ends, perhaps with an exception -/
  | ends (exception : Option CString)
  /-- it returns -/
  | leave
  /-- script or the patch changes the state of V8 -/
  | script (heap : ω)
  | message (m : Received)

def next (W : World P ω) (win32 : Bool) (s : State ω) : Label ω → Option (State ω)
  | .exec =>
    match s.running with
    | [] => none
    | a :: rest =>
      (advance W s.heap a).map fun b =>
        { s with fields := entered a s.fields, running := b :: rest }
  | .ends exception =>
    match s.running with
    | [] => none
    | a :: rest =>
      match a.phase with
      | .calling _ =>
        let errors := exception.toList.map fun e =>
          .error ((HandlerError.calling e).text (msgName a.message.s))
        some { s with running := a.next .done errors :: rest }
      | _ => none
  | .leave =>
    match s.running with
    | [] => none
    | a :: rest =>
      match a.phase with
      | .done => some { s with running := rest, finished := a :: s.finished }
      | _ => none
  | .script heap => if s.open then some { s with heap := heap } else none
  | .message m =>
    if s.open ∧ branch win32 m.s = .dispatch then
      some { s with running := begin m :: s.running }
    else none

def handlers (W : World P ω) (win32 : Bool) : System (State ω) (Label ω) :=
  .ofNext (fun s => s.running = [] ∧ s.finished = []) (next W win32)

def Event.isLookup : Event ω → Bool
  | .looked _ _ => true
  | _ => false

/-- The event belongs to the test of `private`. -/
def Event.isProbe : Event ω → Bool
  | .read _ _ => true
  | .converted _ _ _ => true
  | _ => false

def Event.callee : Event ω → Option Ref
  | .called f _ => some f
  | _ => none

def Event.fields : Event ω → Option (Nat × CString)
  | .set _ inlet messagename => some (inlet, messagename)
  | _ => none

def Event.report : Event ω → Option (List UInt8)
  | .error text => some text
  | _ => none

def calls (h : List (Event ω)) : List Ref := h.filterMap Event.callee

def sets (h : List (Event ω)) : List (Nat × CString) := h.filterMap Event.fields

def errors (h : List (Event ω)) : List (List UInt8) := h.filterMap Event.report

/-- The part of the history before the call. -/
def beforeCall (h : List (Event ω)) : List (Event ω) := h.takeWhile fun e => e.callee.isNone

/-- The lookups of a dispatch choose a function: the global of the name if it is one, or
else `anything` if that is one and the message falls back. -/
inductive Chosen (W : World P ω) (m : Received) : List (Event ω) → Ref → Prop where
  | named {w : ω} {f : Ref}
      (found : globalFunction (W.view w m.owner) (newFromUtf8 (msgName m.s)) = some f) :
      Chosen W m [.looked w (newFromUtf8 (msgName m.s))] f
  | anything {w w' : ω} {f : Ref}
      (missing : globalFunction (W.view w m.owner) (newFromUtf8 (msgName m.s)) = none)
      (falls : fallback m.s = true)
      (found : globalFunction (W.view w' m.owner) (jsText "anything") = some f) :
      Chosen W m [.looked w (newFromUtf8 (msgName m.s)), .looked w' (jsText "anything")] f

/-- The test of `private` and its result: there is a value and it converts to 1. -/
inductive Tested (W : World P ω) (x : ObjId) (f : Ref) : List (Event ω) → Bool → Prop where
  | unread {w : ω} (missing : (W.view w x).realNamed f (jsText "private") = none) :
      Tested W x f [.read w f] false
  | converted {w w' : ω} {v : Value}
      (value : (W.view w x).realNamed f (jsText "private") = some v) :
      Tested W x f [.read w f, .converted w' f v] (decide ((W.view w' x).toInt32 v = some 1))

def Selected (W : World P ω) (m : Received) (h : List (Event ω)) (f : Ref) : Prop :=
  Chosen W m (h.filter Event.isLookup) f

def Private (W : World P ω) (x : ObjId) (h : List (Event ω)) (f : Ref) : Prop :=
  Tested W x f (h.filter Event.isProbe) true

/-- What holds of a dispatch at any time: it calls at most one function, once, the one
that its lookups choose, with the fields set before, and never a private one. -/
structure Safe (W : World P ω) (m : Received) (h : List (Event ω)) : Prop where
  once : (calls h).length ≤ 1
  selected : ∀ f ∈ calls h, Selected W m h f
  entered : calls h ≠ [] → sets (beforeCall h) = [(m.index, msgName m.s)]
  visible : ∀ f ∈ calls h, ¬ Private W m.owner h f

/-- What holds of a dispatch that has returned. -/
structure Settled (W : World P ω) (m : Received) (h : List (Event ω)) : Prop where
  called : ∀ f, Selected W m h f → (f ∈ calls h ↔ ¬ Private W m.owner h f)
  untouched : (∀ f, ¬ Selected W m h f) → sets h = []
  reported : (∀ f, ¬ Selected W m h f) → (errors h ≠ [] ↔ fallback m.s = true)

/-- The history of a dispatch up to its call. -/
inductive Calls (W : World P ω) (m : Received) : List (Event ω) → Ref → Prop where
  | intro {choice tests : List (Event ω)} {f : Ref} (w : ω) (chosen : Chosen W m choice f)
      (visible : Tested W m.owner f tests false) :
      Calls W m (choice ++ .set w m.index (msgName m.s) :: tests ++
        [.called f (callArgs (W.reg w) m.s m.argc m.argv)]) f

/-- The history of a dispatch that has returned. -/
inductive Handled (W : World P ω) (m : Received) : List (Event ω) → Prop where
  | silent (w : ω)
      (missing : globalFunction (W.view w m.owner) (newFromUtf8 (msgName m.s)) = none)
      (stays : fallback m.s = false) : Handled W m [.looked w (newFromUtf8 (msgName m.s))]
  | missing (w w' : ω)
      (missing : globalFunction (W.view w m.owner) (newFromUtf8 (msgName m.s)) = none)
      (falls : fallback m.s = true)
      (missing' : globalFunction (W.view w' m.owner) (jsText "anything") = none) :
      Handled W m [.looked w (newFromUtf8 (msgName m.s)), .looked w' (jsText "anything"),
        .error (HandlerError.doesNotExist.text (msgName m.s))]
  | hidden {choice tests : List (Event ω)} {f : Ref} (w : ω) (chosen : Chosen W m choice f)
      (isPrivate : Tested W m.owner f tests true) :
      Handled W m (choice ++ .set w m.index (msgName m.s) :: tests ++
        [.error (HandlerError.isPrivate.text (msgName m.s))])
  | returned {h : List (Event ω)} {f : Ref} (called : Calls W m h f) : Handled W m h
  | threw {h : List (Event ω)} {f : Ref} (e : CString) (called : Calls W m h f) :
      Handled W m (h ++ [.error ((HandlerError.calling e).text (msgName m.s))])

/-- The history that a dispatch has in a phase. -/
def Progress (W : World P ω) (m : Received) : Phase → List (Event ω) → Prop
  | .lookup funcName, h => funcName = newFromUtf8 (msgName m.s) ∧ h = []
  | .lookupAnything, h => ∃ w,
      globalFunction (W.view w m.owner) (newFromUtf8 (msgName m.s)) = none ∧
      fallback m.s = true ∧ h = [.looked w (newFromUtf8 (msgName m.s))]
  | .enter f, h => Chosen W m h f
  | .readPrivate f args, h => ∃ choice w, Chosen W m choice f ∧
      args = callArgs (W.reg w) m.s m.argc m.argv ∧
      h = choice ++ [.set w m.index (msgName m.s)]
  | .convert f args privateVal, h => ∃ choice w w', Chosen W m choice f ∧
      args = callArgs (W.reg w) m.s m.argc m.argv ∧
      (W.view w' m.owner).realNamed f (jsText "private") = some privateVal ∧
      h = choice ++ [.set w m.index (msgName m.s), .read w' f]
  | .calling f, h => Calls W m h f
  | .done, h => Handled W m h

def Activation.Tracked (W : World P ω) (a : Activation ω) : Prop :=
  Progress W a.message a.phase a.history

variable {W : World P ω} {m : Received} {h : List (Event ω)} {f : Ref}

theorem tracked_begin (m : Received) : (begin m).Tracked W := ⟨rfl, rfl⟩

theorem tracked_lookup {heap : ω} {funcName : JsString} {b : Activation ω}
    (before : Progress W m (.lookup funcName) h)
    (step : advance W heap ⟨m, .lookup funcName, h⟩ = some b) : b.Tracked W := by
  obtain ⟨rfl, rfl⟩ := before
  simp only [advance] at step
  cases found : globalFunction (W.view heap m.owner) (newFromUtf8 (msgName m.s)) with
  | some f =>
    rw [found] at step
    cases step
    exact .named found
  | none =>
    rw [found] at step
    by_cases falls : fallback m.s = true
    · simp only [falls, if_true] at step
      cases step
      exact ⟨heap, found, falls, rfl⟩
    · simp only [falls] at step
      cases step
      exact .silent heap found (Bool.eq_false_iff.mpr falls)

theorem tracked_lookupAnything {heap : ω} {b : Activation ω}
    (before : Progress W m .lookupAnything h)
    (step : advance W heap ⟨m, .lookupAnything, h⟩ = some b) : b.Tracked W := by
  obtain ⟨w, missing, falls, rfl⟩ := before
  simp only [advance] at step
  cases found : globalFunction (W.view heap m.owner) (jsText "anything") with
  | some f =>
    rw [found] at step
    cases step
    exact .anything missing falls found
  | none =>
    rw [found] at step
    cases step
    exact .missing w heap missing falls found

/-- Without a property `private` there is nothing to convert. -/
theorem tracked_readPrivate {heap : ω} {args : Decoded} {b : Activation ω}
    (before : Progress W m (.readPrivate f args) h)
    (step : advance W heap ⟨m, .readPrivate f args, h⟩ = some b) : b.Tracked W := by
  obtain ⟨choice, w, chosen, rfl, rfl⟩ := before
  simp only [advance] at step
  cases value : (W.view heap m.owner).realNamed f (jsText "private") with
  | none =>
    rw [value] at step
    cases step
    have calls := Calls.intro w chosen (.unread value)
    simpa [Activation.Tracked, Activation.next, Progress] using calls
  | some privateVal =>
    rw [value] at step
    cases step
    exact ⟨choice, w, heap, chosen, rfl, value, by simp [Activation.next]⟩

theorem tracked_convert {heap : ω} {args : Decoded} {privateVal : Value} {b : Activation ω}
    (before : Progress W m (.convert f args privateVal) h)
    (step : advance W heap ⟨m, .convert f args privateVal, h⟩ = some b) : b.Tracked W := by
  obtain ⟨choice, w, w', chosen, rfl, value, rfl⟩ := before
  simp only [advance] at step
  have tested : Tested W m.owner f [.read w' f, .converted heap f privateVal]
      (decide ((W.view heap m.owner).toInt32 privateVal = some 1)) := .converted value
  by_cases one : (W.view heap m.owner).toInt32 privateVal = some 1
  · simp only [one, if_true] at step
    cases step
    rw [decide_eq_true one] at tested
    have hidden := Handled.hidden w chosen tested
    simpa [Activation.Tracked, Activation.next, Progress] using hidden
  · simp only [one, if_false] at step
    cases step
    rw [decide_eq_false one] at tested
    have calls := Calls.intro w chosen tested
    simpa [Activation.Tracked, Activation.next, Progress] using calls

/-- Each step of a dispatch goes on with its history as it should. -/
theorem tracked_advance {heap : ω} {phase : Phase} {b : Activation ω}
    (before : Progress W m phase h) (step : advance W heap ⟨m, phase, h⟩ = some b) :
    b.Tracked W := by
  cases phase with
  | lookup funcName => exact tracked_lookup before step
  | lookupAnything => exact tracked_lookupAnything before step
  | enter f =>
    cases step
    exact ⟨h, heap, before, rfl, rfl⟩
  | readPrivate f args => exact tracked_readPrivate before step
  | convert f args privateVal => exact tracked_convert before step
  | calling f => cases step
  | done => cases step

/-- Every dispatch in the state has the history of its phase. -/
structure Tracked (W : World P ω) (s : State ω) : Prop where
  running : ∀ a ∈ s.running, a.Tracked W
  finished : ∀ a ∈ s.finished, Handled W a.message a.history

theorem mem_of_top {s : State ω} {a : Activation ω} {rest : List (Activation ω)}
    (top : s.running = a :: rest) : a ∈ s.running := top.symm ▸ List.mem_cons_self

theorem mem_of_below {s : State ω} {a c : Activation ω} {rest : List (Activation ω)}
    (top : s.running = a :: rest) (hc : c ∈ rest) : c ∈ s.running :=
  top.symm ▸ List.mem_cons_of_mem _ hc

theorem Tracked.replace {s : State ω} (hs : Tracked W s) {a b : Activation ω}
    {rest : List (Activation ω)} (top : s.running = a :: rest) (tracked : b.Tracked W)
    (fields : ObjId → Fields) : Tracked W { s with fields := fields, running := b :: rest } :=
  ⟨List.forall_mem_cons.mpr ⟨tracked, fun c hc => hs.running c (mem_of_below top hc)⟩,
    hs.finished⟩

theorem tracked_ends {s : State ω} (hs : Tracked W s) {a : Activation ω}
    {rest : List (Activation ω)} {f : Ref} (top : s.running = a :: rest)
    (exception : Option CString) (calling : a.phase = .calling f) :
    (a.next .done (exception.toList.map fun e =>
      .error ((HandlerError.calling e).text (msgName a.message.s)))).Tracked W := by
  have before := hs.running a (mem_of_top top)
  rw [Activation.Tracked, calling] at before
  cases exception with
  | none => simpa [Activation.Tracked, Activation.next, Progress] using Handled.returned before
  | some e => simpa [Activation.Tracked, Activation.next, Progress] using Handled.threw e before

/-- What a step can do. -/
inductive Step (W : World P ω) (win32 : Bool) (s : State ω) : State ω → Prop where
  | exec {a b : Activation ω} {rest : List (Activation ω)} (top : s.running = a :: rest)
      (advanced : advance W s.heap a = some b) :
      Step W win32 s { s with fields := entered a s.fields, running := b :: rest }
  | ends {a : Activation ω} {rest : List (Activation ω)} {f : Ref} (top : s.running = a :: rest)
      (calling : a.phase = .calling f) (exception : Option CString) :
      Step W win32 s
        { s with
          running := a.next .done (exception.toList.map fun e =>
            .error ((HandlerError.calling e).text (msgName a.message.s))) :: rest }
  | leave {a : Activation ω} {rest : List (Activation ω)} (top : s.running = a :: rest)
      (done : a.phase = .done) :
      Step W win32 s { s with running := rest, finished := a :: s.finished }
  | script (turn : s.open = true) (heap : ω) : Step W win32 s { s with heap := heap }
  | message {m : Received} (turn : s.open = true) (dispatched : branch win32 m.s = .dispatch) :
      Step W win32 s { s with running := begin m :: s.running }

theorem step_of_next {win32 : Bool} {s t : State ω} {l : Label ω}
    (step : next W win32 s l = some t) : Step W win32 s t := by
  cases l with
  | script heap =>
    obtain ⟨turn, same⟩ := Option.ite_none_right_eq_some.mp step
    cases same
    exact .script turn heap
  | message m =>
    obtain ⟨⟨turn, dispatched⟩, same⟩ := Option.ite_none_right_eq_some.mp step
    cases same
    exact .message turn dispatched
  | exec =>
    rcases top : s.running with _ | ⟨a, rest⟩
    · simp [next, top] at step
    · simp only [next, top] at step
      obtain ⟨b, advanced, rfl⟩ := Option.map_eq_some_iff.mp step
      exact .exec top advanced
  | ends exception =>
    rcases top : s.running with _ | ⟨a, rest⟩
    · simp [next, top] at step
    · simp only [next, top] at step
      cases phase : a.phase with
      | calling f =>
        rw [phase] at step
        cases step
        exact .ends top phase exception
      | _ => simp [phase] at step
  | leave =>
    rcases top : s.running with _ | ⟨a, rest⟩
    · simp [next, top] at step
    · simp only [next, top] at step
      cases phase : a.phase with
      | done =>
        rw [phase] at step
        cases step
        exact .leave top phase
      | _ => simp [phase] at step

theorem Tracked.step {win32 : Bool} {s t : State ω} (hs : Tracked W s)
    (step : Step W win32 s t) : Tracked W t := by
  cases step with
  | @exec a b rest top advanced =>
    have before := hs.running a (mem_of_top top)
    exact hs.replace top (tracked_advance before advanced) _
  | ends top calling exception => exact hs.replace top (tracked_ends hs top exception calling) _
  | @leave a rest top done =>
    have before := hs.running a (mem_of_top top)
    rw [Activation.Tracked, done] at before
    exact ⟨fun c hc => hs.running c (mem_of_below top hc),
      List.forall_mem_cons.mpr ⟨before, hs.finished⟩⟩
  | script _ _ => exact ⟨hs.running, hs.finished⟩
  | @message m _ _ =>
    exact ⟨List.forall_mem_cons.mpr ⟨tracked_begin m, hs.running⟩, hs.finished⟩

theorem tracked {win32 : Bool} {s : State ω} (h : Reachable (handlers W win32) always s) :
    Tracked W s := by
  apply h.invariant
  · rintro s ⟨idle, fresh⟩
    constructor
    · rw [idle]
      exact fun a ha => absurd ha List.not_mem_nil
    · rw [fresh]
      exact fun a ha => absurd ha List.not_mem_nil
  · exact fun s l t _ hs step _ => hs.step (step_of_next step)

theorem calls_append (h h' : List (Event ω)) : calls (h ++ h') = calls h ++ calls h' :=
  List.filterMap_append

theorem sets_append (h h' : List (Event ω)) : sets (h ++ h') = sets h ++ sets h' :=
  List.filterMap_append

theorem Chosen.parts {choice : List (Event ω)} (chosen : Chosen W m choice f) :
    choice.filter Event.isLookup = choice ∧ choice.filter Event.isProbe = [] ∧
      calls choice = [] ∧ sets choice = [] := by
  cases chosen with
  | named _ => exact ⟨rfl, rfl, rfl, rfl⟩
  | anything _ _ _ => exact ⟨rfl, rfl, rfl, rfl⟩

theorem Tested.parts {x : ObjId} {tests : List (Event ω)} {isPrivate : Bool}
    (tested : Tested W x f tests isPrivate) :
    tests.filter Event.isLookup = [] ∧ tests.filter Event.isProbe = tests ∧
      calls tests = [] ∧ sets tests = [] := by
  cases tested with
  | unread _ => exact ⟨rfl, rfl, rfl, rfl⟩
  | converted _ => exact ⟨rfl, rfl, rfl, rfl⟩

theorem Chosen.unique {choice : List (Event ω)} {g : Ref} (chosen : Chosen W m choice f)
    (chosen' : Chosen W m choice g) : f = g := by
  cases chosen with
  | named found =>
    cases chosen' with
    | named found' => exact Option.some.inj (found.symm.trans found')
  | anything _ _ found =>
    cases chosen' with
    | anything _ _ found' => exact Option.some.inj (found.symm.trans found')

theorem Tested.unique {x : ObjId} {tests : List (Event ω)} {isPrivate isPrivate' : Bool}
    (tested : Tested W x f tests isPrivate) (tested' : Tested W x f tests isPrivate') :
    isPrivate = isPrivate' := by
  cases tested with
  | unread _ =>
    cases tested' with
    | unread _ => rfl
  | converted _ =>
    cases tested' with
    | converted _ => rfl

section Whole

variable {choice tests tail : List (Event ω)} {w : ω} {isPrivate : Bool} {inlet : Nat}
  {messagename : CString}

/-- What was chosen can be read off a history with a call or an error behind the test. -/
theorem selected_iff (chosen : Chosen W m choice f) (tested : Tested W m.owner f tests isPrivate)
    (after : tail.filter Event.isLookup = []) (g : Ref) :
    Selected W m (choice ++ .set w inlet messagename :: tests ++ tail) g ↔ g = f := by
  have lookups : (choice ++ .set w inlet messagename :: tests ++ tail).filter Event.isLookup =
      choice := by
    simp [List.filter_append, chosen.parts.1, Event.isLookup, tested.parts.1, after]
  rw [Selected, lookups]
  constructor
  · exact fun chosen' => chosen'.unique chosen
  · rintro rfl
    exact chosen

theorem private_iff (chosen : Chosen W m choice f) (tested : Tested W m.owner f tests isPrivate)
    (after : tail.filter Event.isProbe = []) :
    Private W m.owner (choice ++ .set w inlet messagename :: tests ++ tail) f ↔
      isPrivate = true := by
  have probes : (choice ++ .set w inlet messagename :: tests ++ tail).filter Event.isProbe =
      tests := by
    simp [List.filter_append, chosen.parts.2.1, Event.isProbe, tested.parts.2.1, after]
  rw [Private, probes]
  constructor
  · exact fun tested' => tested.unique tested'
  · rintro rfl
    exact tested

theorem calls_whole (chosen : Chosen W m choice f) (tested : Tested W m.owner f tests isPrivate) :
    calls (choice ++ .set w inlet messagename :: tests ++ tail) = calls tail := by
  rw [calls_append, calls_append, chosen.parts.2.2.1, List.nil_append]
  exact congrArg (· ++ calls tail) tested.parts.2.2.1

theorem sets_whole (chosen : Chosen W m choice f) (tested : Tested W m.owner f tests isPrivate) :
    sets (choice ++ .set w inlet messagename :: tests ++ tail) =
      (inlet, messagename) :: sets tail := by
  rw [sets_append, sets_append, chosen.parts.2.2.2, List.nil_append]
  exact congrArg ((inlet, messagename) :: · ++ sets tail) tested.parts.2.2.2

end Whole

theorem takeWhile_uncalled {h : List (Event ω)} (uncalled : calls h = []) (args : Decoded)
    (rest : List (Event ω)) : beforeCall (h ++ .called f args :: rest) = h := by
  have silent : ∀ e ∈ h, e.callee.isNone = true := by
    intro e he
    rw [List.filterMap_eq_nil_iff.mp uncalled e he]
    rfl
  rw [beforeCall, List.takeWhile_append_of_pos silent,
    List.takeWhile_cons_of_neg (by simp [Event.callee]), List.append_nil]

/-- The errors that are reported behind the call change nothing about it. -/
theorem Calls.safe (called : Calls W m h f) (texts : List (List UInt8)) :
    Safe W m (h ++ texts.map .error) := by
  cases called with
  | @intro choice tests _ w chosen visible =>
    rw [List.append_assoc]
    have one : calls (choice ++ .set w m.index (msgName m.s) :: tests ++
        ([.called f (callArgs (W.reg w) m.s m.argc m.argv)] ++ texts.map .error)) = [f] := by
      rw [calls_whole chosen visible]
      simp [calls, Event.callee, Function.comp_def]
    constructor
    · rw [one]
      exact Nat.le_refl 1
    · rw [one]
      intro g hg
      rw [selected_iff chosen visible (by simp [Event.isLookup])]
      exact List.mem_singleton.mp hg
    · intro _
      have uncalled : calls (choice ++ .set w m.index (msgName m.s) :: tests) = [] := by
        rw [← List.append_nil (_ ++ _), calls_whole chosen visible]
        rfl
      rw [List.singleton_append, takeWhile_uncalled uncalled, ← List.append_nil (_ ++ _),
        sets_whole chosen visible]
      rfl
    · rw [one]
      intro g hg
      cases List.mem_singleton.mp hg
      rw [private_iff chosen visible (by simp [Event.isProbe])]
      exact Bool.false_ne_true

/-- A dispatch that has chosen a function has settled if it has called it where it should. -/
theorem settled_whole {choice tests tail : List (Event ω)} {w : ω} {isPrivate : Bool}
    (chosen : Chosen W m choice f) (tested : Tested W m.owner f tests isPrivate)
    (lookups : tail.filter Event.isLookup = []) (probes : tail.filter Event.isProbe = [])
    (right : f ∈ calls tail ↔ ¬ isPrivate = true) :
    Settled W m (choice ++ .set w m.index (msgName m.s) :: tests ++ tail) := by
  have here : Selected W m (choice ++ .set w m.index (msgName m.s) :: tests ++ tail) f :=
    (selected_iff chosen tested lookups f).mpr rfl
  constructor
  · intro g selected
    cases (selected_iff chosen tested lookups g).mp selected
    rw [calls_whole chosen tested, private_iff chosen tested probes]
    exact right
  · exact fun unselected => absurd here (unselected f)
  · exact fun unselected => absurd here (unselected f)

theorem Calls.settled (called : Calls W m h f) (texts : List (List UInt8)) :
    Settled W m (h ++ texts.map .error) := by
  cases called with
  | intro w chosen visible =>
    rw [List.append_assoc]
    apply settled_whole chosen visible
    · simp [Event.isLookup]
    · simp [Event.isProbe]
    · simp [calls, Event.callee]

theorem Handled.settled (handled : Handled W m h) : Settled W m h := by
  cases handled with
  | silent w missing stays =>
    have unselected : ∀ g, ¬ Selected W m [.looked w (newFromUtf8 (msgName m.s))] g := by
      intro g selected
      cases selected with
      | named found => cases missing.symm.trans found
    refine ⟨fun g selected => absurd selected (unselected g), fun _ => rfl, fun _ => ?_⟩
    simp [errors, Event.report, stays]
  | missing w w' missing falls missing' =>
    have unselected : ∀ g, ¬ Selected W m [.looked w (newFromUtf8 (msgName m.s)),
        .looked w' (jsText "anything"),
        .error (HandlerError.doesNotExist.text (msgName m.s))] g := by
      intro g selected
      cases selected with
      | anything _ _ found => cases missing'.symm.trans found
    refine ⟨fun g selected => absurd selected (unselected g), fun _ => rfl, fun _ => ?_⟩
    simp [errors, Event.report, falls]
  | hidden w chosen isPrivate =>
    apply settled_whole chosen isPrivate
    · rfl
    · rfl
    · simp [calls, Event.callee]
  | returned called => simpa using called.settled []
  | threw e called => exact called.settled [(HandlerError.calling e).text (msgName m.s)]

theorem safe_of_uncalled (uncalled : calls h = []) : Safe W m h := by
  refine ⟨?_, ?_, fun called => absurd uncalled called, ?_⟩
  · rw [uncalled]
    exact Nat.zero_le 1
  · rw [uncalled]
    exact fun f hf => absurd hf List.not_mem_nil
  · rw [uncalled]
    exact fun f hf => absurd hf List.not_mem_nil

theorem Handled.safe (handled : Handled W m h) : Safe W m h := by
  cases handled with
  | silent _ _ _ => exact safe_of_uncalled rfl
  | missing _ _ _ _ _ => exact safe_of_uncalled rfl
  | hidden w chosen isPrivate => exact safe_of_uncalled (calls_whole chosen isPrivate)
  | returned called => simpa using called.safe []
  | threw e called => exact called.safe [(HandlerError.calling e).text (msgName m.s)]

theorem Progress.safe {phase : Phase} (progress : Progress W m phase h) : Safe W m h := by
  cases phase with
  | lookup funcName =>
    obtain ⟨_, rfl⟩ := progress
    exact safe_of_uncalled rfl
  | lookupAnything =>
    obtain ⟨_, _, _, rfl⟩ := progress
    exact safe_of_uncalled rfl
  | enter f => exact safe_of_uncalled (Chosen.parts progress).2.2.1
  | readPrivate f args =>
    obtain ⟨choice, w, chosen, _, rfl⟩ := progress
    apply safe_of_uncalled
    rw [calls_append, chosen.parts.2.2.1]
    rfl
  | convert f args privateVal =>
    obtain ⟨choice, w, w', chosen, _, _, rfl⟩ := progress
    apply safe_of_uncalled
    rw [calls_append, chosen.parts.2.2.1]
    rfl
  | calling f => simpa using Calls.safe progress []
  | done => exact Handled.safe progress

/-- The event belongs to the state `w` of V8. -/
def Event.At (w : ω) : Event ω → Prop
  | .looked v _ => v = w
  | .set v _ _ => v = w
  | .read v _ => v = w
  | .converted v _ _ => v = w
  | _ => True

/-- The history amounts to the outcome. -/
def Agrees (h : List (Event ω)) : Outcome → Prop
  | .builtin _ => False
  | .call f args inlet messagename => .called f args ∈ h ∧ sets h = [(inlet, messagename)]
  | .privateError inlet messagename => calls h = [] ∧ sets h = [(inlet, messagename)]
  | .missing error => calls h = [] ∧ sets h = [] ∧ (errors h ≠ [] ↔ error = true)

theorem Chosen.still {choice : List (Event ω)} {w : ω} (chosen : Chosen W m choice f)
    (still : ∀ e ∈ choice, e.At w) : selectedFunction (W.view w m.owner) m.s = some f := by
  cases chosen with
  | named found =>
    obtain rfl : _ = w := still _ List.mem_cons_self
    rw [newFromUtf8] at found
    simp only [selectedFunction, found]
  | anything missing falls found =>
    obtain rfl : _ = w := still _ List.mem_cons_self
    obtain rfl : _ = _ := still _ (List.mem_cons_of_mem _ List.mem_cons_self)
    rw [newFromUtf8] at missing
    simp only [selectedFunction, missing, falls, if_true, found]

theorem Tested.still {x : ObjId} {tests : List (Event ω)} {isPrivate : Bool} {w : ω}
    (tested : Tested W x f tests isPrivate) (still : ∀ e ∈ tests, e.At w) :
    Dispatch.isPrivate (W.view w x) f = isPrivate := by
  cases tested with
  | unread missing =>
    obtain rfl : _ = w := still _ List.mem_cons_self
    simp only [Dispatch.isPrivate, missing]
  | converted value =>
    obtain rfl : _ = w := still _ List.mem_cons_self
    obtain rfl : _ = _ := still _ (List.mem_cons_of_mem _ List.mem_cons_self)
    simp only [Dispatch.isPrivate, value]

/-- What becomes of a function that was chosen. -/
theorem jsAnything_chosen {win32 : Bool} {c : Context} {r : Registry P}
    (dispatched : branch win32 m.s = .dispatch) (selected : selectedFunction c m.s = some f) :
    jsAnything win32 c r m.index m.s m.argc m.argv =
      if isPrivate c f then .privateError m.index (msgName m.s)
      else .call f (callArgs r m.s m.argc m.argv) m.index (msgName m.s) := by
  simp only [jsAnything, dispatched, selected]

theorem jsAnything_unchosen {win32 : Bool} {c : Context} {r : Registry P}
    (dispatched : branch win32 m.s = .dispatch) (unselected : selectedFunction c m.s = none) :
    jsAnything win32 c r m.index m.s m.argc m.argv = .missing (fallback m.s) := by
  simp only [jsAnything, dispatched, unselected]

theorem still_parts {choice tests tail : List (Event ω)} {v w : ω} {inlet : Nat}
    {messagename : CString}
    (still : ∀ e ∈ choice ++ .set v inlet messagename :: tests ++ tail, e.At w) :
    (∀ e ∈ choice, e.At w) ∧ v = w ∧ ∀ e ∈ tests, e.At w := by
  refine ⟨fun e he => still e ?_, still (.set v inlet messagename) ?_, fun e he => still e ?_⟩
  · simp [he]
  · simp
  · simp [he]

theorem Calls.still {win32 : Bool} {w : ω} (called : Calls W m h f)
    (dispatched : branch win32 m.s = .dispatch) (texts : List (List UInt8))
    (still : ∀ e ∈ h ++ texts.map .error, e.At w) :
    Agrees (h ++ texts.map .error)
      (jsAnything win32 (W.view w m.owner) (W.reg w) m.index m.s m.argc m.argv) := by
  cases called with
  | intro v chosen visible =>
    rw [List.append_assoc] at still
    obtain ⟨hchoice, rfl, htests⟩ := still_parts still
    rw [jsAnything_chosen dispatched (chosen.still hchoice), visible.still htests,
      List.append_assoc]
    refine ⟨by simp, ?_⟩
    rw [sets_whole chosen visible]
    simp [sets, Event.fields]

/-- If nothing changes during a dispatch, it does what the dispatch in one state does. -/
theorem Handled.still {win32 : Bool} {w : ω} (handled : Handled W m h)
    (dispatched : branch win32 m.s = .dispatch) (still : ∀ e ∈ h, e.At w) :
    Agrees h (jsAnything win32 (W.view w m.owner) (W.reg w) m.index m.s m.argc m.argv) := by
  cases handled with
  | silent v missing stays =>
    obtain rfl : v = w := still _ List.mem_cons_self
    rw [newFromUtf8] at missing
    have unselected : selectedFunction (W.view v m.owner) m.s = none := by
      simp [selectedFunction, missing, stays]
    rw [jsAnything_unchosen dispatched unselected]
    simp [Agrees, calls, sets, errors, Event.callee, Event.fields, Event.report, stays]
  | missing v v' missing falls missing' =>
    obtain rfl : v = w := still _ List.mem_cons_self
    obtain rfl : v' = v := still _ (List.mem_cons_of_mem _ List.mem_cons_self)
    rw [newFromUtf8] at missing
    have unselected : selectedFunction (W.view v' m.owner) m.s = none := by
      simp [selectedFunction, missing, missing', falls]
    rw [jsAnything_unchosen dispatched unselected]
    simp [Agrees, calls, sets, errors, Event.callee, Event.fields, Event.report, falls]
  | hidden v chosen hidden =>
    obtain ⟨hchoice, rfl, htests⟩ := still_parts still
    rw [jsAnything_chosen dispatched (chosen.still hchoice), hidden.still htests]
    exact ⟨calls_whole chosen hidden, sets_whole chosen hidden⟩
  | returned called => simpa using called.still dispatched [] (by simpa using still)
  | threw e called =>
    exact called.still dispatched [(HandlerError.calling e).text (msgName m.s)] still

/-- A dispatch that neither waits for its call nor has returned can go on. -/
theorem advance_isSome {heap : ω} {a : Activation ω} (before : ∀ f, a.phase ≠ .calling f)
    (running : a.phase ≠ .done) : (advance W heap a).isSome = true := by
  obtain ⟨m, phase, h⟩ := a
  cases phase with
  | lookup funcName =>
    simp only [advance]
    cases globalFunction (W.view heap m.owner) funcName with
    | some f => rfl
    | none => cases fallback m.s <;> rfl
  | lookupAnything =>
    simp only [advance]
    cases globalFunction (W.view heap m.owner) (jsText "anything") <;> rfl
  | enter f => rfl
  | readPrivate f args =>
    simp only [advance]
    cases (W.view heap m.owner).realNamed f (jsText "private") <;> rfl
  | convert f args privateVal =>
    simp only [advance]
    split <;> rfl
  | calling f => exact absurd rfl (before f)
  | done => exact absurd rfl running

/-- What holds of the dispatches of a run, and of each further step: an object has its
fields set by its own dispatches only, which record that. -/
structure Dispatched (W : World P ω) (win32 : Bool) (s : State ω) : Prop where
  safe : ∀ a ∈ s.running ++ s.finished, Safe W a.message a.history
  settled : ∀ a ∈ s.finished, Settled W a.message a.history
  fields : ∀ l t, next W win32 s l = some t → ∀ x, t.fields x ≠ s.fields x →
    ∃ a rest b w, s.running = a :: rest ∧ t.running = b :: rest ∧ a.message.owner = x ∧
      b.history = a.history ++ [.set w a.message.index (msgName a.message.s)] ∧
      t.fields x = ⟨a.message.index, msgName a.message.s⟩

/-- A `loadbang` for which there is no function leaves the fields alone and is silent. -/
theorem loadbang_silent {win32 : Bool} {s : State ω}
    (reached : Reachable (handlers W win32) always s) {a : Activation ω} (ha : a ∈ s.finished)
    {owner : ObjId} {lbLoad : Bool} (sent : jsLoadbang owner lbLoad = some a.message)
    (unselected : ∀ f, ¬ Selected W a.message a.history f) :
    sets a.history = [] ∧ errors a.history = [] := by
  have settled := ((tracked reached).finished a ha).settled
  obtain ⟨_, message⟩ := Option.ite_none_right_eq_some.mp sent
  have message := Option.some.inj message
  have stays : fallback a.message.s = false := by
    rw [← message]
    rfl
  refine ⟨settled.untouched unselected, ?_⟩
  by_contra reported
  exact Bool.false_ne_true (stays.symm.trans ((settled.reported unselected).mp reported))

def idle : State Unit := ⟨(), fun _ => ⟨0, .ofBytes []⟩, [], []⟩

end Handlers
