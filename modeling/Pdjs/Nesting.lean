import Pdjs.Recompiling
import Pdjs.Requiring
import Pdjs.RootedGraphs

/-!
# Loads within loads

A source that runs may call `include` and `require`, and the files that it loads may do so
again; a message that it sends may come back to its object, call a function or compile the
object again. So `js_load` and `js_anything` are entered while they are running, and the
native stack holds a frame for each source and each function in which script is running.

Nothing is assumed about scripts: a run is any sequence of what they can do. Where V8 has no
room left for another frame, a load fails or its source throws at once.
-/

namespace Nesting

open GuardedRuns RootedGraphs PdAtoms TextEncoding ObjectRegistry Ports Loading Recompiling
open Resizing Requiring

/-- A source that runs, with the path of its file, or a function. What it assigns goes to
the context in which it was started. -/
structure Frame where
  path : Option CString
  context : Nat
  deriving DecidableEq

/-- The innermost frame is the first. -/
structure State where
  x : TJs
  frames : List Frame
  errors : List LoadError

/-- The serial of the context of the object. -/
def serial (x : TJs) : Nat := x.context.elim 0 JsContext.serial

/-- A source that has just been started, if it can be compiled. -/
def opening (syntaxError : Option CString) : Script := fun env _ =>
  match syntaxError with
  | some e => .syntaxError e
  | none => .ended [] env.globals none

/-- A load up to the start of its source. -/
def State.enter (s : State) (files : Files) (x : TJs) (scriptName : Option CString)
    (createContext : Bool) (global : Option Ref) (syntaxError : Option CString) : State :=
  let script := opening syntaxError
  let loaded := jsLoad files script x scriptName createContext global
  let frames := match loadExit files script x scriptName createContext global with
    | .completed =>
      ⟨some (locate files x scriptName createContext).2.1, serial loaded.1⟩ :: s.frames
    | _ => s.frames
  ⟨loaded.1, frames, s.errors ++ loaded.2.toList⟩

def scriptName : List Atom → Option CString
  | .symbol s :: _ => some s.name
  | _ => none

/-- `js_new`, up to the start of the source. -/
def created (self : ObjId) (canvasDir : CString) (files : Files) (argv : List Atom)
    (syntaxError : Option CString) : State :=
  let x : TJs := ⟨self, canvasDir, noText, noText, newPorts self, none, argv, 0, noText, 0⟩
  State.enter ⟨x, [], []⟩ files x (scriptName argv) true none syntaxError

/-- Messages come at any time; `property` is a `setprop` or `delprop` message, which resizes
where it sets a count. Resizing, loading and the assignments of a script take that one is
running; `ends` is the end of the innermost one. -/
inductive Label where
  | call (inlet : Int) (messagename : CString)
  | property (resizes : List Resize) (globals : Globals)
  | compile (files : Files) (argv : List Atom) (syntaxError : Option CString)
  | resize (r : Resize)
  | assign (globals : Globals)
  | load (files : Files) (scriptName : CString) (global : Option Ref)
      (syntaxError : Option CString)
  | ends (exception : Option CString)

def withGlobals (x : TJs) (globals : Globals) : TJs :=
  { x with context := x.context.map fun c => { c with globals := globals } }

/-- The context of an object that was compiled again is not the one in which what is left
of the script before makes its assignments. -/
def State.assign (s : State) (f : Frame) (globals : Globals) : State :=
  if f.context = serial s.x then { s with x := withGlobals s.x globals } else s

/-- The end of a source is that of its load, which posts what it threw. -/
def State.leave (s : State) (f : Frame) (outer : List Frame) (exception : Option CString) :
    State :=
  match f.path, exception with
  | some path, some e => ⟨s.x, outer, s.errors ++ [.running path e]⟩
  | _, _ => { s with frames := outer }

/-- A step of the script that is running. -/
def State.running (s : State) (step : Frame → List Frame → State) : Option State :=
  match s.frames with
  | [] => none
  | f :: outer => some (step f outer)

def next (s : State) : Label → Option State
  | .call inlet messagename =>
    some { s with
      x := { s.x with inlet := inlet, messagename := messagename }
      frames := ⟨none, serial s.x⟩ :: s.frames }
  | .property resizes globals => some { s with x := assigned s.x resizes globals }
  | .compile files argv syntaxError =>
    match argv with
    | .symbol name :: _ =>
      some (s.enter files (reset s.x argv) (some name.name) true none syntaxError)
    | _ => some (s.enter files s.x none true none syntaxError)
  | .resize r =>
    s.running fun _ _ => { s with x := { s.x with ports := resize s.x.self s.x.ports r } }
  | .assign globals => s.running fun f _ => s.assign f globals
  | .load files name global syntaxError =>
    s.running fun _ _ => s.enter files s.x (some name) false global syntaxError
  | .ends exception => s.running fun f outer => s.leave f outer exception

def nested (self : ObjId) (canvasDir : CString) : System State Label :=
  .ofNext (fun s => ∃ files argv syntaxError, s = created self canvasDir files argv syntaxError)
    next

variable {me : ObjId} {canvas : CString} {s : State}

/-- A load changes its object as its source does, in a context that is there already or
in a new one. -/
theorem contexts_jsLoad (files : Files) (script : Script) (x : TJs) (name : Option CString)
    (createContext : Bool) (global : Option Ref) :
    (jsLoad files script x name createContext global).1.contexts =
      x.contexts + if createContext then 1 else 0 := by
  have located : (locate files x name createContext).1.contexts = x.contexts := by
    rcases locate_cases files x name createContext with same | ⟨_, dir, path, changed⟩
    · rw [same]
    · rw [changed]
  have ran : ∀ y path, (runSource files script y path global).1.contexts = y.contexts := by
    intro y path
    rcases runSource_cases files script y path global with same | ⟨resizes, change, _, changed⟩
    · rw [same]
    · rw [changed]
  rw [← located]
  cases createContext with
  | false => exact ran _ _
  | true => exact ran _ _

theorem frames_enter (s : State) (files : Files) (x : TJs) (name : Option CString)
    (createContext : Bool) (global : Option Ref) (syntaxError : Option CString) :
    let t := s.enter files x name createContext global syntaxError
    t.frames = s.frames ∨
      loadExit files (opening syntaxError) x name createContext global = .completed ∧
        t.frames =
          ⟨some (locate files x name createContext).2.1, serial t.x⟩ :: s.frames := by
  dsimp only [State.enter]
  cases loadExit files (opening syntaxError) x name createContext global with
  | completed => exact .inr ⟨rfl, rfl⟩
  | noFile => exact .inl rfl
  | unread => exact .inl rfl
  | notCompiled => exact .inl rfl
  | threw => exact .inl rfl

/-- A call that does nothing but to set the fields. -/
theorem next_call (x : TJs) (inlet : Int) (messagename : CString) :
    Loading.next x (.call inlet messagename [] x.globals) =
      { x with inlet := inlet, messagename := messagename } := by
  obtain ⟨self, canvasDir, dir, path, ports, context, args, _, _, contexts⟩ := x
  cases context <;> rfl

theorem next_resize (x : TJs) (r : Resize) :
    Loading.next x (.assign [r] x.globals) =
      { x with ports := resize x.self x.ports r } := by
  obtain ⟨self, canvasDir, dir, path, ports, context, args, inlet, messagename, contexts⟩ := x
  cases context <;> rfl

theorem serial_assigned (x : TJs) (resizes : List Resize) (globals : Globals) :
    serial (assigned x resizes globals) = serial x := by
  obtain ⟨self, canvasDir, dir, path, ports, context, args, inlet, messagename, contexts⟩ := x
  cases context <;> rfl

theorem serial_withGlobals (x : TJs) (globals : Globals) :
    serial (withGlobals x globals) = serial x := by
  obtain ⟨self, canvasDir, dir, path, ports, context, args, inlet, messagename, contexts⟩ := x
  cases context <;> rfl

/-- The object is one that loads without nesting lead to as well. Each frame is in the
context that was the last one when it began. -/
structure Stacked (me : ObjId) (canvas : CString) (s : State) : Prop where
  reached : Reachable (object me canvas) always s.x
  older : ∀ f ∈ s.frames, f.context ≤ serial s.x
  ordered : s.frames.Pairwise fun f g => g.context ≤ f.context

theorem serial_eq {x : TJs} (h : WellMade me canvas x) : serial x + 1 = x.contexts := by
  obtain ⟨c, context, last⟩ := h.context
  rw [serial, context]
  exact last

theorem Stacked.push (h : Stacked me canvas s) {x : TJs}
    (reached : Reachable (object me canvas) always x) (later : serial s.x ≤ serial x)
    (path : Option CString) (errors : List LoadError) :
    Stacked me canvas ⟨x, ⟨path, serial x⟩ :: s.frames, errors⟩ := by
  refine ⟨reached, ?_, List.pairwise_cons.mpr ⟨?_, h.ordered⟩⟩
  · intro f hf
    rcases List.mem_cons.mp hf with rfl | hf
    · exact Nat.le_refl _
    · exact Nat.le_trans (h.older f hf) later
  · exact fun f hf => Nat.le_trans (h.older f hf) later

theorem Stacked.change (h : Stacked me canvas s) (l : Loading.Label)
    (same : serial (Loading.next s.x l) = serial s.x) (errors : List LoadError) :
    Stacked me canvas ⟨Loading.next s.x l, s.frames, errors⟩ :=
  ⟨.next (l := l) h.reached rfl trivial, by rw [same]; exact h.older, h.ordered⟩

theorem Stacked.enter (h : Stacked me canvas s) {files : Files} {x : TJs} {name : Option CString}
    {createContext : Bool} {global : Option Ref} {syntaxError : Option CString}
    (reached : Reachable (object me canvas) always
      (jsLoad files (opening syntaxError) x name createContext global).1)
    (contexts : x.contexts = s.x.contexts) :
    Stacked me canvas (s.enter files x name createContext global syntaxError) := by
  have later : serial s.x ≤ serial (jsLoad files (opening syntaxError) x name createContext
      global).1 := by
    have before := serial_eq (wellMade h.reached)
    have after := serial_eq (wellMade reached)
    rw [contexts_jsLoad] at after
    omega
  rcases frames_enter s files x name createContext global syntaxError with same | ⟨_, pushed⟩
  · refine ⟨reached, ?_, ?_⟩
    · rw [same]
      exact fun f hf => Nat.le_trans (h.older f hf) later
    · rw [same]
      exact h.ordered
  · have whole := h.push reached later (some (locate files x name createContext).2.1)
      (s.enter files x name createContext global syntaxError).errors
    exact ⟨reached, by rw [pushed]; exact whole.older, by rw [pushed]; exact whole.ordered⟩

theorem stacked_created (files : Files) (argv : List Atom) (syntaxError : Option CString) :
    Stacked me canvas (created me canvas files argv syntaxError) := by
  have reached : Reachable (object me canvas) always
      (created me canvas files argv syntaxError).x := .start ⟨files, opening syntaxError, argv, rfl⟩
  rcases frames_enter ⟨_, [], []⟩ files _ (scriptName argv) true none syntaxError
    with same | ⟨_, pushed⟩
  · exact ⟨reached, by rw [created, same]; simp, by rw [created, same]; exact .nil⟩
  · refine ⟨reached, ?_, ?_⟩
    · rw [created, pushed]
      simp
    · rw [created, pushed]
      exact List.pairwise_singleton _ _

theorem running_eq_some {step : Frame → List Frame → State} {t : State}
    (ran : s.running step = some t) : ∃ f outer, s.frames = f :: outer ∧ t = step f outer := by
  cases frames : s.frames with
  | nil => simp [State.running, frames] at ran
  | cons f outer =>
    simp only [State.running, frames, Option.some.injEq] at ran
    exact ⟨f, outer, rfl, ran.symm⟩

theorem leave_cases (s : State) (f : Frame) (outer : List Frame) (exception : Option CString) :
    ∃ errors, s.leave f outer exception = ⟨s.x, outer, errors⟩ := by
  obtain ⟨path, context⟩ := f
  cases path with
  | none => exact ⟨s.errors, rfl⟩
  | some path =>
    cases exception with
    | none => exact ⟨s.errors, rfl⟩
    | some e => exact ⟨_, rfl⟩

theorem Stacked.next (h : Stacked me canvas s) {l : Label} {t : State}
    (step : next s l = some t) : Stacked me canvas t := by
  cases l with
  | call inlet messagename =>
    cases step
    have called : Reachable (object me canvas) always
        (Loading.next s.x (.call inlet messagename [] s.x.globals)) := .next h.reached rfl trivial
    rw [next_call] at called
    exact h.push called (Nat.le_refl _) none s.errors
  | property resizes globals =>
    cases step
    exact h.change (.assign resizes globals) (serial_assigned s.x resizes globals) s.errors
  | compile files argv syntaxError =>
    have compiled : Reachable (object me canvas) always
        (Loading.next s.x (.compile files (opening syntaxError) argv)) :=
      .next h.reached rfl trivial
    rcases argv with _ | ⟨_ | name | _, argv⟩
    · cases step
      exact h.enter compiled rfl
    · cases step
      exact h.enter compiled rfl
    · cases step
      exact h.enter compiled rfl
    · cases step
      exact h.enter compiled rfl
  | resize r =>
    obtain ⟨_, _, _, rfl⟩ := running_eq_some step
    have resized := h.change (.assign [r] s.x.globals) (by rw [next_resize]; rfl) s.errors
    rwa [next_resize] at resized
  | assign globals =>
    obtain ⟨f, _, _, rfl⟩ := running_eq_some step
    rw [State.assign]
    by_cases current : f.context = serial s.x
    · rw [if_pos current]
      exact h.change (.assign [] globals) (serial_withGlobals s.x globals) s.errors
    · rw [if_neg current]
      exact h
  | load files name global syntaxError =>
    obtain ⟨_, _, _, rfl⟩ := running_eq_some step
    have loaded : Reachable (object me canvas) always
        (Loading.next s.x (.load files (opening syntaxError) name global)) :=
      .next h.reached rfl trivial
    exact h.enter loaded rfl
  | ends exception =>
    obtain ⟨f, outer, frames, rfl⟩ := running_eq_some step
    obtain ⟨errors, left⟩ := leave_cases s f outer exception
    obtain ⟨reached, older, ordered⟩ := h
    rw [frames] at older ordered
    rw [left]
    exact ⟨reached, fun g hg => older g (List.mem_cons_of_mem _ hg), ordered.of_cons⟩

theorem stacked (h : Reachable (nested me canvas) always s) : Stacked me canvas s := by
  apply h.invariant
  · rintro _ ⟨files, argv, syntaxError, rfl⟩
    exact stacked_created files argv syntaxError
  · exact fun _ _ _ _ hs step _ => hs.next step

/-- Whatever is nested, the object is one that loads one after the other lead to, its
vectors represent its ports, and further in runs what was begun in no older context. -/
theorem nested_refines (h : Reachable (nested me canvas) always s) :
    Reachable (object me canvas) always s.x ∧ Represented me s.x.ports ∧
      (∀ f ∈ s.frames, f.context ≤ serial s.x) ∧
      s.frames.Pairwise fun f g => g.context ≤ f.context := by
  obtain ⟨reached, older, ordered⟩ := stacked h
  exact ⟨reached, represented_ports reached, older, ordered⟩

/-- The object `js test.js`, whose script is running. -/
def testObject : State := created 1 (.ofAscii "/patch") oneFile [fileArg "test.js"] none

/-- It asks for three inlets and includes itself. -/
def selfInclude : List Label :=
  [.resize (.inlets 3), .load oneFile (.ofAscii "test.js") none none]

theorem selfInclude_runs :
    ∃ s, runLabels next always testObject selfInclude = some s ∧ s.frames.length = 2 ∧
      s.x.ports.inlets.length = 3 :=
  ⟨_, rfl, by decide, by decide⟩

theorem reachable_testObject : Reachable (nested 1 (.ofAscii "/patch")) always testObject :=
  .start ⟨_, _, _, rfl⟩

theorem nested_refines_selfInclude :
    ∃ s : State, s.frames.length = 2 ∧ s.x.ports.inlets.length = 3 ∧
      Reachable (object 1 (.ofAscii "/patch")) always s.x ∧ Represented 1 s.x.ports ∧
      (∀ f ∈ s.frames, f.context ≤ serial s.x) ∧
      s.frames.Pairwise fun f g => g.context ≤ f.context := by
  obtain ⟨s, run, frames, inlets⟩ := selfInclude_runs
  exact ⟨s, frames, inlets, nested_refines (reachable_testObject.run run)⟩

/-- The text that a load starts, if there is one that can be compiled. -/
def started (files : Files) (syntaxError : Option CString) (path : CString) : Option JsString :=
  if path.bytes = [] ∨ syntaxError ≠ none then none else jsReadfile files path

def addSources (x : TJs) (texts : List JsString) : TJs :=
  { x with context := x.context.map fun c => { c with sources := c.sources ++ texts } }

theorem addSources_nil (x : TJs) : addSources x [] = x := by
  obtain ⟨self, canvasDir, dir, path, ports, context, args, inlet, messagename, contexts⟩ := x
  cases context with
  | none => rfl
  | some c => simp [addSources]

theorem runSource_opening (files : Files) (syntaxError : Option CString) (x : TJs)
    (path : CString) (global : Option Ref) :
    (runSource files (opening syntaxError) x path global).1 =
      addSources x (started files syntaxError path).toList := by
  by_cases empty : path.bytes = []
  · simp [runSource, started, empty, addSources_nil]
  · cases read : jsReadfile files path with
    | none => simp [runSource, started, empty, read, addSources_nil]
    | some source =>
      cases syntaxError with
      | some e => simp [runSource, started, empty, read, opening, addSources_nil]
      | none =>
        obtain ⟨_, _, _, _, _, context, _, _, _, _⟩ := x
        cases context with
        | none => simp [runSource, started, empty, read, opening, addSources]
        | some c =>
          simp [runSource, started, empty, read, opening, addSources, environment, TJs.globals]

theorem jsLoad_same (files : Files) (syntaxError : Option CString) (x : TJs) (name : CString)
    (global : Option Ref) :
    (jsLoad files (opening syntaxError) x (some name) false global).1 =
      addSources x (started files syntaxError
        ((located files x.canvasDir name).elim noText JsFile.path)).toList := by
  obtain ⟨same, path⟩ := locate_same files x name
  have ran : (jsLoad files (opening syntaxError) x (some name) false global).1 =
      (runSource files (opening syntaxError) (locate files x (some name) false).1
        (locate files x (some name) false).2.1 global).1 := rfl
  rw [ran, same, path, runSource_opening]

theorem jsLoad_compile_name (files : Files) (syntaxError : Option CString) (x : TJs) (s : Symbol)
    (rest : List Atom) :
    (jsLoad files (opening syntaxError) (reset x (.symbol s :: rest)) (some s.name) true none).1 =
      addSources (makeContext (relocated (reset x (.symbol s :: rest))
          (located files x.canvasDir s.name)))
        (started files syntaxError
          ((located files x.canvasDir s.name).elim noText JsFile.path)).toList := by
  rw [jsLoad_name, runSource_opening]
  rfl

theorem jsLoad_again (files : Files) (syntaxError : Option CString) (x : TJs) :
    (jsLoad files (opening syntaxError) x none true none).1 =
      addSources (makeContext x) (started files syntaxError x.path).toList :=
  runSource_opening files syntaxError (makeContext x) x.path none

/-- The arguments of a `compile` message with a name. -/
def Label.arguments : Label → Option (List Atom)
  | .compile _ (.symbol name :: rest) _ => some (.symbol name :: rest)
  | _ => none

/-- The directory and the path of the file that such a message finds. -/
def Label.found (canvasDir : CString) : Label → Option (CString × CString)
  | .compile files (.symbol name :: _) _ =>
    (located files canvasDir name.name).map fun file => (file.dir, file.path)
  | _ => none

def Label.received : Label → Option (Int × CString)
  | .call inlet messagename => some (inlet, messagename)
  | _ => none

def Label.compiles : Label → Bool
  | .compile _ _ _ => true
  | _ => false

/-- The text that a load starts, in an object that loaded the file of that path last. -/
def Label.text (canvasDir path : CString) : Label → Option JsString
  | .compile files (.symbol name :: _) syntaxError =>
    started files syntaxError ((located files canvasDir name.name).elim noText JsFile.path)
  | .compile files _ syntaxError => started files syntaxError path
  | .load files name _ syntaxError =>
    started files syntaxError ((located files canvasDir name).elim noText JsFile.path)
  | _ => none

/-- The fields of an object that its messages and loads decide. -/
structure Record where
  args : List Atom
  file : CString × CString
  received : Int × CString
  contexts : Nat
  sources : List JsString

def record (x : TJs) : Record :=
  ⟨x.args, (x.dir, x.path), (x.inlet, x.messagename), x.contexts, x.sources⟩

def Record.next (canvasDir : CString) (r : Record) (l : Label) : Record where
  args := l.arguments.getD r.args
  file := (l.found canvasDir).getD r.file
  received := l.received.getD r.received
  contexts := r.contexts + if l.compiles then 1 else 0
  sources := (if l.compiles then [] else r.sources) ++ (l.text canvasDir r.file.2).toList

theorem sources_addSources {x : TJs} (made : x.context ≠ none) (texts : List JsString) :
    (addSources x texts).sources = x.sources ++ texts := by
  obtain ⟨c, context⟩ := Option.ne_none_iff_exists'.mp made
  simp [TJs.sources, addSources, context]

theorem record_withGlobals (x : TJs) (globals : Globals) :
    record (withGlobals x globals) = record x := by
  obtain ⟨self, canvasDir, dir, path, ports, context, args, inlet, messagename, contexts⟩ := x
  cases context <;> rfl

theorem record_assigned (x : TJs) (resizes : List Resize) (globals : Globals) :
    record (assigned x resizes globals) = record x := by
  obtain ⟨self, canvasDir, dir, path, ports, context, args, inlet, messagename, contexts⟩ := x
  cases context <;> rfl

theorem record_addSources {x : TJs} (made : x.context ≠ none) (texts : List JsString) :
    record (addSources x texts) = { record x with sources := x.sources ++ texts } := by
  rw [record, sources_addSources made]
  rfl

/-- What an object keeps of a step is decided by its label. -/
theorem record_next {l : Label} {t : State} (step : next s l = some t)
    (made : WellMade me canvas s.x) : record t.x = (record s.x).next canvas l := by
  obtain ⟨c, context, _⟩ := made.context
  have present : s.x.context ≠ none := by simp [context]
  have dir := made.canvasDir
  have unchanged (y : TJs) : record y = { record y with sources := (record y).sources ++ [] } := by
    rw [List.append_nil]
  subst dir
  cases l with
  | call inlet messagename =>
    cases step
    exact unchanged { s.x with inlet := inlet, messagename := messagename }
  | property resizes globals =>
    cases step
    exact (record_assigned s.x resizes globals).trans (unchanged s.x)
  | compile files argv syntaxError =>
    have fresh (y : TJs) : (makeContext y).context ≠ none := Option.some_ne_none _
    rcases argv with _ | ⟨_ | name | _, argv⟩
    · cases step
      simp only [State.enter, jsLoad_again, record_addSources (fresh _)]
      rfl
    · cases step
      simp only [State.enter, jsLoad_again, record_addSources (fresh _)]
      rfl
    · cases step
      simp only [State.enter, jsLoad_compile_name, record_addSources (fresh _), Record.next,
        Label.found, Label.text]
      cases located files s.x.canvasDir name.name with
      | none => rfl
      | some file => rfl
    · cases step
      simp only [State.enter, jsLoad_again, record_addSources (fresh _)]
      rfl
  | resize r =>
    obtain ⟨_, _, _, rfl⟩ := running_eq_some step
    exact unchanged s.x
  | assign globals =>
    obtain ⟨f, _, _, rfl⟩ := running_eq_some step
    rw [State.assign]
    by_cases current : f.context = serial s.x
    · rw [if_pos current]
      exact (record_withGlobals s.x globals).trans (unchanged s.x)
    · rw [if_neg current]
      exact unchanged s.x
  | load files name global syntaxError =>
    obtain ⟨_, _, _, rfl⟩ := running_eq_some step
    simp only [State.enter, jsLoad_same, record_addSources present]
    rfl
  | ends exception =>
    obtain ⟨f, outer, _, rfl⟩ := running_eq_some step
    obtain ⟨errors, left⟩ := leave_cases s f outer exception
    rw [left]
    exact unchanged s.x

/-- Without another `compile` message the texts are started in one context. -/
theorem sources_foldl {ls : List Label} (same : ∀ l ∈ ls, l.compiles = false) (path : CString)
    (r : Record) :
    (ls.foldl (Record.next canvas) r).sources =
      r.sources ++ ls.filterMap (Label.text canvas path) := by
  induction ls generalizing r with
  | nil => exact (List.append_nil _).symm
  | cons l ls ih =>
    have loads := same l List.mem_cons_self
    have text : l.text canvas r.file.2 = l.text canvas path := by
      cases l with
      | compile files argv syntaxError => cases loads
      | _ => rfl
    rw [List.foldl_cons, ih fun l' hl' => same l' (List.mem_cons_of_mem _ hl'), Record.next,
      loads, text, List.filterMap_cons]
    cases l.text canvas path <;> simp

/-- The object has the arguments and the file of the last messages that brought some, and
a context that was made by the last `compile` message; `include` and `require` start
sources in it and change nothing else. -/
structure Remembered (canvas : CString) (ls : List Label) (before after : TJs) : Prop where
  args : after.args = (ls.filterMap Label.arguments).getLast?.getD before.args
  file : (after.dir, after.path) =
    (ls.filterMap (Label.found canvas)).getLast?.getD (before.dir, before.path)
  received : (after.inlet, after.messagename) =
    (ls.filterMap Label.received).getLast?.getD (before.inlet, before.messagename)
  context : serial after = serial before + ls.countP Label.compiles
  sources : (∀ l ∈ ls.tail, l.compiles = false) →
    after.sources = (if ls.head?.any Label.compiles then [] else before.sources) ++
      ls.filterMap (Label.text canvas before.path)

theorem foldl_count (ls : List Label) (n : Nat) :
    ls.foldl (fun n l => n + if l.compiles then 1 else 0) n = n + ls.countP Label.compiles := by
  induction ls generalizing n with
  | nil => rfl
  | cons l ls ih => rw [List.foldl_cons, ih, List.countP_cons]; omega

/-- Each part of a record is folded by itself. -/
theorem foldl_next (canvas : CString) (ls : List Label) (r : Record) :
    (ls.foldl (Record.next canvas) r).args =
        (ls.filterMap Label.arguments).getLast?.getD r.args ∧
      (ls.foldl (Record.next canvas) r).file =
        (ls.filterMap (Label.found canvas)).getLast?.getD r.file ∧
      (ls.foldl (Record.next canvas) r).received =
        (ls.filterMap Label.received).getLast?.getD r.received ∧
      (ls.foldl (Record.next canvas) r).contexts = r.contexts + ls.countP Label.compiles := by
  refine ⟨?_, ?_, ?_, ?_⟩
  · rw [← foldl_getD]
    exact (List.foldl_hom Record.args fun _ _ => rfl).symm
  · rw [← foldl_getD]
    exact (List.foldl_hom Record.file fun _ _ => rfl).symm
  · rw [← foldl_getD]
    exact (List.foldl_hom Record.received fun _ _ => rfl).symm
  · rw [← foldl_count]
    exact (List.foldl_hom Record.contexts fun _ _ => rfl).symm

theorem remembered (h : Reachable (nested me canvas) always s) {ls : List Label} {t : State}
    (run : runLabels next always s ls = some t) : Remembered canvas ls s.x t.x := by
  obtain ⟨after, whole⟩ : Reachable (nested me canvas) always t ∧
      record t.x = ls.foldl (Record.next canvas) (record s.x) := by
    apply fold_of_run (f := fun s : State => record s.x) _ h run
    intro s l t hs step
    exact ⟨.next hs step trivial, record_next step (wellMade (stacked hs).reached)⟩
  obtain ⟨args, file, received, contexts⟩ := foldl_next canvas ls (record s.x)
  rw [← whole] at args file received contexts
  refine ⟨args, file, received, ?_, ?_⟩
  · have first := serial_eq (wellMade (stacked h).reached)
    have last := serial_eq (wellMade (stacked after).reached)
    have counted : t.x.contexts = s.x.contexts + ls.countP Label.compiles := contexts
    omega
  · intro same
    have sources : t.x.sources = (record t.x).sources := rfl
    rw [sources, whole]
    cases ls with
    | nil => exact (List.append_nil _).symm
    | cons l ls =>
      have later : ∀ l ∈ ls, l.compiles = false := same
      rw [List.foldl_cons, sources_foldl later s.x.path, Record.next, List.filterMap_cons]
      have text : l.text canvas (record s.x).file.2 = l.text canvas s.x.path := rfl
      rw [text, List.append_assoc]
      cases l.text canvas s.x.path <;> rfl

theorem remembered_selfInclude :
    ∃ s, runLabels next always testObject selfInclude = some s ∧
      Remembered (.ofAscii "/patch") selfInclude testObject.x s.x := by
  obtain ⟨s, run, _⟩ := selfInclude_runs
  exact ⟨s, run, remembered reachable_testObject run⟩

variable {files : Files} {argv : List Atom} {includes : CString → CString → Prop}

/-- The file of that path is found under the name and can be read. -/
def Finds (files : Files) (canvasDir name path : CString) : Prop :=
  ∃ file, located files canvasDir name = some file ∧ jsReadfile files file.path ≠ none ∧
    file.path = path

/-- The file that the arguments of the object name. -/
def Root (files : Files) (canvasDir : CString) (argv : List Atom) (path : CString) : Prop :=
  ∃ name, scriptName argv = some name ∧ Finds files canvasDir name path

/-- The source of the first file may load the second one. -/
def MayLoad (files : Files) (canvasDir : CString) (includes : CString → CString → Prop)
    (path path' : CString) : Prop :=
  ∃ name, includes path name ∧ Finds files canvasDir name path'

/-- The sources load nothing but what `includes` allows them, in files that stay as they
are, and no message comes back to the object. -/
def Including (files : Files) (includes : CString → CString → Prop) (s : State) : Label → Prop
  | .call _ _ => False
  | .compile _ _ _ => False
  | .load files' name _ _ =>
    files' = files ∧ ∃ f ∈ s.frames.head?, ∃ path, f.path = some path ∧ includes path name
  | _ => True

/-- The first load of an object and everything that is loaded by it. -/
def loading (self : ObjId) (canvasDir : CString) (files : Files) (argv : List Atom) :
    System State Label :=
  .ofNext (fun s => ∃ syntaxError, s = created self canvasDir files argv syntaxError) next

theorem locate_path (files : Files) (x : TJs) (name : CString) (createContext : Bool) :
    (locate files x (some name) createContext).2.1 =
      (located files x.canvasDir name).elim noText JsFile.path := by
  simp only [locate, located]
  cases jsGetfile files x.canvasDir name with
  | none => rfl
  | some file =>
    dsimp only
    by_cases named : file.dir.bytes ≠ []
    · rw [if_pos named, if_pos named]
      rfl
    · rw [if_neg named, if_neg named]
      rfl

theorem loadExit_eq (files : Files) (syntaxError : Option CString) (x : TJs) (name : CString)
    (createContext : Bool) (global : Option Ref) :
    loadExit files (opening syntaxError) x (some name) createContext global = .completed ↔
      syntaxError = none ∧
        Finds files x.canvasDir name (locate files x (some name) createContext).2.1 := by
  have exits : ∀ y path, runExit files (opening syntaxError) y path global = .completed ↔
      path.bytes ≠ [] ∧ jsReadfile files path ≠ none ∧ syntaxError = none := by
    intro y path
    by_cases empty : path.bytes = []
    · simp [runExit, empty]
    · cases read : jsReadfile files path with
      | none => simp [runExit, empty, read]
      | some source => cases syntaxError <;> simp [runExit, empty, read, opening]
  rw [loadExit, exits, locate_path, Finds]
  cases found : located files x.canvasDir name with
  | none =>
    have unread : (noText).bytes = [] := rfl
    simp [unread]
  | some file =>
    have named := path_ne_nil found
    simp [named, and_comm]

theorem loading_nested {s : State}
    (h : Reachable (loading me canvas files argv) (Including files includes) s) :
    Reachable (nested me canvas) always s := by
  induction h with
  | start initial =>
    obtain ⟨syntaxError, rfl⟩ := initial
    exact .start ⟨files, argv, syntaxError, rfl⟩
  | next _ step _ ih => exact .next ih step trivial

/-- The files whose sources are running. -/
def State.Runs (s : State) (paths : List CString) : Prop := s.frames.map Frame.path = paths.map some

/-- A load puts the file that it finds on the stack, if its source can be compiled. -/
theorem runs_enter {paths : List CString} (runs : s.Runs paths) (files : Files) {x : TJs}
    (name : CString) (createContext : Bool) (global : Option Ref) (syntaxError : Option CString) :
    let t := s.enter files x (some name) createContext global syntaxError
    t.Runs paths ∨ ∃ path, Finds files x.canvasDir name path ∧ t.Runs (path :: paths) := by
  intro t
  rcases frames_enter s files x (some name) createContext global syntaxError with
    same | ⟨completed, pushed⟩
  · refine .inl ?_
    rw [State.Runs, same]
    exact runs
  · obtain ⟨_, finds⟩ := (loadExit_eq ..).mp completed
    refine .inr ⟨_, finds, ?_⟩
    rw [State.Runs, pushed, List.map_cons, List.map_cons, runs]

theorem runs_created (files : Files) (argv : List Atom) (syntaxError : Option CString) :
    (created me canvas files argv syntaxError).Runs [] ∨
      ∃ path, Root files canvas argv path ∧
        (created me canvas files argv syntaxError).Runs [path] := by
  have start (x : TJs) : State.Runs ⟨x, [], []⟩ [] := rfl
  rw [created]
  cases named : scriptName argv with
  | none => exact .inl rfl
  | some name =>
    rcases runs_enter (start _) files name true none syntaxError with
      none_runs | ⟨path, finds, runs⟩
    · exact .inl none_runs
    · exact .inr ⟨path, ⟨name, named, finds⟩, runs⟩

theorem runs_trail (h : Reachable (loading me canvas files argv) (Including files includes) s) :
    ∃ paths, s.Runs paths ∧
      Trail (Root files canvas argv) (MayLoad files canvas includes) paths := by
  apply h.invariant
  · rintro _ ⟨syntaxError, rfl⟩
    rcases runs_created files argv syntaxError with none_runs | ⟨path, root, runs⟩
    · exact ⟨[], none_runs, trail_nil⟩
    · exact ⟨[path], runs, trail_singleton.mpr root⟩
  · rintro s l t before ⟨paths, runs, trail⟩ step allowed
    have step : next s l = some t := step
    cases l with
    | call inlet messagename => exact absurd allowed id
    | compile files' argv' syntaxError => exact absurd allowed id
    | property resizes globals =>
      cases step
      exact ⟨paths, runs, trail⟩
    | resize r =>
      obtain ⟨_, _, _, rfl⟩ := running_eq_some step
      exact ⟨paths, runs, trail⟩
    | assign globals =>
      obtain ⟨f, _, _, rfl⟩ := running_eq_some step
      refine ⟨paths, ?_, trail⟩
      rw [State.Runs, State.assign]
      by_cases current : f.context = serial s.x
      · rw [if_pos current]
        exact runs
      · rw [if_neg current]
        exact runs
    | load files' name global syntaxError =>
      obtain ⟨f, outer, frames, rfl⟩ := running_eq_some step
      obtain ⟨rfl, g, first, path, isPath, included⟩ := allowed
      have canvasDir := (wellMade (stacked (loading_nested before)).reached).canvasDir
      rcases runs_enter runs files' (x := s.x) name false global syntaxError with
        same | ⟨path', finds, pushed⟩
      · exact ⟨paths, same, trail⟩
      · refine ⟨path' :: paths, pushed, ?_⟩
        rw [State.Runs, frames] at runs
        rw [frames] at first
        cases first
        obtain ⟨p, rest, rfl⟩ : ∃ p rest, paths = p :: rest := by
          cases paths with
          | nil => cases runs
          | cons p rest => exact ⟨p, rest, rfl⟩
        have top : f.path = some p := (List.cons.inj runs).1
        cases isPath.symm.trans top
        rw [canvasDir] at finds
        exact trail_cons_cons.mpr ⟨⟨name, included, finds⟩, trail⟩
    | ends exception =>
      obtain ⟨f, outer, frames, rfl⟩ := running_eq_some step
      obtain ⟨errors, left⟩ := leave_cases s f outer exception
      rw [left]
      rw [State.Runs, frames] at runs
      cases paths with
      | nil => cases runs
      | cons p rest => exact ⟨rest, (List.cons.inj runs).2, trail.tail⟩

/-- Where no file that may be loaded may come to load itself again, the sources that are
running are those of different files, no more than there are in reach. -/
theorem running_distinct
    (finite : {path | Reach (Root files canvas argv) (MayLoad files canvas includes) path}.Finite)
    (acyclic : ∀ path, Reach (Root files canvas argv) (MayLoad files canvas includes) path →
      ¬ OnCycle (MayLoad files canvas includes) path)
    (h : Reachable (loading me canvas files argv) (Including files includes) s) :
    (s.frames.map Frame.path).Nodup ∧ s.frames.length ≤
      {path | Reach (Root files canvas argv) (MayLoad files canvas includes) path}.ncard := by
  obtain ⟨paths, runs, trail⟩ := runs_trail h
  have same : s.frames.map Frame.path = paths.map some := runs
  constructor
  · rw [same]
    exact (trail.nodup acyclic).map (Option.some_injective _)
  · have lengths := congrArg List.length same
    rw [List.length_map, List.length_map] at lengths
    rw [lengths]
    exact trail.length_le finite acyclic

/-- A directory with `test.js` and `lib.js`. -/
def twoFiles : Files where
  openViaPath dir name := some (dir, name)
  contents path :=
    if path = .ofAscii "/patch/test.js" ∨ path = .ofAscii "/patch/lib.js" then some [] else none

/-- The first one includes the second one. -/
def includesLib (path name : CString) : Prop :=
  path = .ofAscii "/patch/test.js" ∧ name = .ofAscii "lib.js"

theorem root_twoFiles {path : CString}
    (root : Root twoFiles (.ofAscii "/patch") [fileArg "test.js"] path) :
    path = .ofAscii "/patch/test.js" := by
  obtain ⟨name, named, file, found, _, rfl⟩ := root
  cases named
  have expected : located twoFiles (.ofAscii "/patch") (.ofAscii "test.js") =
      some ⟨.ofAscii "/patch/test.js", .ofAscii "/patch"⟩ := by decide
  cases found.symm.trans expected
  rfl

theorem mayLoad_twoFiles {path path' : CString}
    (edge : MayLoad twoFiles (.ofAscii "/patch") includesLib path path') :
    path = .ofAscii "/patch/test.js" ∧ path' = .ofAscii "/patch/lib.js" := by
  obtain ⟨name, ⟨isTest, rfl⟩, file, found, _, rfl⟩ := edge
  have expected : located twoFiles (.ofAscii "/patch") (.ofAscii "lib.js") =
      some ⟨.ofAscii "/patch/lib.js", .ofAscii "/patch"⟩ := by decide
  cases found.symm.trans expected
  exact ⟨isTest, rfl⟩

theorem running_distinct_twoFiles :
    ∃ s : State, s.frames.length = 2 ∧ (s.frames.map Frame.path).Nodup ∧
      s.frames.length ≤ {path | Reach (Root twoFiles (.ofAscii "/patch") [fileArg "test.js"])
        (MayLoad twoFiles (.ofAscii "/patch") includesLib) path}.ncard := by
  have start : Reachable (loading 1 (.ofAscii "/patch") twoFiles [fileArg "test.js"])
      (Including twoFiles includesLib)
      (created 1 (.ofAscii "/patch") twoFiles [fileArg "test.js"] none) := .start ⟨none, rfl⟩
  have step : ∃ s, next (created 1 (.ofAscii "/patch") twoFiles [fileArg "test.js"] none)
      (.load twoFiles (.ofAscii "lib.js") none none) = some s ∧ s.frames.length = 2 :=
    ⟨_, rfl, by decide⟩
  obtain ⟨s, step, length⟩ := step
  have allowed : Including twoFiles includesLib
      (created 1 (.ofAscii "/patch") twoFiles [fileArg "test.js"] none)
      (.load twoFiles (.ofAscii "lib.js") none none) :=
    ⟨rfl, _, rfl, .ofAscii "/patch/test.js", by decide, rfl, rfl⟩
  have finite : {path | Reach (Root twoFiles (.ofAscii "/patch") [fileArg "test.js"])
      (MayLoad twoFiles (.ofAscii "/patch") includesLib) path}.Finite := by
    apply (Set.toFinite {CString.ofAscii "/patch/test.js", CString.ofAscii "/patch/lib.js"}).subset
    intro path reached
    cases reached with
    | root root => exact .inl (root_twoFiles root)
    | step _ edge => exact .inr (mayLoad_twoFiles edge).2
  refine ⟨s, length, running_distinct finite ?_ (.next start step allowed)⟩
  intro path _ cycle
  have first : path = .ofAscii "/patch/test.js" := by
    obtain ⟨_, edge, _⟩ := Relation.TransGen.head'_iff.mp cycle
    exact (mayLoad_twoFiles edge).1
  have last : path = .ofAscii "/patch/lib.js" := by
    obtain ⟨_, _, edge⟩ := Relation.TransGen.tail'_iff.mp cycle
    exact (mayLoad_twoFiles edge).2
  exact absurd (first.symm.trans last) (by decide)

end Nesting
