import Pdjs.GuardedRuns
import Pdjs.Ports

/-!
# Loading a script

A js object loads its script when it is made and on a `compile` message. A name is
looked up on the search path of the canvas; without one the file loaded last is
loaded again. The context is replaced before the file is read, so every failure
leaves the object with a new context in which no script ran.

What a source does when it runs is taken as a function of what it can observe of
its object. The file system is given with every load and may change in between.
-/

namespace Loading

open GuardedRuns PdAtoms TextEncoding ObjectRegistry Ports

/-- What can be opened. `openViaPath` gets the directory of the canvas and a name,
and returns the directory of the file and the rest of its name. -/
structure Files where
  openViaPath : CString → CString → Option (CString × CString)
  contents : CString → Option (List UInt8)

def noText : CString := .ofBytes []

/-- `js_file` -/
structure JsFile where
  path : CString
  dir : CString
  deriving DecidableEq

def jsGetfile (files : Files) (canvasDir scriptName : CString) : Option JsFile :=
  (files.openViaPath canvasDir scriptName).map fun result =>
    { path := .ofBytes (result.1.bytes ++ 47 :: result.2.bytes), dir := result.1 }

def jsReadfile (files : Files) (name : CString) : Option JsString :=
  (files.contents name).map decodeUtf8

/-- The file a name stands for. A file in a directory with an empty name counts as
not found, but without a message. -/
def located (files : Files) (canvasDir scriptName : CString) : Option JsFile :=
  match jsGetfile files canvasDir scriptName with
  | some file => if file.dir.bytes ≠ [] then some file else none
  | none => none

/-- The globals that scripts have made in a context. -/
abbrev Globals := JsString → Option Value

/-- `serial` tells the contexts of an object apart, and `sources` are the texts that
were loaded into it and ran. -/
structure JsContext where
  serial : Nat
  sources : List JsString
  globals : Globals

/-- `t_js`, with the directory of its canvas and the number of contexts made for it. -/
structure TJs where
  self : ObjId
  canvasDir : CString
  dir : CString
  path : CString
  ports : PortState
  context : Option JsContext
  args : List Atom
  inlet : Int
  messagename : CString
  contexts : Nat

inductive Resize where
  | inlets (m : BitVec 32)
  | outlets (m : BitVec 32)

def resize (x : ObjId) (p : PortState) : Resize → PortState
  | .inlets m => jsSetInlets x m p
  | .outlets m => jsSetOutlets m p

/-- What the interceptors of the global object return, the globals, and the object
that the source is run on if it is run as a function. -/
structure Environment where
  jsarguments : List Atom
  inlets : Int
  outlets : Int
  inlet : Int
  messagename : CString
  globals : Globals
  global : Option Ref

/-- A source that runs assigns to the counts in some order, leaves the globals behind
and may end with an exception. -/
inductive Ran where
  | syntaxError (exception : CString)
  | ended (resizes : List Resize) (globals : Globals) (exception : Option CString)

abbrev Script := Environment → JsString → Ran

def TJs.globals (x : TJs) : Globals := x.context.elim (fun _ => none) JsContext.globals

def TJs.sources (x : TJs) : List JsString := x.context.elim [] JsContext.sources

def environment (x : TJs) (global : Option Ref) : Environment where
  jsarguments := x.args
  inlets := intSize x.ports.inlets.length
  outlets := intSize x.ports.outlets.length
  inlet := x.inlet
  messagename := x.messagename
  globals := x.globals
  global := global

inductive LoadError where
  | notFound (scriptName : CString)
  | reading (path : CString)
  | compiling (path exception : CString)
  | running (path exception : CString)
  deriving DecidableEq

def ascii (s : String) : List UInt8 := (CString.ofAscii s).bytes

/-- The text that is posted. -/
def LoadError.text : LoadError → List UInt8
  | .notFound name => ascii "Script file '" ++ name.bytes ++ ascii "' not found."
  | .reading path => ascii "Error reading '" ++ path.bytes ++ ascii "'."
  | .compiling path e => ascii "Error compiling '" ++ path.bytes ++ ascii "':\n" ++ e.bytes
  | .running path e => ascii "Error running '" ++ path.bytes ++ ascii "':\n" ++ e.bytes

/-- The path to load, with `dir` and `path` updated. -/
def locate (files : Files) (x : TJs) (scriptName : Option CString) (createContext : Bool) :
    TJs × CString × Option LoadError :=
  match scriptName with
  | none => (x, x.path, none)
  | some name =>
    match jsGetfile files x.canvasDir name with
    | none => (x, noText, some (.notFound name))
    | some file =>
      if file.dir.bytes ≠ [] then
        (if createContext then { x with dir := file.dir, path := file.path } else x,
          file.path, none)
      else
        (x, noText, none)

def makeContext (x : TJs) : TJs :=
  { x with context := some ⟨x.contexts, [], fun _ => none⟩, contexts := x.contexts + 1 }

/-- The last part of `js_load`, inside the context. -/
def runSource (files : Files) (script : Script) (x : TJs) (path : CString) (global : Option Ref) :
    TJs × Option LoadError :=
  if path.bytes = [] then
    (x, none)
  else
    match jsReadfile files path with
    | none => (x, some (.reading path))
    | some source =>
      match script (environment x global) source with
      | .syntaxError e => (x, some (.compiling path e))
      | .ended resizes globals exception =>
        ({ x with
            ports := resizes.foldl (resize x.self) x.ports
            context := x.context.map fun c =>
              { c with sources := c.sources ++ [source], globals := globals } },
          exception.map (.running path))

def jsLoad (files : Files) (script : Script) (x : TJs) (scriptName : Option CString)
    (createContext : Bool) (global : Option Ref) : TJs × Option LoadError :=
  let (x, path, missing) := locate files x scriptName createContext
  let x := if createContext then makeContext x else x
  let (x, failed) := runSource files script x path global
  (x, missing <|> failed)

/-- The `compile` branch of `js_anything`. -/
def compile (files : Files) (script : Script) (x : TJs) (argv : List Atom) :
    TJs × Option LoadError :=
  match argv with
  | .symbol s :: _ =>
    let x := { x with args := argv, ports := jsSetInlets x.self 1 x.ports }
    let x := { x with ports := jsSetOutlets 1 x.ports }
    jsLoad files script x (some s.name) true none
  | _ => jsLoad files script x none true none

def jsNew (self : ObjId) (canvasDir : CString) (files : Files) (script : Script)
    (argv : List Atom) : TJs × Option LoadError :=
  let scriptName := match argv with
    | .symbol s :: _ => some s.name
    | _ => none
  let x : TJs := ⟨self, canvasDir, noText, noText, newPorts self, none, argv, 0, noText, 0⟩
  jsLoad files script x scriptName true none

/-- What happens to an object. A call is a message that is passed to a function of
the script and `assign` one that sets or deletes a property; `load` is an `include`
or a `require`. -/
inductive Label where
  | call (inlet : Int) (messagename : CString) (resizes : List Resize) (globals : Globals)
  | assign (resizes : List Resize) (globals : Globals)
  | load (files : Files) (script : Script) (scriptName : CString) (global : Option Ref)
  | compile (files : Files) (script : Script) (argv : List Atom)

def assigned (x : TJs) (resizes : List Resize) (globals : Globals) : TJs :=
  { x with
    ports := resizes.foldl (resize x.self) x.ports
    context := x.context.map fun c => { c with globals := globals } }

def next (x : TJs) : Label → TJs
  | .call inlet messagename resizes globals =>
    assigned { x with inlet := inlet, messagename := messagename } resizes globals
  | .assign resizes globals => assigned x resizes globals
  | .load files script scriptName global =>
    (jsLoad files script x (some scriptName) false global).1
  | .compile files script argv => (Loading.compile files script x argv).1

/-- The js object `self` in a canvas, from its creation with any arguments. -/
def object (self : ObjId) (canvasDir : CString) : System TJs Label :=
  .ofNext (fun x => ∃ files script argv, x = (jsNew self canvasDir files script argv).1)
    (fun x l => some (next x l))

/-- The identity is kept, the ports are coherent and there is an inlet. -/
structure Formed (me : ObjId) (canvas : CString) (x : TJs) : Prop where
  self : x.self = me
  canvasDir : x.canvasDir = canvas
  coherent : Coherent me x.ports
  inlets : 0 < x.ports.inlets.length

/-- Beside that, the context is the last one made. -/
structure WellMade (me : ObjId) (canvas : CString) (x : TJs) : Prop extends
    Formed me canvas x where
  context : ∃ c, x.context = some c ∧ c.serial + 1 = x.contexts

variable {me : ObjId} {canvas : CString} {x : TJs}

theorem coherent_resize {p : PortState} (h : Coherent me p) (r : Resize) :
    Coherent me (resize me p r) := by
  cases r with
  | inlets m => exact coherent_jsSetInlets h m
  | outlets m => exact coherent_jsSetOutlets h m

theorem inlets_resize_pos {p : PortState} (h : Coherent me p) (pos : 0 < p.inlets.length)
    (r : Resize) : 0 < (resize me p r).inlets.length := by
  cases r with
  | inlets m => exact inlets_jsSetInlets_pos h m
  | outlets m => simpa only [resize, jsSetOutlets_inlets] using pos

theorem coherent_resizes {p : PortState} (h : Coherent me p) (pos : 0 < p.inlets.length)
    (resizes : List Resize) :
    Coherent me (resizes.foldl (resize me) p) ∧
      0 < (resizes.foldl (resize me) p).inlets.length := by
  induction resizes generalizing p with
  | nil => exact ⟨h, pos⟩
  | cons r resizes ih => exact ih (coherent_resize h r) (inlets_resize_pos h pos r)

/-- Resizing and changing what is in the context keep an object well made. -/
theorem WellMade.updated (h : WellMade me canvas x) (resizes : List Resize)
    {change : JsContext → JsContext} (serial : ∀ c, (change c).serial = c.serial) :
    WellMade me canvas
      { x with
        ports := resizes.foldl (resize x.self) x.ports
        context := x.context.map change } := by
  obtain ⟨c, context, last⟩ := h.context
  obtain ⟨coherent, inlets⟩ := coherent_resizes h.coherent h.inlets resizes
  rw [← h.self] at coherent inlets
  refine ⟨⟨h.self, h.canvasDir, h.self ▸ coherent, inlets⟩, change c, ?_, ?_⟩
  · simp only [context, Option.map_some]
  · simpa only [serial] using last

/-- Running a source changes nothing, or resizes and changes what is in the context. -/
theorem runSource_cases (files : Files) (script : Script) (x : TJs) (path : CString)
    (global : Option Ref) :
    (runSource files script x path global).1 = x ∨
      ∃ (resizes : List Resize) (change : JsContext → JsContext),
        (∀ c, (change c).serial = c.serial) ∧
        (runSource files script x path global).1 =
          { x with
            ports := resizes.foldl (resize x.self) x.ports
            context := x.context.map change } := by
  rw [runSource]
  by_cases empty : path.bytes = []
  · rw [if_pos empty]
    exact .inl rfl
  · rw [if_neg empty]
    cases jsReadfile files path with
    | none => exact .inl rfl
    | some source =>
      dsimp only
      cases script (environment x global) source with
      | syntaxError e => exact .inl rfl
      | ended resizes globals exception =>
        exact .inr ⟨resizes,
          fun c => { c with sources := c.sources ++ [source], globals := globals },
          fun _ => rfl, rfl⟩

theorem wellMade_runSource (h : WellMade me canvas x) (files : Files) (script : Script)
    (path : CString) (global : Option Ref) :
    WellMade me canvas (runSource files script x path global).1 := by
  rcases runSource_cases files script x path global with same | ⟨resizes, change, serial, ran⟩
  · rw [same]
    exact h
  · rw [ran]
    exact h.updated resizes serial

theorem wellMade_makeContext (h : Formed me canvas x) : WellMade me canvas (makeContext x) :=
  ⟨⟨h.self, h.canvasDir, h.coherent, h.inlets⟩, _, rfl, rfl⟩

/-- Looking up a file changes `dir` and `path` only, and only for a new context. -/
theorem locate_cases (files : Files) (x : TJs) (scriptName : Option CString)
    (createContext : Bool) :
    (locate files x scriptName createContext).1 = x ∨
      createContext = true ∧ ∃ dir path, (locate files x scriptName createContext).1 =
        { x with dir := dir, path := path } := by
  cases scriptName with
  | none => exact .inl rfl
  | some name =>
    rw [locate]
    cases jsGetfile files x.canvasDir name with
    | none => exact .inl rfl
    | some file =>
      dsimp only
      by_cases named : file.dir.bytes ≠ []
      · rw [if_pos named]
        cases createContext with
        | false => exact .inl rfl
        | true => exact .inr ⟨rfl, file.dir, file.path, rfl⟩
      · rw [if_neg named]
        exact .inl rfl

/-- The object with the directory and the path of a file, if there is one. -/
def relocated (x : TJs) (file : Option JsFile) : TJs :=
  { x with dir := file.elim x.dir JsFile.dir, path := file.elim x.path JsFile.path }

theorem jsLoad_name (files : Files) (script : Script) (x : TJs) (name : CString)
    (global : Option Ref) :
    (jsLoad files script x (some name) true global).1 =
      (runSource files script (makeContext (relocated x (located files x.canvasDir name)))
        ((located files x.canvasDir name).elim noText JsFile.path) global).1 := by
  simp only [jsLoad, locate, located]
  cases jsGetfile files x.canvasDir name with
  | none => rfl
  | some file =>
    dsimp only
    by_cases named : file.dir.bytes ≠ []
    · rw [if_pos named, if_pos named]
      rfl
    · rw [if_neg named, if_neg named]
      rfl

/-- The object a `compile` message with a name loads the file into. -/
def reset (x : TJs) (argv : List Atom) : TJs :=
  { x with args := argv, ports := jsSetOutlets 1 (jsSetInlets x.self 1 x.ports) }

theorem compile_name (files : Files) (script : Script) (x : TJs) (s : Symbol)
    (rest : List Atom) :
    (compile files script x (.symbol s :: rest)).1 =
      (runSource files script
        (makeContext (relocated (reset x (.symbol s :: rest)) (located files x.canvasDir s.name)))
        ((located files x.canvasDir s.name).elim noText JsFile.path) none).1 :=
  jsLoad_name files script (reset x (.symbol s :: rest)) s.name none

theorem compile_again (files : Files) (script : Script) (x : TJs) :
    (compile files script x []).1 =
      (runSource files script (makeContext x) x.path none).1 := rfl

/-- A file without a path, and one that cannot be read, change nothing. -/
theorem runSource_unread {files : Files} {path : CString}
    (unread : path.bytes = [] ∨ jsReadfile files path = none) (script : Script) (x : TJs)
    (global : Option Ref) : (runSource files script x path global).1 = x := by
  by_cases empty : path.bytes = []
  · simp [runSource, empty]
  · simp [runSource, empty, unread.resolve_left empty]

/-- What an error is about: the name that was asked for or the path that was loaded. -/
def LoadError.file : LoadError → CString
  | .notFound name => name
  | .reading path => path
  | .compiling path _ => path
  | .running path _ => path

theorem LoadError.file_infix_text (e : LoadError) : e.file.bytes <:+: e.text := by
  cases e with
  | notFound name => exact ⟨_, _, rfl⟩
  | reading path => exact ⟨_, _, rfl⟩
  | compiling path exception =>
    exact (List.infix_append _ _ _).trans (List.prefix_append _ _).isInfix
  | running path exception =>
    exact (List.infix_append _ _ _).trans (List.prefix_append _ _).isInfix

theorem file_runSource {files : Files} {script : Script} {path : CString} {global : Option Ref}
    {e : LoadError} (posted : (runSource files script x path global).2 = some e) :
    e.file = path := by
  rw [runSource] at posted
  by_cases empty : path.bytes = []
  · simp [empty] at posted
  · cases read : jsReadfile files path with
    | none =>
      simp only [empty, if_false, read] at posted
      cases posted
      rfl
    | some source =>
      simp only [empty, if_false, read] at posted
      cases ran : script (environment x global) source with
      | syntaxError exception =>
        rw [ran] at posted
        cases posted
        rfl
      | ended resizes globals exception =>
        rw [ran] at posted
        obtain ⟨_, _, rfl⟩ := Option.map_eq_some_iff.mp posted
        rfl

theorem file_locate {files : Files} {scriptName : Option CString} {createContext : Bool}
    {e : LoadError} (posted : (locate files x scriptName createContext).2.2 = some e) :
    scriptName = some e.file := by
  cases scriptName with
  | none => cases posted
  | some name =>
    rw [locate] at posted
    cases found : jsGetfile files x.canvasDir name with
    | none =>
      rw [found] at posted
      cases posted
      rfl
    | some file =>
      rw [found] at posted
      by_cases named : file.dir.bytes ≠ [] <;> simp [named] at posted

/-- Every error of a load quotes the name that was asked for or the path that was loaded. -/
theorem file_jsLoad {files : Files} {script : Script} {scriptName : Option CString}
    {createContext : Bool} {global : Option Ref} {e : LoadError}
    (posted : (jsLoad files script x scriptName createContext global).2 = some e) :
    scriptName = some e.file ∨ e.file = (locate files x scriptName createContext).2.1 := by
  simp only [jsLoad] at posted
  cases missing : (locate files x scriptName createContext).2.2 with
  | some e' =>
    rw [missing] at posted
    cases posted
    exact .inl (file_locate missing)
  | none =>
    rw [missing] at posted
    exact .inr (file_runSource posted)

theorem Formed.located (h : Formed me canvas x) (files : Files) (scriptName : Option CString)
    (createContext : Bool) : Formed me canvas (locate files x scriptName createContext).1 := by
  rcases locate_cases files x scriptName createContext with same | ⟨_, dir, path, changed⟩
  · rw [same]
    exact h
  · rw [changed]
    exact ⟨h.self, h.canvasDir, h.coherent, h.inlets⟩

/-- A load with a new context needs no context, and one without keeps the old one. -/
theorem wellMade_jsLoad_new (h : Formed me canvas x) (files : Files) (script : Script)
    (scriptName : Option CString) (global : Option Ref) :
    WellMade me canvas (jsLoad files script x scriptName true global).1 :=
  wellMade_runSource (wellMade_makeContext (h.located files scriptName true)) files script _ global

theorem wellMade_jsLoad_same (h : WellMade me canvas x) (files : Files) (script : Script)
    (scriptName : Option CString) (global : Option Ref) :
    WellMade me canvas (jsLoad files script x scriptName false global).1 := by
  have same : (locate files x scriptName false).1 = x :=
    (locate_cases files x scriptName false).resolve_right fun changed => nomatch changed.1
  have located : WellMade me canvas (locate files x scriptName false).1 := same.symm ▸ h
  exact wellMade_runSource located files script _ global

theorem wellMade_compile (h : WellMade me canvas x) (files : Files) (script : Script)
    (argv : List Atom) : WellMade me canvas (compile files script x argv).1 := by
  rcases argv with _ | ⟨_ | name | _, argv⟩
  · exact wellMade_jsLoad_new h.toFormed files script none none
  · exact wellMade_jsLoad_new h.toFormed files script none none
  · obtain ⟨coherent, inlets⟩ := coherent_resizes h.coherent h.inlets [.inlets 1, .outlets 1]
    rw [← h.self] at coherent inlets
    have single : Formed me canvas (reset x (.symbol name :: argv)) :=
      ⟨h.self, h.canvasDir, h.self ▸ coherent, inlets⟩
    exact wellMade_jsLoad_new single files script _ none
  · exact wellMade_jsLoad_new h.toFormed files script none none

theorem formed_newPorts (me : ObjId) (canvas : CString) (argv : List Atom) :
    Formed me canvas
      ⟨me, canvas, noText, noText, newPorts me, none, argv, 0, noText, 0⟩ :=
  ⟨rfl, rfl, coherent_newPorts me, inlets_newPorts_pos me⟩

theorem wellMade (h : Reachable (object me canvas) always x) : WellMade me canvas x := by
  apply h.invariant
  · rintro _ ⟨files, script, argv, rfl⟩
    exact wellMade_jsLoad_new (formed_newPorts me canvas argv) files script _ none
  · rintro x l _ _ hx ⟨⟩ _
    cases l with
    | call inlet messagename resizes globals =>
      have called : WellMade me canvas { x with inlet := inlet, messagename := messagename } :=
        ⟨⟨hx.self, hx.canvasDir, hx.coherent, hx.inlets⟩, hx.context⟩
      exact called.updated resizes fun _ => rfl
    | assign resizes globals => exact hx.updated resizes fun _ => rfl
    | load files script scriptName global =>
      exact wellMade_jsLoad_same hx files script (some scriptName) global
    | compile files script argv => exact wellMade_compile hx files script argv

end Loading
