import Pdjs.Loading
import Pdjs.Resizing

/-!
# Compiling again

A `compile` message with a file name replaces the arguments, sets both counts to
one and makes a new context before it turns out whether there is such a file. One
without a name loads the last file again and leaves arguments and counts alone. So
the first is no refinement of the second, and neither can be undone by a failure.
The ports of the object change all the while as those of any patch do.
-/

namespace Recompiling

open GuardedRuns PdAtoms ObjectRegistry Ports PatchCords Resizing Loading

universe u

variable {me : ObjId} {canvas : CString} {x : TJs}

/-- Running a source changes the ports by resizes only. -/
theorem ports_runSource (files : Files) (script : Script) (x : TJs) (path : CString)
    (global : Option Ref) :
    ∃ resizes : List Resize, (runSource files script x path global).1.ports =
      resizes.foldl (resize x.self) x.ports := by
  rcases runSource_cases files script x path global with same | ⟨resizes, change, _, ran⟩
  · rw [same]
    exact ⟨[], rfl⟩
  · rw [ran]
    exact ⟨resizes, rfl⟩

theorem ports_jsLoad (files : Files) (script : Script) (x : TJs) (scriptName : Option CString)
    (createContext : Bool) (global : Option Ref) :
    ∃ resizes : List Resize, (jsLoad files script x scriptName createContext global).1.ports =
      resizes.foldl (resize x.self) x.ports := by
  obtain ⟨self, ports⟩ : (locate files x scriptName createContext).1.self = x.self ∧
      (locate files x scriptName createContext).1.ports = x.ports := by
    rcases locate_cases files x scriptName createContext with same | ⟨_, dir, path, changed⟩
    · rw [same]
      exact ⟨rfl, rfl⟩
    · rw [changed]
      exact ⟨rfl, rfl⟩
  rw [← self, ← ports]
  cases createContext with
  | false => exact ports_runSource files script _ _ global
  | true => exact ports_runSource files script (makeContext _) _ global

theorem ports_compile (files : Files) (script : Script) (x : TJs) (argv : List Atom) :
    ∃ resizes : List Resize, (compile files script x argv).1.ports =
      resizes.foldl (resize x.self) (compilePorts x.self argv x.ports) := by
  rcases argv with _ | ⟨_ | name | _, argv⟩
  · exact ports_jsLoad files script x none true none
  · exact ports_jsLoad files script x none true none
  · exact ports_jsLoad files script (reset x (.symbol name :: argv)) (some name.name) true none
  · exact ports_jsLoad files script x none true none

theorem reachable_resizes {p : PortState} (h : Reachable (patch me) always ⟨p, []⟩)
    (resizes : List Resize) :
    Reachable (patch me) always ⟨resizes.foldl (resize me) p, []⟩ := by
  induction resizes generalizing p with
  | nil => exact h
  | cons r resizes ih =>
    cases r with
    | inlets m => exact ih (.next h (.setInlets _ m) trivial)
    | outlets m => exact ih (.next h (.setOutlets _ m) trivial)

/-- What a run does to the ports of a js object, resizes and `compile` messages do. -/
theorem reachable_ports (h : Reachable (object me canvas) always x) :
    Reachable (patch me) always ⟨x.ports, []⟩ := by
  apply h.invariant
  · rintro _ ⟨files, script, argv, rfl⟩
    obtain ⟨resizes, ports⟩ : ∃ resizes : List Resize,
        (jsNew me canvas files script argv).1.ports = resizes.foldl (resize me) (newPorts me) :=
      ports_jsLoad files script _ _ true none
    rw [ports]
    exact reachable_resizes (.start rfl) resizes
  · rintro x l _ before hx ⟨⟩ _
    have self := (wellMade before).self
    cases l with
    | call inlet messagename resizes globals =>
      simp only [next, assigned, self]
      exact reachable_resizes hx resizes
    | assign resizes globals =>
      simp only [next, assigned, self]
      exact reachable_resizes hx resizes
    | load files script scriptName global =>
      obtain ⟨resizes, ports⟩ := ports_jsLoad files script x (some scriptName) false global
      rw [self] at ports
      simp only [next, ports]
      exact reachable_resizes hx resizes
    | compile files script argv =>
      obtain ⟨resizes, ports⟩ := ports_compile files script x argv
      rw [self] at ports
      simp only [next, ports]
      exact reachable_resizes (.next hx (.compile _ argv) trivial) resizes

/-- So the vectors of a js object represent its ports whatever its scripts do. -/
theorem represented_ports (h : Reachable (object me canvas) always x) : Represented me x.ports :=
  have ports := reachable_ports h
  represented (coherent ports) (inlets_pos ports)

/-- There is no file of that name, or it cannot be read. -/
def Fails (files : Files) (canvasDir scriptName : CString) : Prop :=
  ∀ file, jsGetfile files canvasDir scriptName = some file → jsReadfile files file.path = none

/-- `after` has the arguments of the message, the first inlet and the first outlet of
`before`, or a new outlet if there was none, and a new context in which no source ran.
The directory and the path are those of the file if one was located. -/
structure Discarded (before after : TJs) (argv : List Atom) (file : Option JsFile) : Prop where
  args : after.args = argv
  inlet : ∀ e, before.ports.inlets.head? = some e → after.ports.inlets = [e]
  oneInlet : after.ports.inlets.length = 1
  outlet : ∀ o, before.ports.outlets.head? = some o → after.ports.outlets = [o]
  oneOutlet : after.ports.outlets.length = 1
  context : after.context = some ⟨before.contexts, [], fun _ => none⟩
  newContext : ∀ c, before.context = some c → c.serial ≠ before.contexts
  dir : after.dir = file.elim before.dir JsFile.dir
  path : after.path = file.elim before.path JsFile.path

theorem Resized.single {α : Type u} {port : α → PortId} {old new : List α}
    {freed freed' : List PortId} (h : Resized port 1 old new freed freed') :
    (∀ e, old.head? = some e → new = [e]) ∧ new.length = 1 := by
  obtain ⟨a, rfl⟩ := List.length_eq_one_iff.mp h.length
  refine ⟨?_, rfl⟩
  intro e first
  obtain ⟨rest, rfl⟩ := List.head?_eq_some_iff.mp first
  have kept := h.kept
  have least : min (e :: rest).length 1 = 1 := Nat.min_eq_right (Nat.le_add_left 1 _)
  rw [least] at kept
  simpa using kept

/-- What a `compile` message with a name leaves of the ports. -/
theorem single_ports (h : WellMade me canvas x) :
    let p := jsSetOutlets 1 (jsSetInlets x.self 1 x.ports)
    ((∀ e, x.ports.inlets.head? = some e → p.inlets = [e]) ∧ p.inlets.length = 1) ∧
      (∀ o, x.ports.outlets.head? = some o → p.outlets = [o]) ∧ p.outlets.length = 1 := by
  have inlets := Resized.single (resized_inlets h.coherent 1)
  have cut := coherent_jsSetInlets h.coherent 1
  have outlets := Resized.single (resized_outlets cut 1)
  have same := jsSetInlets_obOutlets me 1 x.ports
  rw [cut.obOutlets, h.coherent.obOutlets] at same
  rw [same] at outlets
  rw [h.self]
  dsimp only
  rw [jsSetOutlets_inlets]
  exact ⟨inlets, outlets⟩

theorem unread_of_fails {files : Files} {canvasDir name : CString}
    (fails : Fails files canvasDir name) :
    ((located files canvasDir name).elim noText JsFile.path).bytes = [] ∨
      jsReadfile files ((located files canvasDir name).elim noText JsFile.path) = none := by
  rw [located]
  cases found : jsGetfile files canvasDir name with
  | none => exact .inl rfl
  | some file =>
    dsimp only
    by_cases named : file.dir.bytes ≠ []
    · rw [if_pos named]
      exact .inr (fails file found)
    · rw [if_neg named]
      exact .inl rfl

/-- Every failed `compile` message discards what the object was. -/
theorem discarded_of_fails (h : Reachable (object me canvas) always x) (files : Files)
    (script : Script) (name : Symbol) (rest : List Atom)
    (fails : Fails files canvas name.name) :
    Discarded x (compile files script x (.symbol name :: rest)).1 (.symbol name :: rest)
      (located files canvas name.name) := by
  have made := wellMade h
  obtain ⟨⟨inlet, oneInlet⟩, outlet, oneOutlet⟩ := single_ports made
  obtain ⟨c, context, serial⟩ := made.context
  rw [← made.canvasDir] at fails ⊢
  rw [compile_name, runSource_unread (unread_of_fails fails)]
  refine ⟨rfl, inlet, oneInlet, outlet, oneOutlet, rfl, ?_, rfl, rfl⟩
  intro c' context' same
  cases context.symm.trans context'
  omega

/-- The object is as it was before the message. -/
structure Unchanged (before after : TJs) : Prop where
  context : after.context = before.context
  dir : after.dir = before.dir
  path : after.path = before.path
  args : after.args = before.args
  inlets : after.ports.inlets = before.ports.inlets
  outlets : after.ports.outlets = before.ports.outlets

/-- A directory with the one file `test.js`, which is empty. -/
def oneFile : Files where
  openViaPath := fun dir name => if name = .ofAscii "test.js" then some (dir, name) else none
  contents := fun path => if path = .ofAscii "/patch/test.js" then some [] else none

/-- A script that defines a global and asks for three inlets. -/
def threeInlets : Script := fun _ _ =>
  .ended [.inlets 3] (fun key => if key = jsText "f" then some (.object 0) else none) none

def fileArg (name : String) : Atom := .symbol (gensym (.ofAscii name))

/-- The object `js test.js` with that script. -/
def threeInletObject : TJs :=
  (jsNew 1 (.ofAscii "/patch") oneFile threeInlets [fileArg "test.js"]).1

theorem reachable_threeInletObject :
    Reachable (object 1 (.ofAscii "/patch")) always threeInletObject :=
  .start ⟨_, _, _, rfl⟩

theorem fails_missing : Fails oneFile (.ofAscii "/patch") (.ofAscii "missing.js") := by
  intro file found
  have none_found : jsGetfile oneFile (.ofAscii "/patch") (.ofAscii "missing.js") = none := by
    decide
  cases none_found.symm.trans found

theorem discarded_of_fails_missing :
    Discarded threeInletObject
      (compile oneFile threeInlets threeInletObject [fileArg "missing.js"]).1
      [fileArg "missing.js"] (located oneFile (.ofAscii "/patch") (.ofAscii "missing.js")) :=
  discarded_of_fails reachable_threeInletObject oneFile threeInlets
    (gensym (.ofAscii "missing.js")) [] fails_missing

/-- The running script does not survive a `compile` message for a file that is missing. -/
theorem not_unchanged_missing :
    Reachable (object 1 (.ofAscii "/patch")) always threeInletObject ∧
      Fails oneFile (.ofAscii "/patch") (.ofAscii "missing.js") ∧
      ¬ Unchanged threeInletObject
        (compile oneFile threeInlets threeInletObject [fileArg "missing.js"]).1 := by
  refine ⟨reachable_threeInletObject, fails_missing, ?_⟩
  intro unchanged
  have kept := congrArg (Option.map fun c : JsContext => c.globals (jsText "f")) unchanged.context
  exact absurd kept (by decide)

/-- What the two ways are compared by. -/
structure Observed where
  path : CString
  sources : List JsString
  args : List Atom
  inlets : Nat
  outlets : Nat
  globals : Globals

def observed (x : TJs) : Observed :=
  ⟨x.path, x.sources, x.args, x.ports.inlets.length, x.ports.outlets.length, x.globals⟩

/-- `compile` alone and `compile` with the arguments end alike. -/
def PathsAgree (files : Files) (script : Script) (x : TJs) : Prop :=
  observed (compile files script x []).1 = observed (compile files script x x.args).1

/-- The js objects whose sources do what the script says, whatever the files are. -/
def scripted (self : ObjId) (canvasDir : CString) (script : Script) :
    System TJs Loading.Label :=
  .ofNext (fun x => ∃ files argv, x = (jsNew self canvasDir files script argv).1)
    (fun x l => some (next x l))

def Runs (script : Script) (_ : TJs) : Loading.Label → Prop
  | .load _ script' _ _ => script' = script
  | .compile _ script' _ => script' = script
  | _ => True

def handles : Loading.Label → Bool
  | .call _ _ _ _ | .assign _ _ => true
  | _ => false

/-- The object in a run whose last load, of any kind, was from these files. -/
inductive LastLoaded (me : ObjId) (canvas : CString) (script : Script) (files : Files) :
    TJs → Prop where
  | created (argv : List Atom) :
      LastLoaded me canvas script files (jsNew me canvas files script argv).1
  | loaded {x : TJs} {l : Loading.Label}
      (before : Reachable (scripted me canvas script) (Runs script) x)
      (load : (∃ name global, l = .load files script name global) ∨
        ∃ argv, l = .compile files script argv) : LastLoaded me canvas script files (next x l)
  | handled {x : TJs} {l : Loading.Label} (before : LastLoaded me canvas script files x)
      (handler : handles l) : LastLoaded me canvas script files (next x l)

def OneEach (x : TJs) : Prop := x.ports.inlets.length = 1 ∧ x.ports.outlets.length = 1

/-- What a source leaves of the counts it found, and of the globals. -/
@[ext]
structure Left where
  compiled : Bool
  inlets : Nat
  outlets : Nat
  globals : Globals

def inletsAfter (n : Nat) : Resize → Nat
  | .inlets m => (max m.toInt 1).toNat
  | .outlets _ => n

def outletsAfter (n : Nat) : Resize → Nat
  | .inlets _ => n
  | .outlets m => (max m.toInt 0).toNat

def left (inlets outlets : Nat) : Ran → Left
  | .syntaxError _ => ⟨false, inlets, outlets, fun _ => none⟩
  | .ended resizes globals _ =>
    ⟨true, resizes.foldl inletsAfter inlets, resizes.foldl outletsAfter outlets, globals⟩

/-- What the source does in a new context of the object, and what it would do there with one
inlet and one outlet. -/
def asIs (script : Script) (x : TJs) (source : JsString) : Ran :=
  script (environment (makeContext x) none) source

def asSingle (script : Script) (x : TJs) (source : JsString) : Ran :=
  script { environment (makeContext x) none with inlets := 1, outlets := 1 } source

/-- The name still stands for the file that was loaded last, and its source ends alike with
the counts of the object and with one inlet and one outlet. Where the name stands for no
file, or the file cannot be read, both counts are one and no source runs either way. -/
def Settled (files : Files) (script : Script) (x : TJs) (name : CString) : Prop :=
  match located files x.canvasDir name, jsReadfile files x.path with
  | some file, some source => file.path = x.path ∧
      left x.ports.inlets.length x.ports.outlets.length (asIs script x source) =
        left 1 1 (asSingle script x source)
  | some file, none => file.path = x.path ∧ OneEach x
  | none, some source => OneEach x ∧ ∃ e, asIs script x source = .syntaxError e
  | none, none => OneEach x

theorem lengths_resizes {p : PortState} (h : Coherent me p) (resizes : List Resize) :
    (resizes.foldl (resize me) p).inlets.length =
        resizes.foldl inletsAfter p.inlets.length ∧
      (resizes.foldl (resize me) p).outlets.length =
        resizes.foldl outletsAfter p.outlets.length := by
  induction resizes generalizing p with
  | nil => exact ⟨rfl, rfl⟩
  | cons r resizes ih =>
    obtain ⟨inlets, outlets⟩ := ih (coherent_resize h r)
    rw [List.foldl_cons, List.foldl_cons, List.foldl_cons, inlets, outlets]
    cases r with
    | inlets m =>
      have resized := (resized_inlets h m).length
      have same := jsSetInlets_obOutlets me m p
      rw [(coherent_jsSetInlets h m).obOutlets, h.obOutlets] at same
      rw [resize, resized, same]
      exact ⟨rfl, rfl⟩
    | outlets m =>
      have resized := (resized_outlets h m).length
      rw [resize, resized, jsSetOutlets_inlets]
      exact ⟨rfl, rfl⟩

/-- What is observed after a load into a new context. -/
def observedLoad (path : CString) (args : List Atom) (inlets outlets : Nat) :
    Option (JsString × Ran) → Observed
  | none => ⟨path, [], args, inlets, outlets, fun _ => none⟩
  | some (source, ran) =>
    let left := left inlets outlets ran
    ⟨path, if left.compiled then [source] else [], args, left.inlets, left.outlets, left.globals⟩

theorem observed_runSource (coherent : Coherent x.self x.ports) (files : Files) (script : Script)
    {path : CString} (named : path.bytes ≠ []) :
    observed (runSource files script (makeContext x) path none).1 =
      observedLoad x.path x.args x.ports.inlets.length x.ports.outlets.length
        ((jsReadfile files path).map fun source => (source, asIs script x source)) := by
  simp only [runSource, named, if_false]
  cases jsReadfile files path with
  | none => rfl
  | some source =>
    simp only [Option.map_some, observedLoad, asIs]
    cases script (environment (makeContext x) none) source with
    | syntaxError e => rfl
    | ended resizes globals exception =>
      obtain ⟨inlets, outlets⟩ := lengths_resizes coherent resizes
      simp only [observed, left]
      rw [← inlets, ← outlets]
      rfl

theorem observed_again (h : WellMade me canvas x) (files : Files) (script : Script)
    (loaded : x.path.bytes ≠ []) :
    observed (compile files script x []).1 =
      observedLoad x.path x.args x.ports.inlets.length x.ports.outlets.length
        ((jsReadfile files x.path).map fun source => (source, asIs script x source)) := by
  rw [compile_again]
  exact observed_runSource (h.self ▸ h.coherent) files script loaded

/-- A `compile` message with the arguments finds one inlet and one outlet. -/
theorem asIs_reset (h : WellMade me canvas x) (script : Script) (file : Option JsFile)
    (source : JsString) :
    OneEach (reset x x.args) ∧ Coherent x.self (reset x x.args).ports ∧
      asIs script (relocated (reset x x.args) file) source = asSingle script x source := by
  obtain ⟨⟨_, oneInlet⟩, _, oneOutlet⟩ := single_ports h
  have coherent := h.self ▸ h.coherent
  refine ⟨⟨oneInlet, oneOutlet⟩, coherent_jsSetOutlets (coherent_jsSetInlets coherent 1) 1, ?_⟩
  have counts : intSize 1 = 1 := by decide
  simp only [asIs, asSingle, environment, makeContext, relocated, reset, oneInlet, oneOutlet,
    counts]
  rfl

theorem path_runSource (files : Files) (script : Script) (x : TJs) (path : CString)
    (global : Option Ref) : (runSource files script x path global).1.path = x.path := by
  rcases runSource_cases files script x path global with same | ⟨_, _, _, ran⟩
  · rw [same]
  · rw [ran]

/-- What is observed after `compile` with the arguments. -/
theorem observed_named (h : WellMade me canvas x) (files : Files) (script : Script)
    {name : Symbol} {rest : List Atom} (args : x.args = .symbol name :: rest)
    (loaded : x.path.bytes ≠ []) :
    match located files x.canvasDir name.name with
    | none => observed (compile files script x x.args).1 = observedLoad x.path x.args 1 1 none
    | some file => (observed (compile files script x x.args).1).path = file.path ∧
        (file.path = x.path → observed (compile files script x x.args).1 =
          observedLoad x.path x.args 1 1
            ((jsReadfile files x.path).map fun source => (source, asSingle script x source))) := by
  have named : (compile files script x x.args).1 = (runSource files script
      (makeContext (relocated (reset x x.args) (located files x.canvasDir name.name)))
      ((located files x.canvasDir name.name).elim noText JsFile.path) none).1 := by
    rw [args]
    exact compile_name files script x name rest
  rw [named]
  obtain ⟨⟨oneInlet, oneOutlet⟩, coherent, _⟩ := asIs_reset h script none []
  cases located files x.canvasDir name.name with
  | none =>
    dsimp only
    rw [runSource_unread (.inl rfl), observedLoad]
    simp only [observed, makeContext, relocated, oneInlet, oneOutlet]
    rfl
  | some file =>
    refine ⟨path_runSource .., fun same => ?_⟩
    have single (source : JsString) := (asIs_reset h script (some file) source).2.2
    have ran := observed_runSource (x := relocated (reset x x.args) (some file)) coherent files
      script loaded
    simp only [single] at ran
    rw [Option.elim_some, same, ran]
    simp only [relocated, Option.elim_some, same, oneInlet, oneOutlet]
    rfl

theorem observedLoad_inj {path : CString} {args : List Atom} {n m : Nat} {source : JsString}
    {ran ran' : Ran} : observedLoad path args n m (some (source, ran)) =
      observedLoad path args 1 1 (some (source, ran')) ↔ left n m ran = left 1 1 ran' := by
  constructor
  · intro same
    have compiled : (left n m ran).compiled = (left 1 1 ran').compiled := by
      have sources := congrArg Observed.sources same
      simp only [observedLoad] at sources
      cases first : (left n m ran).compiled <;> cases second : (left 1 1 ran').compiled <;>
        simp [first, second] at sources ⊢
    exact Left.ext compiled (congrArg Observed.inlets same) (congrArg Observed.outlets same)
      (congrArg Observed.globals same)
  · intro same
    simp only [observedLoad, same]

theorem pathsAgree_iff_settled (h : WellMade me canvas x) (files : Files) (script : Script)
    {name : Symbol} {rest : List Atom} (args : x.args = .symbol name :: rest)
    (loaded : x.path.bytes ≠ []) :
    PathsAgree files script x ↔ Settled files script x name.name := by
  have again := observed_again h files script loaded
  have named := observed_named h files script args loaded
  rw [PathsAgree, again, Settled]
  cases found : located files x.canvasDir name.name with
  | none =>
    rw [found] at named
    dsimp only at named
    rw [named]
    cases read : jsReadfile files x.path with
    | none => simp [observedLoad, OneEach]
    | some source =>
      cases ran : asIs script x source with
      | syntaxError e => simp [observedLoad, left, OneEach, ran]
      | ended resizes globals exception => simp [observedLoad, left, OneEach, ran]
  | some file =>
    rw [found] at named
    obtain ⟨path, named⟩ := named
    by_cases same : file.path = x.path
    · rw [named same]
      cases read : jsReadfile files x.path with
      | none => simp [observedLoad, OneEach, same]
      | some source =>
        simp only [Option.map_some, observedLoad_inj, same, true_and]
    · have apart : observedLoad x.path x.args x.ports.inlets.length x.ports.outlets.length
          ((jsReadfile files x.path).map fun source => (source, asIs script x source)) ≠
            observed (compile files script x x.args).1 := by
        intro both
        have paths := (congrArg Observed.path both).trans path
        apply same
        rw [← paths]
        cases jsReadfile files x.path <;> rfl
      cases read : jsReadfile files x.path with
      | none =>
        rw [read] at apart
        exact ⟨fun agree => absurd agree apart, fun settled => absurd settled.1 same⟩
      | some source =>
        rw [read] at apart
        exact ⟨fun agree => absurd agree apart, fun settled => absurd settled.1 same⟩

theorem reachable_scripted {script : Script}
    (h : Reachable (scripted me canvas script) (Runs script) x) :
    Reachable (object me canvas) always x := by
  induction h with
  | start initial =>
    obtain ⟨files, argv, rfl⟩ := initial
    exact .start ⟨files, script, argv, rfl⟩
  | next _ step _ ih => exact .next ih step trivial

theorem reachable_lastLoaded {script : Script} {files : Files}
    (h : LastLoaded me canvas script files x) : Reachable (object me canvas) always x := by
  induction h with
  | created argv => exact .start ⟨files, script, argv, rfl⟩
  | loaded before _ => exact .next (reachable_scripted before) rfl trivial
  | handled _ _ ih => exact .next ih rfl trivial

/-- In every run and for every script, the two ways to compile again agree exactly in the
settled states. -/
theorem pathsAgree_iff {script : Script} {files : Files}
    (h : LastLoaded me canvas script files x) {name : Symbol} {rest : List Atom}
    (args : x.args = .symbol name :: rest) (loaded : x.path.bytes ≠ []) :
    PathsAgree files script x ↔ Settled files script x name.name :=
  pathsAgree_iff_settled (wellMade (reachable_lastLoaded h)) files script args loaded

/-- A script that sets three inlets while it is loaded ends alike both ways. -/
theorem pathsAgree_iff_threeInletObject : PathsAgree oneFile threeInlets threeInletObject := by
  have args : threeInletObject.args = [.symbol (gensym (.ofAscii "test.js"))] := rfl
  have made : LastLoaded 1 (.ofAscii "/patch") threeInlets oneFile threeInletObject := .created _
  rw [pathsAgree_iff made args (by decide)]
  have found : located oneFile threeInletObject.canvasDir (gensym (.ofAscii "test.js")).name =
      some ⟨.ofAscii "/patch/test.js", .ofAscii "/patch"⟩ := by decide
  have read : jsReadfile oneFile threeInletObject.path = some [] := by decide
  rw [Settled, found, read]
  exact ⟨by decide, rfl⟩

/-- The file `test.js` with a function that asks for three inlets. -/
def growFile : Files :=
  { oneFile with
    contents := fun path =>
      if path = .ofAscii "/patch/test.js" then some (ascii "function grow() { inlets = 3; }")
      else none }

/-- Loading it defines the function and does nothing else. -/
def defined : Globals := fun key => if key = jsText "grow" then some (.object 0) else none

def defines : Script := fun _ _ => .ended [] defined none

/-- The object `js test.js` after the message `grow`. -/
def grown : TJs :=
  next (jsNew 1 (.ofAscii "/patch") growFile defines [fileArg "test.js"]).1
    (.call 0 (.ofAscii "grow") [.inlets 3] defined)

/-- `compile` alone keeps the three inlets and `compile test.js` does not. -/
theorem not_pathsAgree_grown :
    LastLoaded 1 (.ofAscii "/patch") defines growFile grown ∧
      grown.args = [fileArg "test.js"] ∧ grown.path.bytes ≠ [] ∧
      ¬ PathsAgree growFile defines grown := by
  refine ⟨.handled (.created _) rfl, rfl, by decide, ?_⟩
  intro agree
  exact absurd (congrArg Observed.inlets agree) (by decide)

end Recompiling
