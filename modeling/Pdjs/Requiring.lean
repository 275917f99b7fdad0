import Pdjs.Loading

/-!
# Requiring a module

`require` makes an object with an empty `exports`, loads a script that runs on it and
returns what `exports` is then. It tells a load that failed from one that did not by the
pointer that `js_load` returns, and `js_load` returns its object from every exit.
-/

namespace Requiring

open PdAtoms TextEncoding ObjectRegistry Loading

inductive Exit where
  | noFile
  | unread
  | notCompiled
  | threw
  | completed
  deriving DecidableEq

/-- The pointer in the `return` statement of the exit. -/
def Exit.returned (x : ObjId) : Exit → Option ObjId
  | .noFile => some x
  | .unread => some x
  | .notCompiled => some x
  | .threw => some x
  | .completed => some x

/-- The exit that the last part of `js_load` takes. -/
def runExit (files : Files) (script : Script) (x : TJs) (path : CString) (global : Option Ref) :
    Exit :=
  if path.bytes = [] then
    .noFile
  else
    match jsReadfile files path with
    | none => .unread
    | some source =>
      match script (environment x global) source with
      | .syntaxError _ => .notCompiled
      | .ended _ _ (some _) => .threw
      | .ended _ _ none => .completed

def loadExit (files : Files) (script : Script) (x : TJs) (scriptName : Option CString)
    (createContext : Bool) (global : Option Ref) : Exit :=
  let (x, path, _) := locate files x scriptName createContext
  let x := if createContext then makeContext x else x
  runExit files script x path global

/-- The exits are those of the load: an error is posted from all but two of them. -/
theorem runSource_error (files : Files) (script : Script) (x : TJs) (path : CString)
    (global : Option Ref) :
    (runSource files script x path global).2 = none ↔
      runExit files script x path global = .noFile ∨
        runExit files script x path global = .completed := by
  rw [runSource, runExit]
  by_cases empty : path.bytes = []
  · simp [empty]
  · simp only [empty, if_false]
    cases jsReadfile files path with
    | none => simp
    | some source =>
      dsimp only
      cases script (environment x global) source with
      | syntaxError e => simp
      | ended resizes globals exception => cases exception <;> simp

/-- The object that is passed to a module. `settable` tells whether its `exports` can be
set, `untouched` is what a read of them gives if no source has run, and `left` what it
gives after a source has run, to its end or to an exception; a read may throw. -/
structure Exports where
  settable : Bool
  untouched : Option Value
  left : Environment → JsString → Option Value

/-- What reading `exports` gives after the load. -/
def exportsAfter (files : Files) (script : Script) (exports : Exports) (x : TJs) (path : CString)
    (global : Option Ref) : Option Value :=
  if path.bytes = [] then
    exports.untouched
  else
    match jsReadfile files path with
    | none => exports.untouched
    | some source =>
      match script (environment x global) source with
      | .syntaxError _ => exports.untouched
      | .ended _ _ _ => exports.left (environment x global) source

def undefined : Value := .other .undefined

/-- `js_require`, with the object that it makes: the js object after the load, the error
that was posted and the value that is returned. -/
def jsRequire (files : Files) (script : Script) (exports : Exports) (x : TJs) (o : Ref)
    (args : List Value) : (TJs × Option LoadError) × Value :=
  match args with
  | .string name :: _ =>
    let scriptName := jsObjectToString (some name)
    if exports.settable then
      let loaded := jsLoad files script x (some scriptName) false (some o)
      let (x', path, _) := locate files x (some scriptName) false
      match (loadExit files script x (some scriptName) false (some o)).returned x.self with
      | some _ =>
        match exportsAfter files script exports x' path (some o) with
        | some value => (loaded, value)
        | none => (loaded, undefined)
      | none => (loaded, undefined)
    else
      ((x, none), undefined)
  | _ => ((x, none), undefined)

variable {files : Files} {script : Script} {exports : Exports} {x : TJs} {o : Ref}

/-- There is a file of that name, and the text of the file can be read. -/
def Source (files : Files) (x : TJs) (name : JsString) (source : JsString) : Prop :=
  ∃ file, located files x.canvasDir (jsObjectToString (some name)) = some file ∧
    jsReadfile files file.path = some source

/-- The source can be compiled and runs to its end or to an exception. -/
def Runs (script : Script) (x : TJs) (o : Ref) (source : JsString) (exception : Option CString) :
    Prop :=
  ∃ resizes globals, script (environment x (some o)) source = .ended resizes globals exception

/-- The arguments name a script that is found, read and compiled and runs to its end. -/
def Loads (files : Files) (script : Script) (exports : Exports) (x : TJs) (o : Ref)
    (args : List Value) : Prop :=
  ∃ name rest source, args = .string name :: rest ∧ exports.settable = true ∧
    Source files x name source ∧ Runs script x o source none

/-- The `exports` that are left at the end read as this value. -/
def Exported (files : Files) (script : Script) (exports : Exports) (x : TJs) (o : Ref)
    (name : JsString) (value : Value) : Prop :=
  (∃ source exception, Source files x name source ∧ Runs script x o source exception ∧
      exports.left (environment x (some o)) source = some value) ∨
    (∀ source exception, Source files x name source → ¬ Runs script x o source exception) ∧
      exports.untouched = some value

/-- A module that loaded gives its exports, everything else `undefined`. -/
structure Required (files : Files) (script : Script) (exports : Exports) (x : TJs) (o : Ref)
    (args : List Value) : Prop where
  loaded : ∀ name rest value, args = .string name :: rest →
    Loads files script exports x o args → Exported files script exports x o name value →
    (jsRequire files script exports x o args).2 = value
  failed : ¬ Loads files script exports x o args →
    (jsRequire files script exports x o args).2 = undefined

/-- The path of a file that was located is not empty. -/
theorem path_ne_nil {canvasDir scriptName : CString} {file : JsFile}
    (found : located files canvasDir scriptName = some file) : file.path.bytes ≠ [] := by
  rw [located] at found
  cases opened : files.openViaPath canvasDir scriptName with
  | none => simp [jsGetfile, opened] at found
  | some result =>
    simp only [jsGetfile, opened, Option.map_some] at found
    obtain ⟨named, same⟩ := Option.ite_none_right_eq_some.mp found
    cases same
    obtain ⟨b, rest, dir⟩ := List.exists_cons_of_ne_nil named
    have nonzero : b ≠ 0 := by
      rintro rfl
      exact result.1.noNul (dir ▸ List.mem_cons_self)
    simp [CString.ofBytes, dir, nonzero]

theorem locate_same (files : Files) (x : TJs) (name : CString) :
    (locate files x (some name) false).1 = x ∧
      (locate files x (some name) false).2.1 =
        (located files x.canvasDir name).elim noText JsFile.path := by
  simp only [locate, located]
  cases jsGetfile files x.canvasDir name with
  | none => exact ⟨rfl, rfl⟩
  | some file =>
    dsimp only
    by_cases named : file.dir.bytes ≠ []
    · rw [if_pos named, if_pos named]
      exact ⟨rfl, rfl⟩
    · rw [if_neg named, if_neg named]
      exact ⟨rfl, rfl⟩

theorem exportsAfter_eq_some_iff {name : JsString} {value : Value} :
    exportsAfter files script exports x
        ((located files x.canvasDir (jsObjectToString (some name))).elim noText JsFile.path)
        (some o) = some value ↔
      Exported files script exports x o name value := by
  cases found : located files x.canvasDir (jsObjectToString (some name)) with
  | none =>
    have no_source : ∀ source, ¬ Source files x name source := by
      rintro source ⟨file, hfile, _⟩
      cases found.symm.trans hfile
    have unread : (noText).bytes = [] := rfl
    simp [exportsAfter, Exported, no_source, unread]
  | some file =>
    have named := path_ne_nil found
    have source_iff : ∀ source, Source files x name source ↔
        jsReadfile files file.path = some source := by
      intro source
      simp [Source, found]
    simp only [exportsAfter, Exported, source_iff, Option.elim_some, named, if_false]
    cases jsReadfile files file.path with
    | none => simp
    | some source =>
      simp only [Runs]
      cases ran : script (environment x (some o)) source with
      | syntaxError e =>
        constructor
        · intro untouched
          refine .inr ⟨?_, untouched⟩
          rintro _ exception ⟨⟩ ⟨resizes, globals, ended⟩
          cases ran.symm.trans ended
        · rintro (⟨_, exception, ⟨⟩, ⟨resizes, globals, ended⟩, _⟩ | ⟨_, untouched⟩)
          · cases ran.symm.trans ended
          · exact untouched
      | ended resizes globals exception =>
        constructor
        · exact fun left => .inl ⟨source, exception, rfl, ⟨resizes, globals, ran⟩, left⟩
        · rintro (⟨_, _, ⟨⟩, _, left⟩ | ⟨none_runs, _⟩)
          · exact left
          · exact absurd ⟨resizes, globals, ran⟩ (none_runs source exception rfl)

/-- The exports are returned wherever the load came to. -/
theorem jsRequire_string (settable : exports.settable = true) (name : JsString)
    (rest : List Value) :
    (jsRequire files script exports x o (.string name :: rest)).2 =
      (exportsAfter files script exports x
        ((located files x.canvasDir (jsObjectToString (some name))).elim noText JsFile.path)
        (some o)).getD undefined := by
  obtain ⟨same, path⟩ := locate_same files x (jsObjectToString (some name))
  have pointer : ∀ e : Exit, e.returned x.self = some x.self := by
    intro e
    cases e <;> rfl
  simp only [jsRequire, settable, if_true, pointer, same, path]
  cases exportsAfter files script exports x
      ((located files x.canvasDir (jsObjectToString (some name))).elim noText JsFile.path)
      (some o) with
  | none => rfl
  | some value => rfl

theorem jsRequire_exported (settable : exports.settable = true) {name : JsString}
    {rest : List Value} {value : Value}
    (exported : Exported files script exports x o name value) :
    (jsRequire files script exports x o (.string name :: rest)).2 = value := by
  rw [jsRequire_string settable, exportsAfter_eq_some_iff.mpr exported, Option.getD_some]

/-- Nothing but `undefined` is left in the exports. -/
def Blank (files : Files) (script : Script) (exports : Exports) (x : TJs) (o : Ref)
    (name : JsString) : Prop :=
  ∀ value, Exported files script exports x o name value → value = undefined

theorem jsRequire_blank (settable : exports.settable = true) {name : JsString}
    {rest : List Value} (blank : Blank files script exports x o name) :
    (jsRequire files script exports x o (.string name :: rest)).2 = undefined := by
  rw [jsRequire_string settable]
  cases after : exportsAfter files script exports x
      ((located files x.canvasDir (jsObjectToString (some name))).elim noText JsFile.path)
      (some o) with
  | none => rfl
  | some value => exact blank value (exportsAfter_eq_some_iff.mp after)

/-- A call that names no script, or for which no exports can be set, gives `undefined`. -/
theorem jsRequire_nothing {args : List Value}
    (nothing : ∀ name rest, args = .string name :: rest → exports.settable ≠ true) :
    (jsRequire files script exports x o args).2 = undefined := by
  rcases args with _ | ⟨d | name | r | p, rest⟩
  · rfl
  · rfl
  · have unset := nothing name rest rfl
    simp [jsRequire, unset]
  · rfl
  · rfl

/-- `require` does what it should exactly if a script that is named loads or leaves
nothing in the exports. -/
theorem required_iff (files : Files) (script : Script) (exports : Exports) (x : TJs) (o : Ref)
    (args : List Value) :
    Required files script exports x o args ↔
      ∀ name rest, args = .string name :: rest → exports.settable = true →
        Loads files script exports x o args ∨ Blank files script exports x o name := by
  constructor
  · rintro required name rest rfl settable
    by_cases loads : Loads files script exports x o (.string name :: rest)
    · exact .inl loads
    · refine .inr fun value exported => ?_
      exact (jsRequire_exported settable exported).symm.trans (required.failed loads)
  · intro condition
    constructor
    · rintro name rest value rfl loads exported
      obtain ⟨_, _, _, _, settable, _⟩ := loads
      exact jsRequire_exported settable exported
    · intro unloaded
      by_cases named : ∃ name rest, args = .string name :: rest ∧ exports.settable = true
      · obtain ⟨name, rest, rfl, settable⟩ := named
        have blank := (condition name rest rfl settable).resolve_left unloaded
        exact jsRequire_blank settable blank
      · exact jsRequire_nothing fun name rest same settable => named ⟨name, rest, same, settable⟩

/-- A module that sets nothing: its exports are the object 1 that they were made. -/
def plainExports : Exports := ⟨true, some (.object 1), fun _ _ => some (.object 1)⟩

/-- A directory with the one file `module.js`, which is empty. -/
def moduleFile : Files where
  openViaPath := fun dir name => if name = .ofAscii "module.js" then some (dir, name) else none
  contents := fun path => if path = .ofAscii "/patch/module.js" then some [] else none

/-- A js object in the directory `/patch`, with a context. -/
def patchObject : TJs :=
  (jsNew 1 (.ofAscii "/patch") moduleFile (fun env _ => .ended [] env.globals none) []).1

/-- `require("missing.js")` finds no file and returns the object that was made for the
exports. -/
theorem not_required_missing :
    located moduleFile patchObject.canvasDir (.ofAscii "missing.js") = none ∧
      (jsRequire moduleFile (fun env _ => .ended [] env.globals none) plainExports patchObject 0
        [.string (jsText "missing.js")]).2 = .object 1 ∧
      ¬ Required moduleFile (fun env _ => .ended [] env.globals none) plainExports patchObject 0
        [.string (jsText "missing.js")] := by
  have missing : located moduleFile patchObject.canvasDir
      (jsObjectToString (some (jsText "missing.js"))) = none := by decide
  have made : (jsRequire moduleFile (fun env _ => .ended [] env.globals none) plainExports
      patchObject 0 [.string (jsText "missing.js")]).2 = .object 1 := by
    rw [jsRequire_string rfl, missing]
    rfl
  refine ⟨by decide, made, ?_⟩
  intro required
  have unloaded : ¬ Loads moduleFile (fun env _ => .ended [] env.globals none) plainExports
      patchObject 0 [.string (jsText "missing.js")] := by
    rintro ⟨name, rest, source, ⟨⟩, _, ⟨file, found, _⟩, _⟩
    cases missing.symm.trans found
  cases made.symm.trans (required.failed unloaded)

/-- `js_include`. What is not an object is ignored as a second argument. -/
def jsInclude (files : Files) (script : Script) (x : TJs) (args : List Value) :
    TJs × Option LoadError :=
  match args with
  | .string name :: rest =>
    let global := match rest with
      | .object o :: _ => some o
      | _ => none
    jsLoad files script x (some (jsObjectToString (some name))) false global
  | _ => (x, none)

/-- A module is loaded as an `include` with the object loads it. -/
theorem jsRequire_jsInclude (settable : exports.settable = true) (name : JsString)
    (rest : List Value) :
    (jsRequire files script exports x o (.string name :: rest)).1 =
      jsInclude files script x [.string name, .object o] := by
  have pointer : ∀ e : Exit, e.returned x.self = some x.self := by
    intro e
    cases e <;> rfl
  simp only [jsRequire, settable, if_true, pointer, jsInclude]
  cases exportsAfter files script exports
      (locate files x (some (jsObjectToString (some name))) false).1
      (locate files x (some (jsObjectToString (some name))) false).2.1 (some o) <;> rfl

/-- A `compile` message with a name does what an `include` of the file does in a new
context. -/
theorem compile_jsInclude (s : Symbol) (rest : List Atom) {name : JsString}
    (same : jsObjectToString (some name) = s.name) :
    (compile files script x (.symbol s :: rest)).1 =
      (jsInclude files script
        (makeContext (relocated (reset x (.symbol s :: rest)) (located files x.canvasDir s.name)))
        [.string name]).1 := by
  obtain ⟨y, made⟩ : ∃ y, y = makeContext (relocated (reset x (.symbol s :: rest))
      (located files x.canvasDir s.name)) := ⟨_, rfl⟩
  have canvasDir : y.canvasDir = x.canvasDir := by rw [made]; rfl
  obtain ⟨unmoved, path⟩ := locate_same files y s.name
  rw [compile_name, ← made]
  simp only [jsInclude, same, jsLoad, unmoved, path, canvasDir, Bool.false_eq_true, if_false]

end Requiring
