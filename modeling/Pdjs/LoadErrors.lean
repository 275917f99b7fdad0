import Pdjs.Nesting

/-!
# The errors that loads post

Loads are nested, and the error that a source throws is posted when it ends, after those
of the loads that it began. Every load that was begun ends once or is still running, it
posts one error at most, and the error names what the load was asked for or the path that
it tried.
-/

namespace LoadErrors

open GuardedRuns PdAtoms ObjectRegistry Loading Recompiling Requiring Nesting

/-- The name that a load was given, if any, and the path that it tries. -/
structure Load where
  name : Option CString
  path : CString

/-- A load without a name tries the path that was loaded last. -/
def asked (files : Files) (canvasDir path : CString) (name : Option CString) : Load :=
  ⟨name, name.elim path fun name => (located files canvasDir name).elim noText JsFile.path⟩

def begun (x : TJs) : Nesting.Label → Option Load
  | .compile files argv _ => some (asked files x.canvasDir x.path (scriptName argv))
  | .load files name _ _ => some (asked files x.canvasDir x.path (some name))
  | _ => none

/-- A state with the loads that were begun, those whose sources are running, innermost first,
and those that ended, in the order in which they did, each with what it posted. -/
structure Recorded where
  state : State
  loads : List Load
  running : List Load
  ended : List (Load × List LoadError)

/-- What a step has posted. -/
def posted (s t : State) : List LoadError := t.errors.drop s.errors.length

/-- A load ends at once, unless its source was started. -/
def Recorded.enter (r : Recorded) (load : Load) (t : State) : Recorded :=
  if r.state.frames.length < t.frames.length then
    ⟨t, r.loads ++ [load], load :: r.running, r.ended⟩
  else
    ⟨t, r.loads ++ [load], r.running, r.ended ++ [(load, posted r.state t)]⟩

/-- The end of a source is that of its load. -/
def Recorded.leave (r : Recorded) (t : State) : Recorded :=
  match r.state.frames, r.running with
  | ⟨some _, _⟩ :: _, load :: running =>
    ⟨t, r.loads, running, r.ended ++ [(load, posted r.state t)]⟩
  | _, _ => { r with state := t }

/-- A step that was made, and its record. -/
def Recorded.step (r : Recorded) (l : Nesting.Label) (t : State) : Recorded :=
  match begun r.state.x l with
  | some load => r.enter load t
  | none =>
    match l with
    | .ends _ => r.leave t
    | _ => { r with state := t }

def Recorded.next (r : Recorded) (l : Nesting.Label) : Option Recorded :=
  (Nesting.next r.state l).map (r.step l)

/-- The load of `js_new` is the first one. -/
def Recorded.created (self : ObjId) (canvasDir : CString) (files : Files) (argv : List Atom)
    (syntaxError : Option CString) : Recorded :=
  let t := Nesting.created self canvasDir files argv syntaxError
  Recorded.enter ⟨⟨t.x, [], []⟩, [], [], []⟩ (asked files canvasDir noText (scriptName argv)) t

/-- Every load that was begun ended once or is running, each that ended posted one error at
most, about what it was asked for, and nothing else was posted. -/
structure Accounted (r : Recorded) : Prop where
  each : (r.ended.map Prod.fst ++ r.running).Perm r.loads
  errors : r.state.errors = r.ended.flatMap Prod.snd
  once : ∀ load errors, (load, errors) ∈ r.ended → errors.length ≤ 1
  frames : r.state.frames.filterMap Frame.path = r.running.map Load.path
  named : ∀ load errors, (load, errors) ∈ r.ended → ∀ e ∈ errors,
    (load.name = some e.file ∨ load.path = e.file) ∧ e.file.bytes <:+: e.text

variable {me : ObjId} {canvas : CString} {r : Recorded}

theorem locate_asked (files : Files) (x : TJs) (name : Option CString) (createContext : Bool) :
    (locate files x name createContext).2.1 = (asked files x.canvasDir x.path name).path := by
  cases name with
  | none => rfl
  | some name => exact locate_path files x name createContext

/-- Where no file was found there is no path to try. -/
theorem locate_missing {files : Files} {x : TJs} {name : Option CString} {createContext : Bool}
    {e : LoadError} (missing : (locate files x name createContext).2.2 = some e) :
    (locate files x name createContext).2.1 = noText := by
  cases name with
  | none => cases missing
  | some name =>
    rw [locate] at missing ⊢
    cases found : jsGetfile files x.canvasDir name with
    | none => rfl
    | some file =>
      simp only [found] at missing
      by_cases named : file.dir.bytes ≠ []
      · rw [if_pos named] at missing
        cases missing
      · rw [if_neg named] at missing
        cases missing

/-- A load whose source runs has posted nothing. -/
theorem completed_silent {files : Files} {script : Script} {x : TJs} {name : Option CString}
    {createContext : Bool} {global : Option Ref}
    (completed : loadExit files script x name createContext global = .completed) :
    (jsLoad files script x name createContext global).2 = none := by
  simp only [loadExit] at completed
  simp only [jsLoad]
  cases missing : (locate files x name createContext).2.2 with
  | none => exact (runSource_error ..).mpr (.inr completed)
  | some e =>
    have unread : runExit files script (if createContext then
        makeContext (locate files x name createContext).1 else
        (locate files x name createContext).1) noText global = .noFile := rfl
    rw [locate_missing missing] at completed
    cases unread.symm.trans completed

/-- A load that ended, with what it posted. -/
theorem Accounted.add (h : Accounted r) {load : Load} (error : Option LoadError) {t : State}
    {loads running : List Load} (errors : t.errors = r.state.errors ++ error.toList)
    (frames : t.frames.filterMap Frame.path = running.map Load.path)
    (each : (r.ended.map Prod.fst ++ load :: running).Perm loads)
    (named : ∀ e, error = some e →
      (load.name = some e.file ∨ load.path = e.file) ∧ e.file.bytes <:+: e.text) :
    Accounted ⟨t, loads, running, r.ended ++ [(load, posted r.state t)]⟩ := by
  have new : posted r.state t = error.toList := by
    rw [posted, errors, List.drop_left]
  have last : ∀ {load' errors'}, (load', errors') ∈ r.ended ++ [(load, posted r.state t)] →
      (load', errors') ∈ r.ended ∨ load' = load ∧ errors' = error.toList := by
    intro load' errors' member
    rw [new] at member
    rcases List.mem_append.mp member with earlier | here
    · exact .inl earlier
    · cases List.mem_singleton.mp here
      exact .inr ⟨rfl, rfl⟩
  refine ⟨?_, ?_, ?_, frames, ?_⟩
  · simpa using each
  · rw [List.flatMap_append, ← h.errors, List.flatMap_singleton, new]
    exact errors
  · intro load' errors' member
    rcases last member with earlier | ⟨_, rfl⟩
    · exact h.once load' errors' earlier
    · cases error <;> simp
  · intro load' errors' member
    rcases last member with earlier | ⟨rfl, rfl⟩
    · exact h.named load' errors' earlier
    · exact fun e he => named e (Option.mem_toList.mp he)

theorem perm_middle_loads {ended loads running : List Load} (load : Load)
    (each : (ended ++ running).Perm loads) :
    (ended ++ load :: running).Perm (loads ++ [load]) :=
  List.perm_middle.trans ((each.cons load).trans (List.perm_append_singleton load loads).symm)

/-- A load ends at once, or its source is running. -/
theorem Accounted.enter (h : Accounted r) (files : Files) (x : TJs)
    (name : Option CString) (createContext : Bool) (global : Option Ref)
    (syntaxError : Option CString) :
    Accounted (r.enter (asked files x.canvasDir x.path name)
      (r.state.enter files x name createContext global syntaxError)) := by
  obtain ⟨load, hload⟩ : ∃ load, load = asked files x.canvasDir x.path name := ⟨_, rfl⟩
  have path : (locate files x name createContext).2.1 = load.path := by
    rw [locate_asked, hload]
  have more := perm_middle_loads load h.each
  rw [← hload, Recorded.enter]
  by_cases completed :
      loadExit files (opening syntaxError) x name createContext global = .completed
  · have pushed : (r.state.enter files x name createContext global syntaxError).frames =
        ⟨some load.path, serial (r.state.enter files x name createContext global syntaxError).x⟩ ::
          r.state.frames := by
      rw [State.enter]
      simp only [completed, path]
    rw [if_pos (by rw [pushed]; exact Nat.lt_succ_self _)]
    refine ⟨more, ?_, h.once, ?_, h.named⟩
    · simp only [State.enter, completed_silent completed, Option.toList_none, List.append_nil]
      exact h.errors
    · rw [pushed]
      exact congrArg (load.path :: ·) h.frames
  · have same : (r.state.enter files x name createContext global syntaxError).frames =
        r.state.frames :=
      (frames_enter r.state files x name createContext global syntaxError).resolve_right
        fun pushed => completed pushed.1
    rw [if_neg (by rw [same]; exact Nat.lt_irrefl _)]
    refine h.add _ rfl ?_ more ?_
    · rw [same]
      exact h.frames
    · intro e error
      have sameName : load.name = name := by rw [hload, asked]
      refine ⟨?_, e.file_infix_text⟩
      rcases file_jsLoad error with byName | byPath
      · exact .inl (sameName.trans byName)
      · exact .inr (path.symm.trans byPath.symm)

/-- The end of a source is that of its load, and a call is no load. -/
theorem Accounted.leave (h : Accounted r) {f : Frame} {outer : List Frame}
    (frames : r.state.frames = f :: outer) (exception : Option CString) :
    Accounted (r.leave (r.state.leave f outer exception)) := by
  obtain ⟨path, context⟩ := f
  have paths := h.frames
  rw [frames, List.filterMap_cons] at paths
  cases path with
  | none =>
    rw [Recorded.leave, frames]
    exact ⟨h.each, h.errors, h.once, paths, h.named⟩
  | some path =>
    obtain ⟨load, rest, running⟩ : ∃ load rest, r.running = load :: rest := by
      cases running : r.running with
      | nil => rw [running] at paths; cases paths
      | cons load rest => exact ⟨load, rest, rfl⟩
    rw [running] at paths
    obtain ⟨top, below⟩ := List.cons.inj paths
    have each := h.each
    rw [running] at each
    simp only [Recorded.leave, frames, running]
    refine h.add (exception.map (.running path)) ?_ ?_ each ?_
    · cases exception with
      | none => exact (List.append_nil _).symm
      | some e => rfl
    · cases exception <;> exact below
    · intro e thrown
      obtain ⟨text, _, rfl⟩ := Option.map_eq_some_iff.mp thrown
      exact ⟨.inr top.symm, LoadError.file_infix_text _⟩

/-- A step that begins no load and ends none. -/
theorem Accounted.keep (h : Accounted r) {t : State} (errors : t.errors = r.state.errors)
    (frames : t.frames.filterMap Frame.path = r.state.frames.filterMap Frame.path) :
    Accounted { r with state := t } :=
  ⟨h.each, errors.trans h.errors, h.once, frames.trans h.frames, h.named⟩

theorem Accounted.step (h : Accounted r) {l : Nesting.Label} {t : State}
    (step : Nesting.next r.state l = some t) : Accounted (r.step l t) := by
  cases l with
  | call inlet messagename =>
    cases step
    exact h.keep rfl rfl
  | property resizes globals =>
    cases step
    exact h.keep rfl rfl
  | compile files argv syntaxError =>
    rcases argv with _ | ⟨_ | name | _, argv⟩
    · cases step
      exact h.enter files r.state.x none true none syntaxError
    · cases step
      exact h.enter files r.state.x none true none syntaxError
    · cases step
      exact h.enter files (reset r.state.x (.symbol name :: argv)) (some name.name) true none
        syntaxError
    · cases step
      exact h.enter files r.state.x none true none syntaxError
  | resize resizing =>
    obtain ⟨_, _, _, rfl⟩ := running_eq_some step
    exact h.keep rfl rfl
  | assign globals =>
    obtain ⟨f, _, _, rfl⟩ := running_eq_some step
    rw [State.assign]
    by_cases current : f.context = serial r.state.x
    · rw [if_pos current]
      exact h.keep rfl rfl
    · rw [if_neg current]
      exact h.keep rfl rfl
  | load files name global syntaxError =>
    obtain ⟨_, _, _, rfl⟩ := running_eq_some step
    exact h.enter files r.state.x (some name) false global syntaxError
  | ends exception =>
    obtain ⟨f, outer, stack, rfl⟩ := running_eq_some step
    exact h.leave stack exception

end LoadErrors
