import Pdjs.Engine
import Pdjs.Loading

/-!
# Printing

`post`, `cpost` and `error` print the texts of their arguments with single spaces between
them, and the text of an exception is put together with a stream. All of them hand the
pointer of a conversion on without looking at it, and it is null if the conversion has
failed; `js_object_to_string` has a guard against that.
-/

namespace Printing

open PdAtoms TextEncoding ObjectRegistry Engine Loading

universe u

variable {P : Platform} {ω : Type u}

/-- A text written so far; nothing is known of it once a null pointer was passed for a
part of it. -/
abbrev Line := Option (List UInt8)

def put (line : Line) (s : List UInt8) : Line := line.map (· ++ s)

def append (line : Line) (value : Option CString) : Line := value.bind fun s => put line s.bytes

def space : List UInt8 := [32]

/-- `startpost("%s", value)` at the start of a line. -/
def startpost (value : Option CString) : Line := append (some []) value

/-- A space, and then the text. -/
def poststring (line : Line) (value : Option CString) : Line := append (put line space) value

/-- What a printer does; its line is written without the end of the line. -/
inductive Printed where
  | nothing
  | null
  | line (text : List UInt8)
  deriving DecidableEq

def printed : Line → Printed
  | none => .null
  | some text => .line text

/-- The loop of `js_post` from index `i`. -/
def postFrom (E : V8 P ω) : Nat → List Value → Line → Machine P ω → Line × Machine P ω
  | _, [], line, m => (line, m)
  | i, arg :: rest, line, m =>
    let (value, m) := E.utf8Value arg m
    postFrom E (i + 1) rest (if i = 0 then startpost value else poststring line value) m

/-- The loop of `js_cpost` and of `js_error` from index `i`. -/
def appendFrom (E : V8 P ω) : Nat → List Value → Line → Machine P ω → Line × Machine P ω
  | _, [], str, m => (str, m)
  | i, arg :: rest, str, m =>
    let (value, m) := E.utf8Value arg m
    let str := if 0 < i then put str space else str
    appendFrom E (i + 1) rest (append str value) m

def jsPost (E : V8 P ω) (args : List Value) (m : Machine P ω) : Printed × Machine P ω :=
  if args.length < 1 then
    (.nothing, m)
  else
    let (line, m) := postFrom E 0 args (some []) m
    (printed line, m)

/-- The line goes to the standard output. -/
def jsCpost (E : V8 P ω) (args : List Value) (m : Machine P ω) : Printed × Machine P ω :=
  if args.length < 1 then
    (.nothing, m)
  else
    let (str, m) := appendFrom E 0 args (some []) m
    (printed str, m)

/-- The line is an error of the js object. -/
def jsError (E : V8 P ω) (args : List Value) (m : Machine P ω) : Printed × Machine P ω :=
  if args.length < 1 then
    (.nothing, m)
  else
    let (err, m) := appendFrom E 0 args (some []) m
    (printed err, m)

/-- `v8::Message`; a script without a name has `undefined` for its resource. -/
structure ExceptionMessage where
  resourceName : Option JsString
  lineNumber : Int
  sourceLine : JsString
  startColumn : Int
  endColumn : Int

structure TryCatch where
  exception : Value
  message : Option ExceptionMessage

def ExceptionMessage.resource (message : ExceptionMessage) : Value :=
  message.resourceName.elim (.other .undefined) .string

/-- `js_get_exception_msg` -/
def jsGetExceptionMsg (E : V8 P ω) (tryCatch : TryCatch) (m : Machine P ω) :
    Line × Machine P ω :=
  let (exception, m) := E.utf8Value tryCatch.exception m
  match tryCatch.message with
  | none => (put (append (some []) exception) (ascii "\n"), m)
  | some message =>
    let (filename, m) := E.utf8Value message.resource m
    let os := append (some []) filename
    let os := put os (ascii ":" ++ ascii (toString message.lineNumber) ++ ascii ": ")
    let os := put (append os exception) (ascii "\n")
    let (sourceline, m) := E.utf8Value (.string message.sourceLine) m
    let os := put (append os sourceline) (ascii "\n")
    let os := put os (List.replicate message.startColumn.toNat 32)
    let os := put os (List.replicate (message.endColumn - message.startColumn).toNat 94)
    let os := put os (ascii "\n")
    let (stackTrace, m) := E.stackTrace tryCatch.exception m
    match stackTrace with
    | some (.string s) =>
      if 0 < s.length then
        let (trace, m) := E.utf8Value (.string s) m
        (put (append os trace) (ascii "\n"), m)
      else
        (os, m)
    | _ => (os, m)

/-- The string conversions of the arguments, one after the other. -/
def conversions (E : V8 P ω) : List Value → Machine P ω → List (Option JsString) × Machine P ω
  | [], m => ([], m)
  | v :: vs, m =>
    let (text, m) := E.toText v m
    let (texts, m) := conversions E vs m
    (text :: texts, m)

/-- A conversion that failed counts as an empty text. -/
def joined (texts : List (Option JsString)) : List UInt8 :=
  space.intercalate (texts.map fun text => (jsObjectToString text).bytes)

/-- The printers all print the texts of the arguments with single spaces between them,
and no null pointer is streamed for the exception. -/
structure PrintsTotally (E : V8 P ω) (args : List Value) (m : Machine P ω) (tryCatch : TryCatch)
    (thrown : Machine P ω) : Prop where
  post : (jsPost E args m).1 = .line (joined (conversions E args m).1)
  cpost : (jsCpost E args m).1 = .line (joined (conversions E args m).1)
  error : (jsError E args m).1 = .line (joined (conversions E args m).1)
  message : (jsGetExceptionMsg E tryCatch thrown).1 ≠ none

variable {E : V8 P ω} {m : Machine P ω}

@[simp]
theorem put_put (line : Line) (s t : List UInt8) : put (put line s) t = put line (s ++ t) := by
  cases line <;> simp [put]

@[simp]
theorem append_none (line : Line) : append line none = none := rfl

@[simp]
theorem append_some (line : Line) (s : CString) : append line (some s) = put line s.bytes := rfl

@[simp]
theorem none_append (value : Option CString) : append none value = none := by
  cases value <;> rfl

@[simp]
theorem put_eq_none {line : Line} {s : List UInt8} : put line s = none ↔ line = none :=
  Option.map_eq_none_iff

theorem append_eq_none {line : Line} {value : Option CString} :
    append line value = none ↔ line = none ∨ value = none := by
  cases value <;> simp

@[simp]
theorem utf8Value_snd (v : Value) (m : Machine P ω) : (E.utf8Value v m).2 = (E.toText v m).2 := rfl

theorem utf8Value_eq_none {v : Value} : (E.utf8Value v m).1 = none ↔ (E.toText v m).1 = none :=
  Option.map_eq_none_iff

/-- Behind the first argument the two loops are the same. -/
theorem appendFrom_succ (args : List Value) (i : Nat) (line : Line) (m : Machine P ω) :
    appendFrom E (i + 1) args line m = postFrom E (i + 1) args line m := by
  induction args generalizing i line m with
  | nil => rfl
  | cons arg rest ih =>
    simp only [appendFrom, postFrom, Nat.zero_lt_succ, if_true, Nat.succ_ne_zero, if_false]
    exact ih (i + 1) _ _

theorem appendFrom_zero (args : List Value) (m : Machine P ω) :
    appendFrom E 0 args (some []) m = postFrom E 0 args (some []) m := by
  cases args with
  | nil => rfl
  | cons arg rest => exact appendFrom_succ rest 0 _ _

/-- All three print the same line, or all of them pass a null pointer. -/
theorem jsCpost_eq (args : List Value) (m : Machine P ω) : jsCpost E args m = jsPost E args m := by
  rw [jsCpost, jsPost, appendFrom_zero]

theorem jsError_eq (args : List Value) (m : Machine P ω) : jsError E args m = jsPost E args m := by
  rw [jsError, jsPost, appendFrom_zero]

/-- The loop after the first argument, without an argument that cannot be converted. -/
theorem postFrom_converts {args : List Value} (i : Nat) (line : Line) {m : Machine P ω}
    (converts : none ∉ (conversions E args m).1) :
    (postFrom E (i + 1) args line m).1 =
      put line ((conversions E args m).1.flatMap
        fun text => space ++ (jsObjectToString text).bytes) := by
  induction args generalizing i line m with
  | nil => cases line <;> simp [postFrom, conversions, put]
  | cons arg rest ih =>
    simp only [conversions, List.mem_cons, not_or] at converts
    obtain ⟨text, first⟩ := Option.ne_none_iff_exists'.mp (Ne.symm converts.1)
    have value : (E.utf8Value arg m).1 = some (jsObjectToString (some text)) := by
      rw [V8.utf8Value, first]
      rfl
    simp only [postFrom, Nat.succ_ne_zero, if_false, value, poststring, append_some,
      utf8Value_snd, ih (i + 1) _ converts.2]
    simp [conversions, first]

/-- A null pointer is not forgotten. -/
theorem postFrom_null (args : List Value) (i : Nat) (m : Machine P ω) :
    (postFrom E (i + 1) args none m).1 = none := by
  induction args generalizing i m with
  | nil => rfl
  | cons arg rest ih =>
    simp only [postFrom, Nat.succ_ne_zero, if_false, poststring, put, Option.map_none,
      none_append]
    exact ih (i + 1) _

theorem postFrom_fails {args : List Value} (i : Nat) (line : Line) {m : Machine P ω}
    (fails : none ∈ (conversions E args m).1) : (postFrom E (i + 1) args line m).1 = none := by
  induction args generalizing i line m with
  | nil => exact absurd fails List.not_mem_nil
  | cons arg rest ih =>
    simp only [conversions, List.mem_cons] at fails
    simp only [postFrom, Nat.succ_ne_zero, if_false]
    rcases fails with first | later
    · have null : (E.utf8Value arg m).1 = none := utf8Value_eq_none.mpr first.symm
      rw [null, poststring, append_none]
      exact postFrom_null rest _ _
    · exact ih (i + 1) _ later

theorem joined_cons (text : Option JsString) (texts : List (Option JsString)) :
    joined (text :: texts) =
      (jsObjectToString text).bytes ++
        texts.flatMap fun text => space ++ (jsObjectToString text).bytes := by
  induction texts generalizing text with
  | nil => simp [joined]
  | cons next texts ih =>
    have rest := ih next
    simp only [joined, List.map_cons] at rest
    simp only [joined, List.map_cons, List.intercalate_cons_cons, rest, List.flatMap_cons,
      List.append_assoc]

theorem jsPost_cons (arg : Value) (rest : List Value) (m : Machine P ω) :
    (jsPost E (arg :: rest) m).1 =
      printed (postFrom E 1 rest (startpost (E.utf8Value arg m).1) (E.toText arg m).2).1 := by
  simp [jsPost, postFrom]

theorem jsPost_converts {args : List Value} (nonempty : args ≠ [])
    (converts : none ∉ (conversions E args m).1) :
    (jsPost E args m).1 = .line (joined (conversions E args m).1) := by
  obtain ⟨arg, rest, rfl⟩ := List.exists_cons_of_ne_nil nonempty
  simp only [conversions, List.mem_cons, not_or] at converts
  obtain ⟨text, first⟩ := Option.ne_none_iff_exists'.mp (Ne.symm converts.1)
  have start : startpost (E.utf8Value arg m).1 = some (jsObjectToString (some text)).bytes := by
    simp [startpost, V8.utf8Value, first, put, jsObjectToString]
  rw [jsPost_cons, start, postFrom_converts 0 _ converts.2]
  simp [put, printed, conversions, first, joined_cons]

theorem jsPost_fails {args : List Value} (fails : none ∈ (conversions E args m).1) :
    (jsPost E args m).1 = .null := by
  cases args with
  | nil => exact absurd fails List.not_mem_nil
  | cons arg rest =>
    simp only [conversions, List.mem_cons] at fails
    rw [jsPost_cons]
    rcases fails with first | later
    · rw [utf8Value_eq_none.mpr first.symm, startpost, append_none, postFrom_null]
      rfl
    · rw [postFrom_fails 0 _ later]
      rfl

/-- The whole line is printed exactly if every argument can be converted. -/
theorem jsPost_iff {args : List Value} (nonempty : args ≠ []) :
    (jsPost E args m).1 = .line (joined (conversions E args m).1) ↔
      none ∉ (conversions E args m).1 := by
  constructor
  · intro line fails
    cases (jsPost_fails fails).symm.trans line
  · exact jsPost_converts nonempty

theorem resource_converts (message : ExceptionMessage) :
    (E.toText message.resource m).1 ≠ none := by
  rw [ExceptionMessage.resource]
  cases message.resourceName with
  | none => exact Option.some_ne_none _
  | some name => exact Option.some_ne_none _

/-- Of all that is streamed only the exception itself can be a null pointer. -/
theorem jsGetExceptionMsg_eq_none {tryCatch : TryCatch} :
    (jsGetExceptionMsg E tryCatch m).1 = none ↔ (E.toText tryCatch.exception m).1 = none := by
  have string : ∀ (s : JsString) (m : Machine P ω), (E.toText (.string s) m).1 ≠ none :=
    fun s _ => Option.some_ne_none s
  rw [jsGetExceptionMsg]
  cases tryCatch.message with
  | none => simp [append_eq_none, utf8Value_eq_none]
  | some message =>
    dsimp only
    split
    · split
      · simp [append_eq_none, utf8Value_eq_none, resource_converts, string]
      · simp [append_eq_none, utf8Value_eq_none, resource_converts, string]
    · simp [append_eq_none, utf8Value_eq_none, resource_converts, string]

/-- Printing is total, and the printers agree, exactly if every argument can be converted
and the exception can. -/
theorem printsTotally_iff (E : V8 P ω) {args : List Value} (nonempty : args ≠ [])
    (m : Machine P ω) (tryCatch : TryCatch) (thrown : Machine P ω) :
    PrintsTotally E args m tryCatch thrown ↔
      none ∉ (conversions E args m).1 ∧ (E.toText tryCatch.exception thrown).1 ≠ none := by
  constructor
  · intro total
    exact ⟨(jsPost_iff nonempty).mp total.post,
      fun fails => total.message (jsGetExceptionMsg_eq_none.mpr fails)⟩
  · rintro ⟨converts, thrown_converts⟩
    have post := (jsPost_iff nonempty).mpr converts
    refine ⟨post, ?_, ?_, ?_⟩
    · rw [jsCpost_eq]
      exact post
    · rw [jsError_eq]
      exact post
    · exact fun null => thrown_converts (jsGetExceptionMsg_eq_none.mp null)

/-- An exception that is a text, thrown where there is no message for it. -/
def plainThrow : TryCatch := ⟨.string (jsText "late"), none⟩

theorem printsTotally_iff_text :
    PrintsTotally (inert (P := .bits64)) [.string (jsText "a"), .other .null] idle plainThrow
      idle := by
  rw [printsTotally_iff _ (List.cons_ne_nil _ _)]
  exact ⟨by decide, Option.some_ne_none _⟩

/-- `post(Symbol())` passes a null pointer. -/
theorem not_printsTotally_symbol :
    (jsPost (inert (P := .bits64)) [.other (.symbol 0)] idle).1 = .null ∧
      ¬ PrintsTotally (inert (P := .bits64)) [.other (.symbol 0)] idle plainThrow idle := by
  refine ⟨rfl, ?_⟩
  intro total
  cases total.post

end Printing
