import Pdjs.Interceptors

/-!
# Several js objects in one process

All js objects share one object, which the first load makes and scripts read as
`__global__`. The rest is kept for each js object apart. In whatever order js objects
are made, used and freed, each of them reads what its own history says, and a property
of the shared object what any of them wrote to it last.
-/

namespace Sharing

open GuardedRuns PdAtoms TextEncoding ObjectRegistry Properties DataProperties Loading
open Interceptors

variable {P : Platform}

/-- What an object inherits that `v8::Object::New` makes. -/
abbrev Prototype := Key → Option (Inherited Value)

def newObject (prototype : Prototype) : DataObject Key Value := ⟨fun _ => none, prototype, true⟩

/-- The js objects that exist, `js_global`, and the objects that scripts can refer to. -/
structure Process where
  instances : ObjId → Option Instance
  jsGlobal : Option Ref
  objects : Ref → Option (DataObject Key Value)

def Process.start : Process := ⟨fun _ => none, none, fun _ => none⟩

/-- The part of `js_load` that makes the shared object, if there is none. -/
def Process.load (s : Process) (new : Ref) (prototype : Prototype) : Option Process :=
  match s.jsGlobal with
  | some _ => some s
  | none =>
    if (s.objects new).isNone then
      some ⟨s.instances, some new, Function.update s.objects new (some (newObject prototype))⟩
    else none

def Process.setInstance (s : Process) (self : ObjId) (x : Option Instance) : Process :=
  { s with instances := Function.update s.instances self x }

/-- A read in a context of a js object. Without a shared object, `js_get` would follow a
null pointer for its name. -/
def Process.read (r : Registry P) (s : Process) (self : ObjId) (c : Nat) (k : Key) :
    Option Stored :=
  match s.instances self with
  | none => none
  | some x =>
    match s.jsGlobal with
    | some jsGlobal => some (x.read r jsGlobal c k)
    | none => if known k.name = some .global then none else some (x.read r 0 c k)

/-- The name of the shared object. -/
def shared : Key := .text (jsText "__global__")

def Process.write (s : Process) (o : Ref) (op : Op Key Value) : Option Process :=
  match s.objects o with
  | some object =>
    some { s with objects := Function.update s.objects o (some (operate object op)) }
  | none => none

/-- `load` is an `include` or a `require`. A script writes to an object that it keeps a
reference to, or reads `__global__` first. What a write to an object changes in those that
inherit from it is a `define` on each of them, as is another prototype. -/
inductive Label where
  | create (self : ObjId) (canvasDir : CString) (files : Files) (argv : List Atom)
      (template : DataObject Key Value) (new : Ref) (prototype : Prototype)
  | act (self : ObjId) (l : Interceptors.Label) (new : Ref) (prototype : Prototype)
  | load (self : ObjId) (new : Ref) (prototype : Prototype)
  | free (self : ObjId)
  | make (o : Ref) (object : DataObject Key Value)
  | write (o : Ref) (op : Op Key Value)
  | writeShared (self : ObjId) (c : Nat) (op : Op Key Value)

def compiles : Interceptors.Label → Bool
  | .compile _ _ _ => true
  | _ => false

def Process.next (P : Platform) (s : Process) : Label → Option Process
  | .create self canvasDir files argv template new prototype =>
    match s.instances self with
    | none =>
      (s.setInstance self (some (.created self canvasDir files argv template))).load new prototype
    | some _ => none
  | .act self l new prototype =>
    match s.instances self with
    | some x =>
      let s := s.setInstance self (some (x.next l))
      if compiles l then s.load new prototype else some s
    | none => none
  | .load self new prototype =>
    match s.instances self with
    | some _ => s.load new prototype
    | none => none
  | .free self =>
    match s.instances self with
    | some _ => some (s.setInstance self none)
    | none => none
  | .make o object =>
    if (s.objects o).isNone then
      some { s with objects := Function.update s.objects o (some object) }
    else none
  | .write o op => s.write o op
  | .writeShared self c op =>
    match s.read (.empty : Registry P) self c shared with
    | some (.single (.object o)) => s.write o op
    | _ => none

variable {s t : Process} {l : Label}

/-- Where a load makes the shared object if there is none. -/
def Label.loads : Label → Option (Ref × Prototype)
  | .create _ _ _ _ _ new prototype => some (new, prototype)
  | .act _ l new prototype => if compiles l then some (new, prototype) else none
  | .load _ new prototype => some (new, prototype)
  | _ => none

/-- What is done to an object, if it is the one that is shared. -/
def Label.op (g : Ref) : Label → Option (Op Key Value)
  | .write o op => if o = g then some op else none
  | .writeShared _ _ op => some op
  | _ => none

/-- What a js object is after a step, given what it was. -/
def instanceAfter (self : ObjId) (x : Option Instance) : Label → Option Instance
  | .create self' canvasDir files argv template _ _ =>
    if self' = self then some (.created self canvasDir files argv template) else x
  | .act self' l _ _ => if self' = self then x.map fun x => x.next l else x
  | .free self' => if self' = self then none else x
  | _ => x

theorem load_cases {new : Ref} {prototype : Prototype} (loaded : s.load new prototype = some t) :
    (∃ g, s.jsGlobal = some g ∧ t = s) ∨
      s.jsGlobal = none ∧ s.objects new = none ∧ t =
        ⟨s.instances, some new, Function.update s.objects new (some (newObject prototype))⟩ := by
  rw [Process.load] at loaded
  cases global : s.jsGlobal with
  | some g =>
    rw [global] at loaded
    exact .inl ⟨g, rfl, (Option.some.inj loaded).symm⟩
  | none =>
    rw [global] at loaded
    obtain ⟨fresh, made⟩ := Option.ite_none_right_eq_some.mp loaded
    exact .inr ⟨rfl, Option.isNone_iff_eq_none.mp fresh, (Option.some.inj made).symm⟩

theorem write_cases {o : Ref} {op : Op Key Value} (written : s.write o op = some t) :
    ∃ object, s.objects o = some object ∧
      t = { s with objects := Function.update s.objects o (some (operate object op)) } := by
  rw [Process.write] at written
  cases here : s.objects o with
  | none =>
    rw [here] at written
    cases written
  | some object =>
    rw [here] at written
    exact ⟨object, rfl, (Option.some.inj written).symm⟩

theorem known_shared : known shared.name = some .global := by decide

/-- The name of the shared object is answered for every context alike. -/
theorem read_shared {g : Ref} (global : s.jsGlobal = some g) {self : ObjId} {x : Instance}
    (alive : s.instances self = some x) (r : Registry P) (c : Nat) :
    s.read r self c shared = some (.single (.object g)) := by
  simp only [Process.read, alive, global, Instance.read, jsGet, known_shared, Option.getD_some]

/-- A read of `__global__` has found an object before it is written to. -/
theorem writeShared_cases {self : ObjId} {c : Nat} {op : Op Key Value}
    (step : s.next P (.writeShared self c op) = some t) :
    ∃ g, s.jsGlobal = some g ∧ s.write g op = some t := by
  simp only [Process.next] at step
  cases alive : s.instances self with
  | none =>
    have unread : s.read (.empty : Registry P) self c shared = none := by
      simp only [Process.read, alive]
    rw [unread] at step
    cases step
  | some x =>
    cases global : s.jsGlobal with
    | none =>
      have unread : s.read (.empty : Registry P) self c shared = none := by
        simp only [Process.read, alive, global, known_shared, if_true]
      rw [unread] at step
      cases step
    | some g =>
      rw [read_shared global alive] at step
      exact ⟨g, rfl, step⟩

/-- When a step exists, and what it leaves. -/
theorem next_cases (step : s.next P l = some t) :
    match l with
    | .create self canvasDir files argv template new prototype =>
      s.instances self = none ∧
        (s.setInstance self (some (.created self canvasDir files argv template))).load new
          prototype = some t
    | .act self l new prototype =>
      ∃ x, s.instances self = some x ∧
        (compiles l ∧ (s.setInstance self (some (x.next l))).load new prototype = some t ∨
          ¬ compiles l ∧ t = s.setInstance self (some (x.next l)))
    | .load self new prototype =>
      (∃ x, s.instances self = some x) ∧ s.load new prototype = some t
    | .free self => (∃ x, s.instances self = some x) ∧ t = s.setInstance self none
    | .make o object => s.objects o = none ∧
        t = { s with objects := Function.update s.objects o (some object) }
    | .write o op => s.write o op = some t
    | .writeShared _ _ op => ∃ g, s.jsGlobal = some g ∧ s.write g op = some t := by
  cases l with
  | create self canvasDir files argv template new prototype =>
    simp only [Process.next] at step
    cases absent : s.instances self with
    | some x => simp [absent] at step
    | none => exact ⟨absent, by simpa only [absent] using step⟩
  | act self l new prototype =>
    simp only [Process.next] at step
    cases alive : s.instances self with
    | none => simp [alive] at step
    | some x =>
      simp only [alive] at step
      refine ⟨x, alive, ?_⟩
      by_cases loads : compiles l
      · exact .inl ⟨loads, by rwa [if_pos loads] at step⟩
      · rw [if_neg loads] at step
        exact .inr ⟨loads, (Option.some.inj step).symm⟩
  | load self new prototype =>
    simp only [Process.next] at step
    cases alive : s.instances self with
    | none => simp [alive] at step
    | some x => exact ⟨⟨x, alive⟩, by simpa only [alive] using step⟩
  | free self =>
    simp only [Process.next] at step
    cases alive : s.instances self with
    | none => simp [alive] at step
    | some x =>
      simp only [alive] at step
      exact ⟨⟨x, alive⟩, (Option.some.inj step).symm⟩
  | make o object =>
    obtain ⟨fresh, made⟩ := Option.ite_none_right_eq_some.mp step
    exact ⟨Option.isNone_iff_eq_none.mp fresh, (Option.some.inj made).symm⟩
  | write o op => exact step
  | writeShared self c op => exact writeShared_cases step

theorem instances_load {new : Ref} {prototype : Prototype}
    (loaded : s.load new prototype = some t) : t.instances = s.instances := by
  rcases load_cases loaded with ⟨_, _, rfl⟩ | ⟨_, _, rfl⟩ <;> rfl

theorem instances_write {o : Ref} {op : Op Key Value} (written : s.write o op = some t) :
    t.instances = s.instances := by
  obtain ⟨_, _, rfl⟩ := write_cases written
  rfl

theorem setInstance_instances (s : Process) (self self' : ObjId) (x : Option Instance) :
    (s.setInstance self' x).instances self = if self' = self then x else s.instances self := by
  rw [Process.setInstance]
  by_cases here : self' = self
  · rw [if_pos here, here]
    exact Function.update_self ..
  · rw [if_neg here]
    exact Function.update_of_ne (Ne.symm here) ..

/-- A js object changes by what happens to it, and by nothing that happens to another. -/
theorem instances_next (step : s.next P l = some t) (self : ObjId) :
    t.instances self = instanceAfter self (s.instances self) l := by
  cases l with
  | create self' canvasDir files argv template new prototype =>
    obtain ⟨_, loaded⟩ := next_cases step
    rw [instances_load loaded, setInstance_instances, instanceAfter]
    by_cases here : self' = self
    · simp only [here, if_true]
    · simp only [if_neg here]
  | act self' l new prototype =>
    obtain ⟨x, alive, moved⟩ := next_cases step
    have changed : t.instances = (s.setInstance self' (some (x.next l))).instances := by
      rcases moved with ⟨_, loaded⟩ | ⟨_, rfl⟩
      · exact instances_load loaded
      · rfl
    rw [changed, setInstance_instances, instanceAfter]
    by_cases here : self' = self
    · simp only [← here, alive, if_true, Option.map_some]
    · simp only [if_neg here]
  | load self' new prototype => exact congrFun (instances_load (next_cases step).2) self
  | free self' =>
    obtain ⟨_, rfl⟩ := next_cases step
    exact setInstance_instances s self self' none
  | make o object =>
    obtain ⟨_, rfl⟩ := next_cases step
    rfl
  | write o op => exact congrFun (instances_write step) self
  | writeShared self' c op =>
    obtain ⟨g, _, written⟩ := writeShared_cases step
    exact congrFun (instances_write written) self

/-- Once there is a shared object, a load makes no other one. -/
theorem load_kept {g : Ref} (global : s.jsGlobal = some g) {new : Ref} {prototype : Prototype}
    (loaded : s.load new prototype = some t) : t = s := by
  rcases load_cases loaded with ⟨_, _, same⟩ | ⟨missing, _, _⟩
  · exact same
  · cases missing.symm.trans global

theorem objects_write {o g : Ref} {op : Op Key Value} {object : DataObject Key Value}
    (here : s.objects g = some object) (written : s.write o op = some t) :
    t.jsGlobal = s.jsGlobal ∧
      t.objects g = some ((if o = g then some op else none).elim object (operate object)) := by
  obtain ⟨object', there, rfl⟩ := write_cases written
  refine ⟨rfl, ?_⟩
  by_cases same : o = g
  · subst same
    cases there.symm.trans here
    simp only [if_true, Function.update_self, Option.elim_some]
  · simp only [if_neg same, Option.elim_none]
    rw [Function.update_of_ne (Ne.symm same)]
    exact here

/-- The shared object stays the same one and changes by what is written to it. -/
theorem shared_next {g : Ref} {o : DataObject Key Value} (global : s.jsGlobal = some g)
    (object : s.objects g = some o) (step : s.next P l = some t) :
    t.jsGlobal = some g ∧ t.objects g = some ((l.op g).elim o (operate o)) := by
  cases l with
  | create self canvasDir files argv template new prototype =>
    obtain ⟨_, loaded⟩ := next_cases step
    rw [load_kept (s := s.setInstance self _) global loaded]
    exact ⟨global, object⟩
  | act self l new prototype =>
    obtain ⟨x, _, moved⟩ := next_cases step
    have kept : t = s.setInstance self (some (x.next l)) := by
      rcases moved with ⟨_, loaded⟩ | ⟨_, rfl⟩
      · exact load_kept (s := s.setInstance self _) global loaded
      · rfl
    rw [kept]
    exact ⟨global, object⟩
  | load self new prototype =>
    rw [load_kept global (next_cases step).2]
    exact ⟨global, object⟩
  | free self =>
    obtain ⟨_, rfl⟩ := next_cases step
    exact ⟨global, object⟩
  | make o' made =>
    obtain ⟨fresh, rfl⟩ := next_cases step
    have other : g ≠ o' := by
      rintro rfl
      cases fresh.symm.trans object
    exact ⟨global, (Function.update_of_ne other ..).trans object⟩
  | write o' op =>
    obtain ⟨same, written⟩ := objects_write object step
    exact ⟨same.trans global, written⟩
  | writeShared self c op =>
    obtain ⟨g', found, written⟩ := writeShared_cases step
    cases found.symm.trans global
    obtain ⟨same, changed⟩ := objects_write object written
    rw [if_pos rfl] at changed
    exact ⟨same.trans global, changed⟩

theorem shared_run {g : Ref} {o : DataObject Key Value} (global : s.jsGlobal = some g)
    (object : s.objects g = some o) {ls : List Label}
    (run : runLabels (Process.next P) always s ls = some t) :
    t.jsGlobal = some g ∧ t.objects g = some ((ls.filterMap (Label.op g)).foldl operate o) := by
  induction ls generalizing s o with
  | nil =>
    cases run
    exact ⟨global, object⟩
  | cons l ls ih =>
    obtain ⟨u, first, rest⟩ := Option.bind_eq_some_iff.mp run
    obtain ⟨_, step⟩ := Option.ite_none_right_eq_some.mp first
    obtain ⟨global', object'⟩ := shared_next global object step
    obtain ⟨kept, ended⟩ := ih global' object' rest
    refine ⟨kept, ended.trans ?_⟩
    rw [List.filterMap_cons]
    cases l.op g <;> rfl

/-- No js object was made yet. -/
structure Untouched (s : Process) : Prop where
  nobody : ∀ self, s.instances self = none
  global : s.jsGlobal = none

/-- The first load makes the shared object, of which there is none before. -/
theorem untouched_next (untouched : Untouched s) (step : s.next P l = some t) :
    match l.loads with
    | none => Untouched t ∧ ∀ g, t.objects g = none → s.objects g = none ∧ l.op g = none
    | some (new, prototype) => s.objects new = none ∧ l.op new = none ∧
        t.jsGlobal = some new ∧ t.objects new = some (newObject prototype) := by
  obtain ⟨nobody, global⟩ := untouched
  have absurd_alive : ∀ {self : ObjId} {x : Instance}, s.instances self ≠ some x :=
    fun {self} {x} alive => Option.some_ne_none x (alive.symm.trans (nobody self))
  cases l with
  | create self canvasDir files argv template new prototype =>
    obtain ⟨_, loaded⟩ := next_cases step
    rcases load_cases loaded with ⟨g, found, _⟩ | ⟨_, fresh, rfl⟩
    · cases found.symm.trans global
    · exact ⟨fresh, rfl, rfl, Function.update_self ..⟩
  | act self l new prototype =>
    obtain ⟨x, alive, _⟩ := next_cases step
    exact absurd alive absurd_alive
  | load self new prototype =>
    obtain ⟨⟨x, alive⟩, _⟩ := next_cases step
    exact absurd alive absurd_alive
  | free self =>
    obtain ⟨⟨x, alive⟩, _⟩ := next_cases step
    exact absurd alive absurd_alive
  | make o object =>
    obtain ⟨fresh, rfl⟩ := next_cases step
    refine ⟨⟨nobody, global⟩, fun g absent => ⟨?_, rfl⟩⟩
    by_cases here : g = o
    · rw [here]
      exact fresh
    · exact (Function.update_of_ne here ..).symm.trans absent
  | write o op =>
    obtain ⟨object, there, rfl⟩ := write_cases step
    refine ⟨⟨nobody, global⟩, ?_⟩
    intro g absent
    have other : g ≠ o := by
      rintro rfl
      simp at absent
    exact ⟨(Function.update_of_ne other ..).symm.trans absent, if_neg (Ne.symm other)⟩
  | writeShared self c op =>
    obtain ⟨g, found, _⟩ := writeShared_cases step
    cases found.symm.trans global

theorem untouched_run (untouched : Untouched s) {ls : List Label}
    (run : runLabels (Process.next P) always s ls = some t) :
    match (ls.filterMap Label.loads).head? with
    | none => Untouched t
    | some (new, prototype) => s.objects new = none ∧ t.jsGlobal = some new ∧
        t.objects new =
          some ((ls.filterMap (Label.op new)).foldl operate (newObject prototype)) := by
  induction ls generalizing s with
  | nil =>
    cases run
    exact untouched
  | cons l ls ih =>
    obtain ⟨u, first, rest⟩ := Option.bind_eq_some_iff.mp run
    obtain ⟨_, step⟩ := Option.ite_none_right_eq_some.mp first
    have stepped := untouched_next untouched step
    rw [List.filterMap_cons]
    cases loads : l.loads with
    | none =>
      rw [loads] at stepped
      obtain ⟨still, older⟩ := stepped
      have ended := ih still rest
      cases later : (ls.filterMap Label.loads).head? with
      | none =>
        rw [later] at ended
        exact ended
      | some made =>
        rw [later] at ended
        obtain ⟨absent, global, object⟩ := ended
        obtain ⟨absent', unwritten⟩ := older made.1 absent
        refine ⟨absent', global, object.trans ?_⟩
        rw [List.filterMap_cons, unwritten]
    | some made =>
      rw [loads] at stepped
      obtain ⟨absent, unwritten, global, object⟩ := stepped
      obtain ⟨kept, ended⟩ := shared_run global object rest
      refine ⟨absent, kept, ended.trans ?_⟩
      rw [List.filterMap_cons, unwritten]

theorem untouched_start : Untouched .start := ⟨fun _ => rfl, rfl⟩

/-- The documented properties of a js object, after what happens in the process. -/
def documented (self : ObjId) (d : Option Documented) : Label → Option Documented
  | .create self' _ _ argv _ _ _ => if self' = self then some (.created argv) else d
  | .act self' l _ _ => if self' = self then d.map fun d => d.next l else d
  | .free self' => if self' = self then none else d
  | _ => d

theorem agrees_instanceAfter {self : ObjId} {x : Option Instance} {d : Option Documented}
    (h : Option.Rel (fun s d => Agrees s.x d) x d) (l : Label) :
    Option.Rel (fun s d => Agrees s.x d) (instanceAfter self x l) (documented self d l) := by
  cases l with
  | create self' canvasDir files argv template new prototype =>
    rw [instanceAfter, documented]
    by_cases here : self' = self
    · rw [if_pos here, if_pos here]
      exact .some (agrees_created self canvasDir files argv template)
    · rw [if_neg here, if_neg here]
      exact h
  | act self' l new prototype =>
    rw [instanceAfter, documented]
    by_cases here : self' = self
    · rw [if_pos here, if_pos here]
      cases h with
      | some agrees => exact .some (agrees.next l)
      | none => exact .none
    · rw [if_neg here, if_neg here]
      exact h
  | load self' new prototype => exact h
  | free self' =>
    rw [instanceAfter, documented]
    by_cases here : self' = self
    · rw [if_pos here, if_pos here]
      exact .none
    · rw [if_neg here, if_neg here]
      exact h
  | make o object => exact h
  | write o op => exact h
  | writeShared self' c op => exact h

theorem agrees_run {self : ObjId} {d : Option Documented}
    (h : Option.Rel (fun s d => Agrees s.x d) (s.instances self) d) {ls : List Label}
    (run : runLabels (Process.next P) always s ls = some t) :
    Option.Rel (fun s d => Agrees s.x d) (t.instances self) (ls.foldl (documented self) d) := by
  induction ls generalizing s d with
  | nil =>
    cases run
    exact h
  | cons l ls ih =>
    obtain ⟨u, first, rest⟩ := Option.bind_eq_some_iff.mp run
    obtain ⟨_, step⟩ := Option.ite_none_right_eq_some.mp first
    refine ih ?_ rest
    rw [instances_next step self]
    exact agrees_instanceAfter h l

/-- Where there is a js object, there is the object that the first load made. -/
theorem shared_of_alive {ls : List Label}
    (run : runLabels (Process.next P) always .start ls = some s) {self : ObjId} {x : Instance}
    (alive : s.instances self = some x) :
    ∃ new prototype, (ls.filterMap Label.loads).head? = some (new, prototype) ∧
      s.jsGlobal = some new ∧
      s.objects new = some ((ls.filterMap (Label.op new)).foldl operate (newObject prototype)) := by
  have ended := untouched_run untouched_start run
  cases first : (ls.filterMap Label.loads).head? with
  | none =>
    rw [first] at ended
    cases (ended.nobody self).symm.trans alive
  | some made =>
    rw [first] at ended
    exact ⟨made.1, made.2, rfl, ended.2⟩

/-- In every run of any number of js objects, the six names read in every context of a js
object as they are meant to after its own history, and `__global__` in all of them as the
object that the first load made. -/
theorem read_isolated {ls : List Label}
    (run : runLabels (Process.next P) always .start ls = some s) (self : ObjId) :
    match ls.foldl (documented self) none with
    | none => ∀ (r : Registry P) c k, s.read r self c k = none
    | some d => ∃ new prototype, (ls.filterMap Label.loads).head? = some (new, prototype) ∧
        ∀ (r : Registry P) c k property, known k.name = some property →
          s.read r self c k = some (d.read r new property) := by
  have start : Option.Rel (fun s d => Agrees s.x d) (Process.start.instances self) none := .none
  have ended := agrees_run start run
  cases alive : s.instances self with
  | none =>
    rw [alive] at ended
    generalize ls.foldl (documented self) none = history at ended
    cases ended
    intro r c k
    simp only [Process.read, alive]
  | some x =>
    obtain ⟨new, prototype, first, global, _⟩ := shared_of_alive run alive
    rw [alive] at ended
    generalize ls.foldl (documented self) none = history at ended
    cases ended with
    | some agrees =>
      refine ⟨new, prototype, first, fun r c k property name => ?_⟩
      simp only [Process.read, alive, global, agrees.read name]

/-- What happens to two js objects. The first writes to the shared object, the second is
compiled again, and the first is freed. -/
def twoObjects : List Label :=
  [.create 1 (.ofAscii "/patch") Recompiling.oneFile [] noProperties 5 fun _ => none,
    .create 2 (.ofAscii "/patch") Recompiling.oneFile [] noProperties 6 fun _ => none,
    .writeShared 1 0 (.set (.text (jsText "n")) (.object 7)),
    .act 2 (.compile Recompiling.oneFile [] noProperties) 8 fun _ => none,
    .free 1]

/-- In the second js object two contexts were made, and the first is gone. -/
theorem read_isolated_twoObjects :
    ∃ s, runLabels (Process.next .bits64) always .start twoObjects = some s ∧
      (∀ (r : Registry .bits64) c k, s.read r 1 c k = none) ∧
      ∀ (r : Registry .bits64) c k property, known k.name = some property →
        s.read r 2 c k = some (((Documented.created []).next
          (.compile Recompiling.oneFile [] noProperties)).read r 5 property) := by
  have run : ∃ s, runLabels (Process.next .bits64) always .start twoObjects = some s :=
    ⟨_, rfl⟩
  obtain ⟨s, run⟩ := run
  have first := read_isolated run 1
  have second := read_isolated run 2
  obtain ⟨new, prototype, made, reads⟩ := second
  cases made
  exact ⟨s, run, first, reads⟩

/-- A script reads `__global__` in a context of a js object, and a property of the result. -/
def Process.property (P : Platform) (s : Process) (self : ObjId) (c : Nat) (k : Key) :
    Option Value :=
  match s.read (.empty : Registry P) self c shared with
  | some (.single (.object o)) => (s.objects o).map fun object => (object.get k).getD undefined
  | _ => none

theorem foldl_operate {k : Key} {ops : List (Op Key Value)} (leaves : ∀ op ∈ ops, Leaves k op)
    (o : DataObject Key Value) : ops.foldl operate o = o.run ops := by
  induction ops generalizing o with
  | nil => rfl
  | cons op ops ih =>
    have first := operate_of_ne_proto (leaves op List.mem_cons_self).2 o
    have rest := ih fun op' later => leaves op' (List.mem_cons_of_mem op later)
    rw [List.foldl_cons, first, rest]
    rfl

/-- In every run, a property of the shared object reads in all contexts of all js objects as
the last assignment to it or deletion of it left it, by whichever of them, or as it was
inherited, as long as it is not defined anew, the prototype stays and the object is not closed. -/
theorem property_lastWritten {ls : List Label}
    (run : runLabels (Process.next P) always .start ls = some s) {self : ObjId}
    (alive : s.instances self ≠ none) :
    ∃ new prototype, (ls.filterMap Label.loads).head? = some (new, prototype) ∧
      ∀ k, (prototype k).all Inherited.writable →
        (∀ op ∈ ls.filterMap (Label.op new), Leaves k op) → ∀ c,
        s.property P self c k =
          some (((ls.filterMap (Label.op new)).foldl
            (readAfter k false ((prototype k).map Inherited.value))
            ((prototype k).map Inherited.value)).getD undefined) := by
  obtain ⟨x, alive⟩ := Option.ne_none_iff_exists'.mp alive
  obtain ⟨new, prototype, first, global, object⟩ := shared_of_alive run alive
  refine ⟨new, prototype, first, fun k writable leaves c => ?_⟩
  have free : (newObject prototype).Open k :=
    ⟨fun p own => absurd own.symm (Option.some_ne_none p), writable, rfl⟩
  have inherited : (newObject prototype).get k = (newObject prototype).base k := rfl
  have reads := get_run free fun op member => (leaves op member).1
  rw [foldl_operate leaves] at object
  simp only [Process.property, read_shared global alive, object, Option.map_some, reads, inherited]
  rfl

theorem property_lastWritten_twoObjects :
    ∃ s, runLabels (Process.next .bits64) always .start twoObjects = some s ∧
      ∀ c, s.property .bits64 2 c (.text (jsText "n")) = some (.object 7) := by
  have run : ∃ s, runLabels (Process.next .bits64) always .start twoObjects = some s ∧
      s.instances 2 ≠ none := ⟨_, rfl, Option.some_ne_none _⟩
  obtain ⟨s, run, alive⟩ := run
  obtain ⟨new, prototype, made, reads⟩ := property_lastWritten run alive
  cases made
  refine ⟨s, run, reads (.text (jsText "n")) rfl ?_⟩
  intro op member
  cases List.mem_singleton.mp member
  exact ⟨trivial, fun value same => absurd (Op.set.inj same).1 (by decide)⟩

end Sharing
