import Mathlib.Logic.Basic

/-!
# Runs of a labelled transition system under a condition on the steps

A condition on steps may look at the state before the step and at the label, and
nothing else. `Reachable ok` collects the states reached by runs all of whose
steps meet the condition `ok`; `always` imposes nothing. The steps of a system may
be given by a partial function, and a run of labels can then be computed.
-/

namespace GuardedRuns

universe u v

structure System (S : Type u) (L : Type v) where
  init : S → Prop
  step : S → L → S → Prop

variable {S : Type u} {L : Type v}

def always (_ : S) (_ : L) : Prop := True

instance (s : S) (l : L) : Decidable (always s l) := isTrue trivial

inductive Reachable (M : System S L) (ok : S → L → Prop) : S → Prop where
  | start {s : S} (initial : M.init s) : Reachable M ok s
  | next {s t : S} {l : L} (before : Reachable M ok s) (step : M.step s l t)
      (allowed : ok s l) : Reachable M ok t

/-- The system of a partial function on states and labels. -/
def System.ofNext (init : S → Prop) (next : S → L → Option S) : System S L :=
  ⟨init, fun s l t => next s l = some t⟩

/-- The end of a run, if every step exists and meets the condition. -/
def runLabels (next : S → L → Option S) (ok : S → L → Prop) [∀ s l, Decidable (ok s l)]
    (s : S) (ls : List L) : Option S :=
  ls.foldlM (fun s l => if ok s l then next s l else none) s

/-- Weakening the condition admits every run the stronger one admitted. -/
theorem Reachable.mono {M : System S L} {ok ok' : S → L → Prop}
    (weaker : ∀ s l, ok s l → ok' s l) {s : S} (h : Reachable M ok s) :
    Reachable M ok' s := by
  induction h with
  | start initial => exact .start initial
  | next _ step allowed ih => exact .next ih step (weaker _ _ allowed)

theorem Reachable.unguarded {M : System S L} {ok : S → L → Prop} {s : S}
    (h : Reachable M ok s) : Reachable M always s :=
  h.mono (fun _ _ _ => trivial)

/-- The induction rule: what holds at the start and survives every allowed step
holds in every state reached. The step may use facts already known of runs. -/
theorem Reachable.invariant {M : System S L} {ok : S → L → Prop} {I : S → Prop}
    (initial : ∀ s, M.init s → I s)
    (preserved : ∀ s l t, Reachable M ok s → I s → M.step s l t → ok s l → I t)
    {s : S} (h : Reachable M ok s) : I s := by
  induction h with
  | start h0 => exact initial _ h0
  | next before step allowed ih => exact preserved _ _ _ before ih step allowed

theorem Reachable.run {init : S → Prop} {next : S → L → Option S} {ok : S → L → Prop}
    [∀ s l, Decidable (ok s l)] {s t : S} {ls : List L}
    (h : Reachable (.ofNext init next) ok s) (run : runLabels next ok s ls = some t) :
    Reachable (.ofNext init next) ok t := by
  induction ls generalizing s with
  | nil =>
    cases run
    exact h
  | cons l ls ih =>
    obtain ⟨u, first, rest⟩ := Option.bind_eq_some_iff.mp run
    obtain ⟨allowed, step⟩ := Option.ite_none_right_eq_some.mp first
    exact ih (.next h step allowed) rest

universe w

variable {A : Type w} {next : S → L → Option S} {ok : S → L → Prop}
  [∀ s l, Decidable (ok s l)]

/-- What each step computes from its label and what there was, a run computes from all of
its labels. -/
theorem fold_of_run {I : S → Prop} {f : S → A} {g : A → L → A}
    (steps : ∀ s l t, I s → next s l = some t → I t ∧ f t = g (f s) l) {s t : S} {ls : List L}
    (start : I s) (run : runLabels next ok s ls = some t) : I t ∧ f t = ls.foldl g (f s) := by
  induction ls generalizing s with
  | nil =>
    cases run
    exact ⟨start, rfl⟩
  | cons l ls ih =>
    obtain ⟨u, first, rest⟩ := Option.bind_eq_some_iff.mp run
    obtain ⟨_, step⟩ := Option.ite_none_right_eq_some.mp first
    obtain ⟨kept, here⟩ := steps s l u start step
    rw [List.foldl_cons, ← here]
    exact ih kept rest

/-- The last label that sets a value. -/
theorem foldl_getD (g : L → Option A) (ls : List L) (a : A) :
    ls.foldl (fun a l => (g l).getD a) a = (ls.filterMap g).getLast?.getD a := by
  induction ls generalizing a with
  | nil => rfl
  | cons l ls ih =>
    rw [List.foldl_cons, ih, List.filterMap_cons]
    cases g l with
    | none => rfl
    | some b => rw [List.getLast?_cons, Option.getD_some, Option.getD_some]

end GuardedRuns
