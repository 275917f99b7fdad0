import Mathlib.Data.Fintype.Card
import Mathlib.Data.List.Chain
import Mathlib.Data.Set.Card
import Mathlib.Logic.Relation

/-!
# Nodes in reach of a set of roots

A node is in reach if a path of edges leads to it from a root. A set that contains
the roots and is closed under the edges contains everything in reach, so a change of
roots and edges extends the reach only through a new root or edge that leaves it.
Where finitely many nodes are in reach, every descent along the edges ends exactly if none
of these nodes lies on a cycle, and then no trail along them is longer than their number.
-/

namespace RootedGraphs

universe u

variable {Node : Type u}

inductive Reach (root : Node → Prop) (edge : Node → Node → Prop) : Node → Prop where
  | root {r : Node} (h : root r) : Reach root edge r
  | step {x y : Node} (before : Reach root edge x) (h : edge x y) : Reach root edge y

variable {root root' : Node → Prop} {edge edge' : Node → Node → Prop}

/-- Reach is the least set with the roots that the edges do not leave. -/
theorem Reach.least {inside : Node → Prop} (roots : ∀ r, root r → inside r)
    (closed : ∀ x y, inside x → edge x y → inside y) {y : Node} (h : Reach root edge y) :
    inside y := by
  induction h with
  | root h => exact roots _ h
  | step _ h ih => exact closed _ _ ih h

theorem Reach.mono (roots : ∀ r, root r → Reach root' edge' r)
    (edges : ∀ x y, Reach root' edge' x → edge x y → Reach root' edge' y) {y : Node}
    (h : Reach root edge y) : Reach root' edge' y :=
  h.least roots edges

theorem Reach.of_subset (roots : ∀ r, root r → root' r) (edges : ∀ x y, edge x y → edge' x y)
    {y : Node} (h : Reach root edge y) : Reach root' edge' y :=
  h.mono (fun r hr => .root (roots r hr)) (fun x y before hxy => .step before (edges x y hxy))

/-- A path that is not empty leads from the node back to it. -/
def OnCycle (edge : Node → Node → Prop) (x : Node) : Prop := Relation.TransGen edge x x

/-- Every path from the node is finite. -/
abbrev Descends (edge : Node → Node → Prop) (x : Node) : Prop := Acc (Function.swap edge) x

theorem Reach.path {x y : Node} (h : Reach root edge x) (path : Relation.TransGen edge x y) :
    Reach root edge y := by
  induction path with
  | single hxy => exact .step h hxy
  | tail _ hyz ih => exact .step ih hyz

theorem Descends.not_onCycle {x : Node} (h : Descends edge x) : ¬ OnCycle edge x := by
  have ends := h.transGen
  clear h
  induction ends with
  | intro x _ ih =>
    intro cycle
    have back : Relation.TransGen (Function.swap edge) x x := Relation.transGen_swap.mpr cycle
    exact ih x back cycle

/-- What is in reach of a node that descends descends as well. -/
theorem Reach.descends (roots : ∀ r, root r → Descends edge r) {x : Node}
    (h : Reach root edge x) : Descends edge x :=
  h.least roots (fun _ _ hx hxy => hx.inv hxy)

theorem Reach.descends_of_acyclic (finite : {x | Reach root edge x}.Finite)
    (acyclic : ∀ x, Reach root edge x → ¬ OnCycle edge x) {x : Node} (h : Reach root edge x) :
    Descends edge x := by
  let below (a b : {x | Reach root edge x}) : Prop := Relation.TransGen edge b a
  have : Finite {x | Reach root edge x} := finite
  have : IsTrans _ below := ⟨fun _ _ _ hab hbc => Relation.TransGen.trans hbc hab⟩
  have : Std.Irrefl below := ⟨fun a cycle => acyclic a a.property cycle⟩
  have ends := (Finite.wellFounded_of_trans_of_irrefl below).apply ⟨x, h⟩
  generalize hx : (⟨x, h⟩ : {x | Reach root edge x}) = node at ends
  induction ends generalizing x with
  | intro node _ ih =>
    subst hx
    constructor
    intro y hxy
    exact ih ⟨y, Reach.step h hxy⟩ (.single hxy) (.step h hxy) rfl

/-- With finitely many nodes in reach, descents end where there are no cycles. -/
theorem descends_iff (finite : {x | Reach root edge x}.Finite) :
    (∀ r, root r → Descends edge r) ↔ ∀ x, Reach root edge x → ¬ OnCycle edge x := by
  constructor
  · exact fun roots x h => (h.descends roots).not_onCycle
  · exact fun acyclic r hr => (Reach.root hr).descends_of_acyclic finite acyclic

/-- A stack of nodes: each was reached by an edge from the one below it, and the lowest
one is a root. -/
def Trail (root : Node → Prop) (edge : Node → Node → Prop) (xs : List Node) : Prop :=
  xs.IsChain (Function.swap edge) ∧ ∀ r ∈ xs.getLast?, root r

theorem trail_nil : Trail root edge [] :=
  ⟨.nil, fun _ last => absurd last.symm (Option.some_ne_none _)⟩

theorem trail_singleton {x : Node} : Trail root edge [x] ↔ root x := by
  simp [Trail]

theorem trail_cons_cons {x y : Node} {xs : List Node} :
    Trail root edge (y :: x :: xs) ↔ edge x y ∧ Trail root edge (x :: xs) := by
  simp [Trail, List.isChain_cons_cons, and_assoc, Function.swap]

theorem Trail.tail {x : Node} {xs : List Node} (h : Trail root edge (x :: xs)) :
    Trail root edge xs := by
  rcases xs with _ | ⟨y, xs⟩
  · exact trail_nil
  · exact (trail_cons_cons.mp h).2

theorem Trail.reach {xs : List Node} (h : Trail root edge xs) : ∀ x ∈ xs, Reach root edge x := by
  induction xs with
  | nil => exact fun x hx => absurd hx List.not_mem_nil
  | cons y xs ih =>
    have below := ih h.tail
    intro x hx
    rcases List.mem_cons.mp hx with rfl | later
    · rcases xs with _ | ⟨z, xs⟩
      · exact .root (trail_singleton.mp h)
      · exact .step (below z List.mem_cons_self) (trail_cons_cons.mp h).1
    · exact below x later

/-- Without cycles no node is met twice. -/
theorem Trail.nodup {xs : List Node} (h : Trail root edge xs)
    (acyclic : ∀ x, Reach root edge x → ¬ OnCycle edge x) : xs.Nodup := by
  have above : xs.IsChain (Function.swap (Relation.TransGen edge)) :=
    h.1.imp fun _ _ hxy => .single hxy
  have : IsTrans Node (Function.swap (Relation.TransGen edge)) :=
    ⟨fun _ _ _ hab hbc => Relation.TransGen.trans hbc hab⟩
  refine (List.isChain_iff_pairwise.mp above).imp_of_mem ?_
  rintro x y hx _ path rfl
  exact acyclic x (h.reach x hx) path

theorem Trail.length_le {xs : List Node} (h : Trail root edge xs)
    (finite : {x | Reach root edge x}.Finite)
    (acyclic : ∀ x, Reach root edge x → ¬ OnCycle edge x) :
    xs.length ≤ {x | Reach root edge x}.ncard := by
  classical
  have distinct := h.nodup acyclic
  rw [← List.toFinset_card_of_nodup distinct, ← Set.ncard_coe_finset]
  apply Set.ncard_le_ncard _ finite
  intro x hx
  exact h.reach x (List.mem_toFinset.mp hx)

end RootedGraphs
