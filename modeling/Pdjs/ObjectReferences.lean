import Pdjs.WeakHandles

/-!
# What an id refers to

The id of an object in a message is the address of its handle. As long as the
object lives its id is its own and resolves to it. Afterwards the address may be
given to the handle of another object, and an id that a patch kept then resolves
to that object.
-/

namespace ObjectReferences

open GuardedRuns PdAtoms ObjectRegistry WeakHandles

variable {P : Platform}

theorem idText_injective {p q : Addr P} (hp : 0 < p.toInt) (hq : 0 < q.toInt)
    (same : idText p = idText q) : p = q := by
  obtain ⟨n, hn, rfl⟩ := stoull_idText hp
  obtain ⟨m, hm, rfl⟩ := stoull_idText hq
  have heq : some n = some m := by
    rw [← hn, ← hm, same]
  cases heq
  rfl

/-- `p` is the only id of the live object `o`. -/
structure Identifies (s : State P) (p : Addr P) (o : Ref) : Prop where
  distinct : ∀ q o', (q, o') ∈ s.encoded → s.Live o' → (p = q ↔ o = o')
  texts : 0 < p.toInt → ∀ q o', (q, o') ∈ s.encoded → s.Live o' → 0 < q.toInt →
    (idText p = idText q ↔ o = o')
  again : ∀ x new, jsUnmarshalObject x o new s.reg = (p, s.reg)
  resolves : 0 < p.toInt → jsMarshalObject s.reg (gensym (idText p)) = some o

theorem identifies {s : State P} (h : Consistent s) {p : Addr P} {o : Ref}
    (sent : (p, o) ∈ s.encoded) (live : s.Live o) : Identifies s p o := by
  have held := h.kept p o sent live
  have distinct : ∀ q o', (q, o') ∈ s.encoded → s.Live o' → (p = q ↔ o = o') := by
    intro q o' sent' live'
    have held' := h.kept q o' sent' live'
    constructor
    · rintro rfl
      exact Option.some.inj (held.2.symm.trans held'.2)
    · rintro rfl
      exact h.single p held.1 q held'.1 (held.2.trans held'.2.symm)
  refine ⟨distinct, ?_, ?_, fun positive => jsMarshalObject_of_holds positive held⟩
  · intro positive q o' sent' live' positive'
    rw [← distinct q o' sent' live']
    constructor
    · exact idText_injective positive positive'
    · exact congrArg idText
  · intro x new
    simp only [jsUnmarshalObject, h.find_eq held]

/-- In every run the set has one entry for each object in it, and what was
returned for an object identifies it as long as it lives. -/
theorem registry_identity {s : State P} (h : Reachable (handles P) always s) :
    s.reg.jsobjects.Nodup ∧
      (∀ p ∈ s.reg.jsobjects, ∀ q ∈ s.reg.jsobjects, ∀ o,
        s.reg.cell p = some o → s.reg.cell q = some o → p = q) ∧
      ∀ p o, (p, o) ∈ s.encoded → s.Live o → Identifies s p o := by
  have c := consistent h
  refine ⟨c.nodup, ?_, fun p o sent live => identifies c sent live⟩
  intro p hp q hq o hpo hqo
  exact c.single p hp q hq (hpo.trans hqo.symm)

/-- Two objects are made and the first is sent by the js object 1. -/
def firstSent : State .bits64 := State.send { State.start with born := 2 } 1 0 0x1000

/-- The js object 2 then sends the second. -/
def bothSent : State .bits64 := firstSent.send 2 1 0x2000

theorem reachable_firstSent {ok : State .bits64 → Label .bits64 → Prop}
    (make : ∀ s, ok s .make) (send : ok { State.start with born := 2 } (.send 1 0 0x1000)) :
    Reachable (handles .bits64) ok firstSent := by
  have made : Reachable (handles .bits64) ok { State.start with born := 2 } :=
    .next (.next (.start rfl) (.make _) (make _)) (.make _) (make _)
  refine .next made (.send 1 ?_ ?_ ?_) send
  · decide
  · decide
  · exact List.not_mem_nil

theorem reachable_bothSent : Reachable (handles .bits64) always bothSent := by
  have first : Reachable (handles .bits64) always firstSent :=
    reachable_firstSent (fun _ => trivial) trivial
  refine .next first (.send 2 ?_ ?_ ?_) trivial
  · decide
  · decide
  · decide

theorem registry_identity_bothSent :
    jsMarshalObject bothSent.reg (gensym (idText (0x1000 : Addr .bits64))) = some 0 ∧
      jsMarshalObject bothSent.reg (gensym (idText (0x2000 : Addr .bits64))) = some 1 := by
  obtain ⟨_, _, ids⟩ := registry_identity reachable_bothSent
  constructor
  · exact (ids 0x1000 0 (by decide) (by decide)).resolves (by decide)
  · exact (ids 0x2000 1 (by decide) (by decide)).resolves (by decide)

/-- An id is in a message only if its address is positive. -/
def Emitted (s : State P) (p : Addr P) (o : Ref) : Prop := (p, o) ∈ s.encoded ∧ 0 < p.toInt

/-- No id that was ever sent resolves to another object than the one it was sent for. -/
def NeverStale (s : State P) : Prop :=
  ∀ p o, Emitted s p o → ∀ o', jsMarshalObject s.reg (gensym (idText p)) = some o' → o' = o

/-- A new handle does not get an address that was sent as an id before. -/
def FreshIds (s : State P) (l : Label P) : Prop :=
  ∀ x o new, l = .send x o new → s.reg.find o = none → ∀ o', ¬ Emitted s new o'

/-- An id that was sent is not the address of a handle to another object. -/
def IdsKept (s : State P) : Prop :=
  ∀ p o, Emitted s p o → p ∈ s.reg.jsobjects → s.reg.cell p = some o

theorem neverStale_of_idsKept {s : State P} (h : IdsKept s) : NeverStale s := by
  intro p o sent o' found
  rw [jsMarshalObject_idText s.reg sent.2] at found
  by_cases hp : p ∈ s.reg.jsobjects
  · rw [if_pos hp, h p o sent hp] at found
    exact (Option.some.inj found).symm
  · rw [if_neg hp] at found
    exact absurd found nofun

theorem idsKept_send {s : State P} (c : Consistent s) (h : IdsKept s) {x : ObjId} {o : Ref}
    {new : Addr P} (free : new ∉ s.reg.wrappers) (ok : FreshIds s (.send x o new)) :
    IdsKept (s.send x o new) := by
  cases hf : s.reg.find o with
  | some q =>
    rw [send_known hf]
    rintro p o' ⟨sent, positive⟩ hp
    rcases List.mem_cons.mp sent with heq | earlier
    · cases heq
      exact (find_some hf).2
    · exact h p o' ⟨earlier, positive⟩ hp
  | none =>
    rw [send_fresh hf x (c.fresh free)]
    rintro p o' ⟨sent, positive⟩ hp
    rcases List.mem_cons.mp sent with heq | earlier
    · cases heq
      exact Function.update_self ..
    · have other : p ≠ new := fun heq => ok x o new rfl hf o' (heq ▸ ⟨earlier, positive⟩)
      have older : p ∈ s.reg.jsobjects := (List.mem_cons.mp hp).resolve_left other
      exact (Function.update_of_ne other ..).trans (h p o' ⟨earlier, positive⟩ older)

/-- What is left in the set after a collection was in it before and refers to the
same object. -/
theorem collect_holds {s : State P} (c : Consistent s) {o : Ref} {p : Addr P}
    (hp : p ∈ (s.collect o).reg.jsobjects) :
    p ∈ s.reg.jsobjects ∧ (s.collect o).reg.cell p = s.reg.cell p := by
  rcases c.reported_cases o with ⟨silent, unsent⟩ | ⟨wcbi, hrec, hcell, one⟩
  · rw [collect_unsent silent] at hp ⊢
    exact ⟨hp, clearCells_cell (unsent p hp)⟩
  · have hmem := c.mem_of_record hrec
    have nonnull : wcbi.jso ≠ 0 := fun zero => c.nonnull (zero ▸ hmem)
    rw [collect_sent nonnull one] at hp ⊢
    obtain ⟨other, hp⟩ := c.nodup.mem_erase_iff.mp hp
    exact ⟨hp, clearCells_cell fun cell => other (c.single p hp _ hmem (cell.trans hcell.symm))⟩

theorem collect_encoded (s : State P) (o : Ref) : (s.collect o).encoded = s.encoded := by
  have keeps : ∀ (l : List (WeakRecord P)) (s : State P),
      (l.foldl (fun s wcbi => s.report o wcbi) s).encoded = s.encoded := by
    intro l
    induction l with
    | nil => exact fun s => rfl
    | cons wcbi l ih => exact fun s => ih (s.report o wcbi)
  exact keeps (reported s.reg o) { s with reg := clearCells s.reg o, dead := o :: s.dead }

theorem idsKept {s : State P} (h : Reachable (handles P) FreshIds s) : IdsKept s := by
  apply h.invariant
  · rintro s rfl
    rintro p o ⟨sent, _⟩
    exact absurd sent List.not_mem_nil
  · intro s l t before kept step ok
    have c := consistent before.unguarded
    cases step with
    | make => exact kept
    | send x live nonnull free => exact idsKept_send c kept free ok
    | collect live =>
      rintro p o ⟨sent, positive⟩ hp
      rw [collect_encoded] at sent
      obtain ⟨older, cell⟩ := collect_holds c hp
      exact cell.trans (kept p o ⟨sent, positive⟩ older)
    | reorder same => exact fun p o sent hp => kept p o sent (same.mem_iff.mp hp)

/-- A handle that gets the address of an earlier id makes that id resolve to its
own object at once. -/
theorem stale_of_reuse {s t : State P} {l : Label P} (h : Reachable (handles P) always s)
    (step : (handles P).step s l t) (reuse : ¬ FreshIds s l) : ¬ NeverStale t := by
  have c := consistent h
  simp only [FreshIds, not_forall] at reuse
  obtain ⟨x, o, new, rfl, hf, o', sent⟩ := reuse
  rw [not_not] at sent
  cases step with
  | send x live nonnull free =>
    intro never
    have fresh := c.fresh free
    rw [send_fresh hf x fresh] at never
    have found := jsMarshalObject_of_holds (o := o) sent.2
      (r := { s.reg with jsobjects := new :: s.reg.jsobjects, wrappers := new :: s.reg.wrappers,
                         cell := Function.update s.reg.cell new (some o),
                         records := ⟨x, new⟩ :: s.reg.records,
                         armed := ⟨x, new⟩ :: s.reg.armed })
      ⟨List.mem_cons_self, Function.update_self ..⟩
    have same := never new o' ⟨List.mem_cons_of_mem _ sent.1, sent.2⟩ o found
    exact fresh (c.kept new o' sent.1 (same ▸ live)).1

/-- In the runs in which no new handle gets the address of an id that was sent no
id ever goes stale, and a handle that does get one makes an id stale at once. -/
theorem neverStale_while_fresh :
    (∀ s : State P, Reachable (handles P) FreshIds s → NeverStale s) ∧
      ∀ (s t : State P) (l : Label P), Reachable (handles P) always s → (handles P).step s l t →
        ¬ FreshIds s l → ¬ NeverStale t := by
  constructor
  · exact fun s h => neverStale_of_idsKept (idsKept h)
  · exact fun s t l h step reuse => stale_of_reuse h step reuse

/-- The first object dies and its address is given to the handle of the second. -/
def idReused : State .bits64 := (firstSent.collect 0).send 2 1 0x1000

theorem step_idReused :
    (handles .bits64).step (firstSent.collect 0) (.send 2 1 0x1000) idReused := by
  refine .send 2 ?_ ?_ ?_
  · decide
  · decide
  · decide

theorem neverStale_while_fresh_idReused : NeverStale firstSent ∧ ¬ NeverStale idReused := by
  constructor
  · apply neverStale_while_fresh.1
    apply reachable_firstSent
    · exact fun s x o new heq => absurd heq nofun
    · rintro x o new ⟨⟩ _ o' ⟨sent, _⟩
      exact absurd sent List.not_mem_nil
  · have first : Reachable (handles .bits64) always firstSent :=
      reachable_firstSent (fun _ => trivial) trivial
    have died : Reachable (handles .bits64) always (firstSent.collect 0) :=
      .next first (.collect (by decide)) trivial
    refine neverStale_while_fresh.2 _ _ _ died step_idReused ?_
    intro fresh
    exact fresh 2 1 0x1000 rfl (by decide) 0 ⟨by decide, by decide⟩

/-- The id that was sent for the first object resolves to the second. -/
theorem not_neverStale_idReused :
    Reachable (handles .bits64) always idReused ∧ ¬ NeverStale idReused := by
  have first : Reachable (handles .bits64) always firstSent :=
    reachable_firstSent (fun _ => trivial) trivial
  have died : Reachable (handles .bits64) always (firstSent.collect 0) :=
    .next first (.collect (by decide)) trivial
  refine ⟨.next died step_idReused trivial, fun never => ?_⟩
  have sent : Emitted idReused 0x1000 0 := ⟨by decide, by decide⟩
  have found : jsMarshalObject idReused.reg (gensym (idText (0x1000 : Addr .bits64))) = some 1 :=
    jsMarshalObject_of_holds (by decide) ⟨by decide, by decide⟩
  exact absurd (never 0x1000 0 sent 1 found) (by decide)

end ObjectReferences
