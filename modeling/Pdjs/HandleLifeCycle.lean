import Pdjs.WeakHandles

/-!
# The life cycle of a weak handle

V8 demands that a first-pass callback resets the handle that triggered it, and a
`Persistent` with default traits is not reset by its destructor. The callback of
`js_unmarshal_string` removes the entry and frees the wrapper and the record, each
once, but it resets nothing: the life cycle is as demanded exactly in the runs in
which no object that was sent ever dies.
-/

namespace HandleLifeCycle

open GuardedRuns PdAtoms ObjectRegistry WeakHandles

variable {P : Platform}

/-- What one call of the callback owes to V8, to the allocator and to `jsobjects`,
the last after every prefix of what it does. -/
structure Handled (d : Death P) : Prop where
  erased : .erase d.record.jso ∈ d.ops
  reset : [.reset d.record.jso, .deletePersistent d.record.jso].Sublist d.ops
  wrapper : d.ops.count (.deletePersistent d.record.jso) = 1
  record : d.ops.count (.deleteRecord d.record) = 1
  sound : ∀ n, ∀ p ∈ (d.before.run (d.ops.take n)).jsobjects,
    p ∈ (d.before.run (d.ops.take n)).wrappers

/-- Every object that was sent and died was reported once and handled, the
elements of `jsobjects` are wrappers of live objects, and every other wrapper and
record was freed as often as it was made. -/
structure LifeCycle (s : State P) : Prop where
  reported : ∀ p o, (p, o) ∈ s.encoded → o ∈ s.dead →
    ∃ d ∈ s.deaths, d.object = o ∧ d.record.jso = p
  once : (s.deaths.map Death.object).Nodup
  handled : ∀ d ∈ s.deaths, Handled d
  current : ∀ p ∈ s.reg.jsobjects, ∃ o, s.reg.cell p = some o ∧ s.Live o
  sound : ∀ p ∈ s.reg.jsobjects, p ∈ s.reg.wrappers
  wrapperOnce : ∀ p, s.history.countP (makes p) =
    s.history.count (.deletePersistent p) + if p ∈ s.reg.jsobjects then 1 else 0
  recordOnce : ∀ wcbi, s.history.count (.newRecord wcbi) =
    s.history.count (.deleteRecord wcbi) + if wcbi ∈ s.reg.armed then 1 else 0

/-- The step does not kill an object that has a handle. -/
def SparesSent (s : State P) (l : Label P) : Prop :=
  ∀ o, l = .collect o → ∀ p ∈ s.reg.jsobjects, s.reg.cell p ≠ some o

theorem wrapperOnce {s : State P} (h : Consistent s) (p : Addr P) :
    s.history.countP (makes p) =
      s.history.count (.deletePersistent p) + if p ∈ s.reg.jsobjects then 1 else 0 := by
  rw [h.wrapperBalance, h.wrappers.count_eq, h.nodup.count]

theorem recordOnce {s : State P} (h : Consistent s) (wcbi : WeakRecord P) :
    s.history.count (.newRecord wcbi) =
      s.history.count (.deleteRecord wcbi) + if wcbi ∈ s.reg.armed then 1 else 0 := by
  rw [h.recordBalance, h.nodup_records.count]
  simp only [h.armed.mem_iff]

/-- What is known of every call in a run. -/
structure Freed (d : Death P) : Prop where
  ops : d.ops = weakCallback d.record
  nonnull : d.record.jso ≠ 0
  nodup : d.before.jsobjects.Nodup
  wrappers : d.before.wrappers.Perm d.before.jsobjects

/-- The reports so far: one for each object that was sent and died. -/
structure Reports (s : State P) : Prop where
  reported : ∀ p o, (p, o) ∈ s.encoded → o ∈ s.dead →
    ∃ d ∈ s.deaths, d.object = o ∧ d.record.jso = p
  dead : ∀ d ∈ s.deaths, d.object ∈ s.dead
  once : (s.deaths.map Death.object).Nodup
  freed : ∀ d ∈ s.deaths, Freed d

theorem encoded_send (s : State P) (x : ObjId) (o : Ref) (new : Addr P) :
    ∃ p, (s.send x o new).encoded = (p, o) :: s.encoded :=
  ⟨_, rfl⟩

theorem reports_send {s : State P} (h : Reports s) (x : ObjId) {o : Ref} (live : s.Live o)
    (new : Addr P) : Reports (s.send x o new) := by
  obtain ⟨p, henc⟩ := encoded_send s x o new
  refine ⟨?_, h.dead, h.once, h.freed⟩
  rw [henc]
  intro q o' sent dead
  rcases List.mem_cons.mp sent with heq | earlier
  · cases heq
    exact absurd dead live.2
  · exact h.reported q o' earlier dead

theorem reports_collect {s : State P} (h : Reports s) (c : Consistent s) {o : Ref}
    (live : s.Live o) : Reports (s.collect o) := by
  rcases c.reported_cases o with ⟨silent, unsent⟩ | ⟨wcbi, hrec, hcell, one⟩
  · rw [collect_unsent silent]
    refine ⟨?_, fun d hd => List.mem_cons_of_mem _ (h.dead d hd), h.once, h.freed⟩
    intro p o' sent dead
    rcases List.mem_cons.mp dead with rfl | earlier
    · have held := c.kept p o' sent live
      exact absurd held.2 (unsent p held.1)
    · exact h.reported p o' sent earlier
  · have hmem := c.mem_of_record hrec
    have nonnull : wcbi.jso ≠ 0 := fun zero => c.nonnull (zero ▸ hmem)
    rw [collect_sent nonnull one]
    refine ⟨?_, ?_, ?_, ?_⟩
    · intro p o' sent dead
      rcases List.mem_cons.mp dead with rfl | earlier
      · have held := c.kept p o' sent live
        refine ⟨_, List.mem_cons_self, rfl, ?_⟩
        exact c.single _ hmem _ held.1 (hcell.trans held.2.symm)
      · obtain ⟨d, hd, found⟩ := h.reported p o' sent earlier
        exact ⟨d, List.mem_cons_of_mem _ hd, found⟩
    · intro d hd
      rcases List.mem_cons.mp hd with rfl | earlier
      · exact List.mem_cons_self
      · exact List.mem_cons_of_mem _ (h.dead d earlier)
    · refine List.nodup_cons.mpr ⟨?_, h.once⟩
      intro again
      obtain ⟨d, hd, heq⟩ := List.mem_map.mp again
      have dead := h.dead d hd
      rw [heq] at dead
      exact live.2 dead
    · intro d hd
      rcases List.mem_cons.mp hd with rfl | earlier
      · exact ⟨rfl, nonnull, c.nodup, c.wrappers⟩
      · exact h.freed d earlier

theorem reports {s : State P} (h : Reachable (handles P) always s) : Reports s := by
  apply h.invariant
  · rintro s rfl
    constructor <;> simp [State.start]
  · intro s l t before hs step _
    cases step with
    | make => exact ⟨hs.reported, hs.dead, hs.once, hs.freed⟩
    | send x live nonnull free => exact reports_send hs x live _
    | collect live => exact reports_collect hs (consistent before) live
    | reorder same => exact ⟨hs.reported, hs.dead, hs.once, hs.freed⟩

/-- The entry is removed, and the wrapper and the record are freed once, in every run. -/
theorem Freed.counts {d : Death P} (h : Freed d) :
    .erase d.record.jso ∈ d.ops ∧ d.ops.count (.deletePersistent d.record.jso) = 1 ∧
      d.ops.count (.deleteRecord d.record) = 1 := by
  rw [h.ops, weakCallback_of_ne h.nonnull]
  simp

/-- The entry is gone before its wrapper is. -/
theorem Freed.sound {d : Death P} (h : Freed d) (n : Nat) :
    ∀ p ∈ (d.before.run (d.ops.take n)).jsobjects, p ∈ (d.before.run (d.ops.take n)).wrappers := by
  have every : ∀ p, p ∈ d.before.jsobjects → p ∈ d.before.wrappers :=
    fun p hp => h.wrappers.mem_iff.mpr hp
  have rest : ∀ p, p ∈ d.before.jsobjects.erase d.record.jso →
      p ∈ d.before.wrappers.erase d.record.jso :=
    fun p hp => (h.wrappers.erase _).mem_iff.mpr hp
  rw [h.ops, weakCallback_of_ne h.nonnull]
  rcases n with _ | _ | _ | n
  · exact every
  · exact fun p hp => every p (List.mem_of_mem_erase hp)
  · exact rest
  · rw [List.take_of_length_le (by simp)]
    exact rest

theorem not_handled {d : Death P} (h : Freed d) : ¬ Handled d := by
  intro handled
  have hreset := handled.reset.subset List.mem_cons_self
  rw [h.ops, weakCallback_of_ne h.nonnull] at hreset
  simp at hreset

theorem deaths_collect_mono (s : State P) (o : Ref) : s.deaths.Sublist (s.collect o).deaths := by
  have grows : ∀ (l : List (WeakRecord P)) (s : State P),
      s.deaths.Sublist (l.foldl (fun s wcbi => s.report o wcbi) s).deaths := by
    intro l
    induction l with
    | nil => exact fun s => List.Sublist.refl _
    | cons wcbi l ih =>
      intro s
      exact List.Sublist.trans (List.sublist_cons_self _ s.deaths) (ih (s.report o wcbi))
  exact grows (reported s.reg o) { s with reg := clearCells s.reg o, dead := o :: s.dead }

/-- A run without reports never killed an object that had a handle. -/
theorem spares_of_no_deaths {s : State P} (h : Reachable (handles P) always s)
    (none : s.deaths = []) : Reachable (handles P) SparesSent s := by
  induction h with
  | start initial => exact .start initial
  | @next s t l before step _ ih =>
    cases step with
    | make => exact .next (ih none) (.make s) nofun
    | send x live nonnull free => exact .next (ih none) (.send x live nonnull free) nofun
    | reorder same => exact .next (ih none) (.reorder same) nofun
    | @collect o live =>
      have quiet : s.deaths = [] := List.sublist_nil.mp (none ▸ deaths_collect_mono s o)
      refine .next (ih quiet) (.collect live) ?_
      rintro _ ⟨⟩ p hp cell
      rcases (consistent before).reported_cases o with ⟨_, unsent⟩ | ⟨wcbi, hrec, _, one⟩
      · exact unsent p hp cell
      · have hmem := (consistent before).mem_of_record hrec
        have nonnull : wcbi.jso ≠ 0 := fun zero => (consistent before).nonnull (zero ▸ hmem)
        rw [collect_sent nonnull one] at none
        exact absurd none (List.cons_ne_nil _ _)

theorem no_deaths_of_spares {s : State P} (h : Reachable (handles P) SparesSent s) :
    s.deaths = [] := by
  apply h.invariant
  · rintro s rfl
    rfl
  · intro s l t before quiet step spared
    cases step with
    | make => exact quiet
    | send x live nonnull free => exact quiet
    | reorder same => exact quiet
    | @collect o live =>
      have hs := consistent before.unguarded
      rcases hs.reported_cases o with ⟨silent, _⟩ | ⟨wcbi, hrec, hcell, _⟩
      · rw [collect_unsent silent]
        exact quiet
      · exact absurd hcell (spared o rfl _ ((consistent before.unguarded).mem_of_record hrec))

theorem lifeCycle_of_no_deaths {s : State P} (h : Reachable (handles P) always s)
    (none : s.deaths = []) : LifeCycle s := by
  have c := consistent h
  have r := reports h
  refine ⟨r.reported, r.once, ?_, c.refers, ?_, wrapperOnce c, recordOnce c⟩
  · rw [none]
    nofun
  · exact fun p hp => c.wrappers.mem_iff.mpr hp

/-- The life cycle is as V8 demands in exactly the runs in which no object dies
that has a handle. -/
theorem lifeCycle_iff_spares {s : State P} (h : Reachable (handles P) always s) :
    LifeCycle s ↔ Reachable (handles P) SparesSent s := by
  constructor
  · intro cycle
    apply spares_of_no_deaths h
    apply List.eq_nil_iff_forall_not_mem.mpr
    intro d hd
    exact not_handled ((reports h).freed d hd) (cycle.handled d hd)
  · intro spared
    exact lifeCycle_of_no_deaths h (no_deaths_of_spares spared)

/-- One object is made and sent by the js object 1. -/
def oneSent : State .bits64 := State.send { State.start with born := 1 } 1 0 0x1000

theorem reachable_oneSent (ok : State .bits64 → Label .bits64 → Prop)
    (make : ok .start .make) (send : ok { State.start with born := 1 } (.send 1 0 0x1000)) :
    Reachable (handles .bits64) ok oneSent := by
  refine .next (.next (.start rfl) (.make _) make) (.send 1 ?_ ?_ ?_) send
  · decide
  · decide
  · exact List.not_mem_nil

/-- As long as it lives, its handle is as V8 demands. -/
theorem lifeCycle_oneSent : LifeCycle oneSent := by
  apply (lifeCycle_iff_spares (reachable_oneSent always trivial trivial)).mpr
  apply reachable_oneSent
  · rintro o ⟨⟩
  · rintro o ⟨⟩

/-- It is sent and then dies: the callback that runs resets nothing. -/
theorem not_lifeCycle_collected :
    Reachable (handles .bits64) always (oneSent.collect 0) ∧ ¬ LifeCycle (oneSent.collect 0) := by
  have sent : Reachable (handles .bits64) always oneSent := reachable_oneSent always trivial trivial
  have died : Reachable (handles .bits64) always (oneSent.collect 0) :=
    .next sent (.collect (by decide)) trivial
  refine ⟨died, fun cycle => ?_⟩
  obtain ⟨d, hd, _⟩ := cycle.reported 0x1000 0 (by decide) (by decide)
  exact not_handled ((reports died).freed d hd) (cycle.handled d hd)

end HandleLifeCycle
