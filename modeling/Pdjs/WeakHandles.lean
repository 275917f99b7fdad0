import Pdjs.GuardedRuns
import Pdjs.ObjectRegistry
import Mathlib.Data.List.Nodup

/-!
# Sends and collections

Runs in which JavaScript objects are made, sent and collected. The allocator may
answer a `new` with any address that is not allocated, the set may be iterated in
any order at any time, and any object that is still alive may be found dead by
the garbage collector, sent or not. A dead object is reported by clearing the
cells that refer to it and running the callback of every armed handle among
them; a collection that finds several dead objects is several such steps.

A String object is sent as its text and does not get here.
-/

namespace WeakHandles

open GuardedRuns PdAtoms ObjectRegistry

/-- One call of the weak callback: the object found dead, the record passed to
the callback, the registry at its start and what it did. -/
structure Death (P : Platform) where
  object : Ref
  record : WeakRecord P
  before : Registry P
  ops : List (HandleOp P)

/-- Objects are numbered as they are made. `encoded` are the addresses returned
by `js_unmarshal_string` so far, with the objects they were returned for, and
`history` is everything done to handles, the latest first. -/
structure State (P : Platform) where
  reg : Registry P
  born : Nat
  dead : List Ref
  encoded : List (Addr P × Ref)
  deaths : List (Death P)
  history : List (HandleOp P)

inductive Label (P : Platform) where
  | make
  | send (x : ObjId) (o : Ref) (new : Addr P)
  | collect (o : Ref)
  | reorder (order : List (Addr P))

variable {P : Platform}

def State.start : State P := ⟨.empty, 0, [], [], [], []⟩

def State.Live (s : State P) (o : Ref) : Prop := o < s.born ∧ o ∉ s.dead

instance (s : State P) (o : Ref) : Decidable (s.Live o) := inferInstanceAs (Decidable (_ ∧ _))

def State.send (s : State P) (x : ObjId) (o : Ref) (new : Addr P) : State P :=
  let (jso, reg) := jsUnmarshalObject x o new s.reg
  { s with
    reg := reg
    encoded := (jso, o) :: s.encoded
    history := (if s.reg.find o = none then (registration x o new).reverse else []) ++ s.history }

/-- The handles whose callback a collection of the object triggers. -/
def reported (r : Registry P) (o : Ref) : List (WeakRecord P) :=
  r.armed.filter (fun wcbi => r.cell wcbi.jso = some o)

/-- What the collector does by itself before it runs the callbacks. -/
def clearCells (r : Registry P) (o : Ref) : Registry P :=
  { r with
    cell := fun p => if r.cell p = some o then none else r.cell p
    armed := r.armed.filter (fun wcbi => r.cell wcbi.jso ≠ some o) }

def State.report (s : State P) (o : Ref) (wcbi : WeakRecord P) : State P :=
  { s with
    reg := s.reg.run (weakCallback wcbi)
    deaths := ⟨o, wcbi, s.reg, weakCallback wcbi⟩ :: s.deaths
    history := (weakCallback wcbi).reverse ++ s.history }

def State.collect (s : State P) (o : Ref) : State P :=
  (reported s.reg o).foldl (fun s wcbi => s.report o wcbi)
    { s with reg := clearCells s.reg o, dead := o :: s.dead }

inductive Step : State P → Label P → State P → Prop where
  | make (s : State P) : Step s .make { s with born := s.born + 1 }
  | send {s : State P} {o : Ref} {new : Addr P} (x : ObjId) (live : s.Live o) (nonnull : new ≠ 0)
      (free : new ∉ s.reg.wrappers) : Step s (.send x o new) (s.send x o new)
  | collect {s : State P} {o : Ref} (live : s.Live o) : Step s (.collect o) (s.collect o)
  | reorder {s : State P} {order : List (Addr P)} (same : order.Perm s.reg.jsobjects) :
      Step s (.reorder order) { s with reg := { s.reg with jsobjects := order } }

def handles (P : Platform) : System (State P) (Label P) := ⟨fun s => s = .start, Step⟩

def makes (jso : Addr P) : HandleOp P → Bool
  | .newPersistent q _ => q = jso
  | _ => false

/-- Between two steps the four collections describe the same handles, each to an
object of its own that is alive. The last two fields balance what was allocated
against what was freed. -/
structure Consistent (s : State P) : Prop where
  nodup : s.reg.jsobjects.Nodup
  nonnull : 0 ∉ s.reg.jsobjects
  wrappers : s.reg.wrappers.Perm s.reg.jsobjects
  records : (s.reg.records.map WeakRecord.jso).Perm s.reg.jsobjects
  armed : s.reg.armed.Perm s.reg.records
  refers : ∀ p ∈ s.reg.jsobjects, ∃ o, s.reg.cell p = some o ∧ s.Live o
  single : ∀ p ∈ s.reg.jsobjects, ∀ q ∈ s.reg.jsobjects, s.reg.cell p = s.reg.cell q → p = q
  known : ∀ p o, (p, o) ∈ s.encoded → o < s.born
  kept : ∀ p o, (p, o) ∈ s.encoded → s.Live o → s.reg.Holds p o
  wrapperBalance : ∀ p, s.history.countP (makes p) =
    s.history.count (.deletePersistent p) + s.reg.wrappers.count p
  recordBalance : ∀ wcbi, s.history.count (.newRecord wcbi) =
    s.history.count (.deleteRecord wcbi) + s.reg.records.count wcbi

theorem consistent_start : Consistent (.start : State P) := by
  constructor <;> simp [State.start, Registry.empty]

theorem consistent_make {s : State P} (h : Consistent s) :
    Consistent { s with born := s.born + 1 } := by
  refine { h with refers := ?_, known := ?_, kept := ?_ }
  · intro p hp
    obtain ⟨o, ho, live⟩ := h.refers p hp
    exact ⟨o, ho, Nat.lt_succ_of_lt live.1, live.2⟩
  · intro p o sent
    exact Nat.lt_succ_of_lt (h.known p o sent)
  · intro p o sent live
    exact h.kept p o sent ⟨h.known p o sent, live.2⟩

theorem consistent_reorder {s : State P} {order : List (Addr P)} (h : Consistent s)
    (same : order.Perm s.reg.jsobjects) :
    Consistent { s with reg := { s.reg with jsobjects := order } } where
  nodup := same.nodup_iff.mpr h.nodup
  nonnull := fun zero => h.nonnull (same.mem_iff.mp zero)
  wrappers := h.wrappers.trans same.symm
  records := h.records.trans same.symm
  armed := h.armed
  refers := fun p hp => h.refers p (same.mem_iff.mp hp)
  single := fun p hp q hq => h.single p (same.mem_iff.mp hp) q (same.mem_iff.mp hq)
  known := h.known
  kept := fun p o sent live =>
    have held := h.kept p o sent live
    ⟨same.mem_iff.mpr held.1, held.2⟩
  wrapperBalance := h.wrapperBalance
  recordBalance := h.recordBalance

theorem Consistent.nodup_records {s : State P} (h : Consistent s) : s.reg.records.Nodup :=
  List.Nodup.of_map _ (h.records.nodup_iff.mpr h.nodup)

theorem Consistent.mem_of_record {s : State P} (h : Consistent s) {wcbi : WeakRecord P}
    (hw : wcbi ∈ s.reg.records) : wcbi.jso ∈ s.reg.jsobjects :=
  h.records.mem_iff.mp (List.mem_map_of_mem hw)

/-- A live object has at most one handle, and the scan finds it. -/
theorem Consistent.find_eq {s : State P} (h : Consistent s) {p : Addr P} {o : Ref}
    (held : s.reg.Holds p o) : s.reg.find o = some p := by
  cases hf : s.reg.find o with
  | none => exact absurd held (find_none.mp hf p)
  | some q =>
    have found := find_some hf
    rw [h.single q found.1 p held.1 (found.2.trans held.2.symm)]

theorem Consistent.fresh {s : State P} (h : Consistent s) {new : Addr P}
    (free : new ∉ s.reg.wrappers) : new ∉ s.reg.jsobjects :=
  fun hn => free (h.wrappers.mem_iff.mpr hn)

theorem send_known {s : State P} {o : Ref} {p : Addr P} (hf : s.reg.find o = some p) (x : ObjId)
    (new : Addr P) : s.send x o new = { s with encoded := (p, o) :: s.encoded } := by
  simp [State.send, jsUnmarshalObject, hf]

theorem send_fresh {s : State P} {o : Ref} (hf : s.reg.find o = none) (x : ObjId) {new : Addr P}
    (fresh : new ∉ s.reg.jsobjects) :
    s.send x o new =
      { s with
        reg :=
          { jsobjects := new :: s.reg.jsobjects
            wrappers := new :: s.reg.wrappers
            cell := Function.update s.reg.cell new (some o)
            records := ⟨x, new⟩ :: s.reg.records
            armed := ⟨x, new⟩ :: s.reg.armed }
        encoded := (new, o) :: s.encoded
        history := (registration x o new).reverse ++ s.history } := by
  simp [State.send, jsUnmarshalObject, hf, run_registration x o fresh]

theorem Consistent.known_cons {s : State P} (h : Consistent s) {p : Addr P} {o : Ref}
    (live : s.Live o) : ∀ q o', (q, o') ∈ (p, o) :: s.encoded → o' < s.born := by
  intro q o' sent
  rcases List.mem_cons.mp sent with heq | earlier
  · cases heq
    exact live.1
  · exact h.known q o' earlier

theorem consistent_send_known {s : State P} (h : Consistent s) {o : Ref} {p : Addr P}
    (hf : s.reg.find o = some p) (x : ObjId) (new : Addr P) (live : s.Live o) :
    Consistent (s.send x o new) := by
  rw [send_known hf]
  refine { h with known := h.known_cons live, kept := ?_ }
  intro q o' sent live'
  rcases List.mem_cons.mp sent with heq | earlier
  · cases heq
    exact find_some hf
  · exact h.kept q o' earlier live'

/-- A registration allocates one wrapper and one record and frees nothing. -/
theorem countP_makes_registration (x : ObjId) (o : Ref) (new p : Addr P) :
    (registration x o new).reverse.countP (makes p) = if new = p then 1 else 0 := by
  simp [registration, makes, List.countP_cons]

theorem count_newRecord_registration (x : ObjId) (o : Ref) (new : Addr P) (wcbi : WeakRecord P) :
    (registration x o new).reverse.count (.newRecord wcbi) =
      if WeakRecord.mk x new = wcbi then 1 else 0 := by
  simp [registration, List.count_cons]

theorem count_deletePersistent_registration (x : ObjId) (o : Ref) (new p : Addr P) :
    (registration x o new).reverse.count (.deletePersistent p) = 0 := by
  simp [registration]

theorem count_deleteRecord_registration (x : ObjId) (o : Ref) (new : Addr P)
    (wcbi : WeakRecord P) : (registration x o new).reverse.count (.deleteRecord wcbi) = 0 := by
  simp [registration]

theorem consistent_send_fresh {s : State P} (h : Consistent s) {o : Ref}
    (hf : s.reg.find o = none) {new : Addr P} (x : ObjId) (live : s.Live o) (nonnull : new ≠ 0)
    (free : new ∉ s.reg.wrappers) : Consistent (s.send x o new) := by
  have fresh := h.fresh free
  have apart : ∀ {p}, p ∈ s.reg.jsobjects → p ≠ new := fun hp heq => fresh (heq ▸ hp)
  have unsent := find_none.mp hf
  rw [send_fresh hf x fresh]
  refine
    { nodup := List.nodup_cons.mpr ⟨fresh, h.nodup⟩
      nonnull := ?_
      wrappers := h.wrappers.cons new
      records := h.records.cons new
      armed := h.armed.cons _
      refers := ?_
      single := ?_
      known := h.known_cons live
      kept := ?_
      wrapperBalance := ?_
      recordBalance := ?_ }
  · intro zero
    rcases List.mem_cons.mp zero with heq | older
    · exact nonnull heq.symm
    · exact h.nonnull older
  · intro p hp
    rcases List.mem_cons.mp hp with rfl | older
    · exact ⟨o, by simp, live⟩
    · obtain ⟨o', ho', live'⟩ := h.refers p older
      exact ⟨o', (Function.update_of_ne (apart older) ..).trans ho', live'⟩
  · intro p hp q hq same
    rcases List.mem_cons.mp hp with rfl | olderp <;> rcases List.mem_cons.mp hq with rfl | olderq
    · rfl
    · simp only [Function.update_self, Function.update_of_ne (apart olderq)] at same
      exact absurd ⟨olderq, same.symm⟩ (unsent q)
    · simp only [Function.update_self, Function.update_of_ne (apart olderp)] at same
      exact absurd ⟨olderp, same⟩ (unsent p)
    · simp only [Function.update_of_ne (apart olderp),
        Function.update_of_ne (apart olderq)] at same
      exact h.single p olderp q olderq same
  · intro q o' sent live'
    rcases List.mem_cons.mp sent with heq | earlier
    · cases heq
      exact ⟨List.mem_cons_self, by simp⟩
    · have held := h.kept q o' earlier live'
      exact ⟨List.mem_cons_of_mem _ held.1, by
        simpa [Function.update_of_ne (apart held.1)] using held.2⟩
  · intro p
    have balance := h.wrapperBalance p
    simp only [List.countP_append, List.count_append, List.count_cons, beq_iff_eq,
      countP_makes_registration, count_deletePersistent_registration]
    omega
  · intro wcbi
    have balance := h.recordBalance wcbi
    simp only [List.count_append, List.count_cons, beq_iff_eq, count_newRecord_registration,
      count_deleteRecord_registration]
    omega

theorem consistent_send {s : State P} (h : Consistent s) {o : Ref} {new : Addr P} (x : ObjId)
    (live : s.Live o) (nonnull : new ≠ 0) (free : new ∉ s.reg.wrappers) :
    Consistent (s.send x o new) := by
  cases hf : s.reg.find o with
  | some p => exact consistent_send_known h hf x new live
  | none => exact consistent_send_fresh h hf x live nonnull free

theorem weakCallback_of_ne {wcbi : WeakRecord P} (nonnull : wcbi.jso ≠ 0) :
    weakCallback wcbi = [.erase wcbi.jso, .deletePersistent wcbi.jso, .deleteRecord wcbi] := by
  rw [weakCallback, if_pos nonnull]
  rfl

/-- The callback allocates nothing and frees the wrapper and the record of its handle. -/
theorem countP_makes_weakCallback {wcbi : WeakRecord P} (nonnull : wcbi.jso ≠ 0) (p : Addr P) :
    (weakCallback wcbi).reverse.countP (makes p) = 0 := by
  simp [weakCallback_of_ne nonnull, makes]

theorem count_newRecord_weakCallback {wcbi : WeakRecord P} (nonnull : wcbi.jso ≠ 0)
    (other : WeakRecord P) : (weakCallback wcbi).reverse.count (.newRecord other) = 0 := by
  simp [weakCallback_of_ne nonnull]

theorem count_deletePersistent_weakCallback {wcbi : WeakRecord P} (nonnull : wcbi.jso ≠ 0)
    (p : Addr P) : (weakCallback wcbi).reverse.count (.deletePersistent p) =
      if wcbi.jso = p then 1 else 0 := by
  simp [weakCallback_of_ne nonnull, List.count_cons]

theorem count_deleteRecord_weakCallback {wcbi : WeakRecord P} (nonnull : wcbi.jso ≠ 0)
    (other : WeakRecord P) : (weakCallback wcbi).reverse.count (.deleteRecord other) =
      if wcbi = other then 1 else 0 := by
  simp [weakCallback_of_ne nonnull, List.count_cons]

/-- The registry after the callback of a handle whose address is not null. -/
theorem run_weakCallback {wcbi : WeakRecord P} (nonnull : wcbi.jso ≠ 0) (r : Registry P) :
    r.run (weakCallback wcbi) =
      { r with
        jsobjects := r.jsobjects.erase wcbi.jso
        wrappers := r.wrappers.erase wcbi.jso
        records := r.records.erase wcbi } := by
  simp [Registry.run, weakCallback_of_ne nonnull, HandleOp.apply]

/-- A death is reported to the one handle of the object, if it was ever sent. -/
theorem Consistent.reported_cases {s : State P} (h : Consistent s) (o : Ref) :
    (reported s.reg o = [] ∧ ∀ p ∈ s.reg.jsobjects, s.reg.cell p ≠ some o) ∨
      ∃ wcbi ∈ s.reg.records, s.reg.cell wcbi.jso = some o ∧ reported s.reg o = [wcbi] := by
  have mem : ∀ wcbi, wcbi ∈ reported s.reg o ↔
      wcbi ∈ s.reg.records ∧ s.reg.cell wcbi.jso = some o := by
    simp [reported, h.armed.mem_iff]
  have nodup : (reported s.reg o).Nodup := (h.armed.nodup_iff.mpr h.nodup_records).filter _
  have same : ∀ a ∈ reported s.reg o, ∀ b ∈ reported s.reg o, a = b := by
    intro a ha b hb
    obtain ⟨reca, cella⟩ := (mem a).mp ha
    obtain ⟨recb, cellb⟩ := (mem b).mp hb
    have jso := h.single _ (h.mem_of_record reca) _ (h.mem_of_record recb) (cella.trans cellb.symm)
    exact List.inj_on_of_nodup_map (h.records.nodup_iff.mpr h.nodup) reca recb jso
  cases found : reported s.reg o with
  | nil =>
    refine .inl ⟨rfl, ?_⟩
    intro p hp cell
    obtain ⟨wcbi, hw, rfl⟩ := List.mem_map.mp (h.records.mem_iff.mpr hp)
    exact absurd ((mem wcbi).mpr ⟨hw, cell⟩) (by simp [found])
  | cons wcbi rest =>
    rw [found] at mem nodup same
    obtain ⟨hrec, hcell⟩ := (mem wcbi).mp List.mem_cons_self
    refine .inr ⟨wcbi, hrec, hcell, ?_⟩
    cases rest with
    | nil => rfl
    | cons other _ =>
      have heq := same wcbi (by simp) other (by simp)
      simp [heq] at nodup

theorem collect_unsent {s : State P} {o : Ref} (silent : reported s.reg o = []) :
    s.collect o = { s with reg := clearCells s.reg o, dead := o :: s.dead } := by
  simp [State.collect, silent]

theorem collect_sent {s : State P} {o : Ref} {wcbi : WeakRecord P} (nonnull : wcbi.jso ≠ 0)
    (one : reported s.reg o = [wcbi]) :
    s.collect o =
      { s with
        reg :=
          { jsobjects := s.reg.jsobjects.erase wcbi.jso
            wrappers := s.reg.wrappers.erase wcbi.jso
            cell := (clearCells s.reg o).cell
            records := s.reg.records.erase wcbi
            armed := (clearCells s.reg o).armed }
        dead := o :: s.dead
        deaths := ⟨o, wcbi, clearCells s.reg o, weakCallback wcbi⟩ :: s.deaths
        history := (weakCallback wcbi).reverse ++ s.history } := by
  simp [State.collect, State.report, one, run_weakCallback nonnull, clearCells]

theorem clearCells_cell {r : Registry P} {o : Ref} {p : Addr P} (other : r.cell p ≠ some o) :
    (clearCells r o).cell p = r.cell p := by
  simp [clearCells, other]

theorem live_dead_cons {s : State P} {o o' : Ref} :
    (o' < s.born ∧ o' ∉ o :: s.dead) ↔ s.Live o' ∧ o' ≠ o := by
  simp only [State.Live, List.mem_cons, not_or]
  tauto

theorem consistent_collect_unsent {s : State P} (h : Consistent s) {o : Ref}
    (silent : reported s.reg o = []) (unsent : ∀ p ∈ s.reg.jsobjects, s.reg.cell p ≠ some o) :
    Consistent (s.collect o) := by
  rw [collect_unsent silent]
  have same : ∀ {p}, p ∈ s.reg.jsobjects → (clearCells s.reg o).cell p = s.reg.cell p :=
    fun hp => clearCells_cell (unsent _ hp)
  refine { h with armed := ?_, refers := ?_, single := ?_, kept := ?_ }
  · have all : (clearCells s.reg o).armed = s.reg.armed := by
      apply List.filter_eq_self.mpr
      intro wcbi hw
      simpa using unsent _ (h.mem_of_record (h.armed.mem_iff.mp hw))
    exact (List.Perm.of_eq all).trans h.armed
  · intro p hp
    obtain ⟨o', ho', live⟩ := h.refers p hp
    have other : o' ≠ o := fun heq => unsent p hp (heq ▸ ho')
    exact ⟨o', (same hp).trans ho', live_dead_cons.mpr ⟨live, other⟩⟩
  · intro p hp q hq heq
    exact h.single p hp q hq ((same hp).symm.trans (heq.trans (same hq)))
  · intro p o' sent live
    have held := h.kept p o' sent ((live_dead_cons (s := s)).mp live).1
    exact ⟨held.1, (same held.1).trans held.2⟩

/-- What a collection leaves armed, when one handle was reported, are the other records. -/
theorem Consistent.armed_collect {s : State P} (h : Consistent s) {o : Ref} {wcbi : WeakRecord P}
    (hrec : wcbi ∈ s.reg.records) (hcell : s.reg.cell wcbi.jso = some o) :
    (clearCells s.reg o).armed.Perm (s.reg.records.erase wcbi) := by
  have nodup := h.nodup_records
  apply (List.perm_ext_iff_of_nodup ((h.armed.nodup_iff.mpr nodup).filter _)
    (nodup.erase _)).mpr
  intro other
  rw [List.mem_filter, h.armed.mem_iff, nodup.mem_erase_iff]
  constructor
  · rintro ⟨hother, cell⟩
    refine ⟨?_, hother⟩
    rintro rfl
    simp [hcell] at cell
  · rintro ⟨hne, hother⟩
    refine ⟨hother, ?_⟩
    have elsewhere : s.reg.cell other.jso ≠ some o := by
      intro cell
      have jso := h.single _ (h.mem_of_record hother) _ (h.mem_of_record hrec)
        (cell.trans hcell.symm)
      exact hne (List.inj_on_of_nodup_map (h.records.nodup_iff.mpr h.nodup) hother hrec jso)
    simpa using elsewhere

theorem consistent_collect_sent {s : State P} (h : Consistent s) {o : Ref} {wcbi : WeakRecord P}
    (hrec : wcbi ∈ s.reg.records) (hcell : s.reg.cell wcbi.jso = some o)
    (one : reported s.reg o = [wcbi]) : Consistent (s.collect o) := by
  have hmem := h.mem_of_record hrec
  have nonnull : wcbi.jso ≠ 0 := fun zero => h.nonnull (zero ▸ hmem)
  have rest : ∀ {p}, p ∈ s.reg.jsobjects.erase wcbi.jso →
      p ∈ s.reg.jsobjects ∧ s.reg.cell p ≠ some o := by
    intro p hp
    obtain ⟨other, hp⟩ := h.nodup.mem_erase_iff.mp hp
    exact ⟨hp, fun cell => other (h.single p hp _ hmem (cell.trans hcell.symm))⟩
  have same : ∀ {p}, p ∈ s.reg.jsobjects.erase wcbi.jso →
      (clearCells s.reg o).cell p = s.reg.cell p :=
    fun hp => clearCells_cell (rest hp).2
  rw [collect_sent nonnull one]
  refine
    { nodup := h.nodup.erase _
      nonnull := fun zero => h.nonnull (rest zero).1
      wrappers := h.wrappers.erase _
      records := ?_
      armed := h.armed_collect hrec hcell
      refers := ?_
      single := ?_
      known := h.known
      kept := ?_
      wrapperBalance := ?_
      recordBalance := ?_ }
  · have split := (List.perm_cons_erase hrec).map WeakRecord.jso
    exact (split.symm.trans (h.records.trans (List.perm_cons_erase hmem))).cons_inv
  · intro p hp
    obtain ⟨o', ho', live⟩ := h.refers p (rest hp).1
    have other : o' ≠ o := fun heq => (rest hp).2 (heq ▸ ho')
    exact ⟨o', (same hp).trans ho', live_dead_cons.mpr ⟨live, other⟩⟩
  · intro p hp q hq heq
    exact h.single p (rest hp).1 q (rest hq).1 ((same hp).symm.trans (heq.trans (same hq)))
  · intro p o' sent live
    obtain ⟨live, other⟩ := (live_dead_cons (s := s)).mp live
    have held := h.kept p o' sent live
    have hp : p ∈ s.reg.jsobjects.erase wcbi.jso := by
      refine h.nodup.mem_erase_iff.mpr ⟨?_, held.1⟩
      rintro rfl
      exact other (Option.some.inj (held.2.symm.trans hcell))
    exact ⟨hp, (same hp).trans held.2⟩
  · intro p
    have balance := h.wrapperBalance p
    have allocated : 0 < s.reg.wrappers.count wcbi.jso :=
      List.count_pos_iff.mpr (h.wrappers.mem_iff.mpr hmem)
    simp only [List.countP_append, List.count_append, List.count_erase, beq_iff_eq,
      countP_makes_weakCallback nonnull, count_deletePersistent_weakCallback nonnull]
    by_cases hp : wcbi.jso = p
    · subst hp
      simp only [if_true]
      omega
    · simp only [hp, if_false]
      omega
  · intro other
    have balance := h.recordBalance other
    have allocated : 0 < s.reg.records.count wcbi := List.count_pos_iff.mpr hrec
    simp only [List.count_append, List.count_erase, beq_iff_eq,
      count_newRecord_weakCallback nonnull, count_deleteRecord_weakCallback nonnull]
    by_cases hw : wcbi = other
    · subst hw
      simp only [if_true]
      omega
    · simp only [hw, if_false]
      omega

theorem consistent_collect {s : State P} (h : Consistent s) (o : Ref) :
    Consistent (s.collect o) := by
  rcases h.reported_cases o with ⟨silent, unsent⟩ | ⟨wcbi, hrec, hcell, one⟩
  · exact consistent_collect_unsent h silent unsent
  · exact consistent_collect_sent h hrec hcell one

theorem consistent_step {s t : State P} {l : Label P} (h : Consistent s) (step : Step s l t) :
    Consistent t := by
  cases step with
  | make => exact consistent_make h
  | send x live nonnull free => exact consistent_send h x live nonnull free
  | collect live => exact consistent_collect h _
  | reorder same => exact consistent_reorder h same

theorem consistent {s : State P} (h : Reachable (handles P) always s) : Consistent s := by
  apply h.invariant
  · rintro s rfl
    exact consistent_start
  · intro s l t _ hs step _
    exact consistent_step hs step

end WeakHandles
