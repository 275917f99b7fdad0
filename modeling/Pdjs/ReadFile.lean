import Pdjs.Loading
import Pdjs.ShortReads
import Mathlib.Data.List.TakeDrop

/-!
# Reading a script file

The size of the file is taken first and then as many bytes are read, in a loop that
ends when they are there or a read has failed. A file that has become shorter keeps the
loop going for ever. The size passes through a `long` before it is a `size_t`, and
through an `int` when the bytes are handed to V8, which makes no string of too many.
Memory is taken to suffice.
-/

namespace ReadFile

open PdAtoms TextEncoding ShortReads Loading

/-- The widths of `size_t` and `long` on the supported platforms. -/
inductive DataModel where
  | ilp32
  | lp64
  | llp64
  deriving DecidableEq

def DataModel.sizeBits : DataModel → Nat
  | .ilp32 => 32
  | .lp64 => 64
  | .llp64 => 64

def DataModel.longBits : DataModel → Nat
  | .ilp32 => 32
  | .lp64 => 64
  | .llp64 => 32

/-- A file that was opened: its size when that is asked for, and what the calls of
`fread` return from then on. -/
structure File where
  size : Nat
  reads : Nat → Answer UInt8

/-- A size that is no `long` is an error. -/
def ftell (M : DataModel) (size : Nat) : Int := if size < 2 ^ (M.longBits - 1) then size else -1

/-- The conversion of a `long` to `size_t`. -/
def toSize (M : DataModel) (n : Int) : Nat := (n % (2 ^ M.sizeBits : Nat)).toNat

/-- `static_cast<int>` of a `size_t`. -/
def toInt (n : Nat) : Int := (BitVec.ofNat 32 n).toInt

/-- `String::kMaxLength` -/
def kMaxLength : DataModel → Nat
  | .ilp32 => 2 ^ 28 - 16
  | .lp64 | .llp64 => 2 ^ 29 - 24

/-- What `js_readfile` does: nothing, a string made of some bytes, a write behind the
buffer, or V8 ends the process. -/
inductive Result where
  | empty
  | handed (data : List UInt8)
  | beyond
  | aborted
  deriving DecidableEq

/-- `NewFromUtf8` for a buffer that ends with a zero. It takes `length` bytes if there can be
a string of as many. A negative length stands for the bytes up to the first zero, which
must not be too many. -/
def newFromUtf8 (M : DataModel) (buffer : List UInt8) (length : Int) : Result :=
  if length < 0 then
    let text := buffer.takeWhile (· != 0)
    if text.length ≤ kMaxLength M then .handed text else .aborted
  else if length ≤ kMaxLength M then .handed (buffer.take length.toNat)
  else .empty

/-- The loop of `js_readfile`, with the number of calls of `fread` and the bytes in the
buffer so far; no bytes are returned after an error. -/
def readLoop (reads : Nat → Answer UInt8) (size : Nat) :
    Nat → Nat → List UInt8 → Option (Nat × Option (List UInt8))
  | 0, _, _ => none
  | fuel + 1, calls, chars =>
    if chars.length < size then
      match reads calls with
      | .failed => some (calls + 1, none)
      | answer => readLoop reads size fuel (calls + 1) (chars ++ answer.items)
    else
      some (calls, some chars)

structure Outcome where
  calls : Nat
  result : Result
  deriving DecidableEq

/-- `none` is a file that cannot be opened. -/
def jsReadfile (M : DataModel) (file : Option File) (fuel : Nat) : Option Outcome :=
  match file with
  | none => some ⟨0, .empty⟩
  | some file =>
    let size := toSize M (ftell M file.size)
    if size < (size + 1) % 2 ^ M.sizeBits then
      match readLoop file.reads size fuel 0 [] with
      | none => none
      | some (calls, none) => some ⟨calls, .empty⟩
      | some (calls, some chars) => some ⟨calls, newFromUtf8 M chars (toInt size)⟩
    else
      some ⟨0, .beyond⟩

variable {reads : Nat → Answer UInt8} {size : Nat}

/-- While chunks arrive the loop collects them. -/
theorem readLoop_flows (allowed : Allowed reads size) {k : Nat} (flows : Flows reads k)
    (within : (received reads k).length ≤ size) (fuel : Nat) :
    readLoop reads size (fuel + k) 0 [] = readLoop reads size fuel k (received reads k) := by
  induction k generalizing fuel with
  | zero => rfl
  | succ k ih =>
    obtain ⟨items, chunk⟩ := flows k (Nat.lt_succ_self k)
    have grows := length_received_lt allowed chunk
    have before := ih (flows.mono (Nat.le_succ k)) (by omega) (fuel + 1)
    have short : (received reads k).length < size := by omega
    rw [show fuel + (k + 1) = fuel + 1 + k by omega, before, readLoop, if_pos short]
    simp only [chunk, received_succ]

theorem readLoop_fails (allowed : Allowed reads size) {k : Nat} (fails : FailsAt reads size k)
    (fuel : Nat) : readLoop reads size (fuel + 1 + k) 0 [] = some (k + 1, none) := by
  obtain ⟨flows, short, answer⟩ := fails
  rw [readLoop_flows allowed flows (Nat.le_of_lt short), readLoop, if_pos short]
  simp only [answer]

theorem readLoop_completes (allowed : Allowed reads size) {k : Nat}
    (complete : CompleteAt reads size k) (fuel : Nat) :
    readLoop reads size (fuel + 1 + k) 0 [] = some (k, some (received reads k)) := by
  obtain ⟨flows, total⟩ := complete
  rw [readLoop_flows allowed flows (Nat.le_of_eq total), readLoop, if_neg (by omega)]

/-- At the end of the file the loop asks again and again. -/
theorem readLoop_ended (allowed : Allowed reads size) {k : Nat} (ends : EndsAt reads size k)
    (fuel n : Nat) :
    readLoop reads size fuel (k + n) (received reads (k + n)) = none := by
  obtain ⟨_, short, answer⟩ := ends
  induction fuel generalizing n with
  | zero => rfl
  | succ fuel ih =>
    obtain ⟨stays, same⟩ := ended_of_le allowed answer n
    have still : (received reads (k + n)).length < size := by
      rw [same]
      exact short
    rw [readLoop, if_pos still]
    simp only [stays]
    have later := ih (n + 1)
    rwa [← Nat.add_assoc, received_succ, stays] at later

/-- More fuel does not change what the loop returns. -/
theorem readLoop_mono {fuel calls : Nat} {chars : List UInt8} {result : Nat × Option (List UInt8)}
    (returns : readLoop reads size fuel calls chars = some result) (more : Nat) :
    readLoop reads size (fuel + more) calls chars = some result := by
  induction fuel generalizing calls chars with
  | zero => cases returns
  | succ fuel ih =>
    rw [show fuel + 1 + more = fuel + more + 1 by omega]
    rw [readLoop] at returns ⊢
    by_cases short : chars.length < size
    · rw [if_pos short] at returns ⊢
      cases answer : reads calls with
      | failed =>
        rw [answer] at returns
        exact returns
      | ended =>
        rw [answer] at returns
        exact ih returns
      | chunk items =>
        rw [answer] at returns
        exact ih returns
    · rw [if_neg short] at returns ⊢
      exact returns

theorem readLoop_ends (allowed : Allowed reads size) {k : Nat} (ends : EndsAt reads size k)
    (fuel : Nat) : readLoop reads size fuel 0 [] = none := by
  cases returns : readLoop reads size fuel 0 [] with
  | none => rfl
  | some result =>
    have stuck := readLoop_ended allowed ends fuel 0
    have same := readLoop_flows allowed ends.1 (Nat.le_of_lt ends.2.1) fuel
    rw [readLoop_mono returns k] at same
    exact absurd (same.trans stuck) (Option.some_ne_none _)

theorem sizeBits_longBits (M : DataModel) : M.longBits ≤ M.sizeBits ∧ 32 ≤ M.longBits := by
  cases M <;> decide

theorem toSize_ftell {M : DataModel} {size : Nat} (fits : size < 2 ^ (M.longBits - 1)) :
    toSize M (ftell M size) = size ∧ size + 1 < 2 ^ M.sizeBits := by
  obtain ⟨narrower, wide⟩ := sizeBits_longBits M
  have below : size < 2 ^ (M.sizeBits - 1) :=
    Nat.lt_of_lt_of_le fits (Nat.pow_le_pow_right (by decide) (by omega))
  have halves : 2 ^ M.sizeBits = 2 * 2 ^ (M.sizeBits - 1) := by
    rw [← Nat.pow_succ']
    congr 1
    omega
  have kept : (size : Int) % (2 ^ M.sizeBits : Nat) = size :=
    Int.emod_eq_of_lt (Int.natCast_nonneg size) (by omega)
  refine ⟨?_, by omega⟩
  rw [ftell, if_pos fits, toSize, kept, Int.toNat_natCast]

/-- The size of a file that is too large for a `long` becomes the largest `size_t`. -/
theorem toSize_ftell_large {M : DataModel} {size : Nat} (large : ¬ size < 2 ^ (M.longBits - 1)) :
    (toSize M (ftell M size) + 1) % 2 ^ M.sizeBits = 0 := by
  have largest : toSize M (-1) + 1 = 2 ^ M.sizeBits := by cases M <;> rfl
  rw [ftell, if_neg large, largest, Nat.mod_self]

theorem toInt_cases (n : Nat) :
    n % 2 ^ 32 < 2 ^ 31 ∧ toInt n = (n % 2 ^ 32 : Nat) ∨ 2 ^ 31 ≤ n % 2 ^ 32 ∧ toInt n < 0 := by
  have bound := Nat.mod_lt n (show 2 ^ 32 > 0 by decide)
  rw [toInt, BitVec.toInt_eq_toNat_cond, BitVec.toNat_ofNat]
  by_cases lower : 2 * (n % 2 ^ 32) < 2 ^ 32
  · rw [if_pos lower]
    omega
  · rw [if_neg lower]
    omega

theorem kMaxLength_lt (M : DataModel) : kMaxLength M < 2 ^ 31 := by
  cases M <;> decide

/-- V8 gets all the bytes exactly if there can be a string of as many. -/
theorem newFromUtf8_eq_iff (M : DataModel) (bytes : List UInt8) :
    newFromUtf8 M bytes (toInt bytes.length) = .handed bytes ↔
      bytes.length ≤ kMaxLength M := by
  have small := kMaxLength_lt M
  rw [newFromUtf8]
  rcases toInt_cases bytes.length with ⟨lower, value⟩ | ⟨upper, negative⟩
  · rw [value, if_neg (by omega), Int.toNat_natCast]
    by_cases fits : bytes.length % 2 ^ 32 ≤ kMaxLength M
    · rw [if_pos (Int.ofNat_le.mpr fits), Result.handed.injEq, List.take_eq_self_iff]
      omega
    · rw [if_neg fun le => fits (Int.ofNat_le.mp le)]
      constructor
      · exact fun handed => Result.noConfusion handed
      · intro le
        omega
  · rw [if_pos negative]
    constructor
    · intro handed
      by_cases short : (bytes.takeWhile (· != 0)).length ≤ kMaxLength M
      · rw [if_pos short, Result.handed.injEq] at handed
        rwa [handed] at short
      · rw [if_neg short] at handed
        cases handed
    · intro le
      omega

/-- Nothing is returned if the file cannot be opened or a read has failed, and otherwise
the string is made of the bytes that were read. -/
def Right (file : Option File) (outcome : Outcome) : Prop :=
  match file with
  | none => outcome.result = .empty
  | some file =>
    ((∃ j < outcome.calls, file.reads j = .failed) → outcome.result = .empty) ∧
      ((∀ j < outcome.calls, file.reads j ≠ .failed) →
        outcome.result = .handed (received file.reads outcome.calls))

def TotallyCorrect (M : DataModel) (file : Option File) : Prop :=
  ∃ outcome, (∃ enough, ∀ fuel, enough ≤ fuel → jsReadfile M file fuel = some outcome) ∧
    Right file outcome

/-- The size is a `long`, and a read fails or the file is as long as it was and there can be
a string of as many bytes. -/
def Manageable (M : DataModel) (file : File) : Prop :=
  file.size < 2 ^ (M.longBits - 1) ∧
    ((∃ k, FailsAt file.reads file.size k) ∨
      (∃ k, CompleteAt file.reads file.size k) ∧ file.size ≤ kMaxLength M)

variable {M : DataModel} {file : File}

theorem jsReadfile_fits (fits : file.size < 2 ^ (M.longBits - 1)) (fuel : Nat) :
    jsReadfile M (some file) fuel =
      (readLoop file.reads file.size fuel 0 []).map fun (calls, chars) =>
        ⟨calls, chars.elim .empty fun chars => newFromUtf8 M chars (toInt file.size)⟩ := by
  obtain ⟨size, room⟩ := toSize_ftell fits
  have inside : file.size < (file.size + 1) % 2 ^ M.sizeBits := by
    rw [Nat.mod_eq_of_lt room]
    exact Nat.lt_succ_self _
  simp only [jsReadfile, size]
  rw [if_pos inside]
  cases readLoop file.reads file.size fuel 0 [] with
  | none => rfl
  | some result =>
    obtain ⟨calls, chars⟩ := result
    cases chars <;> rfl

theorem jsReadfile_fails (fits : file.size < 2 ^ (M.longBits - 1))
    (allowed : Allowed file.reads file.size) {k : Nat} (fails : FailsAt file.reads file.size k)
    {fuel : Nat} (enough : k + 1 ≤ fuel) :
    jsReadfile M (some file) fuel = some ⟨k + 1, .empty⟩ := by
  obtain ⟨more, rfl⟩ : ∃ more, fuel = more + 1 + k := ⟨fuel - (k + 1), by omega⟩
  rw [jsReadfile_fits fits, readLoop_fails allowed fails]
  rfl

theorem jsReadfile_completes (fits : file.size < 2 ^ (M.longBits - 1))
    (allowed : Allowed file.reads file.size) {k : Nat}
    (complete : CompleteAt file.reads file.size k) {fuel : Nat} (enough : k + 1 ≤ fuel) :
    jsReadfile M (some file) fuel =
      some ⟨k, newFromUtf8 M (received file.reads k) (toInt file.size)⟩ := by
  obtain ⟨more, rfl⟩ : ∃ more, fuel = more + 1 + k := ⟨fuel - (k + 1), by omega⟩
  rw [jsReadfile_fits fits, readLoop_completes allowed complete]
  rfl

theorem jsReadfile_ends (fits : file.size < 2 ^ (M.longBits - 1))
    (allowed : Allowed file.reads file.size) {k : Nat} (ends : EndsAt file.reads file.size k)
    (fuel : Nat) : jsReadfile M (some file) fuel = none := by
  rw [jsReadfile_fits fits, readLoop_ends allowed ends]
  rfl

theorem jsReadfile_large (large : ¬ file.size < 2 ^ (M.longBits - 1)) (fuel : Nat) :
    jsReadfile M (some file) fuel = some ⟨0, .beyond⟩ := by
  simp only [jsReadfile]
  rw [toSize_ftell_large large, if_neg (Nat.not_lt_zero _)]

theorem not_failed_of_flows {k : Nat} (flows : Flows file.reads k) :
    ∀ j < k, file.reads j ≠ .failed := by
  intro j hj failed
  obtain ⟨items, chunk⟩ := flows j hj
  cases chunk.symm.trans failed

/-- A returned outcome is the only one. -/
theorem outcome_unique {M : DataModel} {file : Option File} {first second : Outcome} {k : Nat}
    (returns : ∀ fuel, k ≤ fuel → jsReadfile M file fuel = some first)
    (returns' : ∃ enough, ∀ fuel, enough ≤ fuel → jsReadfile M file fuel = some second) :
    second = first := by
  obtain ⟨enough, returns'⟩ := returns'
  have same := (returns' (enough + k) (by omega)).symm.trans (returns (enough + k) (by omega))
  exact Option.some.inj same

theorem manageable_of_totallyCorrect (allowed : Allowed file.reads file.size)
    (correct : TotallyCorrect M (some file)) : Manageable M file := by
  obtain ⟨outcome, returns, right⟩ := correct
  by_cases fits : file.size < 2 ^ (M.longBits - 1)
  · refine ⟨fits, ?_⟩
    rcases fails_ends_or_completes allowed with fails | ⟨k, ends⟩ | ⟨k, complete⟩
    · exact .inl fails
    · obtain ⟨enough, returns⟩ := returns
      exact absurd ((jsReadfile_ends fits allowed ends enough).symm.trans
        (returns enough (Nat.le_refl enough))) (Option.some_ne_none outcome).symm
    · have same := outcome_unique
        (fun fuel enough => jsReadfile_completes fits allowed complete enough) returns
      subst same
      have handed := right.2 (not_failed_of_flows complete.1)
      rw [← complete.2] at handed
      exact .inr ⟨⟨k, complete⟩, complete.2 ▸ (newFromUtf8_eq_iff M _).mp handed⟩
  · have same := outcome_unique (fun fuel (_ : 0 ≤ fuel) => jsReadfile_large fits fuel) returns
    subst same
    exact absurd (right.2 fun j hj => absurd hj (Nat.not_lt_zero j)) Result.noConfusion

theorem totallyCorrect_of_manageable (allowed : Allowed file.reads file.size)
    (manageable : Manageable M file) : TotallyCorrect M (some file) := by
  obtain ⟨fits, ⟨k, fails⟩ | ⟨⟨k, complete⟩, small⟩⟩ := manageable
  · refine ⟨_, ⟨k + 1, fun fuel enough => jsReadfile_fails fits allowed fails enough⟩,
      fun _ => rfl, fun never => ?_⟩
    exact absurd fails.2.2 (never k (Nat.lt_succ_self k))
  · refine ⟨_, ⟨k + 1, fun fuel enough => jsReadfile_completes fits allowed complete enough⟩,
      ?_, fun _ => ?_⟩
    · rintro ⟨j, hj, failed⟩
      exact absurd failed (not_failed_of_flows complete.1 j hj)
    · rw [← complete.2] at small ⊢
      exact (newFromUtf8_eq_iff M _).mpr small

/-- For every file, and whatever `fread` returns for it, `js_readfile` is totally correct
exactly if the file is manageable. -/
theorem totallyCorrect_iff (M : DataModel) (file : Option File)
    (allowed : ∀ f, file = some f → Allowed f.reads f.size) :
    TotallyCorrect M file ↔ ∀ f, file = some f → Manageable M f := by
  cases file with
  | none => exact ⟨fun _ f missing => absurd missing (Option.some_ne_none f).symm,
      fun _ => ⟨_, ⟨0, fun _ _ => rfl⟩, rfl⟩⟩
  | some file =>
    have here := allowed file rfl
    constructor
    · rintro correct f ⟨⟩
      exact manageable_of_totallyCorrect here correct
    · exact fun manageable => totallyCorrect_of_manageable here (manageable file rfl)

/-- A file of 8192 spaces that is cut off after the first 4096 while it is read. -/
def shortened : File where
  size := 8192
  reads
    | 0 => .chunk (List.replicate 4096 32)
    | _ => .ended

theorem received_shortened (k : Nat) :
    received shortened.reads (k + 1) = List.replicate 4096 32 := by
  induction k with
  | zero => exact List.nil_append _
  | succ k ih =>
    rw [received_succ, ih]
    exact List.append_nil _

theorem length_received_shortened (k : Nat) : (received shortened.reads k).length ≤ 4096 := by
  cases k with
  | zero => exact Nat.zero_le _
  | succ k => rw [received_shortened, List.length_replicate]

theorem allowed_shortened : Allowed shortened.reads shortened.size := by
  refine ⟨?_, ?_, ?_⟩
  · rintro (_ | k) items chunk
    · cases chunk
      exact List.ne_nil_of_length_pos (List.length_replicate ▸ Nat.zero_lt_succ _)
    · cases chunk
  · intro k _
    exact Nat.le_trans (length_received_shortened (k + 1)) (by decide)
  · rintro (_ | k) ended
    · cases ended
    · rfl

/-- The reads of the file neither fail nor deliver all of it. -/
theorem totallyCorrect_iff_shortened : ¬ TotallyCorrect .lp64 (some shortened) := by
  rw [totallyCorrect_iff .lp64 (some shortened)
    fun f same => Option.some.inj same ▸ allowed_shortened]
  intro manageable
  rcases (manageable shortened rfl).2 with ⟨_ | k, _, _, failed⟩ | ⟨⟨k, _, total⟩, _⟩
  · cases failed
  · cases failed
  · have short := length_received_shortened k
    rw [total] at short
    exact absurd short (by decide)

/-- For that file the loop never ends. -/
theorem not_totallyCorrect_shortened :
    Allowed shortened.reads shortened.size ∧
      (∀ fuel, jsReadfile .lp64 (some shortened) fuel = none) ∧
      ¬ TotallyCorrect .lp64 (some shortened) := by
  have ends : EndsAt shortened.reads shortened.size 1 := by
    refine ⟨?_, ?_, rfl⟩
    · intro j hj
      obtain rfl : j = 0 := Nat.lt_one_iff.mp hj
      exact ⟨_, rfl⟩
    · exact Nat.lt_of_le_of_lt (length_received_shortened 1) (by decide)
  have never := jsReadfile_ends (M := .lp64) (by decide) allowed_shortened ends
  refine ⟨allowed_shortened, never, ?_⟩
  rintro ⟨outcome, ⟨enough, returns⟩, _⟩
  cases (never enough).symm.trans (returns enough (Nat.le_refl enough))

/-- What is read of a manageable file is what a load takes for its contents. -/
theorem jsReadfile_contents {files : Files} {name : CString} {k : Nat}
    (allowed : Allowed file.reads file.size) (complete : CompleteAt file.reads file.size k)
    (small : file.size ≤ kMaxLength M)
    (contents : files.contents name = some (received file.reads k)) :
    ∃ data, (∀ fuel, k + 1 ≤ fuel → jsReadfile M (some file) fuel = some ⟨k, .handed data⟩) ∧
      Loading.jsReadfile files name = some (decodeUtf8 data) := by
  refine ⟨received file.reads k, ?_, by rw [Loading.jsReadfile, contents, Option.map_some]⟩
  have fits : file.size < 2 ^ (M.longBits - 1) := by
    have wide := (sizeBits_longBits M).2
    have room := Nat.pow_le_pow_right (show 0 < 2 by decide) (show 31 ≤ M.longBits - 1 by omega)
    have bound := kMaxLength_lt M
    omega
  intro fuel enough
  have whole := (newFromUtf8_eq_iff M (received file.reads k)).mpr (complete.2 ▸ small)
  rw [jsReadfile_completes fits allowed complete enough, ← complete.2, whole]

end ReadFile
