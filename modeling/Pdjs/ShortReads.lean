import Mathlib.Data.List.Basic

/-!
# Streams of short reads

A stream answers every request with a non-empty chunk that is no longer than what was
asked for, with its end, or with an error. Someone who wants a fixed number of items
asks until there are as many. The answers up to the first one that is no chunk decide
how that goes: the stream fails, it ends early, or it delivers everything.
-/

namespace ShortReads

universe u

variable {α : Type u}

inductive Answer (α : Type u) where
  | chunk (items : List α)
  | ended
  | failed

def Answer.items : Answer α → List α
  | .chunk items => items
  | .ended => []
  | .failed => []

/-- What the first `k` answers deliver. -/
def received (answers : Nat → Answer α) : Nat → List α
  | 0 => []
  | k + 1 => received answers k ++ (answers k).items

/-- The answers that a reader of `size` items can get. -/
structure Allowed (answers : Nat → Answer α) (size : Nat) : Prop where
  nonempty : ∀ k items, answers k = .chunk items → items ≠ []
  bounded : ∀ k, (received answers k).length < size → (received answers (k + 1)).length ≤ size
  final : ∀ k, answers k = .ended → answers (k + 1) = .ended

/-- The first `k` answers are chunks. -/
def Flows (answers : Nat → Answer α) (k : Nat) : Prop :=
  ∀ j < k, ∃ items, answers j = .chunk items

/-- The answer after the first `k` chunks is the end, with items still missing. -/
def EndsAt (answers : Nat → Answer α) (size k : Nat) : Prop :=
  Flows answers k ∧ (received answers k).length < size ∧ answers k = .ended

/-- The answer after the first `k` chunks is an error, with items still missing. -/
def FailsAt (answers : Nat → Answer α) (size k : Nat) : Prop :=
  Flows answers k ∧ (received answers k).length < size ∧ answers k = .failed

/-- The first `k` answers are chunks with all the items. -/
def CompleteAt (answers : Nat → Answer α) (size k : Nat) : Prop :=
  Flows answers k ∧ (received answers k).length = size

variable {answers : Nat → Answer α} {size : Nat}

theorem received_succ (k : Nat) :
    received answers (k + 1) = received answers k ++ (answers k).items := rfl

theorem flows_succ {k : Nat} {items : List α} (flows : Flows answers k)
    (chunk : answers k = .chunk items) : Flows answers (k + 1) := by
  intro j hj
  rcases Nat.lt_succ_iff_lt_or_eq.mp hj with earlier | rfl
  · exact flows j earlier
  · exact ⟨items, chunk⟩

theorem Flows.mono {j k : Nat} (flows : Flows answers k) (earlier : j ≤ k) : Flows answers j :=
  fun i hi => flows i (Nat.lt_of_lt_of_le hi earlier)

theorem length_received_lt {k : Nat} (allowed : Allowed answers size) {items : List α}
    (chunk : answers k = .chunk items) :
    (received answers k).length < (received answers (k + 1)).length := by
  have some_item := List.length_pos_iff.mpr (allowed.nonempty k items chunk)
  rw [received_succ, chunk, List.length_append]
  exact Nat.lt_add_of_pos_right some_item

/-- After its end the stream delivers nothing. -/
theorem ended_of_le (allowed : Allowed answers size) {k : Nat} (ended : answers k = .ended)
    (n : Nat) : answers (k + n) = .ended ∧ received answers (k + n) = received answers k := by
  induction n with
  | zero => exact ⟨ended, rfl⟩
  | succ n ih =>
    refine ⟨allowed.final _ ih.1, ?_⟩
    rw [← Nat.add_assoc, received_succ, ih.1, ih.2]
    exact List.append_nil _

/-- A stream fails, ends early or delivers everything. -/
theorem fails_ends_or_completes (allowed : Allowed answers size) :
    (∃ k, FailsAt answers size k) ∨ (∃ k, EndsAt answers size k) ∨
      ∃ k, CompleteAt answers size k := by
  have run : ∀ missing k, Flows answers k → (received answers k).length + missing = size →
      (∃ k, FailsAt answers size k) ∨ (∃ k, EndsAt answers size k) ∨
        ∃ k, CompleteAt answers size k := by
    intro missing
    induction missing using Nat.strongRecOn with
    | ind missing ih =>
      intro k flows total
      by_cases done : missing = 0
      · exact .inr (.inr ⟨k, flows, by omega⟩)
      · have short : (received answers k).length < size := by omega
        cases answer : answers k with
        | failed => exact .inl ⟨k, flows, short, answer⟩
        | ended => exact .inr (.inl ⟨k, flows, short, answer⟩)
        | chunk items =>
          have grows := length_received_lt allowed answer
          have fits := allowed.bounded k short
          exact ih (size - (received answers (k + 1)).length) (by omega) (k + 1)
            (flows_succ flows answer) (by omega)
  exact run size 0 (fun j hj => absurd hj (Nat.not_lt_zero j)) (Nat.zero_add size)

end ShortReads
