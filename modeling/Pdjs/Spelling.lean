import Pdjs.Transport

/-!
# What a message spells

A vector that starts with a symbol is to be sent with that symbol as the selector,
and a vector that starts with a float with all its atoms as arguments. Whether the
first atom is dropped is decided by its word, whatever its type, so a float whose
bits are the address of its selector is lost.
-/

namespace Spelling

open PdAtoms Sending Transport

/-- The message has the atoms of the vector, in the form its first atom asks for. -/
def Spells : List Atom → Message → Prop
  | .symbol s :: rest, m => m = ⟨s, rest⟩
  | .float w :: rest, m => m = ⟨floatType rest, .float w :: rest⟩
  | _, _ => False

def FloatOrSymbol : Atom → Prop
  | .other _ _ => False
  | _ => True

/-- The bits of the first float are the address of the selector it is sent with. -/
def Collides (T : SymbolTable) : List Atom → Prop
  | .float w :: rest => T.addr (floatType rest) = w.toNat
  | _ => False

theorem outgoing_collision {T : SymbolTable} {w : BitVec 32} {rest : List Atom}
    (collision : T.addr (floatType rest) = w.toNat) :
    outgoing T (.float w :: rest) = some ⟨floatType rest, rest⟩ := by
  have type : jsGetType (.float w :: rest) = some (floatType rest) := by
    cases rest <;> rfl
  simp [outgoing, type, SymbolTable.wSymbol, collision]

theorem outgoing_spells {T : SymbolTable} {argv : List Atom} (nonempty : argv ≠ [])
    (plain : ∀ a ∈ argv, FloatOrSymbol a) (apart : ¬ Collides T argv) :
    ∃ m, outgoing T argv = some m ∧ Spells argv m := by
  rcases argv with _ | ⟨w | s | _, rest⟩
  · exact absurd rfl nonempty
  · exact ⟨_, outgoing_float apart, rfl⟩
  · exact ⟨_, outgoing_symbol T s rest, rfl⟩
  · exact absurd (plain _ List.mem_cons_self) id

/-- Whatever its words, a vector that is not empty is sent. -/
theorem exists_outgoing (T : SymbolTable) {argv : List Atom} (nonempty : argv ≠ [])
    (plain : ∀ a ∈ argv, FloatOrSymbol a) : ∃ m, outgoing T argv = some m := by
  by_cases collision : Collides T argv
  · rcases argv with _ | ⟨w | s | _, rest⟩
    · exact absurd rfl nonempty
    · exact ⟨_, outgoing_collision collision⟩
    · exact absurd collision id
    · exact absurd collision id
  · obtain ⟨m, formed, _⟩ := outgoing_spells nonempty plain collision
    exact ⟨m, formed⟩

/-- A message is sent for every vector, and it spells the vector unless the bits of
the first float are the address of the selector. -/
theorem spells_iff (T : SymbolTable) {argv : List Atom} (nonempty : argv ≠ [])
    (plain : ∀ a ∈ argv, FloatOrSymbol a) :
    ∃ m, outgoing T argv = some m ∧ (Spells argv m ↔ ¬ Collides T argv) := by
  by_cases collision : Collides T argv
  · rcases argv with _ | ⟨w | s | _, rest⟩
    · exact absurd collision id
    · refine ⟨_, outgoing_collision collision, ?_⟩
      simp [Spells, collision]
    · exact absurd collision id
    · exact absurd collision id
  · obtain ⟨m, formed, spells⟩ := outgoing_spells nonempty plain collision
    exact ⟨m, formed, fun _ => collision, fun _ => spells⟩

/-- Symbols among which `float` lies where a float may have its bits. -/
def lowSymbols : SymbolTable where
  addr := fun s => if s = sFloat then 0x20000 else highSymbols.addr s
  distinct := by
    intro s t same
    have high : ∀ u, 2 ^ 32 ≤ highSymbols.addr u := fun u => Nat.le_add_right _ _
    by_cases hs : s = sFloat
    · by_cases ht : t = sFloat
      · exact hs.trans ht.symm
      · have := high t
        simp only [hs, ht, if_true, if_false] at same
        omega
    · by_cases ht : t = sFloat
      · have := high s
        simp only [hs, ht, if_true, if_false] at same
        omega
      · simp only [hs, ht, if_false] at same
        exact highSymbols.distinct same

/-- Before another atom that float is sent with `list` and stays. -/
theorem spells_iff_list :
    ∃ m, outgoing lowSymbols [.float 0x20000, .symbol sBang] = some m ∧
      Spells [.float 0x20000, .symbol sBang] m := by
  have plain : ∀ a ∈ [Atom.float 0x20000, .symbol sBang], FloatOrSymbol a := by
    rintro a ha
    rcases List.mem_pair.mp ha with rfl | rfl <;> trivial
  obtain ⟨m, formed, spells⟩ := spells_iff lowSymbols (List.cons_ne_nil _ _) plain
  refine ⟨m, formed, spells.mpr ?_⟩
  show ¬ lowSymbols.addr (floatType [.symbol sBang]) = _
  decide

/-- The float with the bits of the address of `float` is sent without its value. -/
theorem not_spells_lost :
    outgoing lowSymbols [.float 0x20000] = some ⟨sFloat, []⟩ ∧
      ¬ Spells [.float 0x20000] ⟨sFloat, []⟩ := by
  refine ⟨rfl, ?_⟩
  intro spells
  cases congrArg Message.argv spells

end Spelling
