/-!
# Sets of symbols

A finite set of symbols is kept as the ascending list of its members, so that two sets with the same
members are equal and a set is always shown in the same order, that of the code points.
-/

namespace LineGrammar

/-- A finite set of symbols. -/
structure SymbolSet where
  members : List String
  ascending : members.Pairwise (· < ·)
  deriving DecidableEq

namespace SymbolSet

instance : Membership String SymbolSet where
  mem set symbol := symbol ∈ set.members

instance (symbol : String) (set : SymbolSet) : Decidable (symbol ∈ set) :=
  inferInstanceAs (Decidable (symbol ∈ set.members))

theorem mem_iff {symbol : String} {set : SymbolSet} : symbol ∈ set ↔ symbol ∈ set.members :=
  Iff.rfl

def empty : SymbolSet :=
  ⟨[], .nil⟩

instance : EmptyCollection SymbolSet := ⟨empty⟩

instance : Inhabited SymbolSet := ⟨∅⟩

@[simp] theorem not_mem_empty (symbol : String) : ¬symbol ∈ (∅ : SymbolSet) :=
  List.not_mem_nil

/-- Puts a symbol into its place of an ascending list. -/
def insertMember (symbol : String) : List String → List String
  | [] => [symbol]
  | other :: rest =>
    if symbol < other then symbol :: other :: rest
    else if symbol = other then other :: rest
    else other :: insertMember symbol rest

theorem mem_insertMember {symbol other : String} {members : List String} :
    other ∈ insertMember symbol members ↔ other = symbol ∨ other ∈ members := by
  induction members with
  | nil => simp [insertMember]
  | cons first rest ih =>
    unfold insertMember
    split
    · simp
    · split
      · next h => simp [h]
      · simp only [List.mem_cons, ih]
        exact ⟨fun h => by rcases h with h | h | h <;> simp [h],
          fun h => by rcases h with h | h | h <;> simp [h]⟩

theorem ascending_insertMember {symbol : String} {members : List String}
    (h : members.Pairwise (· < ·)) : (insertMember symbol members).Pairwise (· < ·) := by
  induction members with
  | nil => simp [insertMember]
  | cons first rest ih =>
    have ⟨hfirst, hrest⟩ := List.pairwise_cons.mp h
    unfold insertMember
    split
    · next hlt =>
      refine List.pairwise_cons.mpr ⟨fun other hother => ?_, h⟩
      rcases List.mem_cons.mp hother with rfl | hother
      · exact hlt
      · exact String.lt_trans hlt (hfirst other hother)
    · split
      · exact h
      · next hlt hne =>
        refine List.pairwise_cons.mpr ⟨fun other hother => ?_, ih hrest⟩
        rcases mem_insertMember.mp hother with rfl | hother
        · apply String.not_le.mp
          intro hle
          exact hne (String.le_antisymm hle (String.not_lt.mp hlt))
        · exact hfirst other hother

def insert (symbol : String) (set : SymbolSet) : SymbolSet :=
  ⟨insertMember symbol set.members, ascending_insertMember set.ascending⟩

@[simp] theorem mem_insert {symbol other : String} {set : SymbolSet} :
    other ∈ set.insert symbol ↔ other = symbol ∨ other ∈ set :=
  mem_insertMember

def erase (symbol : String) (set : SymbolSet) : SymbolSet :=
  ⟨set.members.filter (· ≠ symbol), set.ascending.filter _⟩

@[simp] theorem mem_erase {symbol other : String} {set : SymbolSet} :
    other ∈ set.erase symbol ↔ other ∈ set ∧ other ≠ symbol := by
  simp [erase, mem_iff]

def singleton (symbol : String) : SymbolSet :=
  ⟨[symbol], by simp⟩

@[simp] theorem mem_singleton {symbol other : String} : other ∈ singleton symbol ↔ other = symbol :=
  List.mem_singleton

def union (set other : SymbolSet) : SymbolSet :=
  set.members.foldr insert other

instance : Union SymbolSet := ⟨union⟩

@[simp] theorem mem_union {symbol : String} {set other : SymbolSet} :
    symbol ∈ set ∪ other ↔ symbol ∈ set ∨ symbol ∈ other := by
  have h : ∀ members : List String,
      symbol ∈ members.foldr insert other ↔ symbol ∈ members ∨ symbol ∈ other := by
    intro members
    induction members with
    | nil => simp
    | cons first rest ih => simp [ih, or_assoc]
  exact h set.members

/-- Have the two sets a member in common? -/
def meets (set other : SymbolSet) : Bool :=
  set.members.any (· ∈ other)

theorem meets_iff {set other : SymbolSet} :
    set.meets other = true ↔ ∃ symbol, symbol ∈ set ∧ symbol ∈ other := by
  simp [meets, mem_iff]

end SymbolSet

end LineGrammar
