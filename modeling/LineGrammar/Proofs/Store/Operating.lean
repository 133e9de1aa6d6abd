import LineGrammar.Proofs.Store.Changing

/-!
# Operations one after the other

A store is run from the empty one by operations, of which one that is refused changes nothing. What
an operation does is to leave a scope, or to make moves that add something: a type of a new name, a
variable of a type that there is, a scope, or values (`Store.perform_cases`). This holds as long as
no type that is made for a variable takes a name that a type has.
-/

namespace LineGrammar.Store

inductive Operation where
  | addType (name : String)
  | addAlias (name base : String)
  | addVariable (name : String) (type : Option String) (size : Nat)
  | addTemporary
  | ensureVariable (name : String)
  | setNamed (name : String) (value : Value) (index : Nat)
  | setValue (id : VariableId) (value : Value) (index : Nat)
  | enterScope
  | exitScope
  | verifyTypes
  | clear
  deriving DecidableEq

/-- The store after an operation; one that is refused changes nothing. -/
def perform (store : Store) : Operation → Store
  | .addType name => (store.addType? name).getD store
  | .addAlias name base => (store.addTypedef? name base).getD store
  | .addVariable name type size => (store.addVariable? name type size).getD store
  | .addTemporary => store.addTemporary.1
  | .ensureVariable name => (store.ensureVariable name).1
  | .setNamed name value index => (store.setNamed? name value index).getD store
  | .setValue id value index => (store.setValue? id value index).getD store
  | .enterScope => store.enterScope
  | .exitScope => store.exitScope?.getD store
  | .verifyTypes => store.verifyTypes.1
  | .clear => {}

/-- The store after operations on an empty one. -/
def run (operations : List Operation) : Store :=
  operations.foldl perform {}

/-- The types that were made for variables between the two stores have names of no types before. -/
def MadeFree (before after : Store) : Prop :=
  ∀ type, MadeBetween before after type → before.hasType type = false

/-- A single thing that is added to a store. -/
inductive Move : Store → Store → Prop
  | declare {store : Store} {name : String} {kind : TypeKind} (hname : store.hasType name = false)
      (hkind : kind ≠ .primitive)
      (hmade : kind = .untyped → ∃ number < store.untypedCount, name = untypedName number)
      (hbase : ∀ base, kind = .alias base →
        store.hasType base = true ∧ store.lowestType base ≠ name) :
      Move store (store.insertType name kind)
  | make {store : Store} {name type : String} {size : Nat} {temporary : Bool}
      (htype : store.hasType type = true) :
      Move store (store.insertVariable name type size temporary)
  | count {store : Store} {untyped temporary : Nat} (huntyped : store.untypedCount ≤ untyped) :
      Move store { store with untypedCount := untyped, temporaryCount := temporary }
  | setValue {store after : Store} {id : VariableId} {value : Value} {index : Nat}
      (h : store.setValue? id value index = some after) : Move store after
  | enterScope (store : Store) : Move store store.enterScope
  | verifyTypes (store : Store) : Move store store.verifyTypes.1

abbrev Moves : Store → Store → Prop :=
  Relation.ReflTransGen Move

section

variable {store after : Store} {name : String}

theorem hasType_iff {type : String} :
    store.hasType type = true ↔ ∃ kind, store.types.lookup type = some kind :=
  Option.isSome_iff_exists

theorem getD_eq_or (store : Store) (result : Option Store) :
    result.getD store = store ∨ result = some (result.getD store) := by
  cases result with
  | none => exact .inl rfl
  | some after => exact .inr rfl

theorem run_append (operations others : List Operation) :
    run (operations ++ others) = others.foldl perform (run operations) :=
  List.foldl_append

theorem run_concat (operations : List Operation) (operation : Operation) :
    run (operations ++ [operation]) = (run operations).perform operation := by
  rw [run_append, List.foldl_cons, List.foldl_nil]

theorem lookup_insertType (store : Store) (name : String) (kind : TypeKind) (type : String) :
    (store.insertType name kind).types.lookup type =
      if type = name then some kind else store.types.lookup type :=
  lookup_setType store.types name type kind

theorem hasType_insertType (store : Store) (name : String) (kind : TypeKind) (type : String) :
    (store.insertType name kind).hasType type = (decide (type = name) || store.hasType type) := by
  rw [hasType, lookup_insertType]
  by_cases h : type = name
  · simp [h]
  · simp [h, hasType]

/-! ## What an operation does -/

theorem moves_insertUntyped (hname : store.hasType (untypedName store.untypedCount) = false)
    (size : Nat) (temporary : Bool) : Moves store (store.insertUntyped name size temporary) := by
  have hcount : Move store { store with untypedCount := store.untypedCount + 1 } :=
    .count (Nat.le_succ _)
  refine .head hcount (.head (.declare hname (by simp) (fun _ => ?_) (fun base => by simp))
    (.single (.make ?_)))
  · exact ⟨store.untypedCount, Nat.lt_succ_self _, rfl⟩
  · rw [hasType_insertType]
    simp [untypedName]

theorem MadeFree.insertUntyped {size : Nat} {temporary : Bool}
    (h : MadeFree store (store.insertUntyped name size temporary)) :
    store.hasType (untypedName store.untypedCount) = false :=
  h _ ((madeBetween_insertUntyped ..).mpr rfl)

theorem moves_addType (hadd : store.addType? name = some after) : Moves store after := by
  obtain ⟨hname, rfl⟩ := eq_insertType_of_addType? hadd
  exact .single (.declare hname (by simp) (by simp) (fun base => by simp))

theorem moves_addTypedef {base : String} (hadd : store.addTypedef? name base = some after) :
    Moves store after := by
  obtain ⟨hname, hbase, hlowest, rfl⟩ := eq_insertType_of_addTypedef? hadd
  refine .single (.declare hname (by simp) (by simp) ?_)
  rintro _ ⟨⟩
  exact ⟨hbase, hlowest⟩

theorem moves_addVariable {type : Option String} {size : Nat}
    (hadd : store.addVariable? name type size = some after) (hfree : MadeFree store after) :
    Moves store after := by
  obtain ⟨-, rfl | ⟨type, htype, rfl⟩⟩ := addVariable?_cases hadd
  · exact moves_insertUntyped hfree.insertUntyped _ _
  · exact .single (.make htype)

theorem moves_addTemporary (hfree : MadeFree store store.addTemporary.1) :
    Moves store store.addTemporary.1 := by
  have hcount : Move store { store with temporaryCount := store.nextTemporary + 1 } :=
    .count (Nat.le_refl _)
  have hname : store.hasType (untypedName store.untypedCount) = false :=
    hfree _ ⟨store.untypedCount, Nat.le_refl _, Nat.lt_succ_self _, rfl⟩
  exact .head hcount (@moves_insertUntyped { store with temporaryCount := store.nextTemporary + 1 }
    (temporaryName store.nextTemporary) hname 1 true)

theorem moves_ensureVariable (hfree : MadeFree store (store.ensureVariable name).1) :
    Moves store (store.ensureVariable name).1 := by
  unfold ensureVariable at hfree ⊢
  split at hfree
  · exact .refl
  · exact moves_insertUntyped hfree.insertUntyped _ _

theorem moves_setNamed {value : Value} {index : Nat}
    (hset : store.setNamed? name value index = some after) (hfree : MadeFree store after) :
    Moves store after := by
  have hstore : (store.ensureVariable name).1.setValue? (store.ensureVariable name).2 value index =
      some after := hset
  have hcount := untypedCount_eq_of_shape (shape_setValue? hstore)
  have hmade : MadeFree store (store.ensureVariable name).1 := by
    rintro type ⟨number, hfrom, hto, rfl⟩
    exact hfree _ ⟨number, hfrom, hcount ▸ hto, rfl⟩
  exact (moves_ensureVariable hmade).tail (.setValue hstore)

theorem perform_cases (store : Store) (operation : Operation)
    (hfree : MadeFree store (store.perform operation)) :
    operation = .clear ∨ store.exitScope? = some (store.perform operation) ∨
      Moves store (store.perform operation) := by
  have hmoves : ∀ {result : Option Store},
      (result = some (result.getD store) → Moves store (result.getD store)) →
        Moves store (result.getD store) := by
    intro result h
    rcases getD_eq_or store result with hrefused | hdone
    · rw [hrefused]
    · exact h hdone
  cases operation with
  | addType name => exact .inr (.inr (hmoves moves_addType))
  | addAlias name base => exact .inr (.inr (hmoves moves_addTypedef))
  | addVariable name type size => exact .inr (.inr (hmoves fun h => moves_addVariable h hfree))
  | addTemporary => exact .inr (.inr (moves_addTemporary hfree))
  | ensureVariable name => exact .inr (.inr (moves_ensureVariable hfree))
  | setNamed name value index => exact .inr (.inr (hmoves fun h => moves_setNamed h hfree))
  | setValue id value index => exact .inr (.inr (hmoves fun h => .single (.setValue h)))
  | enterScope => exact .inr (.inr (.single (.enterScope store)))
  | exitScope =>
    rcases getD_eq_or store store.exitScope? with hrefused | hexit
    · refine .inr (.inr ?_)
      rw [perform, hrefused]
    · exact .inr (.inl hexit)
  | verifyTypes => exact .inr (.inr (.single (.verifyTypes store)))
  | clear => exact .inl rfl

end

end LineGrammar.Store
