import LineGrammar.Proofs.Source.Language
import LineGrammar.Proofs.Store.Making

/-!
# Stores as memory

Of a store a program sees the variables that it can name: their values and the primitive types
beneath their types. Storing a value in such a variable is writing to the memory, and storing one in
a spare variable leaves the memory as it is. In both cases nothing but the values of that variable
changes.
-/

namespace LineGrammar.Store

open Source

/-- The primitive type that a type is finally another name of, if there is one. -/
def basicType (store : Store) (type : String) : Option String :=
  let lowest := store.lowestType type
  if lowest ∈ [boolType, stringType, intType, realType] then some lowest else none

/-- What a program can see of a variable. -/
def cellOf (store : Store) (var : Variable) : Cell :=
  ⟨store.basicType var.type, var.values⟩

/-- The store as the memory of a program. -/
def memory (store : Store) : Memory := fun name =>
  if IsProgramName name then
    match store.variableNamed? name with
    | some var => store.cellOf var
    | none => .blank
  else .blank

/-- The store without the values. -/
def shape (store : Store) : Store :=
  { store with vars := store.vars.map fun var => { var with values := #[] } }

section

variable {store other : Store}

theorem convert?_of_basicType {type : String} (value : Value) :
    value.convert? (store.lowestType type) =
      (match store.basicType type with
        | none => some value
        | some type => value.convert? type) := by
  unfold basicType
  dsimp only
  split_ifs with h
  · rfl
  · simp only [List.mem_cons, List.not_mem_nil, or_false, not_or] at h
    obtain ⟨hbool, hstring, hint, hreal⟩ := h
    unfold Value.convert?
    rw [if_neg hint, if_neg hreal, if_neg hstring, if_neg hbool]

theorem defaultOf_of_basicType {type : String} :
    Value.defaultOf (store.lowestType type) =
      (match store.basicType type with
        | none => .int 0
        | some type => .defaultOf type) := by
  unfold basicType
  dsimp only
  split_ifs with h
  · rfl
  · simp only [List.mem_cons, List.not_mem_nil, or_false, not_or] at h
    obtain ⟨-, hstring, -, hreal⟩ := h
    unfold Value.defaultOf
    rw [if_neg hreal, if_neg hstring]

theorem basicType_eq_some {type basic : String}
    (h : basic ∈ [boolType, stringType, intType, realType]) :
    store.basicType type = some basic ↔ store.lowestType type = basic := by
  unfold basicType
  dsimp only
  split_ifs with hlowest
  · exact Option.some_inj
  · constructor
    · rintro ⟨⟩
    · rintro rfl
      exact absurd h hlowest

/-- The store with other values of a variable. -/
def withValues (store : Store) (id : VariableId) (values : Array Value) : Store :=
  { store with vars := store.vars.modify id fun var => { var with values } }

theorem setValue?_eq {id : VariableId} {var : Variable} (h : store.get? id = some var)
    (value : Value) (slot : Nat) :
    store.setValue? id value slot =
      ((store.cellOf var).write? slot value).map fun cell => store.withValues id cell.values := by
  unfold setValue?
  rw [h]
  dsimp only
  rw [convert?_of_basicType]
  have hconvert : (store.cellOf var).convert? value =
      (match store.basicType var.type with
        | none => some value
        | some type => value.convert? type) := rfl
  rw [Cell.write?, hconvert, Option.map_map]
  congr 1
  funext converted
  have hfiller : (store.cellOf var).filler = Value.defaultOf (store.lowestType var.type) :=
    defaultOf_of_basicType.symm
  show _ = store.withValues id
    (setSlot var.values (store.cellOf var).filler slot converted)
  rw [hfiller, withValues]
  congr 1
  have hlt := (Array.getElem?_eq_some_iff.mp h).1
  apply Array.ext_getElem?
  intro index
  rw [Array.getElem?_modify, Array.getElem?_modify]
  split_ifs with hindex
  · subst hindex
    rw [show store.vars[id]? = some var from h]
    rfl
  · rfl

theorem get?_withValues (store : Store) (id index : VariableId) (values : Array Value) :
    (store.withValues id values).get? index =
      if id = index then (store.get? index).map fun var => { var with values }
      else store.get? index :=
  Array.getElem?_modify

theorem shape_withValues (store : Store) (id : VariableId) (values : Array Value) :
    (store.withValues id values).shape = store.shape := by
  unfold shape withValues
  congr 1
  apply Array.ext_getElem?
  intro index
  rw [Array.getElem?_map, Array.getElem?_map, Array.getElem?_modify]
  split_ifs
  · rw [Option.map_map]
    rfl
  · rfl

/-! ## Stores of one shape -/

theorem names_eq_of_shape (h : store.shape = other.shape) : store.names = other.names := by
  show store.shape.names = other.shape.names
  rw [h]

theorem types_eq_of_shape (h : store.shape = other.shape) : store.types = other.types := by
  show store.shape.types = other.shape.types
  rw [h]

theorem untypedCount_eq_of_shape (h : store.shape = other.shape) :
    store.untypedCount = other.untypedCount := by
  show store.shape.untypedCount = other.shape.untypedCount
  rw [h]

theorem size_vars_eq_of_shape (h : store.shape = other.shape) :
    store.vars.size = other.vars.size := by
  have hsizes := congrArg (fun shaped : Store => shaped.vars.size) h
  simpa only [shape, Array.size_map] using hsizes

theorem idOf?_eq_of_shape (h : store.shape = other.shape) (name : String) :
    store.idOf? name = other.idOf? name := by
  unfold idOf?
  rw [names_eq_of_shape h]

/-- Each variable is there in the other store too, perhaps with other values. -/
theorem exists_values_of_shape (h : store.shape = other.shape) {id : VariableId} {var : Variable}
    (hvar : store.get? id = some var) :
    ∃ values, other.get? id = some { var with values } := by
  have hshape : (store.get? id).map (fun var => ({ var with values := #[] } : Variable)) =
      (other.get? id).map fun var => { var with values := #[] } := by
    have hvars := congrArg (fun shaped : Store => shaped.vars[id]?) h
    simpa only [shape, Array.getElem?_map, get?] using hvars
  rw [hvar] at hshape
  obtain ⟨⟨name, type, values, temporary⟩, hfound, heq⟩ := Option.map_eq_some_iff.mp hshape.symm
  obtain ⟨rfl, rfl, -, rfl⟩ := Variable.mk.inj heq
  exact ⟨values, hfound⟩

theorem Sound.of_shape (h : store.Sound) (hshape : store.shape = other.shape) : other.Sound where
  lt entry hentry := by
    rw [← size_vars_eq_of_shape hshape]
    exact h.lt entry (names_eq_of_shape hshape ▸ hentry)
  nodup := names_eq_of_shape hshape ▸ h.nodup

theorem Spare.of_shape {id : VariableId} (h : store.Spare id)
    (hshape : store.shape = other.shape) : other.Spare id := by
  obtain ⟨⟨var, hvar, htype, hbasic⟩, hunnamed⟩ := h
  obtain ⟨values, hfound⟩ := exists_values_of_shape hshape hvar
  refine ⟨⟨_, hfound, ?_, hbasic⟩, fun name hname => ?_⟩
  · rw [← types_eq_of_shape hshape, htype]
  · rw [← idOf?_eq_of_shape hshape]
    exact hunnamed name hname

/-! ## What a program sees -/

theorem memory_eq {name : String} {id : VariableId} {var : Variable} (hname : IsProgramName name)
    (hid : store.idOf? name = some id) (hvar : store.get? id = some var) :
    store.memory name = store.cellOf var := by
  unfold memory variableNamed?
  rw [if_pos hname, hid, Option.bind_some, hvar]

theorem memory_withValues_of_unnamed {id : VariableId} (values : Array Value)
    (h : ∀ name, IsProgramName name → store.idOf? name ≠ some id) :
    (store.withValues id values).memory = store.memory := by
  funext name
  have hid : (store.withValues id values).idOf? name = store.idOf? name := rfl
  unfold memory variableNamed?
  rw [hid]
  split_ifs with hname
  · cases hfound : store.idOf? name with
    | none => rfl
    | some found =>
      have hne : id ≠ found := fun heq => h name hname (heq ▸ hfound)
      rw [Option.bind_some, Option.bind_some, get?_withValues, if_neg hne]
      rfl
  · rfl

theorem memory_withValues {name : String} {id : VariableId} {var : Variable} (hsound : store.Sound)
    (hname : IsProgramName name) (hid : store.idOf? name = some id)
    (hvar : store.get? id = some var) (values : Array Value) :
    (store.withValues id values).memory =
      store.memory.set name { store.cellOf var with values } := by
  funext other
  unfold Memory.set
  split_ifs with hother
  · subst hother
    have hfound : (store.withValues id values).get? id = some { var with values } := by
      rw [get?_withValues, if_pos rfl, hvar]
      rfl
    rw [memory_eq hname (show (store.withValues id values).idOf? other = some id from hid) hfound]
    rfl
  · have hotherId : (store.withValues id values).idOf? other = store.idOf? other := rfl
    unfold memory variableNamed?
    rw [hotherId]
    split_ifs with hprogram
    · cases hfound : store.idOf? other with
      | none => rfl
      | some found =>
        have hne : id ≠ found := fun heq => hother (hsound.name_eq hfound (heq ▸ hid))
        rw [Option.bind_some, Option.bind_some, get?_withValues, if_neg hne]
        rfl
    · rfl

end

end LineGrammar.Store
