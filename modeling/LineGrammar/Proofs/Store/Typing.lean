import LineGrammar.Proofs.Store.Declaring

/-!
# Typed storage

Values come into a store as what a slot holds at first, as what fills an array up, and as what a
stored value is converted to: all are of the last type that the type of the variable is another name
of. As long as types keep their meaning, all slots of the variables that can be named hold values of
their types, and there is nothing to verify (`Store.typed_run`).
-/

namespace LineGrammar

/-- Is the value one of this type? A type that is not primitive has all values. -/
structure Value.IsOf (value : Value) (type : String) : Prop where
  int : type = intType → ∃ number, value = .int number
  real : type = realType → ∃ number, value = .real number
  text : type = stringType → ∃ text, value = .text text
  bool : type = boolType → value = .int 0 ∨ value = .int 1

namespace Value

variable {value converted : Value} {type : String}

theorem isOf_of_not_basic (value : Value) (h : type ∉ [boolType, stringType, intType, realType]) :
    value.IsOf type := by
  simp only [List.mem_cons, List.not_mem_nil, or_false, not_or] at h
  obtain ⟨hbool, hstring, hint, hreal⟩ := h
  exact ⟨fun h => absurd h hint, fun h => absurd h hreal, fun h => absurd h hstring,
    fun h => absurd h hbool⟩

theorem isOf_int (number : Int64) : (int number).IsOf intType :=
  ⟨fun _ => ⟨number, rfl⟩, fun h => absurd h (by decide), fun h => absurd h (by decide),
    fun h => absurd h (by decide)⟩

theorem isOf_real (number : Float) : (real number).IsOf realType :=
  ⟨fun h => absurd h (by decide), fun _ => ⟨number, rfl⟩, fun h => absurd h (by decide),
    fun h => absurd h (by decide)⟩

theorem isOf_text (string : String) : (text string).IsOf stringType :=
  ⟨fun h => absurd h (by decide), fun h => absurd h (by decide), fun _ => ⟨string, rfl⟩,
    fun h => absurd h (by decide)⟩

theorem isOf_ofBool (holds : Bool) : (ofBool holds).IsOf boolType := by
  refine ⟨fun h => absurd h (by decide), fun h => absurd h (by decide),
    fun h => absurd h (by decide), fun _ => ?_⟩
  cases holds with
  | false => exact .inl rfl
  | true => exact .inr rfl

theorem isOf_defaultOf (type : String) : (defaultOf type).IsOf type := by
  by_cases hbasic : type ∈ [boolType, stringType, intType, realType]
  · simp only [List.mem_cons, List.not_mem_nil, or_false] at hbasic
    rcases hbasic with rfl | rfl | rfl | rfl
    · exact isOf_ofBool false
    · exact isOf_text ""
    · exact isOf_int 0
    · exact isOf_real _
  · exact isOf_of_not_basic _ hbasic

theorem isOf_of_convert? (h : value.convert? type = some converted) : converted.IsOf type := by
  unfold convert? at h
  split_ifs at h with hint hreal hstring hbool
  · subst hint
    obtain ⟨number, rfl⟩ : ∃ number, converted = int number := by
      cases value with
      | int number => exact ⟨number, (Option.some.inj h).symm⟩
      | real number => exact ⟨_, (Option.some.inj h).symm⟩
      | text string =>
        obtain ⟨number, -, hnumber⟩ := Option.map_eq_some_iff.mp h
        exact ⟨number, hnumber.symm⟩
    exact isOf_int number
  · subst hreal
    obtain ⟨number, rfl⟩ : ∃ number, converted = real number := by
      cases value with
      | int number => exact ⟨_, (Option.some.inj h).symm⟩
      | real number => exact ⟨number, (Option.some.inj h).symm⟩
      | text string =>
        obtain ⟨number, -, hnumber⟩ := Option.map_eq_some_iff.mp h
        exact ⟨number, hnumber.symm⟩
    exact isOf_real number
  · subst hstring
    obtain rfl := Option.some.inj h
    exact isOf_text _
  · subst hbool
    obtain rfl := Option.some.inj h
    exact isOf_ofBool _
  · exact isOf_of_not_basic _ (by simp [hint, hreal, hstring, hbool])

theorem IsOf.convert?_eq (h : value.IsOf type) : value.convert? type = some value := by
  unfold convert?
  split_ifs with hint hreal hstring hbool
  · obtain ⟨number, rfl⟩ := h.int hint
    rfl
  · obtain ⟨number, rfl⟩ := h.real hreal
    rfl
  · obtain ⟨string, rfl⟩ := h.text hstring
    rfl
  · rcases h.bool hbool with rfl | rfl
    · rfl
    · rfl
  · rfl

end Value

namespace Store

/-- The variables that can be named hold values of their types. -/
def Typed (store : Store) : Prop :=
  ∀ name id var, (name, id) ∈ store.names → store.get? id = some var →
    ∀ value ∈ var.values, value.IsOf (store.lowestType var.type)

section

variable {store after : Store} {name type : String}

/-! ## Verifying -/

theorem withValues_self {id : VariableId} {var : Variable} (h : store.get? id = some var) :
    store.withValues id var.values = store := by
  unfold withValues
  congr 1
  apply Array.ext_getElem?
  intro index
  rw [Array.getElem?_modify]
  split_ifs with hindex
  · subst hindex
    rw [show store.vars[id]? = some var from h]
    rfl
  · rfl

theorem convertAll_eq {values : Array Value} (h : ∀ value ∈ values, value.IsOf type) :
    convertAll values type = (values, true) := by
  have hvalues : (values.map fun value => (value.convert? type).getD value) = values := by
    apply Array.ext_getElem?
    intro index
    rw [Array.getElem?_map]
    cases hvalue : values[index]? with
    | none => rfl
    | some value =>
      have hmem := Array.mem_of_getElem? hvalue
      rw [Option.map_some, (h value hmem).convert?_eq, Option.getD_some]
  have hall : (values.all fun value => (value.convert? type).isSome) = true := by
    rw [Array.all_eq_true_iff_forall_mem]
    intro value hmem
    rw [(h value hmem).convert?_eq, Option.isSome_some]
  rw [convertAll, hvalues, hall]

theorem verifyVariable_eq {id : VariableId}
    (h : ∀ var, store.get? id = some var →
      ∀ value ∈ var.values, value.IsOf (store.lowestType var.type)) :
    store.verifyVariable id = (store, true) := by
  unfold verifyVariable
  split
  · rfl
  · next var hvar =>
    dsimp only
    rw [convertAll_eq (h var hvar)]
    split_ifs
    · exact congrArg (·, true) (withValues_self hvar)
    · rfl

/-- Where all values are of their types, there is nothing to convert. -/
theorem Typed.verifyTypes_eq (h : store.Typed) : store.verifyTypes = (store, true) := by
  have hids : ∀ id ∈ store.visibleIds, store.verifyVariable id = (store, true) := by
    intro id hid
    rw [visibleIds, List.mem_mergeSort] at hid
    obtain ⟨⟨name, found⟩, hmem, rfl⟩ := List.mem_map.mp hid
    exact verifyVariable_eq (h name found · hmem)
  unfold verifyTypes
  revert hids
  generalize store.visibleIds = ids
  intro hids
  induction ids with
  | nil => rfl
  | cons id ids ih =>
    rw [List.foldl_cons]
    dsimp only
    rw [hids id List.mem_cons_self]
    exact ih fun other hother => hids other (List.mem_cons_of_mem _ hother)

/-! ## Storing -/

theorem mem_setSlot {values : Array Value} {filler value stored : Value} {index : Nat}
    (h : stored ∈ setSlot values filler index value) :
    stored ∈ values ∨ stored = filler ∨ stored = value := by
  unfold setSlot at h
  rcases Array.mem_or_eq_of_mem_setIfInBounds h with hold | rfl
  · rcases Array.mem_append.mp hold with hvalues | hfilled
    · exact .inl hvalues
    · exact .inr (.inl (Array.eq_of_mem_replicate hfilled))
  · exact .inr (.inr rfl)

theorem Typed.setValue? (h : store.Typed) {id : VariableId} {value : Value} {index : Nat}
    (hset : store.setValue? id value index = some after) : after.Typed := by
  cases hvar : store.get? id with
  | none =>
    unfold Store.setValue? at hset
    simp [hvar] at hset
  | some var =>
    unfold Store.setValue? at hset
    rw [hvar] at hset
    obtain ⟨converted, hconverted, rfl⟩ := Option.map_eq_some_iff.mp hset
    intro name other later hmem hlater stored hstored
    have hold : (name, other) ∈ store.names := hmem
    have hget : (store.vars.modify id _)[other]? = some later := hlater
    rw [Array.getElem?_modify] at hget
    split_ifs at hget with hother
    · subst hother
      rw [show store.vars[id]? = some var from hvar, Option.map_some] at hget
      obtain rfl := Option.some.inj hget
      rcases mem_setSlot hstored with hvalue | rfl | rfl
      · exact h name id var hold hvar stored hvalue
      · exact Value.isOf_defaultOf _
      · exact Value.isOf_of_convert? hconverted
    · exact h name other later hold hget stored hstored

/-! ## Invariant -/

theorem Typed.make (h : store.Typed) (hsound : store.Sound) {size : Nat} {temporary : Bool} :
    (store.insertVariable name type size temporary).Typed := by
  intro other id later hmem hlater stored hstored
  have hget : (store.vars.push _)[id]? = some later := hlater
  rw [Array.getElem?_push] at hget
  rcases List.mem_cons.mp hmem with heq | hold
  · obtain ⟨rfl, rfl⟩ := Prod.mk.inj heq
    rw [if_pos rfl] at hget
    obtain rfl := Option.some.inj hget
    rw [Array.eq_of_mem_replicate hstored]
    exact Value.isOf_defaultOf _
  · rw [if_neg (Nat.ne_of_lt (hsound.lt _ hold))] at hget
    exact h other id later hold hget stored hstored

/-- Types of variables that can be named keep their meaning, and so what is stored stays typed. -/
theorem Typed.move (h : store.Typed) (htidy : store.Tidy) (hmove : Move store after) :
    after.Typed := by
  have hlowest : ∀ name id var, (name, id) ∈ store.names → store.get? id = some var →
      after.lowestType var.type = store.lowestType var.type := fun name id var hmem hvar =>
    hmove.lowestType htidy.grounded htidy.nested (htidy.nested.type name id var hmem hvar).1
  cases hmove with
  | declare | count | enterScope =>
    -- the variables are the same, and their types lead to the same last ones
    intro name id var hmem hvar value hvalue
    rw [hlowest name id var hmem hvar]
    exact h name id var hmem hvar value hvalue
  | make => exact h.make htidy.sound
  | setValue hset => exact h.setValue? hset
  | verifyTypes =>
    rw [h.verifyTypes_eq]
    exact h

theorem Typed.moves (h : store.Typed) (htidy : store.Tidy) (hmoves : Moves store after) :
    after.Typed := by
  induction hmoves with
  | refl => exact h
  | tail hmoves hmove ih => exact ih.move (htidy.moves hmoves) hmove

theorem Typed.leaves (h : store.Typed) (htidy : store.Tidy) (hleaves : Leaves store after) :
    after.Typed := by
  intro name id var hmem hvar value hvalue
  have htype := ((htidy.nested.leaves hleaves).type name id var hmem hvar).1
  rw [hleaves.lowestType htidy.grounded htidy.nested htype]
  exact h name id var ((hleaves.names _).mp hmem).1 (hleaves.get? hvar) value hvalue

theorem Typed.perform (h : store.Typed) (htidy : store.Tidy) {operation : Operation}
    (hfree : MadeFree store (store.perform operation)) : (store.perform operation).Typed := by
  rcases perform_cases store operation hfree with rfl | hexit | hmoves
  · exact fun name id var hmem => absurd hmem List.not_mem_nil
  · exact h.leaves htidy (leaves_of_exitScope? hexit)
  · exact h.moves htidy hmoves

theorem MadeApart.typed {operations : List Operation} (h : MadeApart operations) :
    (run operations).Typed := by
  induction operations using List.reverseRecOn with
  | nil => exact fun name id var hmem => absurd hmem List.not_mem_nil
  | append_singleton operations operation ih =>
    rw [run_concat]
    exact (ih h.of_append).perform (tidy_run h.of_append) h.madeFree

/-- **Typed storage.** If no type that is declared has a name that types are made under, the
variables that can be named hold values of their types in all slots, and verifying finds nothing to
change. -/
theorem typed_run {operations : List Operation}
    (h : ∀ part, part <+: operations → ∀ number, ¬(run part).Declared (untypedName number)) :
    (∀ name var, (run operations).variableNamed? name = some var →
      ∀ value ∈ var.values, value.IsOf ((run operations).lowestType var.type)) ∧
    (run operations).verifyTypes = (run operations, true) := by
  have htyped := (madeApart_of_not_declared h).typed
  refine ⟨fun name var hvar => ?_, htyped.verifyTypes_eq⟩
  obtain ⟨id, hid, hget⟩ := Option.bind_eq_some_iff.mp hvar
  exact htyped name id var (mem_names_of_idOf? hid) hget

theorem typed_run_marking :
    (∀ part, part <+: marking → ∀ number, ¬(run part).Declared (untypedName number)) ∧
      ((run marking).variableNamed? "marks").map (·.values) = some #[.int 0, .int 0, .int 1] ∧
      (∀ name var, (run marking).variableNamed? name = some var →
        ∀ value ∈ var.values, value.IsOf ((run marking).lowestType var.type)) ∧
      (run marking).verifyTypes = (run marking, true) := by
  have hverify : (run (marking.take 6)).verifyTypes = (run (marking.take 6), true) :=
    (typed_run fun part hpart => not_declared_marking part (hpart.trans (List.take_prefix 6 _))).2
  have hrun : run marking = run (marking.take 6) := congrArg Prod.fst hverify
  refine ⟨not_declared_marking, ?_, typed_run not_declared_marking⟩
  rw [hrun]
  decide +kernel

end

end Store

end LineGrammar
