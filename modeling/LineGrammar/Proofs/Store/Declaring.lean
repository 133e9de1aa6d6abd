import LineGrammar.Proofs.Store.Scoping
import Mathlib.Data.List.Induction

/-!
# What declared types mean

A type that is made for a variable takes the next number, whatever there is of its name. Declared
types keep their meaning, what they are finally another name of, exactly if none of them is there
when a type of its name is made (`Store.keepsMeaning_iff`). An alias that is there then means the
made type from then on, and so do the values of variables of that type.
-/

namespace LineGrammar.Store

def Declared (store : Store) (type : String) : Prop :=
  store.types.lookup type = some .named ∨ ∃ base, store.types.lookup type = some (.alias base)

/-- No type is made for a variable while a declared one of its name is there. -/
def MadeApart (operations : List Operation) : Prop :=
  ∀ before operation after, operations = before ++ operation :: after →
    ∀ type, MadeBetween (run before) (run (before ++ [operation])) type →
      ¬(run before).Declared type

/-- The scope that is the current one after some operations is left by none of the next. -/
def StaysOpen (before since : List Operation) : Prop :=
  .clear ∉ since ∧
    ∀ part, part <+: since → (run before).scopeDepth ≤ (run (before ++ part)).scopeDepth

/-- Types keep their meaning under the operations. -/
structure KeepsMeaning (operations : List Operation) : Prop where
  /-- A type that is made for a variable has the name of none that there is. -/
  free : ∀ before operation after, operations = before ++ operation :: after →
    MadeFree (run before) (run (before ++ [operation]))
  /-- What a type means at some time, such as when it has been declared, it means as long as the
  scope is open that is the current one at that time. -/
  lasting : ∀ before since after, operations = before ++ since ++ after → StaysOpen before since →
    ∀ type, (run before).hasType type = true →
      (run (before ++ since)).hasType type = true ∧
        (run (before ++ since)).lowestType type = (run before).lowestType type
  /-- What is stored in a variable is converted to the same type as long as it can be named. -/
  conversion : ∀ before since after, operations = before ++ since ++ after → .clear ∉ since →
    ∀ name id var later, (run before).get? id = some var →
      (run (before ++ since)).idOf? name = some id → (run (before ++ since)).get? id = some later →
        (run (before ++ since)).lowestType later.type = (run before).lowestType var.type

section

variable {store after base : Store} {name type : String}

/-! ## Names of types that are made -/

theorem eq_of_untypedName_eq {number other : Nat} (h : untypedName number = untypedName other) :
    number = other :=
  eq_of_append_toString_eq h

theorem Declared.hasType (h : store.Declared type) : store.hasType type = true := by
  rw [hasType_iff]
  rcases h with hnamed | ⟨base, halias⟩
  · exact ⟨_, hnamed⟩
  · exact ⟨_, halias⟩

theorem Tidy.madeFree (h : store.Tidy)
    (hapart : ∀ type, MadeBetween store after type → ¬store.Declared type) :
    MadeFree store after := by
  intro type hmade
  by_contra htaken
  obtain ⟨kind, hkind⟩ := hasType_iff.mp (by simpa using htaken)
  have hdeclared := hapart type hmade
  obtain ⟨number, hfrom, -, rfl⟩ := hmade
  cases kind with
  | primitive => exact untypedName_not_mem number (h.counted.primitive _ hkind)
  | untyped =>
    -- its number has been counted, and the next one has not
    obtain ⟨other, hlt, heq⟩ := h.counted.untyped _ hkind
    obtain rfl := eq_of_untypedName_eq heq
    omega
  | named => exact hdeclared (.inl hkind)
  | «alias» base => exact hdeclared (.inr ⟨base, hkind⟩)

theorem madeApart_of_not_declared {operations : List Operation}
    (h : ∀ part, part <+: operations → ∀ number, ¬(run part).Declared (untypedName number)) :
    MadeApart operations := by
  rintro before operation after rfl type ⟨number, -, -, rfl⟩
  exact h before (List.prefix_append _ _) number

theorem MadeApart.of_append {operations others : List Operation}
    (h : MadeApart (operations ++ others)) : MadeApart operations := by
  intro before operation after heq
  refine h before operation (after ++ others) ?_
  rw [heq, List.append_assoc, List.cons_append]

theorem tidy_run {operations : List Operation} (h : MadeApart operations) :
    (run operations).Tidy := by
  induction operations using List.reverseRecOn with
  | nil => exact tidy_empty
  | append_singleton operations operation ih =>
    have htidy := ih h.of_append
    have hapart := h operations operation [] rfl
    rw [run_concat] at hapart ⊢
    exact htidy.perform (htidy.madeFree hapart)

theorem MadeApart.madeFree {operations : List Operation} {operation : Operation}
    (h : MadeApart (operations ++ [operation])) :
    MadeFree (run operations) ((run operations).perform operation) := by
  have hapart := h operations operation [] rfl
  rw [run_concat] at hapart
  exact (tidy_run h.of_append).madeFree hapart

/-! ## Declarations -/

theorem not_declared_empty (type : String) : ¬({} : Store).Declared type := by
  rintro (hnamed | ⟨base, halias⟩)
  · exact absurd (eq_primitive_of_lookup_empty hnamed).2 (by simp)
  · exact absurd (eq_primitive_of_lookup_empty halias).2 (by simp)

theorem Declared.of_lookup (h : after.Declared type)
    (hlookup : after.types.lookup type = store.types.lookup type) : store.Declared type := by
  rwa [Declared, hlookup] at h

theorem Declared.of_insertType {kind : TypeKind} (h : (store.insertType name kind).Declared type) :
    store.Declared type ∨ type = name ∧ kind ≠ .untyped := by
  by_cases hname : type = name
  · refine .inr ⟨hname, ?_⟩
    rintro rfl
    rw [Declared, lookup_insertType, if_pos hname] at h
    simp at h
  · refine .inl (h.of_lookup ?_)
    rw [lookup_insertType, if_neg hname]

theorem Declared.of_addType? (h : after.Declared type) (hadd : store.addType? name = some after) :
    store.Declared type ∨ type = name := by
  obtain ⟨-, rfl⟩ := eq_insertType_of_addType? hadd
  exact h.of_insertType.imp_right And.left

theorem Declared.of_addTypedef? {base : String} (h : after.Declared type)
    (hadd : store.addTypedef? name base = some after) : store.Declared type ∨ type = name := by
  obtain ⟨-, -, -, rfl⟩ := eq_insertType_of_addTypedef? hadd
  exact h.of_insertType.imp_right And.left

theorem Declared.of_insertUntyped {size : Nat} {temporary : Bool}
    (h : (store.insertUntyped name size temporary).Declared type) : store.Declared type := by
  have htyped : ({ store with untypedCount := store.untypedCount + 1 }.insertType
      (untypedName store.untypedCount) .untyped).Declared type := h
  exact htyped.of_insertType.resolve_right fun ⟨_, hkind⟩ => hkind rfl

theorem Declared.of_addTemporary (h : store.addTemporary.1.Declared type) :
    store.Declared type := by
  unfold addTemporary at h
  exact h.of_insertUntyped

theorem Declared.of_ensureVariable (h : (store.ensureVariable name).1.Declared type) :
    store.Declared type := by
  unfold ensureVariable at h
  split at h
  · exact h
  · exact h.of_insertUntyped

theorem Declared.of_addVariable? {found : Option String} {size : Nat} (h : after.Declared type)
    (hadd : store.addVariable? name found size = some after) : store.Declared type := by
  obtain ⟨-, rfl | ⟨found, -, rfl⟩⟩ := addVariable?_cases hadd
  · exact h.of_insertUntyped
  · exact h

theorem Declared.of_setValue? {id : VariableId} {value : Value} {index : Nat}
    (h : after.Declared type) (hset : store.setValue? id value index = some after) :
    store.Declared type := by
  refine h.of_lookup ?_
  rw [types_eq_of_shape (shape_setValue? hset)]

theorem Declared.of_exitScope? (h : after.Declared type) (hexit : store.exitScope? = some after) :
    store.Declared type := by
  have htypes := (leaves_of_exitScope? hexit).types type
  split_ifs at htypes
  · rw [Declared, htypes] at h
    simp at h
  · exact h.of_lookup htypes

theorem Declared.of_perform {operation : Operation}
    (h : (store.perform operation).Declared type) :
    store.Declared type ∨ operation = .addType type ∨ ∃ base, operation = .addAlias type base := by
  have hdone : ∀ {result : Option Store}, (result.getD store).Declared type →
      store.Declared type ∨ result = some (result.getD store) := by
    intro result hresult
    refine (getD_eq_or store result).imp_left fun hrefused => ?_
    rwa [hrefused] at hresult
  cases operation with
  | addType name =>
    rcases hdone h with hold | hadd
    · exact .inl hold
    · refine (h.of_addType? hadd).imp_right fun hname => .inl ?_
      rw [hname]
  | addAlias name base =>
    rcases hdone h with hold | hadd
    · exact .inl hold
    · refine (h.of_addTypedef? hadd).imp_right fun hname => .inr ⟨base, ?_⟩
      rw [hname]
  | addVariable name found size =>
    rcases hdone h with hold | hadd
    · exact .inl hold
    · exact .inl (h.of_addVariable? hadd)
  | addTemporary => exact .inl (Declared.of_addTemporary h)
  | ensureVariable name => exact .inl (Declared.of_ensureVariable h)
  | setNamed name value index =>
    rcases hdone h with hold | hset
    · exact .inl hold
    · have hensured : (store.ensureVariable name).1.Declared type := h.of_setValue? hset
      exact .inl hensured.of_ensureVariable
  | setValue id value index =>
    rcases hdone h with hold | hset
    · exact .inl hold
    · exact .inl (h.of_setValue? hset)
  | enterScope => exact .inl h
  | exitScope =>
    rcases hdone h with hold | hexit
    · exact .inl hold
    · exact .inl (h.of_exitScope? hexit)
  | verifyTypes =>
    refine .inl (h.of_lookup ?_)
    exact congrArg (·.lookup type) (types_eq_of_shape (shape_verifyTypes store))
  | clear => exact absurd h (not_declared_empty type)

theorem exists_mem_of_declared {operations : List Operation}
    (h : (run operations).Declared type) :
    .addType type ∈ operations ∨ ∃ base, .addAlias type base ∈ operations := by
  induction operations using List.reverseRecOn with
  | nil => exact absurd h (not_declared_empty type)
  | append_singleton operations operation ih =>
    rw [run_concat] at h
    rcases h.of_perform with hold | rfl | ⟨base, rfl⟩
    · refine (ih hold).imp (fun hmem => ?_) fun ⟨base, hmem⟩ => ⟨base, ?_⟩
      · exact List.mem_append_left _ hmem
      · exact List.mem_append_left _ hmem
    · exact .inl (by simp)
    · exact .inr ⟨base, by simp⟩

/-! ## Open scopes -/

/-- The scope that is the current one of a store is open in a later one, and its types are what they
were. -/
structure Retains (base store : Store) : Prop where
  depth_le : base.scopeDepth ≤ store.scopeDepth
  lookup : ∀ type, base.hasType type = true → store.types.lookup type = base.types.lookup type
  not_mem : ∀ type, base.hasType type = true →
    type ∉ store.innerTypes (store.scopeDepth - base.scopeDepth)

theorem Retains.refl (store : Store) : Retains store store where
  depth_le := Nat.le_refl _
  lookup _ _ := rfl
  not_mem type _ := by simp [innerTypes]

theorem Retains.hasType (h : Retains base store) (htype : base.hasType type = true) :
    store.hasType type = true := by
  rw [Store.hasType, h.lookup type htype]
  exact htype

theorem Retains.move (h : Retains base store) (hmove : Move store after) : Retains base after := by
  have hlookup : ∀ type, base.hasType type = true →
      after.types.lookup type = base.types.lookup type := by
    intro type htype
    rw [hmove.lookup (h.hasType htype), h.lookup type htype]
  have hshape : store.shape = after.shape → Retains base after := by
    intro hshape
    have hdepth := scopeDepth_eq_of_shape hshape
    refine ⟨hdepth ▸ h.depth_le, hlookup, fun type htype => ?_⟩
    rw [← hdepth, ← innerTypes_eq_of_shape hshape]
    exact h.not_mem type htype
  cases hmove with
  | @declare name kind hname =>
    refine ⟨h.depth_le, hlookup, fun type htype hmem => ?_⟩
    rcases mem_innerTypes_insertType.mp hmem with ⟨-, rfl⟩ | hold
    · rw [h.hasType htype] at hname
      simp at hname
    · exact h.not_mem type htype hold
  | make =>
    refine ⟨h.depth_le, hlookup, fun type htype => ?_⟩
    rw [innerTypes_insertVariable]
    exact h.not_mem type htype
  | count => exact ⟨h.depth_le, hlookup, h.not_mem⟩
  | setValue hset => exact hshape (shape_setValue? hset)
  | verifyTypes => exact hshape (shape_verifyTypes store).symm
  | enterScope =>
    have hdepth : store.enterScope.scopeDepth = store.scopeDepth + 1 := rfl
    have hle := h.depth_le
    refine ⟨by omega, hlookup, fun type htype => ?_⟩
    rw [hdepth, Nat.succ_sub hle, innerTypes_enterScope]
    exact h.not_mem type htype

theorem Retains.moves (h : Retains base store) (hmoves : Moves store after) :
    Retains base after := by
  induction hmoves with
  | refl => exact h
  | tail _ hmove ih => exact ih.move hmove

theorem Retains.leaves (h : Retains base store) (hleaves : Leaves store after)
    (hdepth : base.scopeDepth ≤ after.scopeDepth) : Retains base after := by
  -- the scope that is left was opened since, so that no type from before is in it
  have hcount : store.scopeDepth - base.scopeDepth = after.scopeDepth - base.scopeDepth + 1 := by
    have := hleaves.scopeDepth
    omega
  have hnot : ∀ type, base.hasType type = true → type ∉ store.innerTypes 1 ∧
      type ∉ after.innerTypes (after.scopeDepth - base.scopeDepth) := by
    intro type htype
    have hnone := h.not_mem type htype
    rw [hcount, hleaves.innerTypes, List.mem_append, not_or] at hnone
    exact hnone
  refine ⟨hdepth, fun type htype => ?_, fun type htype => (hnot type htype).2⟩
  rw [hleaves.types, if_neg (hnot type htype).1, h.lookup type htype]

theorem Retains.perform (h : Retains base store) {operation : Operation}
    (hclear : operation ≠ .clear) (hfree : MadeFree store (store.perform operation))
    (hdepth : base.scopeDepth ≤ (store.perform operation).scopeDepth) :
    Retains base (store.perform operation) := by
  rcases perform_cases store operation hfree with hcleared | hexit | hmoves
  · exact absurd hcleared hclear
  · exact h.leaves (leaves_of_exitScope? hexit) hdepth
  · exact h.moves hmoves

/-- What a type means where it was declared, it means while its scope is open. -/
theorem Retains.lowestType (h : Retains base store) (hbase : base.Tidy)
    (htype : base.hasType type = true) : store.lowestType type = base.lowestType type :=
  lowestType_eq_of_kept hbase.grounded (fun type => base.hasType type = true)
    (fun name found _ halias => (hbase.nested.base name found halias).1) h.lookup htype

theorem retains_run {before since : List Operation} (h : MadeApart (before ++ since))
    (hopen : StaysOpen before since) : Retains (run before) (run (before ++ since)) := by
  induction since using List.reverseRecOn with
  | nil =>
    rw [List.append_nil]
    exact .refl _
  | append_singleton since operation ih =>
    obtain ⟨hclear, hdepth⟩ := hopen
    rw [← List.append_assoc] at h
    have hretains : Retains (run before) (run (before ++ since)) := by
      refine ih h.of_append ⟨fun hmem => hclear (List.mem_append_left _ hmem), fun part hpart => ?_⟩
      exact hdepth part (hpart.trans (List.prefix_append _ _))
    have hlast := hdepth (since ++ [operation]) (List.prefix_refl _)
    rw [← List.append_assoc, run_concat] at hlast ⊢
    refine hretains.perform ?_ h.madeFree hlast
    rintro rfl
    exact hclear (by simp)

/-! ## Variables that can be named -/

/-- The variables of a store that can be named in a later one have the same lowest types there. -/
structure Upholds (base store : Store) : Prop where
  size_le : base.vars.size ≤ store.vars.size
  exists_var : ∀ name id later, id < base.vars.size → (name, id) ∈ store.names →
    store.get? id = some later → ∃ var, (name, id) ∈ base.names ∧ base.get? id = some var ∧
      store.lowestType later.type = base.lowestType var.type

theorem Upholds.refl (store : Store) : Upholds store store where
  size_le := Nat.le_refl _
  exists_var _ _ later _ hmem hvar := ⟨later, hmem, hvar, rfl⟩

theorem Upholds.trans (h : Upholds base store) (hnext : Upholds store after) :
    Upholds base after where
  size_le := Nat.le_trans h.size_le hnext.size_le
  exists_var name id later hid hmem hvar := by
    have hlt := Nat.lt_of_lt_of_le hid h.size_le
    obtain ⟨mid, hmidMem, hmid, heq⟩ := hnext.exists_var name id later hlt hmem hvar
    obtain ⟨var, hvarMem, hvar, hbase⟩ := h.exists_var name id mid hid hmidMem hmid
    exact ⟨var, hvarMem, hvar, heq.trans hbase⟩

theorem Move.exists_variable (h : Move store after) {id : VariableId} {later : Variable}
    (hid : id < store.vars.size) (hmem : (name, id) ∈ after.names)
    (hvar : after.get? id = some later) :
    ∃ var, (name, id) ∈ store.names ∧ store.get? id = some var ∧ later.type = var.type := by
  have hshape : after.shape = store.shape →
      ∃ var, (name, id) ∈ store.names ∧ store.get? id = some var ∧ later.type = var.type := by
    intro hshape
    obtain ⟨values, hfound⟩ := exists_values_of_shape hshape hvar
    exact ⟨_, names_eq_of_shape hshape ▸ hmem, hfound, rfl⟩
  cases h with
  | declare | count | enterScope => exact ⟨later, hmem, hvar, rfl⟩
  | make =>
    have hne : id ≠ store.vars.size := Nat.ne_of_lt hid
    have hget : (store.vars.push _)[id]? = some later := hvar
    rw [Array.getElem?_push, if_neg hne] at hget
    refine ⟨later, (List.mem_cons.mp hmem).resolve_left fun heq => ?_, hget, rfl⟩
    exact hne (congrArg Prod.snd heq)
  | setValue hset => exact hshape (shape_setValue? hset).symm
  | verifyTypes => exact hshape (shape_verifyTypes store)

theorem Move.size_le (h : Move store after) : store.vars.size ≤ after.vars.size := by
  cases h with
  | declare | count | enterScope => exact Nat.le_refl _
  | make =>
    show store.vars.size ≤ (store.vars.push _).size
    rw [Array.size_push]
    exact Nat.le_succ _
  | setValue hset => exact Nat.le_of_eq (size_vars_eq_of_shape (shape_setValue? hset))
  | verifyTypes => exact Nat.le_of_eq (size_vars_eq_of_shape (shape_verifyTypes store).symm)

theorem Tidy.upholds_move (h : store.Tidy) (hmove : Move store after) : Upholds store after where
  size_le := hmove.size_le
  exists_var name id later hid hmem hvar := by
    obtain ⟨var, hold, hfound, htype⟩ := hmove.exists_variable hid hmem hvar
    refine ⟨var, hold, hfound, ?_⟩
    rw [htype]
    exact hmove.lowestType h.grounded h.nested (h.nested.type name id var hold hfound).1

theorem Tidy.upholds_moves (h : store.Tidy) (hmoves : Moves store after) :
    Upholds store after := by
  induction hmoves with
  | refl => exact .refl store
  | tail hmoves hmove ih => exact ih.trans ((h.moves hmoves).upholds_move hmove)

theorem Tidy.upholds_leaves (h : store.Tidy) (hleaves : Leaves store after) :
    Upholds store after where
  size_le := Nat.le_of_eq (congrArg Array.size hleaves.vars.symm)
  exists_var name id later _ hmem hvar := by
    have htype := ((h.nested.leaves hleaves).type name id later hmem hvar).1
    exact ⟨later, ((hleaves.names _).mp hmem).1, hleaves.get? hvar,
      hleaves.lowestType h.grounded h.nested htype⟩

theorem Tidy.upholds_perform (h : store.Tidy) {operation : Operation}
    (hclear : operation ≠ .clear) (hfree : MadeFree store (store.perform operation)) :
    Upholds store (store.perform operation) := by
  rcases perform_cases store operation hfree with hcleared | hexit | hmoves
  · exact absurd hcleared hclear
  · exact h.upholds_leaves (leaves_of_exitScope? hexit)
  · exact h.upholds_moves hmoves

theorem upholds_run {before since : List Operation} (h : MadeApart (before ++ since))
    (hclear : .clear ∉ since) : Upholds (run before) (run (before ++ since)) := by
  induction since using List.reverseRecOn with
  | nil =>
    rw [List.append_nil]
    exact .refl _
  | append_singleton since operation ih =>
    rw [← List.append_assoc] at h ⊢
    have hbefore := ih h.of_append fun hmem => hclear (List.mem_append_left _ hmem)
    rw [run_concat]
    refine hbefore.trans ((tidy_run h.of_append).upholds_perform ?_ h.madeFree)
    rintro rfl
    exact hclear (by simp)

/-- **Declared types keep their meaning** exactly if no type is made for a variable while a declared
one of its name is there. -/
theorem keepsMeaning_iff (operations : List Operation) :
    KeepsMeaning operations ↔ MadeApart operations := by
  constructor
  · intro h before operation after heq type hmade hdeclared
    have hfree := h.free before operation after heq type hmade
    rw [hdeclared.hasType] at hfree
    simp at hfree
  · intro h
    refine ⟨?_, ?_, ?_⟩
    · rintro before operation after rfl
      rw [List.append_cons] at h
      rw [run_concat]
      exact h.of_append.madeFree
    · rintro before since after rfl hopen type htype
      have hretains := retains_run h.of_append hopen
      exact ⟨hretains.hasType htype, hretains.lowestType (tidy_run h.of_append.of_append) htype⟩
    · rintro before since after rfl hclear name id var later hvar hid hlater
      have hlt : id < (run before).vars.size := (Array.getElem?_eq_some_iff.mp hvar).1
      have hupholds := upholds_run h.of_append hclear
      obtain ⟨found, -, hfound, heq⟩ :=
        hupholds.exists_var name id later hlt (mem_names_of_idOf? hid) hlater
      obtain rfl := Option.some.inj (hvar.symm.trans hfound)
      exact heq

/-- Marks of a type that is two names away from truth values, stored behind the end of an array in
an inner scope. -/
def marking : List Operation :=
  [.addAlias "flag" boolType, .enterScope, .addAlias "mark" "flag",
    .addVariable "marks" (some "mark") 1, .addTemporary, .setNamed "marks" (.text "yes") 2,
    .verifyTypes]

theorem not_declared_marking :
    ∀ part, part <+: marking → ∀ number, ¬(run part).Declared (untypedName number) := by
  intro part hpart number h
  have hname : untypedName number = "flag" ∨ untypedName number = "mark" := by
    rcases exists_mem_of_declared h with hmem | ⟨base, hmem⟩
    · exact absurd (hpart.subset hmem) (by simp [marking])
    · have hmark : untypedName number = "flag" ∧ base = boolType ∨
          untypedName number = "mark" ∧ base = "flag" := by simpa [marking] using hpart.subset hmem
      exact hmark.imp And.left And.left
  have hhead : (untypedName number).toList.head? = some 'I' := by
    rw [untypedName, String.toList_append]
    rfl
  rcases hname with heq | heq
  · simp [heq] at hhead
  · simp [heq] at hhead

theorem keepsMeaning_marking : MadeApart marking ∧ KeepsMeaning marking := by
  have hapart := madeApart_of_not_declared not_declared_marking
  exact ⟨hapart, (keepsMeaning_iff marking).mpr hapart⟩

/-- A type of strings with a variable, and a variable without a type, whose type takes that name. -/
def clashing : List Operation :=
  [.addAlias "INTERNAL_0" stringType, .addVariable "a" (some "INTERNAL_0") 1,
    .addVariable "b" none 1]

theorem not_keepsMeaning_clashing :
    (run (clashing.take 2)).lowestType "INTERNAL_0" = stringType ∧
      ((run clashing).variableNamed? "b").map (·.type) = some "INTERNAL_0" ∧
      (run clashing).lowestType "INTERNAL_0" = "INTERNAL_0" ∧ ¬KeepsMeaning clashing := by
  have hbefore : (run (clashing.take 2)).lowestType "INTERNAL_0" = stringType := by decide +kernel
  have hafter : (run clashing).lowestType "INTERNAL_0" = "INTERNAL_0" := by decide +kernel
  refine ⟨hbefore, by decide +kernel, hafter, fun h => ?_⟩
  have hopen : StaysOpen (clashing.take 2) [.addVariable "b" none 1] := by
    refine ⟨by simp, fun part _ => ?_⟩
    show 1 ≤ _ + 1
    exact Nat.le_add_left _ _
  have hkept := (h.lasting (clashing.take 2) [.addVariable "b" none 1] [] rfl hopen "INTERNAL_0"
    (by decide +kernel)).2
  rw [hbefore] at hkept
  exact absurd (hafter.symm.trans hkept) (by decide)

end

end LineGrammar.Store
