import LineGrammar.Proofs.Store.Veiling

/-!
# Scopes restore what was visible

What is declared in a scope is new there: a variable takes a name that means none, and a type takes
a name that no type has, unless it is made for a variable while a declared one of its name is there.
So with the names of a scope exactly that is forgotten which has come up since it was entered
(`Store.Within.exists_exitScope?`), however scopes are nested between.

Variables stay under their numbers (`Store.Endures`), and names mean variables of these names
(`Store.Faithful`). Both together are `Store.restores_run`.
-/

namespace LineGrammar.Store

/-- Operations that leave all scopes that they enter, and no others. Clearing is none of them. -/
inductive Balanced : List Operation → Prop where
  | nil : Balanced []
  | cons {operation : Operation} {operations : List Operation}
      (hscope : operation ∉ [.enterScope, .exitScope, .clear]) (hrest : Balanced operations) :
      Balanced (operation :: operations)
  | nest {inner operations : List Operation} (hinner : Balanced inner)
      (hrest : Balanced operations) :
      Balanced (.enterScope :: (inner ++ .exitScope :: operations))

/-- The same names mean the same variables, and the same types are what they were, in the same
scopes. -/
structure Restored (outer store : Store) : Prop where
  idOf?_eq : ∀ name, store.idOf? name = outer.idOf? name
  lookup_eq : ∀ type, store.types.lookup type = outer.types.lookup type
  scope : store.scope = outer.scope
  outerScopes : store.outerScopes = outer.outerScopes

/-- Different names mean different variables, each of them one of that name. -/
structure Faithful (store : Store) : Prop where
  exists_var : ∀ name id, store.idOf? name = some id →
    ∃ var, store.get? id = some var ∧ var.name = name
  injective : ∀ name other id, store.idOf? name = some id → store.idOf? other = some id →
    name = other

/-- The variables of one store are there in a later one. -/
structure Endures (base store : Store) : Prop where
  /-- Each of them has its number, perhaps with other values. -/
  kept : ∀ id var, base.get? id = some var → ∃ values, store.get? id = some { var with values }
  /-- A name that did not mean the variable before means one that was made since. -/
  found : ∀ name id, store.idOf? name = some id → base.idOf? name = some id ∨
    base.vars.size ≤ id ∧ ∃ var, store.get? id = some var ∧ var.name = name

/-- More has been declared in the current scope: variables of names that meant none, and types of
names that no type had or that are made for variables. -/
structure Broadens (store after : Store) : Prop where
  outerScopes : after.outerScopes = store.outerScopes
  vars : ∃ added, after.scope.vars = added ++ store.scope.vars ∧
    (∀ name ∈ added, store.idOf? name = none) ∧
      ∀ name, name ∉ added → after.idOf? name = store.idOf? name
  types : ∃ added, after.scope.types = added ++ store.scope.types ∧
    (∀ type ∈ added, store.hasType type = false ∨ MadeBetween store after type) ∧
      ∀ type, type ∉ added → after.types.lookup type = store.types.lookup type

/-- The current scope has been entered from the outer store, and nothing outside of it has changed. -/
structure Within (outer store : Store) : Prop where
  outerScopes : store.outerScopes = outer.scope :: outer.outerScopes
  vars : ∀ name, outer.idOf? name =
    if name ∈ store.scope.vars then none else store.idOf? name
  types : ∀ type, outer.types.lookup type =
    if type ∈ store.scope.types then none else store.types.lookup type

section

variable {base outer store after : Store} {name type : String}

/-! ## Operations that are done -/

theorem getD_of_done {property : Store → Prop} {result : Option Store} (hstore : property store)
    (hdone : ∀ after, result = some after → property after) : property (result.getD store) := by
  cases result with
  | none => exact hstore
  | some after => exact hdone after rfl

theorem idOf?_nextTemporary (store : Store) :
    store.idOf? (temporaryName store.nextTemporary) = none := by
  obtain ⟨number, hfound⟩ := exists_find?_free store
  have hnext : store.nextTemporary = number := by
    unfold nextTemporary
    dsimp only
    rw [hfound]
    rfl
  have hfree := List.find?_some hfound
  rwa [Option.isNone_iff_eq_none, ← hnext] at hfree

/-! ## Variables that stay -/

namespace Endures

theorem size_le (h : Endures base store) : base.vars.size ≤ store.vars.size := by
  by_contra hlt
  have hget : base.get? store.vars.size = some base.vars[store.vars.size] :=
    Array.getElem?_eq_getElem (by omega)
  obtain ⟨values, hkept⟩ := h.kept _ _ hget
  rw [get?, Array.getElem?_eq_none (Nat.le_refl _)] at hkept
  cases hkept

theorem of_shape (h : store.shape = after.shape) : Endures store after where
  kept _ _ hvar := exists_values_of_shape h hvar
  found name id hid := .inl (by rwa [idOf?_eq_of_shape h])

theorem of_tables (hvars : after.vars = store.vars) (hnames : after.names = store.names) :
    Endures store after := by
  refine ⟨fun id var hvar => ⟨var.values, ?_⟩, fun name id hid => .inl ?_⟩
  · rwa [get?, hvars]
  · rwa [idOf?, hnames] at hid

theorem refl (store : Store) : Endures store store :=
  of_tables rfl rfl

theorem trans (h : Endures base store) (hnext : Endures store after) : Endures base after where
  kept id var hvar := by
    obtain ⟨values, hstore⟩ := h.kept id var hvar
    obtain ⟨others, hafter⟩ := hnext.kept id _ hstore
    exact ⟨others, hafter⟩
  found name id hid := by
    rcases hnext.found name id hid with hstore | ⟨hle, hvar⟩
    · refine (h.found name id hstore).imp_right fun ⟨hle, var, hvar, hname⟩ => ⟨hle, ?_⟩
      obtain ⟨values, hafter⟩ := hnext.kept id var hvar
      exact ⟨_, hafter, hname⟩
    · exact .inr ⟨Nat.le_trans h.size_le hle, hvar⟩

theorem insertVariable (store : Store) (name type : String) (size : Nat) (temporary : Bool) :
    Endures store (store.insertVariable name type size temporary) where
  kept id var hvar := by
    have hlt : id < store.vars.size := (Array.getElem?_eq_some_iff.mp hvar).1
    refine ⟨var.values, ?_⟩
    show (store.vars.push _)[id]? = _
    rw [Array.getElem?_push_lt hlt, ← Array.getElem?_eq_getElem hlt]
    exact hvar
  found other id hid := by
    have hlookup : List.lookup other ((name, store.vars.size) :: store.names) = some id := hid
    rw [List.lookup_cons] at hlookup
    by_cases hother : other = name
    · subst hother
      rw [beq_self_eq_true] at hlookup
      obtain rfl := Option.some.inj hlookup
      exact .inr ⟨Nat.le_refl _, _, Array.getElem?_push_size, rfl⟩
    · rw [beq_eq_false_iff_ne.mpr hother] at hlookup
      exact .inl hlookup

theorem insertUntyped (store : Store) (name : String) (size : Nat) (temporary : Bool) :
    Endures store (store.insertUntyped name size temporary) := by
  have htyped : Endures store ({ store with untypedCount := store.untypedCount + 1 }.insertType
      (untypedName store.untypedCount) .untyped) := of_tables rfl rfl
  exact htyped.trans (insertVariable _ name (untypedName store.untypedCount) size temporary)

theorem addTemporary (store : Store) : Endures store store.addTemporary.1 := by
  have hcounted : Endures store { store with temporaryCount := store.nextTemporary + 1 } :=
    of_tables rfl rfl
  exact hcounted.trans (insertUntyped _ (temporaryName store.nextTemporary) 1 true)

theorem ensureVariable (store : Store) (name : String) :
    Endures store (store.ensureVariable name).1 := by
  unfold Store.ensureVariable
  split
  · exact .refl store
  · exact insertUntyped store name 1 false

theorem addVariable? {found : Option String} {size : Nat}
    (hadd : store.addVariable? name found size = some after) : Endures store after := by
  obtain ⟨-, rfl | ⟨type, -, rfl⟩⟩ := addVariable?_cases hadd
  · exact insertUntyped store name size false
  · exact insertVariable store name type size false

theorem exitScope? (hexit : store.exitScope? = some after) : Endures store after := by
  unfold Store.exitScope? at hexit
  split at hexit
  · cases hexit
  · obtain rfl := Option.some.inj hexit
    refine ⟨fun id var hvar => ⟨var.values, hvar⟩, fun name id hid => .inl ?_⟩
    have hfilter := lookup_filter store.names (fun name => name ∉ store.scope.vars) name
    rw [Store.idOf?, hfilter] at hid
    split_ifs at hid
    exact hid

end Endures

theorem endures_perform (store : Store) {operation : Operation} (hclear : operation ≠ .clear) :
    Endures store (store.perform operation) := by
  cases operation with
  | addType name =>
    refine getD_of_done (.refl store) fun after hadd => ?_
    obtain ⟨-, rfl⟩ := eq_insertType_of_addType? hadd
    exact .of_tables rfl rfl
  | addAlias name base =>
    refine getD_of_done (.refl store) fun after hadd => ?_
    obtain ⟨-, -, -, rfl⟩ := eq_insertType_of_addTypedef? hadd
    exact .of_tables rfl rfl
  | addVariable name found size =>
    exact getD_of_done (.refl store) fun after hadd => .addVariable? hadd
  | addTemporary => exact .addTemporary store
  | ensureVariable name => exact .ensureVariable store name
  | setNamed name value index =>
    exact getD_of_done (.refl store) fun after hset =>
      (Endures.ensureVariable store name).trans (.of_shape (shape_setValue? hset))
  | setValue id value index =>
    exact getD_of_done (.refl store) fun after hset => .of_shape (shape_setValue? hset)
  | enterScope => exact .of_tables rfl rfl
  | exitScope => exact getD_of_done (.refl store) fun after hexit => .exitScope? hexit
  | verifyTypes => exact .of_shape (shape_verifyTypes store).symm
  | clear => exact absurd rfl hclear

theorem endures_run (operations : List Operation) {later : List Operation} (h : .clear ∉ later) :
    Endures (run operations) (run (operations ++ later)) := by
  induction later using List.reverseRecOn with
  | nil =>
    rw [List.append_nil]
    exact .refl _
  | append_singleton later operation ih =>
    rw [List.mem_append, List.mem_singleton, not_or] at h
    rw [← List.append_assoc, run_concat]
    exact (ih h.1).trans (endures_perform _ (Ne.symm h.2))

/-! ## Names -/

theorem Faithful.of_endures (h : store.Faithful) (hendures : Endures store after) :
    after.Faithful := by
  have hvar : ∀ name id, after.idOf? name = some id →
      ∃ var, after.get? id = some var ∧ var.name = name := by
    intro name id hid
    rcases hendures.found name id hid with hold | ⟨-, hnew⟩
    · obtain ⟨var, hvar, hname⟩ := h.exists_var name id hold
      obtain ⟨values, hkept⟩ := hendures.kept id var hvar
      exact ⟨_, hkept, hname⟩
    · exact hnew
  refine ⟨hvar, fun name other id hname hother => ?_⟩
  obtain ⟨var, hget, rfl⟩ := hvar name id hname
  obtain ⟨found, hfound, rfl⟩ := hvar other id hother
  obtain rfl := Option.some.inj (hget.symm.trans hfound)
  rfl

theorem faithful_empty : ({} : Store).Faithful where
  exists_var _ _ hid := absurd hid (by simp [idOf?])
  injective _ _ _ hid _ := absurd hid (by simp [idOf?])

theorem faithful_run (operations : List Operation) : (run operations).Faithful := by
  induction operations using List.reverseRecOn with
  | nil => exact faithful_empty
  | append_singleton operations operation ih =>
    rw [run_concat]
    by_cases hclear : operation = .clear
    · subst hclear
      exact faithful_empty
    · exact ih.of_endures (endures_perform _ hclear)

/-! ## What is declared in a scope -/

namespace Broadens

theorem of_shape (h : Broadens base store) (hshape : store.shape = after.shape) :
    Broadens base after := by
  have hscope : store.scope = after.scope := by
    show store.shape.scope = after.shape.scope
    rw [hshape]
  have houter : store.outerScopes = after.outerScopes := by
    show store.shape.outerScopes = after.shape.outerScopes
    rw [hshape]
  obtain ⟨houterScopes, ⟨vars, hvars, hvarsFree, hvarsKept⟩, ⟨types, htypes, htypesFree, hkept⟩⟩ := h
  refine ⟨houter ▸ houterScopes, ⟨vars, hscope ▸ hvars, hvarsFree, fun name hname => ?_⟩,
    ⟨types, hscope ▸ htypes, fun type htype => ?_, fun type htype => ?_⟩⟩
  · rw [← idOf?_eq_of_shape hshape]
    exact hvarsKept name hname
  · rw [MadeBetween, ← untypedCount_eq_of_shape hshape]
    exact htypesFree type htype
  · rw [← types_eq_of_shape hshape]
    exact hkept type htype

theorem refl (store : Store) : Broadens store store :=
  ⟨rfl, ⟨[], rfl, by simp, fun _ _ => rfl⟩, ⟨[], rfl, by simp, fun _ _ => rfl⟩⟩

theorem insertType {kind : TypeKind} (hname : store.hasType name = false) :
    Broadens store (store.insertType name kind) where
  outerScopes := rfl
  vars := ⟨[], rfl, by simp, fun _ _ => rfl⟩
  types := by
    refine ⟨[name], rfl, by simp [hname], fun type htype => ?_⟩
    rw [lookup_insertType, if_neg (by simpa using htype)]

theorem insertVariable (hname : store.idOf? name = none) (type : String) (size : Nat)
    (temporary : Bool) : Broadens store (store.insertVariable name type size temporary) where
  outerScopes := rfl
  vars := by
    refine ⟨[name], rfl, by simp [hname], fun other hother => ?_⟩
    show List.lookup other ((name, store.vars.size) :: store.names) = _
    rw [List.lookup_cons, beq_eq_false_iff_ne.mpr (by simpa using hother)]
    rfl
  types := ⟨[], rfl, by simp, fun _ _ => rfl⟩

theorem insertUntyped (hname : store.idOf? name = none) (size : Nat) (temporary : Bool) :
    Broadens store (store.insertUntyped name size temporary) where
  outerScopes := rfl
  vars := by
    refine ⟨[name], rfl, by simp [hname], fun other hother => ?_⟩
    rw [idOf?_insertUntyped, if_neg (by simpa using hother)]
  types := by
    refine ⟨[untypedName store.untypedCount], rfl, ?_, fun type htype => ?_⟩
    · simp [madeBetween_insertUntyped]
    · rw [lookup_types_insertUntyped, if_neg (by simpa using htype)]

theorem ensureVariable (store : Store) (name : String) :
    Broadens store (store.ensureVariable name).1 := by
  unfold Store.ensureVariable
  split
  · exact .refl store
  · next hname => exact insertUntyped hname 1 false

theorem addVariable? {found : Option String} {size : Nat}
    (hadd : store.addVariable? name found size = some after) : Broadens store after := by
  obtain ⟨hname, rfl | ⟨type, -, rfl⟩⟩ := addVariable?_cases hadd
  · exact insertUntyped hname size false
  · exact insertVariable hname type size false

theorem addTemporary (store : Store) : Broadens store store.addTemporary.1 := by
  obtain ⟨houter, hvars, htypes⟩ := @insertUntyped
    { store with temporaryCount := store.nextTemporary + 1 } _ (idOf?_nextTemporary store) 1 true
  exact ⟨houter, hvars, htypes⟩

end Broadens

theorem broadens_perform (store : Store) {operation : Operation}
    (hscope : operation ∉ [.enterScope, .exitScope, .clear]) :
    Broadens store (store.perform operation) := by
  cases operation with
  | addType name =>
    refine getD_of_done (.refl store) fun after hadd => ?_
    obtain ⟨hname, rfl⟩ := eq_insertType_of_addType? hadd
    exact .insertType hname
  | addAlias name base =>
    refine getD_of_done (.refl store) fun after hadd => ?_
    obtain ⟨hname, -, -, rfl⟩ := eq_insertType_of_addTypedef? hadd
    exact .insertType hname
  | addVariable name found size =>
    exact getD_of_done (.refl store) fun after hadd => .addVariable? hadd
  | addTemporary => exact .addTemporary store
  | ensureVariable name => exact .ensureVariable store name
  | setNamed name value index =>
    exact getD_of_done (.refl store) fun after hset =>
      (Broadens.ensureVariable store name).of_shape (shape_setValue? hset)
  | setValue id value index =>
    exact getD_of_done (.refl store) fun after hset =>
      (Broadens.refl store).of_shape (shape_setValue? hset)
  | verifyTypes => exact (Broadens.refl store).of_shape (shape_verifyTypes store).symm
  | enterScope | exitScope | clear => simp at hscope

/-! ## Inside of a scope -/

namespace Within

theorem enterScope (store : Store) : Within store store.enterScope :=
  ⟨rfl, fun _ => (if_neg List.not_mem_nil).symm, fun _ => (if_neg List.not_mem_nil).symm⟩

/-- What is declared in a scope hides nothing outside of it. -/
theorem of_broadens (h : Within outer store) (hbroadens : Broadens store after)
    (hfree : MadeFree store after) : Within outer after := by
  obtain ⟨houter, ⟨vars, hvars, hvarsFree, hvarsKept⟩, ⟨types, htypes, htypesFree, hkept⟩⟩ :=
    hbroadens
  refine ⟨houter.trans h.outerScopes, fun name => ?_, fun type => ?_⟩
  · rw [h.vars, hvars]
    by_cases hname : name ∈ vars
    · simp [hname, hvarsFree name hname]
    · simp [hname, hvarsKept name hname]
  · rw [h.types, htypes]
    by_cases htype : type ∈ types
    · have hnone : store.types.lookup type = none := by
        simpa [hasType] using (htypesFree type htype).elim id (hfree type)
      simp [htype, hnone]
    · simp [htype, hkept type htype]

theorem of_restored (h : Within outer store) (hrestored : Restored store after) :
    Within outer after := by
  refine ⟨hrestored.outerScopes.trans h.outerScopes, fun name => ?_, fun type => ?_⟩
  · rw [hrestored.scope, hrestored.idOf?_eq]
    exact h.vars name
  · rw [hrestored.scope, hrestored.lookup_eq]
    exact h.types type

theorem exists_exitScope? (h : Within outer store) :
    ∃ after, store.exitScope? = some after ∧ Restored outer after := by
  unfold exitScope?
  rw [h.outerScopes]
  refine ⟨_, rfl, fun name => ?_, fun type => ?_, rfl, rfl⟩
  · rw [h.vars]
    refine (lookup_filter store.names (fun name => name ∉ store.scope.vars) name).trans ?_
    by_cases hname : name ∈ store.scope.vars <;> simp [hname, idOf?]
  · rw [h.types]
    exact lookup_filter_keys store.types store.scope.types type

end Within

/-- Operations that leave the scopes that they enter change nothing outside of the current one. -/
theorem Balanced.within {operations : List Operation} (h : Balanced operations)
    {before : List Operation} (hapart : MadeApart (before ++ operations))
    (hwithin : Within outer (run before)) : Within outer (run (before ++ operations)) := by
  induction h generalizing before outer with
  | nil =>
    rw [List.append_nil]
    exact hwithin
  | @cons operation operations hscope _ ih =>
    rw [List.append_cons] at hapart ⊢
    refine ih hapart ?_
    rw [run_concat]
    exact hwithin.of_broadens (broadens_perform _ hscope) hapart.of_append.madeFree
  | @nest inner operations _ _ ihInner ihRest =>
    have hsplit : before ++ .enterScope :: (inner ++ .exitScope :: operations) =
        before ++ [.enterScope] ++ inner ++ [.exitScope] ++ operations := by simp
    rw [hsplit] at hapart ⊢
    refine ihRest hapart ?_
    have hentered : Within (run before) (run (before ++ [.enterScope])) := by
      rw [run_concat]
      exact .enterScope _
    obtain ⟨after, hexit, hrestored⟩ :=
      (ihInner hapart.of_append.of_append hentered).exists_exitScope?
    rw [run_concat, perform, hexit]
    exact hwithin.of_restored hrestored

/-- **Scopes restore what was visible, and numbers of variables last.** Unless a type is declared
under a name that types are made under, leaving a scope brings back the names and types that there
were when it was entered. Names always mean variables of these names, one each, and the variables
stay under their numbers until the store is cleared. -/
theorem restores_run (operations : List Operation) :
    (∀ inner, Balanced inner →
      (∀ part, part <+: operations ++ .enterScope :: inner →
        ∀ number, ¬(run part).Declared (untypedName number)) →
      ∃ after, (run (operations ++ .enterScope :: inner)).exitScope? = some after ∧
        Restored (run operations) after) ∧
    (run operations).Faithful ∧
    ∀ later, .clear ∉ later → Endures (run operations) (run (operations ++ later)) := by
  refine ⟨fun inner hbalanced hnone => ?_, faithful_run operations,
    fun later hclear => endures_run operations hclear⟩
  have hapart := madeApart_of_not_declared hnone
  rw [List.append_cons] at hapart ⊢
  refine (hbalanced.within hapart ?_).exists_exitScope?
  rw [run_concat]
  exact .enterScope _

/-- A type and a variable, declared outside of any scope. -/
def lamp : List Operation :=
  [.addAlias "flag" boolType, .addVariable "lamp" (some "flag") 1]

/-- A type and a variable, a scope with a temporary variable and another one, and behind it a write
that declares that one again. -/
def switches : List Operation :=
  [.addAlias "switch" "flag", .addVariable "left" (some "switch") 1, .enterScope, .addTemporary,
    .ensureVariable "right", .exitScope, .setNamed "right" (.int 1) 0]

theorem restores_run_switches :
    Balanced switches ∧
      (∀ part, part <+: lamp ++ .enterScope :: switches →
        ∀ number, ¬(run part).Declared (untypedName number)) ∧
      (run (lamp ++ .enterScope :: switches)).idOf? "right" = some 4 ∧
      (∃ after, (run (lamp ++ .enterScope :: switches)).exitScope? = some after ∧
        Restored (run lamp) after) ∧
      (run lamp).Faithful ∧
      Endures (run lamp) (run (lamp ++ (.enterScope :: switches ++ [.exitScope]))) := by
  have hbalanced : Balanced switches :=
    .cons (by simp) (.cons (by simp) (@Balanced.nest [.addTemporary, .ensureVariable "right"] _
      (.cons (by simp) (.cons (by simp) .nil)) (.cons (by simp) .nil)))
  have hnone : ∀ part, part <+: lamp ++ .enterScope :: switches →
      ∀ number, ¬(run part).Declared (untypedName number) := by
    intro part hpart number h
    have hname : untypedName number = "flag" ∨ untypedName number = "switch" := by
      rcases exists_mem_of_declared h with hmem | ⟨base, hmem⟩
      · exact absurd (hpart.subset hmem) (by simp [lamp, switches])
      · have hdeclared : untypedName number = "flag" ∧ base = boolType ∨
            untypedName number = "switch" ∧ base = "flag" := by
          simpa [lamp, switches] using hpart.subset hmem
        exact hdeclared.imp And.left And.left
    have hhead : (untypedName number).toList.head? = some 'I' := by
      rw [untypedName, String.toList_append]
      rfl
    rcases hname with heq | heq
    · simp [heq] at hhead
    · simp [heq] at hhead
  obtain ⟨hrestores, hfaithful, hendures⟩ := restores_run lamp
  exact ⟨hbalanced, hnone, by decide +kernel, hrestores switches hbalanced hnone, hfaithful,
    hendures _ (by simp [switches])⟩

end

end LineGrammar.Store
