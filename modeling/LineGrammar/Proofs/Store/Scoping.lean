import LineGrammar.Proofs.Store.Operating

/-!
# Scopes of types

What a scope has declared is forgotten when it is left. Another name of a type is forgotten no later
than the type, and a variable no later than its type (`Nested`), so that no type that is in use ever
vanishes. This holds in every store that is reached without making a type under a name that is taken
(`Tidy.perform`).
-/

namespace LineGrammar.Store

/-- The types that the innermost scopes have declared, so many of them. -/
def innerTypes (store : Store) (count : Nat) : List String :=
  ((store.scope :: store.outerScopes).take count).flatMap (·.types)

/-- The variables that the innermost scopes have declared, so many of them. -/
def innerVars (store : Store) (count : Nat) : List String :=
  ((store.scope :: store.outerScopes).take count).flatMap (·.vars)

/-- No type is forgotten before what is declared with it. -/
structure Nested (store : Store) : Prop where
  base : ∀ name base, store.types.lookup name = some (.alias base) → store.hasType base = true ∧
    ∀ count, base ∈ store.innerTypes count → name ∈ store.innerTypes count
  type : ∀ name id var, (name, id) ∈ store.names → store.get? id = some var →
    store.hasType var.type = true ∧
      ∀ count, var.type ∈ store.innerTypes count → name ∈ store.innerVars count

/-- A type is primitive, was declared, or was made with a number that has been counted. -/
structure Counted (store : Store) : Prop where
  primitive : ∀ type, store.types.lookup type = some .primitive →
    type ∈ [boolType, stringType, intType, realType]
  untyped : ∀ type, store.types.lookup type = some .untyped →
    ∃ number < store.untypedCount, type = untypedName number

/-- All that is known of types and scopes. -/
structure Tidy (store : Store) : Prop where
  sound : store.Sound
  grounded : store.Grounded
  nested : store.Nested
  counted : store.Counted

section

variable {store after : Store} {name type : String} {count : Nat}

/-! ## Open scopes -/

theorem innerTypes_succ (store : Store) (count : Nat) :
    store.innerTypes (count + 1) =
      store.scope.types ++ (store.outerScopes.take count).flatMap (·.types) := by
  rw [innerTypes, List.take_succ_cons, List.flatMap_cons]

theorem innerVars_succ (store : Store) (count : Nat) :
    store.innerVars (count + 1) =
      store.scope.vars ++ (store.outerScopes.take count).flatMap (·.vars) := by
  rw [innerVars, List.take_succ_cons, List.flatMap_cons]

theorem mem_innerTypes_insertType {kind : TypeKind} :
    type ∈ (store.insertType name kind).innerTypes count ↔
      0 < count ∧ type = name ∨ type ∈ store.innerTypes count := by
  cases count with
  | zero => simp [innerTypes]
  | succ count =>
    rw [innerTypes_succ, innerTypes_succ]
    simp [insertType]

theorem mem_innerVars_insertVariable {other : String} {size : Nat} {temporary : Bool} :
    other ∈ (store.insertVariable name type size temporary).innerVars count ↔
      0 < count ∧ other = name ∨ other ∈ store.innerVars count := by
  cases count with
  | zero => simp [innerVars]
  | succ count =>
    rw [innerVars_succ, innerVars_succ]
    simp [insertVariable]

theorem innerTypes_enterScope (store : Store) (count : Nat) :
    store.enterScope.innerTypes (count + 1) = store.innerTypes count := by
  rw [innerTypes_succ]
  rfl

theorem innerVars_enterScope (store : Store) (count : Nat) :
    store.enterScope.innerVars (count + 1) = store.innerVars count := by
  rw [innerVars_succ]
  rfl

theorem innerTypes_eq_of_shape (h : store.shape = after.shape) :
    store.innerTypes = after.innerTypes := by
  show store.shape.innerTypes = after.shape.innerTypes
  rw [h]

theorem innerVars_eq_of_shape (h : store.shape = after.shape) :
    store.innerVars = after.innerVars := by
  show store.shape.innerVars = after.shape.innerVars
  rw [h]

theorem scopeDepth_eq_of_shape (h : store.shape = after.shape) :
    store.scopeDepth = after.scopeDepth := by
  show store.shape.scopeDepth = after.shape.scopeDepth
  rw [h]

/-- What is left when a scope is left. -/
structure Leaves (store after : Store) : Prop where
  types : ∀ type, after.types.lookup type =
    if type ∈ store.innerTypes 1 then none else store.types.lookup type
  names : ∀ entry, entry ∈ after.names ↔ entry ∈ store.names ∧ entry.1 ∉ store.innerVars 1
  innerTypes : ∀ count, store.innerTypes (count + 1) = store.innerTypes 1 ++ after.innerTypes count
  innerVars : ∀ count, store.innerVars (count + 1) = store.innerVars 1 ++ after.innerVars count
  vars : after.vars = store.vars
  untypedCount : after.untypedCount = store.untypedCount
  scopeDepth : after.scopeDepth + 1 = store.scopeDepth

theorem leaves_of_exitScope? (h : store.exitScope? = some after) : Leaves store after := by
  unfold exitScope? at h
  split at h
  · simp at h
  · next outer rest houter =>
    obtain rfl := Option.some.inj h
    have htypes : store.innerTypes 1 = store.scope.types := by simp [Store.innerTypes]
    have hvars : store.innerVars 1 = store.scope.vars := by simp [Store.innerVars]
    refine ⟨fun type => ?_, fun entry => ?_, fun count => ?_, fun count => ?_, rfl, rfl, ?_⟩
    · rw [htypes]
      exact lookup_filter_keys store.types store.scope.types type
    · rw [hvars]
      simp
    · rw [innerTypes_succ, htypes, houter]
      rfl
    · rw [innerVars_succ, hvars, houter]
      rfl
    · simp [scopeDepth, houter]

/-! ## Types that are kept -/

/-- Types that stay what they are, with all types that they are other names of, lead on to the same
last ones. -/
theorem lowestType_eq_of_kept (h : store.Grounded) (kept : String → Prop)
    (hbase : ∀ name base, kept name → store.types.lookup name = some (.alias base) → kept base)
    (hsame : ∀ name, kept name → after.types.lookup name = store.types.lookup name)
    (htype : kept type) : after.lowestType type = store.lowestType type := by
  obtain ⟨names, last, hleads⟩ := h type
  have hafter : LeadsTo after.types type names last := by
    clear h
    induction hleads with
    | @stay type hlast =>
      refine .stay fun base => ?_
      rw [hsame type htype]
      exact hlast base
    | @follow type base last names halias _ ih =>
      refine .follow ?_ (ih (hbase type base htype halias))
      rw [hsame type htype, halias]
  rw [hafter.lowestType_eq, hleads.lowestType_eq]

theorem Move.lookup (h : Move store after) (htype : store.hasType type = true) :
    after.types.lookup type = store.types.lookup type := by
  cases h with
  | @declare name kind hname =>
    rw [lookup_insertType, if_neg]
    rintro rfl
    rw [hname] at htype
    simp at htype
  | make | count | enterScope => rfl
  | setValue hset => rw [← types_eq_of_shape (shape_setValue? hset)]
  | verifyTypes => rw [types_eq_of_shape (shape_verifyTypes store)]

theorem Move.lowestType (h : Move store after) (hgrounded : store.Grounded)
    (hnested : store.Nested) (htype : store.hasType type = true) :
    after.lowestType type = store.lowestType type :=
  lowestType_eq_of_kept hgrounded (fun type => store.hasType type = true)
    (fun name base _ halias => (hnested.base name base halias).1)
    (fun _ hname => h.lookup hname) htype

theorem Leaves.get? (h : Leaves store after) {id : VariableId} {var : Variable}
    (hvar : after.get? id = some var) : store.get? id = some var := by
  rw [Store.get?, ← h.vars]
  exact hvar

theorem Leaves.hasType_iff (h : Leaves store after) :
    after.hasType type = true ↔ store.hasType type = true ∧ type ∉ store.innerTypes 1 := by
  rw [Store.hasType, h.types]
  split_ifs with hmem
  · simp [hmem]
  · simp [hmem, Store.hasType]

theorem Leaves.lowestType (h : Leaves store after) (hgrounded : store.Grounded)
    (hnested : store.Nested) (htype : after.hasType type = true) :
    after.lowestType type = store.lowestType type := by
  refine lowestType_eq_of_kept hgrounded (fun type => after.hasType type = true) ?_ ?_ htype
  · intro name base hname halias
    obtain ⟨hbase, hinner⟩ := hnested.base name base halias
    exact h.hasType_iff.mpr ⟨hbase, fun hmem => (h.hasType_iff.mp hname).2 (hinner 1 hmem)⟩
  · intro name hname
    rw [h.types, if_neg (h.hasType_iff.mp hname).2]

/-! ## Invariants -/

theorem pos_of_mem_innerTypes (h : type ∈ store.innerTypes count) : 0 < count := by
  by_contra hzero
  obtain rfl : count = 0 := by omega
  simp [innerTypes] at h

theorem innerVars_insertType (store : Store) (name : String) (kind : TypeKind) (count : Nat) :
    (store.insertType name kind).innerVars count = store.innerVars count := by
  cases count <;> rfl

theorem innerTypes_insertVariable (store : Store) (name type : String) (size : Nat)
    (temporary : Bool) (count : Nat) :
    (store.insertVariable name type size temporary).innerTypes count = store.innerTypes count := by
  cases count <;> rfl

theorem Nested.declare (h : store.Nested) {kind : TypeKind} (hname : store.hasType name = false)
    (hbase : ∀ base, kind = .alias base → store.hasType base = true) :
    (store.insertType name kind).Nested := by
  have hkept : ∀ type, store.hasType type = true →
      (store.insertType name kind).hasType type = true := by
    intro type htype
    rw [hasType_insertType, htype, Bool.or_true]
  have hinner : ∀ type count, store.hasType type = true →
      type ∈ (store.insertType name kind).innerTypes count → type ∈ store.innerTypes count := by
    intro type count htype hmem
    rcases mem_innerTypes_insertType.mp hmem with ⟨-, rfl⟩ | hold
    · simp [hname] at htype
    · exact hold
  refine ⟨fun other base halias => ?_, fun other id var hmem hvar => ?_⟩
  · rw [lookup_insertType] at halias
    split_ifs at halias with hother
    · -- the new name is in the innermost scope, and is forgotten first
      have htype := hbase base (Option.some.inj halias)
      refine ⟨hkept base htype, fun count hmem => mem_innerTypes_insertType.mpr (.inl ?_)⟩
      exact ⟨pos_of_mem_innerTypes hmem, hother⟩
    · obtain ⟨htype, hforgotten⟩ := h.base other base halias
      refine ⟨hkept base htype, fun count hmem => mem_innerTypes_insertType.mpr (.inr ?_)⟩
      exact hforgotten count (hinner base count htype hmem)
  · obtain ⟨htype, hforgotten⟩ := h.type other id var hmem hvar
    refine ⟨hkept var.type htype, fun count hmem => ?_⟩
    rw [innerVars_insertType]
    exact hforgotten count (hinner var.type count htype hmem)

theorem Nested.make (h : store.Nested) (hsound : store.Sound) {size : Nat} {temporary : Bool}
    (htype : store.hasType type = true) :
    (store.insertVariable name type size temporary).Nested := by
  refine ⟨fun other base halias => ?_, fun other id var hmem hvar => ?_⟩
  · obtain ⟨hbase, hforgotten⟩ := h.base other base halias
    refine ⟨hbase, fun count => ?_⟩
    rw [innerTypes_insertVariable]
    exact hforgotten count
  · have hget : (store.vars.push _)[id]? = some var := hvar
    rw [Array.getElem?_push] at hget
    rcases List.mem_cons.mp hmem with heq | hold
    · -- the new variable is in the innermost scope, and is forgotten first
      obtain ⟨rfl, rfl⟩ := Prod.mk.inj heq
      rw [if_pos rfl] at hget
      obtain rfl := Option.some.inj hget
      refine ⟨htype, fun count hinner => mem_innerVars_insertVariable.mpr (.inl ⟨?_, rfl⟩)⟩
      exact pos_of_mem_innerTypes hinner
    · rw [if_neg (Nat.ne_of_lt (hsound.lt _ hold))] at hget
      obtain ⟨hvarType, hforgotten⟩ := h.type other id var hold hget
      refine ⟨hvarType, fun count hinner => mem_innerVars_insertVariable.mpr (.inr ?_)⟩
      rw [innerTypes_insertVariable] at hinner
      exact hforgotten count hinner

theorem Nested.enterScope (h : store.Nested) : store.enterScope.Nested := by
  refine ⟨fun name base halias => ?_, fun name id var hmem hvar => ?_⟩
  · obtain ⟨hbase, hforgotten⟩ := h.base name base halias
    refine ⟨hbase, fun count hinner => ?_⟩
    obtain ⟨count, rfl⟩ := Nat.exists_eq_add_of_le' (pos_of_mem_innerTypes hinner)
    rw [innerTypes_enterScope] at hinner ⊢
    exact hforgotten count hinner
  · obtain ⟨htype, hforgotten⟩ := h.type name id var hmem hvar
    refine ⟨htype, fun count hinner => ?_⟩
    obtain ⟨count, rfl⟩ := Nat.exists_eq_add_of_le' (pos_of_mem_innerTypes hinner)
    rw [innerTypes_enterScope] at hinner
    rw [innerVars_enterScope]
    exact hforgotten count hinner

theorem Nested.of_shape (h : store.Nested) (hshape : store.shape = after.shape) :
    after.Nested := by
  have htypes := types_eq_of_shape hshape
  refine ⟨fun name base halias => ?_, fun name id var hmem hvar => ?_⟩
  · rw [← htypes] at halias
    rw [hasType, ← htypes, ← innerTypes_eq_of_shape hshape]
    exact h.base name base halias
  · obtain ⟨values, hfound⟩ := exists_values_of_shape hshape.symm hvar
    rw [← names_eq_of_shape hshape] at hmem
    rw [hasType, ← htypes, ← innerTypes_eq_of_shape hshape, ← innerVars_eq_of_shape hshape]
    exact h.type name id { var with values } hmem hfound

theorem Nested.move (h : store.Nested) (hsound : store.Sound) (hmove : Move store after) :
    after.Nested := by
  cases hmove with
  | declare hname _ _ hbase => exact h.declare hname fun base heq => (hbase base heq).1
  | make htype => exact h.make hsound htype
  | count => exact ⟨h.base, h.type⟩
  | setValue hset => exact h.of_shape (shape_setValue? hset)
  | enterScope => exact h.enterScope
  | verifyTypes => exact h.of_shape (shape_verifyTypes store).symm

/-- What is not forgotten with the innermost scope was declared with something that is not either,
and is forgotten no later with the others. -/
theorem Leaves.not_mem_and_forall (h : Leaves store after) {inner innerAfter : Nat → List String}
    (hinner : ∀ count, inner (count + 1) = inner 1 ++ innerAfter count)
    (hforgotten : ∀ count, type ∈ store.innerTypes count → name ∈ inner count)
    (hname : name ∉ inner 1) :
    type ∉ store.innerTypes 1 ∧
      ∀ count, type ∈ after.innerTypes count → name ∈ innerAfter count := by
  refine ⟨fun hmem => hname (hforgotten 1 hmem), fun count hmem => ?_⟩
  have hlater : name ∈ inner (count + 1) := by
    apply hforgotten
    rw [h.innerTypes]
    exact List.mem_append_right _ hmem
  rw [hinner] at hlater
  exact (List.mem_append.mp hlater).resolve_left hname

theorem Nested.leaves (h : store.Nested) (hleaves : Leaves store after) : after.Nested := by
  refine ⟨fun name base halias => ?_, fun name id var hmem hvar => ?_⟩
  · rw [hleaves.types] at halias
    split_ifs at halias with hname
    obtain ⟨hbase, hforgotten⟩ := h.base name base halias
    obtain ⟨hkept, hlater⟩ := hleaves.not_mem_and_forall hleaves.innerTypes hforgotten hname
    exact ⟨hleaves.hasType_iff.mpr ⟨hbase, hkept⟩, hlater⟩
  · obtain ⟨hold, hname⟩ := (hleaves.names (name, id)).mp hmem
    obtain ⟨htype, hforgotten⟩ := h.type name id var hold (hleaves.get? hvar)
    obtain ⟨hkept, hlater⟩ := hleaves.not_mem_and_forall hleaves.innerVars hforgotten hname
    exact ⟨hleaves.hasType_iff.mpr ⟨htype, hkept⟩, hlater⟩

theorem Counted.of_types (h : store.Counted) (htypes : after.types = store.types)
    (hcount : store.untypedCount ≤ after.untypedCount) : after.Counted := by
  refine ⟨fun type => ?_, fun type huntyped => ?_⟩
  · rw [htypes]
    exact h.primitive type
  · rw [htypes] at huntyped
    obtain ⟨number, hlt, rfl⟩ := h.untyped type huntyped
    exact ⟨number, Nat.lt_of_lt_of_le hlt hcount, rfl⟩

theorem Counted.move (h : store.Counted) (hmove : Move store after) : after.Counted := by
  cases hmove with
  | @declare name kind _ hkind hmade _ =>
    refine ⟨fun type hprimitive => ?_, fun type huntyped => ?_⟩
    · rw [lookup_insertType] at hprimitive
      split_ifs at hprimitive
      · exact absurd (Option.some.inj hprimitive) hkind
      · exact h.primitive type hprimitive
    · rw [lookup_insertType] at huntyped
      split_ifs at huntyped with hname
      · rw [hname]
        exact hmade (Option.some.inj huntyped)
      · exact h.untyped type huntyped
  | make | enterScope => exact h.of_types rfl (Nat.le_refl _)
  | count hcount => exact h.of_types rfl hcount
  | setValue hset =>
    have hshape := shape_setValue? hset
    refine h.of_types (types_eq_of_shape hshape).symm (Nat.le_of_eq ?_)
    exact untypedCount_eq_of_shape hshape
  | verifyTypes =>
    have hshape := shape_verifyTypes store
    refine h.of_types (types_eq_of_shape hshape) (Nat.le_of_eq ?_)
    exact (untypedCount_eq_of_shape hshape).symm

theorem Counted.leaves (h : store.Counted) (hleaves : Leaves store after) : after.Counted := by
  refine ⟨fun type hprimitive => ?_, fun type huntyped => ?_⟩
  · rw [hleaves.types] at hprimitive
    split_ifs at hprimitive
    exact h.primitive type hprimitive
  · rw [hleaves.types] at huntyped
    split_ifs at huntyped
    rw [hleaves.untypedCount]
    exact h.untyped type huntyped

theorem Sound.move (h : store.Sound) (hmove : Move store after) : after.Sound := by
  cases hmove with
  | declare | count | enterScope => exact ⟨h.lt, h.nodup⟩
  | make => exact sound_insertVariable h _ _ _ _
  | setValue hset => exact h.of_shape (shape_setValue? hset)
  | verifyTypes => exact h.of_shape (shape_verifyTypes store).symm

theorem Grounded.move (h : store.Grounded) (hmove : Move store after) : after.Grounded := by
  cases hmove with
  | @declare name kind hname _ _ hbase =>
    by_cases halias : ∃ base, kind = .alias base
    · obtain ⟨base, rfl⟩ := halias
      obtain ⟨htype, hlowest⟩ := hbase base rfl
      have hadd : store.addTypedef? name base = some (store.insertType name (.alias base)) := by
        simp [Store.addTypedef?, hname, htype, hlowest]
      exact h.addTypedef? hadd
    · exact h.setType (fun base heq => halias ⟨base, heq⟩) rfl
  | make | count | enterScope => exact h.of_types rfl
  | setValue hset => exact h.of_types (types_eq_of_shape (shape_setValue? hset)).symm
  | verifyTypes => exact h.of_types (types_eq_of_shape (shape_verifyTypes store))

theorem tidy_empty : ({} : Store).Tidy := by
  refine ⟨⟨?_, List.nodup_nil⟩, grounded_empty, ⟨?_, ?_⟩, ⟨?_, ?_⟩⟩
  · exact fun entry hentry => absurd hentry List.not_mem_nil
  · exact fun name base h => absurd (eq_primitive_of_lookup_empty h).2 (by simp)
  · exact fun name id var hentry => absurd hentry List.not_mem_nil
  · exact fun type h => (eq_primitive_of_lookup_empty h).1
  · exact fun type h => absurd (eq_primitive_of_lookup_empty h).2 (by simp)

theorem Tidy.move (h : store.Tidy) (hmove : Move store after) : after.Tidy :=
  ⟨h.sound.move hmove, h.grounded.move hmove, h.nested.move h.sound hmove, h.counted.move hmove⟩

theorem Tidy.moves (h : store.Tidy) (hmoves : Moves store after) : after.Tidy := by
  induction hmoves with
  | refl => exact h
  | tail _ hmove ih => exact ih.move hmove

theorem Tidy.exitScope? (h : store.Tidy) (hexit : store.exitScope? = some after) : after.Tidy :=
  have hleaves := leaves_of_exitScope? hexit
  ⟨h.sound.exitScope? hexit, h.grounded.exitScope? hexit, h.nested.leaves hleaves,
    h.counted.leaves hleaves⟩

theorem Tidy.perform (h : store.Tidy) {operation : Operation}
    (hfree : MadeFree store (store.perform operation)) : (store.perform operation).Tidy := by
  rcases perform_cases store operation hfree with rfl | hexit | hmoves
  · exact tidy_empty
  · exact h.exitScope? hexit
  · exact h.moves hmoves

end

end LineGrammar.Store
