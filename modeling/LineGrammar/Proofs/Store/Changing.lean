import LineGrammar.Proofs.Store.Aliases
import LineGrammar.Proofs.Store.Memory
import Mathlib.Logic.Relation

/-!
# Operations of stores

A store starts empty and is changed by operations only. They keep it sound, and no operation makes
types other names of each other.
-/

namespace LineGrammar.Store

inductive Change : Store → Store → Prop
  | addType {store after : Store} {name : String} (h : store.addType? name = some after) :
      Change store after
  | addTypedef {store after : Store} {name base : String}
      (h : store.addTypedef? name base = some after) : Change store after
  | addVariable {store after : Store} {name : String} {type : Option String} {size : Nat}
      (h : store.addVariable? name type size = some after) : Change store after
  | addTemporary (store : Store) : Change store store.addTemporary.1
  | ensureVariable (store : Store) (name : String) : Change store (store.ensureVariable name).1
  | setValue {store after : Store} {id : VariableId} {value : Value} {index : Nat}
      (h : store.setValue? id value index = some after) : Change store after
  | enterScope (store : Store) : Change store store.enterScope
  | exitScope {store after : Store} (h : store.exitScope? = some after) : Change store after
  | verifyTypes (store : Store) : Change store store.verifyTypes.1

abbrev Changes : Store → Store → Prop :=
  Relation.ReflTransGen Change

/-- The stores that there can be. -/
def Reachable (store : Store) : Prop :=
  Changes {} store

section

variable {store after : Store} {name base : String}

/-! ## Declarations that are done -/

theorem eq_insertType_of_addType? (hadd : store.addType? name = some after) :
    store.hasType name = false ∧ after = store.insertType name .named := by
  unfold addType? at hadd
  split_ifs at hadd with hname
  exact ⟨by simpa using hname, (Option.some.inj hadd).symm⟩

theorem eq_insertType_of_addTypedef? (hadd : store.addTypedef? name base = some after) :
    store.hasType name = false ∧ store.hasType base = true ∧ store.lowestType base ≠ name ∧
      after = store.insertType name (.alias base) := by
  unfold addTypedef? at hadd
  split_ifs at hadd with hrejected
  simp only [Bool.or_eq_true, not_or, Bool.not_eq_true] at hrejected
  obtain ⟨⟨hname, hbase⟩, hlowest⟩ := hrejected
  exact ⟨hname, by simpa using hbase, beq_eq_false_iff_ne.mp hlowest, (Option.some.inj hadd).symm⟩

theorem addVariable?_cases {found : Option String} {size : Nat}
    (hadd : store.addVariable? name found size = some after) :
    store.idOf? name = none ∧ (after = store.insertUntyped name size false ∨
      ∃ type, store.hasType type = true ∧ after = store.insertVariable name type size false) := by
  unfold addVariable? at hadd
  split_ifs at hadd with hname
  refine ⟨by simpa using hname, ?_⟩
  cases found with
  | none => exact .inl (Option.some.inj hadd).symm
  | some type =>
    dsimp only at hadd
    split_ifs at hadd with htype
    exact .inr ⟨type, htype, (Option.some.inj hadd).symm⟩

/-! ## Types -/

theorem lookup_filter {α : Type} (entries : List (String × α)) (kept : String → Bool)
    (name : String) :
    (entries.filter fun entry => kept entry.1).lookup name =
      if kept name then entries.lookup name else none := by
  induction entries with
  | nil => exact (ite_self _).symm
  | cons entry entries ih =>
    obtain ⟨other, value⟩ := entry
    by_cases hkept : kept other = true
    · rw [List.filter_cons_of_pos (by exact hkept), List.lookup_cons, List.lookup_cons, ih]
      by_cases hname : name = other
      · subst hname
        simp [hkept]
      · rw [beq_eq_false_iff_ne.mpr hname]
    · rw [List.filter_cons_of_neg (by exact hkept), ih, List.lookup_cons]
      split_ifs with hname
      · rw [beq_eq_false_iff_ne.mpr fun heq : name = other => hkept (heq ▸ hname)]
      · rfl

theorem lookup_filter_keys (types : List (String × TypeKind)) (gone : List String)
    (type : String) :
    (types.filter fun (name, _) => name ∉ gone).lookup type =
      if type ∈ gone then none else types.lookup type := by
  refine (lookup_filter types (fun name => decide (name ∉ gone)) type).trans ?_
  by_cases hgone : type ∈ gone <;> simp [hgone]

theorem Grounded.setType (h : store.Grounded) {name : String} {kind : TypeKind}
    (hkind : ∀ base, kind ≠ .alias base)
    (htypes : after.types = Store.setType store.types name kind) : after.Grounded := by
  refine h.of_fewer fun other base halias => ?_
  rw [htypes, lookup_setType] at halias
  split_ifs at halias
  · exact absurd (Option.some.inj halias) (hkind base)
  · exact halias

theorem Grounded.addTypedef? (h : store.Grounded)
    (hadd : store.addTypedef? name base = some after) : after.Grounded := by
  obtain ⟨hname, -, hbase, rfl⟩ := eq_insertType_of_addTypedef? hadd
  have hnone : store.types.lookup name = none := by
    simpa [hasType] using hname
  have hsame : ∀ other ≠ name,
      (store.insertType name (.alias base)).types.lookup other = store.types.lookup other := by
    intro other hother
    show (Store.setType store.types name _).lookup other = _
    rw [lookup_setType, if_neg hother]
  have hlookup : (store.insertType name (.alias base)).types.lookup name = some (.alias base) := by
    show (Store.setType store.types name _).lookup name = _
    rw [lookup_setType, if_pos rfl]
  have hnames : ∀ {type names last}, LeadsTo store.types type names last → ∀ other ∈ names,
      (store.insertType name (.alias base)).types.lookup other = store.types.lookup other := by
    intro type names last hleads other hmem
    obtain ⟨found, halias⟩ := hleads.exists_alias hmem
    refine hsame other fun heq => ?_
    rw [heq, hnone] at halias
    exact absurd halias (by simp)
  have hlast : ∀ {type names last}, LeadsTo store.types type names last → last ≠ name →
      LeadsTo (store.insertType name (.alias base)).types type names last := by
    intro type names last hleads hne
    exact hleads.congr (hnames hleads) fun found => hsame last hne ▸ hleads.last_ne_alias found
  obtain ⟨baseNames, baseLast, hbaseLeads⟩ := h base
  have hbaseNe : baseLast ≠ name := by
    rwa [hbaseLeads.lowestType_eq] at hbase
  intro type
  obtain ⟨names, last, hleads⟩ := h type
  by_cases heq : last = name
  · subst heq
    -- the way that ended at the new name goes on to its base
    exact ⟨_, _, hleads.append (hnames hleads) (.follow hlookup (hlast hbaseLeads hbaseNe))⟩
  · exact ⟨_, _, hlast hleads heq⟩

/-! ## Values -/

theorem shape_setValue? {id : VariableId} {value : Value} {index : Nat}
    (h : store.setValue? id value index = some after) : store.shape = after.shape := by
  cases hvar : store.get? id with
  | none =>
    unfold setValue? at h
    rw [hvar] at h
    exact absurd h (by simp)
  | some var =>
    rw [setValue?_eq hvar] at h
    obtain ⟨cell, -, rfl⟩ := Option.map_eq_some_iff.mp h
    exact (shape_withValues store id _).symm

theorem shape_verifyVariable (store : Store) (id : VariableId) :
    (store.verifyVariable id).1.shape = store.shape := by
  unfold verifyVariable
  split
  · rfl
  · dsimp only
    split_ifs
    · exact shape_withValues store id _
    · rfl

theorem shape_verifyTypes (store : Store) : store.verifyTypes.1.shape = store.shape := by
  unfold verifyTypes
  have hfold : ∀ (ids : List VariableId) (start : Store × Bool),
      (ids.foldl (fun result id => ((result.1.verifyVariable id).1,
        result.2 && (result.1.verifyVariable id).2)) start).1.shape = start.1.shape := by
    intro ids
    induction ids with
    | nil => exact fun start => rfl
    | cons id ids ih =>
      intro start
      rw [List.foldl_cons, ih]
      exact shape_verifyVariable start.1 id
  exact hfold store.visibleIds (store, true)

/-! ## Invariants -/

theorem Sound.exitScope? (h : store.Sound) (hexit : store.exitScope? = some after) :
    after.Sound := by
  unfold Store.exitScope? at hexit
  split at hexit
  · exact absurd hexit (by simp)
  · obtain rfl := Option.some.inj hexit
    have hsublist := List.filter_sublist
      (p := fun entry : String × VariableId => entry.1 ∉ store.scope.vars) (l := store.names)
    exact ⟨fun entry hentry => h.lt entry (hsublist.subset hentry),
      h.nodup.sublist (hsublist.map _)⟩

theorem Grounded.exitScope? (h : store.Grounded) (hexit : store.exitScope? = some after) :
    after.Grounded := by
  unfold Store.exitScope? at hexit
  split at hexit
  · exact absurd hexit (by simp)
  · obtain rfl := Option.some.inj hexit
    refine h.of_fewer fun name base halias => ?_
    rw [show _ = _ from lookup_filter_keys store.types store.scope.types name] at halias
    split_ifs at halias
    exact halias

theorem Sound.change (h : store.Sound) (hchange : Change store after) : after.Sound := by
  cases hchange with
  | addType hadd =>
    obtain ⟨-, rfl⟩ := eq_insertType_of_addType? hadd
    exact ⟨h.lt, h.nodup⟩
  | addTypedef hadd =>
    obtain ⟨-, -, -, rfl⟩ := eq_insertType_of_addTypedef? hadd
    exact ⟨h.lt, h.nodup⟩
  | addVariable hadd =>
    obtain ⟨-, rfl | ⟨type, -, rfl⟩⟩ := addVariable?_cases hadd
    · exact sound_insertUntyped h _ _ _
    · exact sound_insertVariable h _ _ _ _
  | addTemporary => exact sound_addTemporary h
  | ensureVariable name => exact sound_ensureVariable h name
  | setValue hset => exact h.of_shape (shape_setValue? hset)
  | enterScope => exact ⟨h.lt, h.nodup⟩
  | exitScope hexit => exact h.exitScope? hexit
  | verifyTypes => exact h.of_shape (shape_verifyTypes store).symm

theorem Grounded.change (h : store.Grounded) (hchange : Change store after) : after.Grounded := by
  have huntyped : ∀ (before : Store) name size temporary, before.types = store.types →
      (before.insertUntyped name size temporary).Grounded := by
    intro before name size temporary htypes
    exact Grounded.setType (h.of_types htypes) (fun base => by simp) rfl
  cases hchange with
  | addType hadd =>
    obtain ⟨-, rfl⟩ := eq_insertType_of_addType? hadd
    exact h.setType (fun base => by simp) rfl
  | addTypedef hadd => exact h.addTypedef? hadd
  | addVariable hadd =>
    obtain ⟨-, rfl | ⟨type, -, rfl⟩⟩ := addVariable?_cases hadd
    · exact huntyped store _ _ _ rfl
    · exact h.of_types rfl
  | addTemporary => exact huntyped _ _ _ _ rfl
  | ensureVariable name =>
    unfold Store.ensureVariable
    split
    · exact h
    · exact huntyped store _ _ _ rfl
  | setValue hset => exact h.of_types (types_eq_of_shape (shape_setValue? hset)).symm
  | enterScope => exact h.of_types rfl
  | exitScope hexit => exact h.exitScope? hexit
  | verifyTypes => exact h.of_types (types_eq_of_shape (shape_verifyTypes store))

theorem Reachable.sound (h : store.Reachable) : store.Sound := by
  induction h with
  | refl => exact ⟨fun _ hentry => absurd hentry List.not_mem_nil, List.nodup_nil⟩
  | tail _ hchange ih => exact ih.change hchange

theorem Reachable.grounded (h : store.Reachable) : store.Grounded := by
  induction h with
  | refl => exact grounded_empty
  | tail _ hchange ih => exact ih.change hchange

end

end LineGrammar.Store
