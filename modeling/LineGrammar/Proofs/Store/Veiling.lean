import LineGrammar.Proofs.Store.Typing

/-!
# Stores that have forgotten names

Of two stores with the same variables, one has forgotten some names. As long as none of these is
asked for, making variables by name and making temporary ones do the same to both: the same numbers
are given out, and types that the one with fewer names knows lead on to the same last ones.
-/

namespace LineGrammar.Store

/-- The inner store is the outer one without some names of variables and some types. -/
structure Veils (gone : List String) (inner outer : Store) : Prop where
  vars : inner.vars = outer.vars
  untypedCount : inner.untypedCount = outer.untypedCount
  temporaryCount : inner.temporaryCount = outer.temporaryCount
  names : inner.names = outer.names.filter fun entry => entry.1 ∉ gone
  types : ∀ type, inner.hasType type = true →
    outer.types.lookup type = inner.types.lookup type
  base : ∀ name base, inner.types.lookup name = some (.alias base) → inner.hasType base = true
  typed : ∀ name id var, (name, id) ∈ inner.names → inner.get? id = some var →
    inner.hasType var.type = true
  sound : inner.Sound
  grounded : inner.Grounded
  temporary : ∀ number, temporaryName number ∉ gone

/-! ## Names for temporary variables -/

section

variable (store : Store)

theorem exists_free : ∃ number ∈ List.range' store.temporaryCount (store.names.length + 1),
    store.idOf? (temporaryName number) = none := by
  by_contra htaken
  simp only [not_exists, not_and] at htaken
  have hsubset : (List.range' store.temporaryCount (store.names.length + 1)).map temporaryName ⊆
      store.names.map Prod.fst := by
    intro name hname
    obtain ⟨number, hnumber, rfl⟩ := List.mem_map.mp hname
    obtain ⟨id, hid⟩ := Option.ne_none_iff_exists'.mp (htaken number hnumber)
    exact List.mem_map.mpr ⟨_, mem_names_of_idOf? hid, rfl⟩
  have hnodup : ((List.range' store.temporaryCount (store.names.length + 1)).map
      temporaryName).Nodup :=
    List.Nodup.map (fun _ _ => eq_of_append_toString_eq) (List.nodup_range' _)
  have hle := (hnodup.subperm hsubset).length_le
  simp only [List.length_map, List.length_range'] at hle
  omega

theorem exists_find?_free : ∃ number,
    (List.range' store.temporaryCount (store.names.length + 1)).find?
      (fun number => (store.idOf? (temporaryName number)).isNone) = some number := by
  obtain ⟨number, hmem, hfree⟩ := exists_free store
  exact Option.isSome_iff_exists.mp (List.find?_isSome.mpr ⟨number, hmem, by rw [hfree]; rfl⟩)

end

theorem hasType_insertUntyped_of_hasType {store : Store} {name type : String} {size : Nat}
    {temporary : Bool} (h : store.hasType type = true) :
    (store.insertUntyped name size temporary).hasType type = true := by
  rw [hasType, lookup_types_insertUntyped]
  split_ifs
  · rfl
  · exact h

namespace Veils

variable {gone : List String} {inner outer : Store} {name type : String} {id : VariableId}

theorem lowestType_eq (h : Veils gone inner outer) (htype : inner.hasType type = true) :
    outer.lowestType type = inner.lowestType type :=
  lowestType_eq_of_kept h.grounded (fun type => inner.hasType type = true)
    (fun name base _ halias => h.base name base halias) h.types htype

theorem idOf?_eq (h : Veils gone inner outer) (hname : name ∉ gone) :
    inner.idOf? name = outer.idOf? name := by
  rw [idOf?, h.names]
  refine (lookup_filter outer.names (fun name => name ∉ gone) name).trans ?_
  simp [hname, idOf?]

/-- The least free number is the same, as no name of a temporary variable has been forgotten. -/
theorem nextTemporary_eq (h : Veils gone inner outer) :
    inner.nextTemporary = outer.nextTemporary := by
  obtain ⟨number, hfind⟩ := exists_find?_free inner
  have hfree : (fun number => (inner.idOf? (temporaryName number)).isNone) =
      fun number => (outer.idOf? (temporaryName number)).isNone := by
    funext number
    rw [h.idOf?_eq (h.temporary number)]
  have hle : inner.names.length ≤ outer.names.length := by
    rw [h.names]
    exact List.length_filter_le _ _
  have hrange : List.range' outer.temporaryCount (outer.names.length + 1) =
      List.range' inner.temporaryCount (inner.names.length + 1) ++
        List.range' (inner.temporaryCount + (inner.names.length + 1))
          (outer.names.length - inner.names.length) := by
    rw [List.range'_append_1, h.temporaryCount]
    congr 1
    omega
  rw [nextTemporary, nextTemporary, hrange, List.find?_append, ← hfree, hfind]
  rfl

theorem insertUntyped (h : Veils gone inner outer) (hname : name ∉ gone) (size : Nat)
    (temporary : Bool) :
    Veils gone (inner.insertUntyped name size temporary)
      (outer.insertUntyped name size temporary) where
  vars := by rw [vars_insertUntyped, vars_insertUntyped, h.vars, h.untypedCount]
  untypedCount := congrArg (· + 1) h.untypedCount
  temporaryCount := h.temporaryCount
  names := by
    show (name, inner.vars.size) :: inner.names =
      List.filter _ ((name, outer.vars.size) :: outer.names)
    rw [List.filter_cons_of_pos (by simpa using hname), h.vars, h.names]
  types type htype := by
    rw [hasType, lookup_types_insertUntyped, h.untypedCount] at htype
    rw [lookup_types_insertUntyped, lookup_types_insertUntyped, h.untypedCount]
    split_ifs at htype ⊢
    · rfl
    · exact h.types type htype
  base other base halias := by
    rw [lookup_types_insertUntyped] at halias
    split_ifs at halias
    · cases halias
    · exact hasType_insertUntyped_of_hasType (h.base other base halias)
  typed other id var hmem hvar := by
    rw [get?, vars_insertUntyped, Array.getElem?_push] at hvar
    have hmem : (other, id) ∈ (name, inner.vars.size) :: inner.names := hmem
    rcases List.mem_cons.mp hmem with heq | hold
    · obtain ⟨rfl, rfl⟩ := Prod.mk.inj heq
      rw [if_pos rfl] at hvar
      obtain rfl := Option.some.inj hvar
      rw [hasType, lookup_types_insertUntyped, if_pos rfl]
      rfl
    · rw [if_neg (Nat.ne_of_lt (h.sound.lt _ hold))] at hvar
      exact hasType_insertUntyped_of_hasType (h.typed other id var hold hvar)
  sound := sound_insertUntyped h.sound _ _ _
  grounded := h.grounded.setType (fun base => by simp) rfl
  temporary := h.temporary

theorem ensureVariable (h : Veils gone inner outer) (hname : name ∉ gone) :
    (inner.ensureVariable name).2 = (outer.ensureVariable name).2 ∧
      Veils gone (inner.ensureVariable name).1 (outer.ensureVariable name).1 := by
  unfold Store.ensureVariable
  rw [← h.idOf?_eq hname]
  split
  · exact ⟨rfl, h⟩
  · exact ⟨congrArg Array.size h.vars, h.insertUntyped hname 1 false⟩

theorem addTemporary (h : Veils gone inner outer) :
    inner.addTemporary.2 = outer.addTemporary.2 ∧
      Veils gone inner.addTemporary.1 outer.addTemporary.1 := by
  have hcounted : Veils gone { inner with temporaryCount := inner.nextTemporary + 1 }
      { outer with temporaryCount := outer.nextTemporary + 1 } :=
    ⟨h.vars, h.untypedCount, congrArg (· + 1) h.nextTemporary_eq, h.names, h.types, h.base,
      h.typed, ⟨h.sound.lt, h.sound.nodup⟩, h.grounded.of_types rfl, h.temporary⟩
  refine ⟨congrArg Array.size h.vars, ?_⟩
  unfold Store.addTemporary
  dsimp only
  rw [← h.nextTemporary_eq] at hcounted ⊢
  exact hcounted.insertUntyped (h.temporary _) 1 true

end Veils

end LineGrammar.Store
