import LineGrammar.Store
import Mathlib.Data.List.Nodup

/-!
# Making variables

A variable that is made gets the next number, and those that were there keep theirs. Names of
temporary variables have a character that no word of a program has, so that making one never hides a
variable of the program.
-/

namespace LineGrammar

def IsProgramName (name : String) : Prop :=
  '#' ∉ name.toList

instance (name : String) : Decidable (IsProgramName name) :=
  inferInstanceAs (Decidable ('#' ∉ name.toList))

namespace Store

theorem not_isProgramName_temporaryName (number : Nat) :
    ¬IsProgramName (temporaryName number) := by
  unfold IsProgramName temporaryName
  rw [String.toList_append]
  simp

/-- Each name means a variable that there is, and none that another name means. -/
structure Sound (store : Store) : Prop where
  lt : ∀ entry ∈ store.names, entry.2 < store.vars.size
  nodup : (store.names.map (·.2)).Nodup

/-- The name of the type that is made for a variable without one. -/
def untypedName (number : Nat) : String :=
  "INTERNAL_" ++ toString number

theorem eq_of_append_toString_eq {front : String} {number other : Nat}
    (h : front ++ toString number = front ++ toString other) : number = other := by
  have hlist := congrArg String.toList h
  rw [String.toList_append, String.toList_append, List.append_cancel_left_eq] at hlist
  have hdigits := congrArg (fun digits => Nat.ofDigitChars 10 digits 0) hlist
  simpa [Nat.toString_eq_ofList_toDigits] using hdigits

/-- Was the type made for a variable between the two stores? -/
def MadeBetween (before after : Store) (type : String) : Prop :=
  ∃ number, before.untypedCount ≤ number ∧ number < after.untypedCount ∧ type = untypedName number

/-- A variable to which nothing has been assigned, of a type that takes all values. -/
def Blank (store : Store) (id : VariableId) : Prop :=
  ∃ var, store.get? id = some var ∧ store.types.lookup var.type = some .untyped ∧
    var.type ∉ [boolType, stringType, intType, realType] ∧ var.values = #[.int 0]

/-- Variables have been made, and all that a program knows of the others has been kept, except for
types of the names that were made. -/
structure Grows (before after : Store) : Prop where
  idOf : ∀ name, IsProgramName name → ∀ id, before.idOf? name = some id →
    after.idOf? name = some id
  fresh : ∀ name, IsProgramName name → ∀ id, after.idOf? name = some id →
    before.idOf? name = some id ∨ before.vars.size ≤ id ∧ after.Blank id
  get : ∀ id var, before.get? id = some var → after.get? id = some var
  count_le : before.untypedCount ≤ after.untypedCount
  made : ∀ type, MadeBetween before after type → after.types.lookup type = some .untyped
  kept : ∀ type, ¬MadeBetween before after type →
    after.types.lookup type = before.types.lookup type

/-- A variable that no program names, and that takes all values. -/
structure Spare (store : Store) (id : VariableId) : Prop where
  exists_get : ∃ var, store.get? id = some var ∧ store.types.lookup var.type = some .untyped ∧
    var.type ∉ [boolType, stringType, intType, realType]
  unnamed : ∀ name, IsProgramName name → store.idOf? name ≠ some id

section

variable {store before between after : Store}

theorem mem_names_of_idOf? {name : String} {id : VariableId} (h : store.idOf? name = some id) :
    (name, id) ∈ store.names := by
  rw [idOf?, List.lookup_eq_some_iff] at h
  obtain ⟨front, back, heq, -⟩ := h
  rw [heq]
  exact List.mem_append_right _ List.mem_cons_self

theorem Sound.id_lt (h : store.Sound) {name : String} {id : VariableId}
    (hid : store.idOf? name = some id) : id < store.vars.size :=
  h.lt _ (mem_names_of_idOf? hid)

theorem Sound.name_eq (h : store.Sound) {name other : String} {id : VariableId}
    (hname : store.idOf? name = some id) (hother : store.idOf? other = some id) : name = other := by
  have hinjective := List.inj_on_of_nodup_map h.nodup (mem_names_of_idOf? hname)
    (mem_names_of_idOf? hother) rfl
  exact congrArg Prod.fst hinjective

theorem MadeBetween.iff_or {type : String} (hfirst : before.untypedCount ≤ between.untypedCount)
    (hnext : between.untypedCount ≤ after.untypedCount) :
    MadeBetween before after type ↔
      MadeBetween before between type ∨ MadeBetween between after type := by
  constructor
  · rintro ⟨number, hfrom, hto, rfl⟩
    by_cases hmid : number < between.untypedCount
    · exact .inl ⟨number, hfrom, hmid, rfl⟩
    · exact .inr ⟨number, by omega, hto, rfl⟩
  · rintro (⟨number, hfrom, hto, rfl⟩ | ⟨number, hfrom, hto, rfl⟩)
    · exact ⟨number, hfrom, by omega, rfl⟩
    · exact ⟨number, by omega, hto, rfl⟩

theorem not_madeBetween_self (type : String) : ¬MadeBetween store store type := by
  rintro ⟨number, hfrom, hto, -⟩
  omega

namespace Grows

theorem refl (store : Store) : Grows store store where
  idOf _ _ _ h := h
  fresh _ _ _ h := .inl h
  get _ _ h := h
  count_le := Nat.le_refl _
  made type h := absurd h (not_madeBetween_self type)
  kept _ _ := rfl

theorem size_le (h : Grows before after) : before.vars.size ≤ after.vars.size := by
  by_contra hlt
  have hget : before.get? after.vars.size = some before.vars[after.vars.size] :=
    Array.getElem?_eq_getElem (by omega)
  have hafter := h.get _ _ hget
  rw [get?, Array.getElem?_eq_none (Nat.le_refl _)] at hafter
  exact absurd hafter (by simp)

theorem untyped (h : Grows before after) {type : String}
    (htype : before.types.lookup type = some .untyped) :
    after.types.lookup type = some .untyped := by
  by_cases hmade : MadeBetween before after type
  · exact h.made type hmade
  · rw [h.kept type hmade, htype]

theorem blank (h : Grows before after) {id : VariableId} (hblank : before.Blank id) :
    after.Blank id := by
  obtain ⟨var, hvar, htype, hrest⟩ := hblank
  exact ⟨var, h.get id var hvar, h.untyped htype, hrest⟩

theorem trans (hfirst : Grows before between) (hnext : Grows between after) :
    Grows before after where
  idOf name hname id hid := hnext.idOf name hname id (hfirst.idOf name hname id hid)
  fresh name hname id hid := by
    rcases hnext.fresh name hname id hid with hbetween | ⟨hle, hblank⟩
    · refine (hfirst.fresh name hname id hbetween).imp_right fun ⟨hle, hblank⟩ => ?_
      exact ⟨hle, hnext.blank hblank⟩
    · exact .inr ⟨Nat.le_trans hfirst.size_le hle, hblank⟩
  get id var hvar := hnext.get id var (hfirst.get id var hvar)
  count_le := Nat.le_trans hfirst.count_le hnext.count_le
  made type hmade := by
    rcases (MadeBetween.iff_or hfirst.count_le hnext.count_le).mp hmade with hmade | hmade
    · exact hnext.untyped (hfirst.made type hmade)
    · exact hnext.made type hmade
  kept type hnot := by
    rw [MadeBetween.iff_or hfirst.count_le hnext.count_le, not_or] at hnot
    rw [hnext.kept type hnot.2, hfirst.kept type hnot.1]

end Grows

theorem Spare.grows {id : VariableId} (h : before.Spare id) (hgrows : Grows before after) :
    after.Spare id := by
  obtain ⟨⟨var, hvar, htype, hbasic⟩, hunnamed⟩ := h
  refine ⟨⟨var, hgrows.get id var hvar, hgrows.untyped htype, hbasic⟩, fun name hname hid => ?_⟩
  rcases hgrows.fresh name hname id hid with hbefore | ⟨hle, -⟩
  · exact hunnamed name hname hbefore
  · rw [get?, Array.getElem?_eq_none hle] at hvar
    exact absurd hvar (by simp)

/-! ## Variables without a type -/

theorem size_vars_insertUntyped (store : Store) (name : String) (size : Nat) (temporary : Bool) :
    (store.insertUntyped name size temporary).vars.size = store.vars.size + 1 :=
  Array.size_push _

theorem size_vars_addTemporary (store : Store) :
    store.addTemporary.1.vars.size = store.vars.size + 1 :=
  size_vars_insertUntyped _ _ _ _

theorem idOf?_insertUntyped (store : Store) (name : String) (size : Nat) (temporary : Bool)
    (other : String) :
    (store.insertUntyped name size temporary).idOf? other =
      if other = name then some store.vars.size else store.idOf? other := by
  show List.lookup other ((name, store.vars.size) :: store.names) = _
  rw [List.lookup_cons]
  by_cases h : other = name
  · rw [if_pos h, h]
    simp
  · rw [if_neg h, beq_eq_false_iff_ne.mpr h]
    rfl

theorem lookup_setType (types : List (String × TypeKind)) (name other : String)
    (kind : TypeKind) :
    (setType types name kind).lookup other =
      if other = name then some kind else types.lookup other := by
  unfold setType
  rw [List.lookup_cons]
  by_cases h : other = name
  · rw [if_pos h, h]
    simp
  · rw [if_neg h, beq_eq_false_iff_ne.mpr h]
    dsimp only
    induction types with
    | nil => rfl
    | cons entry types ih =>
      obtain ⟨key, value⟩ := entry
      by_cases hkey : key = name
      · have hother : (other == key) = false := beq_eq_false_iff_ne.mpr (hkey ▸ h)
        rw [List.filter_cons_of_neg (by simp [hkey]), ih, List.lookup_cons, hother]
      · rw [List.filter_cons_of_pos (by simp [hkey]), List.lookup_cons, List.lookup_cons, ih]

theorem lookup_types_insertUntyped (store : Store) (name : String) (size : Nat)
    (temporary : Bool) (type : String) :
    (store.insertUntyped name size temporary).types.lookup type =
      if type = untypedName store.untypedCount then some .untyped else store.types.lookup type :=
  lookup_setType store.types _ type .untyped

theorem untypedName_not_mem (number : Nat) :
    untypedName number ∉ [boolType, stringType, intType, realType] := by
  have hne : ∀ type : String, type.toList.head? = some 'P' → untypedName number ≠ type := by
    intro type htype heq
    rw [← heq, untypedName, String.toList_append] at htype
    simp at htype
  simp only [List.mem_cons, List.not_mem_nil, or_false, not_or]
  exact ⟨hne _ rfl, hne _ rfl, hne _ rfl, hne _ rfl⟩

theorem lowestType_of_untyped {type : String} (h : store.types.lookup type = some .untyped) :
    store.lowestType type = type := by
  unfold lowestType lowestWithin
  rw [h]

theorem vars_insertUntyped (store : Store) (name : String) (size : Nat) (temporary : Bool) :
    (store.insertUntyped name size temporary).vars = store.vars.push
      ⟨name, untypedName store.untypedCount, .replicate (max size 1) (.int 0), temporary⟩ := by
  have huntyped := lookup_types_insertUntyped store name size temporary
    (untypedName store.untypedCount)
  rw [if_pos rfl] at huntyped
  have hbasic := untypedName_not_mem store.untypedCount
  simp only [List.mem_cons, List.not_mem_nil, or_false, not_or] at hbasic
  have hvalue : Value.defaultOf ((store.insertUntyped name size temporary).lowestType
      (untypedName store.untypedCount)) = .int 0 := by
    rw [lowestType_of_untyped huntyped, Value.defaultOf, if_neg hbasic.2.2.2, if_neg hbasic.2.1]
  show store.vars.push ⟨name, _, .replicate _ (Value.defaultOf
    ((store.insertUntyped name size temporary).lowestType (untypedName _))), _⟩ = _
  rw [hvalue]
  rfl

theorem exists_get?_insertUntyped (store : Store) (name : String) (size : Nat)
    (temporary : Bool) :
    ∃ var, (store.insertUntyped name size temporary).get? store.vars.size = some var ∧
      var.type = untypedName store.untypedCount ∧
        var.values = .replicate (max size 1) (.int 0) := by
  refine ⟨⟨name, untypedName store.untypedCount, .replicate (max size 1) (.int 0), temporary⟩, ?_,
    rfl, rfl⟩
  rw [get?, vars_insertUntyped]
  exact Array.getElem?_push_size

theorem sound_insertVariable (h : store.Sound) (name type : String) (size : Nat)
    (temporary : Bool) : (store.insertVariable name type size temporary).Sound where
  lt entry hentry := by
    have hsize : (store.insertVariable name type size temporary).vars.size = store.vars.size + 1 :=
      Array.size_push _
    rw [hsize]
    rcases List.mem_cons.mp (show entry ∈ (name, store.vars.size) :: store.names from hentry) with
      rfl | hold
    · exact Nat.lt_succ_self _
    · exact Nat.lt_succ_of_lt (h.lt entry hold)
  nodup := by
    show (store.vars.size :: store.names.map (·.2)).Nodup
    refine List.nodup_cons.mpr ⟨fun hmem => ?_, h.nodup⟩
    obtain ⟨entry, hentry, heq⟩ := List.mem_map.mp hmem
    exact absurd (show entry.2 = store.vars.size from heq) (Nat.ne_of_lt (h.lt entry hentry))

theorem sound_insertUntyped (h : store.Sound) (name : String) (size : Nat) (temporary : Bool) :
    (store.insertUntyped name size temporary).Sound := by
  have htyped : (insertType { store with untypedCount := store.untypedCount + 1 }
      (untypedName store.untypedCount) .untyped).Sound := ⟨h.lt, h.nodup⟩
  exact sound_insertVariable htyped name _ size temporary

theorem blank_insertUntyped (store : Store) (name : String) (temporary : Bool) :
    (store.insertUntyped name 1 temporary).Blank store.vars.size := by
  obtain ⟨var, hvar, htype, hvalues⟩ := exists_get?_insertUntyped store name 1 temporary
  refine ⟨var, hvar, ?_, htype ▸ untypedName_not_mem _, hvalues⟩
  rw [lookup_types_insertUntyped, htype, if_pos rfl]

theorem madeBetween_insertUntyped (store : Store) (name : String) (size : Nat) (temporary : Bool)
    (type : String) :
    MadeBetween store (store.insertUntyped name size temporary) type ↔
      type = untypedName store.untypedCount := by
  constructor
  · rintro ⟨number, hfrom, hto, rfl⟩
    have hcount : number < store.untypedCount + 1 := hto
    rw [Nat.le_antisymm hfrom (Nat.le_of_lt_succ hcount)]
  · rintro rfl
    exact ⟨_, Nat.le_refl _, Nat.lt_succ_self _, rfl⟩

theorem grows_insertUntyped (store : Store) {name : String} (temporary : Bool)
    (hname : IsProgramName name → store.idOf? name = none) :
    Grows store (store.insertUntyped name 1 temporary) where
  idOf other hother id hid := by
    rw [idOf?_insertUntyped, if_neg, hid]
    rintro rfl
    rw [hname hother] at hid
    exact absurd hid (by simp)
  fresh other hother id hid := by
    rw [idOf?_insertUntyped] at hid
    split at hid
    · obtain rfl := Option.some.inj hid
      exact .inr ⟨Nat.le_refl _, blank_insertUntyped store name temporary⟩
    · exact .inl hid
  get id var hvar := by
    have hlt : id < store.vars.size := (Array.getElem?_eq_some_iff.mp hvar).1
    show (store.vars.push _)[id]? = _
    rw [Array.getElem?_push_lt hlt, ← Array.getElem?_eq_getElem hlt]
    exact hvar
  count_le := Nat.le_succ _
  made type hmade := by
    rw [lookup_types_insertUntyped, if_pos ((madeBetween_insertUntyped ..).mp hmade)]
  kept type hnot := by
    rw [lookup_types_insertUntyped, if_neg ((madeBetween_insertUntyped ..).not.mp hnot)]

theorem spare_insertUntyped (h : store.Sound) {name : String} (hname : ¬IsProgramName name)
    (size : Nat) (temporary : Bool) :
    (store.insertUntyped name size temporary).Spare store.vars.size := by
  obtain ⟨var, hvar, htype, -⟩ := exists_get?_insertUntyped store name size temporary
  refine ⟨⟨var, hvar, ?_, ?_⟩, fun other hother hid => ?_⟩
  · rw [lookup_types_insertUntyped, htype, if_pos rfl]
  · rw [htype]
    exact untypedName_not_mem _
  · rw [idOf?_insertUntyped, if_neg fun heq : other = name => hname (heq ▸ hother)] at hid
    exact absurd (h.id_lt hid) (Nat.lt_irrefl _)

end

/-! ## Temporary variables and variables of a name -/

section

variable {store : Store}

theorem sound_addTemporary (h : store.Sound) : store.addTemporary.1.Sound :=
  @sound_insertUntyped { store with temporaryCount := store.nextTemporary + 1 } ⟨h.lt, h.nodup⟩
    _ _ _

theorem grows_addTemporary (store : Store) : Grows store store.addTemporary.1 := by
  have hgrows := grows_insertUntyped { store with temporaryCount := store.nextTemporary + 1 } true
    fun hname => absurd hname (not_isProgramName_temporaryName store.nextTemporary)
  exact ⟨hgrows.idOf, hgrows.fresh, hgrows.get, hgrows.count_le, hgrows.made, hgrows.kept⟩

theorem spare_addTemporary (h : store.Sound) : store.addTemporary.1.Spare store.vars.size :=
  @spare_insertUntyped { store with temporaryCount := store.nextTemporary + 1 } ⟨h.lt, h.nodup⟩
    _ (not_isProgramName_temporaryName _) _ _

theorem sound_ensureVariable (h : store.Sound) (name : String) :
    (store.ensureVariable name).1.Sound := by
  unfold ensureVariable
  split
  · exact h
  · exact sound_insertUntyped h _ _ _

theorem grows_ensureVariable (store : Store) (name : String) :
    Grows store (store.ensureVariable name).1 := by
  unfold ensureVariable
  split
  · exact .refl store
  · next hnone => exact grows_insertUntyped store _ fun _ => hnone

theorem idOf?_ensureVariable (store : Store) (name : String) :
    (store.ensureVariable name).1.idOf? name = some (store.ensureVariable name).2 := by
  unfold ensureVariable
  split
  · next hid => exact hid
  · rw [idOf?_insertUntyped, if_pos rfl]

end

end Store

end LineGrammar
