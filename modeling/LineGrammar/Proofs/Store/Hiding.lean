import LineGrammar.Proofs.Store.Aliases
import LineGrammar.Proofs.Store.Memory

/-!
# Types that are made

A type that is made for a variable takes the place of a declared type of the same name. Variables of
a declared type that leads over that name to a primitive one then take all values. If there are none
of these, a program sees of a store what it has seen before.
-/

namespace LineGrammar.Store

open Source

/-- Does the type lead to a primitive one over a type whose place has been taken? -/
def Hides (before after : Store) (type : String) : Prop :=
  ∃ names last, LeadsTo before.types type names last ∧
    last ∈ [boolType, stringType, intType, realType] ∧
      ∃ name ∈ names, MadeBetween before after name

section

variable {before after : Store} {type last : String} {names : List String}

theorem LeadsTo.basicType_eq (h : LeadsTo before.types type names last) :
    before.basicType type =
      if last ∈ [boolType, stringType, intType, realType] then some last else none := by
  unfold basicType
  rw [h.lowestType_eq]

theorem Grows.exists_leadsTo (hgrows : Grows before after)
    (h : LeadsTo before.types type names last) {name : String} (hname : name ∈ names)
    (hmade : MadeBetween before after name) :
    ∃ front found, LeadsTo after.types type front found ∧ MadeBetween before after found := by
  induction h with
  | stay _ => exact absurd hname List.not_mem_nil
  | @follow type base last names h hrest ih =>
    by_cases htype : MadeBetween before after type
    · refine ⟨[], type, .stay fun base halias => ?_, htype⟩
      rw [hgrows.made type htype] at halias
      exact absurd halias (by simp)
    · rcases List.mem_cons.mp hname with rfl | hmem
      · exact absurd hmade htype
      · obtain ⟨front, found, hleads, hfound⟩ := ih hmem
        exact ⟨_, _, .follow ((hgrows.kept type htype).trans h) hleads, hfound⟩

/-- A type has the same primitive type beneath it as before, unless it leads over one whose place
has been taken. -/
theorem Grows.basicType_eq_iff (hgrows : Grows before after) (hgrounded : before.Grounded)
    (type : String) :
    after.basicType type = before.basicType type ↔ ¬Hides before after type := by
  obtain ⟨names, last, hleads⟩ := hgrounded type
  have hhides : Hides before after type ↔
      last ∈ [boolType, stringType, intType, realType] ∧
        ∃ name ∈ names, MadeBetween before after name := by
    constructor
    · rintro ⟨others, other, hother, hrest⟩
      obtain ⟨rfl, rfl⟩ := hother.unique hleads
      exact hrest
    · exact fun hrest => ⟨names, last, hleads, hrest⟩
  rw [hhides, hleads.basicType_eq]
  by_cases hmade : ∃ name ∈ names, MadeBetween before after name
  · obtain ⟨name, hname, htaken⟩ := hmade
    obtain ⟨front, found, hfound, number, -, -, rfl⟩ := hgrows.exists_leadsTo hleads hname htaken
    rw [hfound.basicType_eq, if_neg (untypedName_not_mem number)]
    split_ifs with hlast
    · exact iff_of_false (by simp) fun hnot => hnot ⟨hlast, name, hname, htaken⟩
    · exact iff_of_true rfl fun hall => hlast hall.1
  · refine iff_of_true ?_ fun hall => hmade hall.2
    have hkept : LeadsTo after.types type names last := by
      refine hleads.congr (fun name hname => hgrows.kept name fun htaken =>
        hmade ⟨name, hname, htaken⟩) fun base halias => ?_
      by_cases htaken : MadeBetween before after last
      · rw [hgrows.made last htaken] at halias
        exact absurd halias (by simp)
      · rw [hgrows.kept last htaken] at halias
        exact hleads.last_ne_alias base halias
    rw [hkept.basicType_eq]

theorem Blank.cellOf_eq {id : VariableId} (h : before.Blank id) :
    ∃ var, before.get? id = some var ∧ before.cellOf var = .blank := by
  obtain ⟨var, hvar, htype, hbasic, hvalues⟩ := h
  refine ⟨var, hvar, ?_⟩
  unfold cellOf basicType
  rw [lowestType_of_untyped htype, if_neg hbasic, hvalues]
  rfl

/-- Making variables changes what a program sees exactly if a type of one of its variables leads
over a type whose place has been taken. -/
theorem Grows.memory_eq_iff (hgrows : Grows before after) (hsound : before.Sound)
    (hgrounded : before.Grounded) :
    after.memory = before.memory ↔ ∀ name, IsProgramName name → ∀ var,
      before.variableNamed? name = some var → ¬Hides before after var.type := by
  constructor
  · intro hmemory name hname var hvar
    obtain ⟨id, hid, hget⟩ := Option.bind_eq_some_iff.mp hvar
    have hcell := congrFun hmemory name
    rw [memory_eq hname hid hget,
      memory_eq hname (hgrows.idOf name hname id hid) (hgrows.get id var hget)] at hcell
    exact (hgrows.basicType_eq_iff hgrounded var.type).mp (congrArg Cell.type hcell)
  · intro hnone
    funext name
    by_cases hname : IsProgramName name
    · cases hid : before.idOf? name with
      | some id =>
        obtain ⟨var, hget⟩ : ∃ var, before.get? id = some var :=
          ⟨_, Array.getElem?_eq_getElem (hsound.id_lt hid)⟩
        have hvar : before.variableNamed? name = some var := by
          unfold variableNamed?
          rw [hid, Option.bind_some, hget]
        have hbasic := (hgrows.basicType_eq_iff hgrounded _).mpr (hnone name hname _ hvar)
        rw [memory_eq hname hid hget,
          memory_eq hname (hgrows.idOf name hname id hid) (hgrows.get id var hget)]
        unfold cellOf
        rw [hbasic]
      | none =>
        have hblank : before.memory name = .blank := by
          unfold memory variableNamed?
          rw [if_pos hname, hid]
          rfl
        rw [hblank]
        cases hafter : after.idOf? name with
        | none =>
          unfold memory variableNamed?
          rw [if_pos hname, hafter]
          rfl
        | some id =>
          rcases hgrows.fresh name hname id hafter with hbefore | ⟨-, hfresh⟩
          · rw [hid] at hbefore
            exact absurd hbefore (by simp)
          · obtain ⟨var, hvar, hcell⟩ := hfresh.cellOf_eq
            rw [memory_eq hname hafter hvar, hcell]
    · unfold memory
      rw [if_neg hname, if_neg hname]

end

end LineGrammar.Store
