import LineGrammar.Proofs.Program.Performing
import LineGrammar.Proofs.Store.Memory

/-!
# Stores of a running program

A program runs on a store in which all the variables are that were made for it: the store `Hosts`
what was made. What it computes goes to temporary variables, whose numbers are higher than those of
all variables that were made before: everything else is `SameBelow` that number.
-/

namespace LineGrammar

open Source

namespace Store

/-- All that was made is there. -/
structure Hosts (store made : Store) : Prop where
  sound : store.Sound
  idOf : ∀ name, IsProgramName name → ∀ id, made.idOf? name = some id →
    store.idOf? name = some id
  spare : ∀ id, made.Spare id → store.Spare id

namespace Hosts

variable {store other made more : Store}

theorem refl (h : store.Sound) : store.Hosts store :=
  ⟨h, fun _ _ _ hid => hid, fun _ hspare => hspare⟩

theorem of_grows (h : store.Hosts more) (hgrows : Grows made more) : store.Hosts made where
  sound := h.sound
  idOf name hname id hid := h.idOf name hname id (hgrows.idOf name hname id hid)
  spare id hspare := h.spare id (hspare.grows hgrows)

theorem of_shape (h : store.Hosts made) (hshape : store.shape = other.shape) :
    other.Hosts made where
  sound := h.sound.of_shape hshape
  idOf name hname id hid := by
    rw [← idOf?_eq_of_shape hshape]
    exact h.idOf name hname id hid
  spare id hspare := (h.spare id hspare).of_shape hshape

end Hosts

/-- Nothing has changed but values of variables from the number `bound` on that no program names. -/
structure SameBelow (bound : Nat) (before after : Store) : Prop where
  shape : before.shape = after.shape
  memory : after.memory = before.memory
  get : ∀ id : Nat, id < bound → after.get? id = before.get? id

namespace SameBelow

variable {bound lower : Nat} {before between after : Store}

theorem refl (bound : Nat) (store : Store) : SameBelow bound store store :=
  ⟨rfl, rfl, fun _ _ => rfl⟩

theorem trans (hfirst : SameBelow bound before between) (hnext : SameBelow bound between after) :
    SameBelow bound before after where
  shape := hfirst.shape.trans hnext.shape
  memory := hnext.memory.trans hfirst.memory
  get id hid := (hnext.get id hid).trans (hfirst.get id hid)

theorem mono (h : SameBelow bound before after) (hle : lower ≤ bound) :
    SameBelow lower before after where
  shape := h.shape
  memory := h.memory
  get id hid := h.get id (Nat.lt_of_lt_of_le hid hle)

end SameBelow

/-! ## Temporary variables -/

variable {store : Store}

theorem getElem?_setSlot (values : Array Value) (filler value : Value) (index : Nat) :
    (setSlot values filler index value)[index]? = some value := by
  unfold setSlot
  rw [Array.getElem?_setIfInBounds_self_of_lt]
  simp only [Array.size_append, Array.size_replicate]
  omega

theorem Spare.exists_lowestType {id : VariableId} (h : store.Spare id) :
    ∃ var, store.get? id = some var ∧
      store.lowestType var.type ∉ [boolType, stringType, intType, realType] := by
  obtain ⟨⟨var, hvar, htype, hbasic⟩, -⟩ := h
  refine ⟨var, hvar, ?_⟩
  rw [lowestType_of_untyped htype]
  exact hbasic

theorem Spare.exists_write? {id : VariableId} (h : store.Spare id) (value : Value) :
    ∃ after, (Access.ofVariable id).write? store value = some after ∧ SameBelow id store after ∧
      (Access.ofVariable id).value? after = some value := by
  obtain ⟨var, hvar, hbasic⟩ := h.exists_lowestType
  have hcell : store.cellOf var = ⟨none, var.values⟩ := by
    unfold cellOf basicType
    rw [if_neg hbasic]
  have hset := setValue?_eq hvar value 0
  rw [hcell] at hset
  refine ⟨store.withValues id (setSlot var.values (.int 0) 0 value), ?_,
    ⟨(shape_withValues store id _).symm, memory_withValues_of_unnamed _ h.unnamed, ?_⟩, ?_⟩
  · rw [Program.write?_of_base rfl]
    exact hset
  · intro other hother
    rw [get?_withValues, if_neg (Nat.ne_of_gt hother)]
  · rw [Program.value?_of_base rfl, get?_withValues, if_pos rfl, hvar]
    exact getElem?_setSlot _ _ _ _

theorem Spare.isText_eq {id : VariableId} (h : store.Spare id) :
    Program.isText store (.ofVariable id) = false := by
  obtain ⟨var, hvar, hbasic⟩ := h.exists_lowestType
  have hget : (Access.ofVariable id).variableId?.bind store.get? = some var := hvar
  have hne : store.lowestType var.type ≠ stringType := fun heq => hbasic (by simp [heq])
  unfold Program.isText
  rw [hget]
  exact beq_eq_false_iff_ne.mpr hne

end Store

end LineGrammar
