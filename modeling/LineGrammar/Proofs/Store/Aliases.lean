import LineGrammar.Store
import Mathlib.Data.List.Nodup
import Mathlib.Data.List.Perm.Subperm

/-!
# Other names of types

A type that is another name of a type leads to that type, and on to the last one, which is another
name of none. In a grounded store all types lead to a last one, so that looking it up comes to an
end there.
-/

namespace LineGrammar.Store

/-- From a type, over the types that are other names, to the last one. -/
inductive LeadsTo (types : List (String × TypeKind)) : String → List String → String → Prop
  | stay {type : String} (h : ∀ base, types.lookup type ≠ some (.alias base)) :
      LeadsTo types type [] type
  | follow {type base last : String} {names : List String}
      (h : types.lookup type = some (.alias base)) (hrest : LeadsTo types base names last) :
      LeadsTo types type (type :: names) last

/-- No types are other names of each other. -/
def Grounded (store : Store) : Prop :=
  ∀ type, ∃ names last, LeadsTo store.types type names last

namespace LeadsTo

variable {types others : List (String × TypeKind)} {type last : String} {names : List String}

theorem last_ne_alias (h : LeadsTo types type names last) (base : String) :
    types.lookup last ≠ some (.alias base) := by
  induction h with
  | stay h => exact h base
  | follow _ _ ih => exact ih

theorem exists_alias (h : LeadsTo types type names last) {name : String} (hname : name ∈ names) :
    ∃ base, types.lookup name = some (.alias base) := by
  induction h with
  | stay _ => exact absurd hname List.not_mem_nil
  | follow h _ ih =>
    rcases List.mem_cons.mp hname with rfl | hrest
    · exact ⟨_, h⟩
    · exact ih hrest

theorem unique {otherNames : List String} {otherLast : String}
    (h : LeadsTo types type names last) (hother : LeadsTo types type otherNames otherLast) :
    names = otherNames ∧ last = otherLast := by
  induction h generalizing otherNames otherLast with
  | stay h =>
    cases hother with
    | stay _ => exact ⟨rfl, rfl⟩
    | follow halias _ => exact absurd halias (h _)
  | follow h _ ih =>
    cases hother with
    | stay hnone => exact absurd h (hnone _)
    | follow halias hrest =>
      obtain rfl := TypeKind.alias.inj (Option.some.inj (h.symm.trans halias))
      obtain ⟨rfl, rfl⟩ := ih hrest
      exact ⟨rfl, rfl⟩

/-- Each name on the way leads on to the same last type, over fewer names. -/
theorem of_mem (h : LeadsTo types type names last) {name : String} (hname : name ∈ names) :
    ∃ rest, LeadsTo types name rest last ∧ rest.length ≤ names.length := by
  induction h with
  | stay _ => exact absurd hname List.not_mem_nil
  | follow h hrest ih =>
    rcases List.mem_cons.mp hname with rfl | hmem
    · exact ⟨_, .follow h hrest, Nat.le_refl _⟩
    · obtain ⟨rest, hleads, hle⟩ := ih hmem
      exact ⟨rest, hleads, Nat.le_succ_of_le hle⟩

theorem nodup (h : LeadsTo types type names last) : names.Nodup := by
  induction h with
  | stay _ => exact List.nodup_nil
  | follow h hrest ih =>
    refine List.nodup_cons.mpr ⟨fun hmem => ?_, ih⟩
    obtain ⟨rest, hleads, hle⟩ := hrest.of_mem hmem
    obtain ⟨rfl, -⟩ := hleads.unique (.follow h hrest)
    exact absurd hle (Nat.not_succ_le_self _)

theorem length_le (h : LeadsTo types type names last) : names.length ≤ types.length := by
  have hsubset : names ⊆ types.map Prod.fst := by
    intro name hname
    obtain ⟨base, halias⟩ := h.exists_alias hname
    obtain ⟨front, back, heq, -⟩ := List.lookup_eq_some_iff.mp halias
    rw [heq]
    simp
  have hle := (h.nodup.subperm hsubset).length_le
  rwa [List.length_map] at hle

theorem lowestWithin_eq (h : LeadsTo types type names last) {steps : Nat}
    (hsteps : names.length ≤ steps) : lowestWithin types steps type = last := by
  induction h generalizing steps with
  | stay h =>
    cases steps with
    | zero => rfl
    | succ steps =>
      rw [lowestWithin]
      split
      · next base halias => exact absurd halias (h base)
      · rfl
  | follow h _ ih =>
    obtain ⟨steps, rfl⟩ := Nat.exists_eq_add_of_le' (Nat.le_trans (Nat.succ_pos _) hsteps)
    rw [lowestWithin, h]
    exact ih (Nat.le_of_succ_le_succ hsteps)

theorem lowestType_eq {store : Store} (h : LeadsTo store.types type names last) :
    store.lowestType type = last :=
  h.lowestWithin_eq (Nat.le_succ_of_le h.length_le)

theorem append (h : LeadsTo types type names last) {rest : List String} {found : String}
    (hnames : ∀ name ∈ names, others.lookup name = types.lookup name)
    (hlast : LeadsTo others last rest found) : LeadsTo others type (names ++ rest) found := by
  induction h with
  | stay _ => exact hlast
  | @follow type _ _ names h _ ih =>
    refine .follow ?_ (ih (fun name hname => hnames name (.tail _ hname)) hlast)
    rw [hnames type (.head _), h]

theorem congr (h : LeadsTo types type names last)
    (hnames : ∀ name ∈ names, others.lookup name = types.lookup name)
    (hlast : ∀ base, others.lookup last ≠ some (.alias base)) :
    LeadsTo others type names last := by
  have happend := h.append hnames (.stay hlast)
  rwa [List.append_nil] at happend

theorem exists_of_fewer (h : LeadsTo types type names last)
    (hfewer : ∀ name base, others.lookup name = some (.alias base) →
      types.lookup name = some (.alias base)) :
    ∃ rest found, LeadsTo others type rest found := by
  induction h with
  | stay h => exact ⟨_, _, .stay fun base halias => h base (hfewer _ base halias)⟩
  | @follow type base last names h _ ih =>
    obtain ⟨rest, found, hleads⟩ := ih
    by_cases halias : others.lookup type = some (.alias base)
    · exact ⟨_, _, .follow halias hleads⟩
    · refine ⟨_, _, .stay fun other hother => halias ?_⟩
      rw [hother, ← hfewer type other hother, h]

end LeadsTo

section

variable {store other : Store}

theorem Grounded.of_fewer (h : store.Grounded)
    (hfewer : ∀ name base, other.types.lookup name = some (.alias base) →
      store.types.lookup name = some (.alias base)) : other.Grounded := by
  intro type
  obtain ⟨names, last, hleads⟩ := h type
  exact hleads.exists_of_fewer hfewer

theorem Grounded.of_types (h : store.Grounded) (htypes : other.types = store.types) :
    other.Grounded := by
  intro type
  rw [htypes]
  exact h type

theorem eq_primitive_of_lookup_empty {type : String} {kind : TypeKind}
    (h : ({} : Store).types.lookup type = some kind) :
    type ∈ [boolType, stringType, intType, realType] ∧ kind = .primitive := by
  obtain ⟨front, back, heq, -⟩ := List.lookup_eq_some_iff.mp h
  have hmem : (type, kind) ∈ ({} : Store).types := by
    rw [heq]
    simp
  obtain ⟨name, hname, hentry⟩ := List.mem_map.mp hmem
  obtain ⟨rfl, rfl⟩ := Prod.mk.inj hentry
  exact ⟨hname, rfl⟩

theorem grounded_empty : ({} : Store).Grounded := by
  intro type
  refine ⟨[], type, .stay fun base halias => ?_⟩
  exact absurd (eq_primitive_of_lookup_empty halias).2 (by simp)

end

end LineGrammar.Store
