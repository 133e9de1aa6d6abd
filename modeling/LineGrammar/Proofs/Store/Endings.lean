import LineGrammar.Proofs.Store.Restoring
import Mathlib.Order.WellFounded

/-!
# Chains of names end

A type that is another name of a type is a step of a chain. A name is declared only where it is no
type, for a type whose chain does not end at it; everything else that is done with a store takes
steps away. So no operations, whatever they are and also those that are refused, make a chain come
back to a name that is on it (`Store.grounded_run`).

Hence looking up what a type is finally another name of ends by itself and never for its bound, and
it ends where the chain ends (`Store.lowestType_run`).
-/

namespace LineGrammar.Store

def Renames (store : Store) (type base : String) : Prop :=
  store.types.lookup type = some (.alias base)

/-- Follows names as `lowestWithin` does, and answers only if it comes to a type that is no other
name before its steps are used up. -/
def endWithin? (types : List (String × TypeKind)) : Nat → String → Option String
  | 0, _ => none
  | steps + 1, type =>
    match types.lookup type with
    | some (.alias base) => endWithin? types steps base
    | _ => some type

section

variable {store after : Store} {type base last : String} {names : List String}

/-! ## Grounded stores -/

theorem LeadsTo.reaches (h : LeadsTo store.types type names last) :
    Relation.ReflTransGen store.Renames type last := by
  induction h with
  | stay _ => exact .refl
  | follow halias _ ih => exact .head halias ih

theorem LeadsTo.endWithin?_eq {types : List (String × TypeKind)}
    (h : LeadsTo types type names last) {steps : Nat} (hsteps : names.length < steps) :
    endWithin? types steps type = some last := by
  induction h generalizing steps with
  | stay hnone =>
    obtain ⟨steps, rfl⟩ := Nat.exists_eq_add_of_le' hsteps
    rw [List.length_nil, endWithin?]
    split
    · next base halias => exact absurd halias (hnone base)
    · rfl
  | follow halias _ ih =>
    obtain ⟨steps, rfl⟩ := Nat.exists_eq_add_of_le' (Nat.lt_of_le_of_lt (Nat.zero_le _) hsteps)
    rw [List.length_cons] at hsteps
    rw [endWithin?, halias]
    apply ih
    omega

theorem Grounded.wellFounded (h : store.Grounded) :
    WellFounded fun base type => store.Renames type base := by
  constructor
  intro type
  obtain ⟨names, last, hleads⟩ := h type
  induction hleads with
  | stay hnone => exact ⟨_, fun base halias => absurd halias (hnone base)⟩
  | follow halias _ ih =>
    refine ⟨_, fun base hbase => ?_⟩
    obtain rfl := TypeKind.alias.inj (Option.some.inj (halias.symm.trans hbase))
    exact ih

theorem Grounded.acyclic (h : store.Grounded) (type : String) :
    ¬Relation.TransGen store.Renames type type := by
  intro hcycle
  have hback : Relation.TransGen (fun base type => store.Renames type base) type type :=
    Relation.transGen_swap.mpr hcycle
  exact h.wellFounded.transGen.irrefl.irrefl type hback

theorem eq_lowestType_of_reaches (hreaches : Relation.ReflTransGen store.Renames type last)
    (hlast : ∀ base, ¬store.Renames last base) : last = store.lowestType type := by
  have hleads : ∃ names, LeadsTo store.types type names last := by
    induction hreaches using Relation.ReflTransGen.head_induction_on with
    | refl => exact ⟨[], .stay hlast⟩
    | head halias _ ih =>
      obtain ⟨names, hrest⟩ := ih
      exact ⟨_, .follow halias hrest⟩
  obtain ⟨names, hnames⟩ := hleads
  exact hnames.lowestType_eq.symm

/-! ## Operations -/

theorem changes_perform (store : Store) (operation : Operation) :
    operation = .clear ∨ Changes store (store.perform operation) := by
  have hdone : ∀ {result : Option Store}, (∀ after, result = some after → Changes store after) →
      Changes store (result.getD store) := fun h => getD_of_done .refl h
  cases operation with
  | addType name => exact .inr (hdone fun after h => .single (.addType h))
  | addAlias name base => exact .inr (hdone fun after h => .single (.addTypedef h))
  | addVariable name type size => exact .inr (hdone fun after h => .single (.addVariable h))
  | addTemporary => exact .inr (.single (.addTemporary store))
  | ensureVariable name => exact .inr (.single (.ensureVariable store name))
  | setNamed name value index =>
    exact .inr (hdone fun after h => .tail (.single (.ensureVariable store name)) (.setValue h))
  | setValue id value index => exact .inr (hdone fun after h => .single (.setValue h))
  | enterScope => exact .inr (.single (.enterScope store))
  | exitScope => exact .inr (hdone fun after h => .single (.exitScope h))
  | verifyTypes => exact .inr (.single (.verifyTypes store))
  | clear => exact .inl rfl

theorem Reachable.perform (h : store.Reachable) (operation : Operation) :
    (store.perform operation).Reachable := by
  rcases changes_perform store operation with rfl | hchanges
  · exact .refl
  · exact Relation.ReflTransGen.trans h hchanges

theorem reachable_run (operations : List Operation) : (run operations).Reachable := by
  induction operations using List.reverseRecOn with
  | nil => exact .refl
  | append_singleton operations operation ih =>
    rw [run_concat]
    exact ih.perform operation

theorem grounded_run (operations : List Operation) : (run operations).Grounded :=
  (reachable_run operations).grounded

/-- **No chain of names loops.** Whatever is done with a store, no type is finally another name of
itself. Looking up the last type of a chain is never cut short by its bound; what it finds is no
other name, is where the chain ends, and is its own last type. -/
theorem lowestType_run (operations : List Operation) :
    (∀ type, ¬Relation.TransGen (run operations).Renames type type) ∧
      ∀ type,
        endWithin? (run operations).types ((run operations).types.length + 1) type =
            some ((run operations).lowestType type) ∧
          (∀ base, ¬(run operations).Renames ((run operations).lowestType type) base) ∧
          (∀ last, Relation.ReflTransGen (run operations).Renames type last ∧
              (∀ base, ¬(run operations).Renames last base) ↔
            last = (run operations).lowestType type) ∧
          (run operations).lowestType ((run operations).lowestType type) =
            (run operations).lowestType type := by
  have hgrounded := grounded_run operations
  generalize run operations = store at hgrounded ⊢
  refine ⟨hgrounded.acyclic, fun type => ?_⟩
  obtain ⟨names, last, hleads⟩ := hgrounded type
  have hlast : ∀ base, ¬store.Renames last base := hleads.last_ne_alias
  rw [hleads.lowestType_eq]
  refine ⟨hleads.endWithin?_eq (Nat.lt_succ_of_le hleads.length_le), hlast, fun found => ?_, ?_⟩
  · constructor
    · rintro ⟨hreaches, hfound⟩
      rw [eq_lowestType_of_reaches hreaches hfound, hleads.lowestType_eq]
    · rintro rfl
      exact ⟨hleads.reaches, hlast⟩
  · exact (eq_lowestType_of_reaches .refl hlast).symm

/-- A chain may end at a name that is forgotten; that name cannot be declared for the chain. -/
example : run [.addType "INTERNAL_0", .addAlias "a" "INTERNAL_0", .enterScope,
      .addVariable "x" none 1, .exitScope, .addAlias "INTERNAL_0" "a"] =
    run [.addType "INTERNAL_0", .addAlias "a" "INTERNAL_0", .enterScope,
      .addVariable "x" none 1, .exitScope] := by
  decide

end

end LineGrammar.Store
