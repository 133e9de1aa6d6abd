import LineGrammar.Proofs.Declaration.Mentions
import LineGrammar.Proofs.Declaration.Touring
import LineGrammar.Proofs.Source.Derivation
import LineGrammar.Proofs.Store.Typing

/-!
# Declaring with and without blocks

Of a well-scoped text, declaring with blocks as scopes and without them make the same variables in
the same order and fail alike. What differs is which names are known afterwards: with scopes, those
of the blocks that have been closed are forgotten.
-/

namespace LineGrammar

open Mentions

/-- The settings with blocks as scopes, or without. -/
def Settings.withScoping (settings : Settings) (scoping : Scoping) : Settings :=
  { settings with scoping }

@[simp] theorem Settings.resolveType_withScoping (settings : Settings) (scoping : Scoping) :
    (settings.withScoping scoping).resolveType = settings.resolveType := rfl

@[simp] theorem Settings.statements_withScoping (settings : Settings) (scoping : Scoping) :
    (settings.withScoping scoping).statements = settings.statements := rfl

/-- A store in which types and variables are in order, and all values are of their types. -/
structure Store.WellKept (store : Store) : Prop where
  tidy : store.Tidy
  typed : store.Typed

namespace Store.WellKept

variable {store after : Store}

theorem moves (h : store.WellKept) (hmoves : Moves store after) : after.WellKept :=
  ⟨h.tidy.moves hmoves, h.typed.moves h.tidy hmoves⟩

theorem exitScope? (h : store.WellKept) (hexit : store.exitScope? = some after) :
    after.WellKept :=
  ⟨h.tidy.exitScope? hexit, h.typed.leaves h.tidy (leaves_of_exitScope? hexit)⟩

theorem empty : ({} : Store).WellKept :=
  ⟨tidy_empty, fun _ _ _ hmem => absurd hmem List.not_mem_nil⟩

end Store.WellKept

/-- The scope has the names of a block. -/
structure Lists (names : List Name) (scope : Scope) : Prop where
  types : ∀ name, .type name ∈ names ↔ name ∈ scope.types
  vars : ∀ name, .variable name ∈ names ↔ name ∈ scope.vars

theorem Lists.nil : Lists [] {} :=
  ⟨fun _ => by simp, fun _ => by simp⟩

/-- Behind a text, the store that was made with blocks as scopes is the one that was made without
them, but for the names of the blocks that have been closed. -/
structure Follows (done : List Mention) (inner outer : Store) : Prop where
  vars : inner.vars = outer.vars
  untypedCount : inner.untypedCount = outer.untypedCount
  temporaryCount : inner.temporaryCount = outer.temporaryCount
  names : inner.names = outer.names.filter fun entry => .variable entry.1 ∉ left done
  types : ∀ type, inner.types.lookup type =
    if .type type ∈ left done then none else outer.types.lookup type
  scopes : List.Forall₂ Lists (scopes done) (inner.scope :: inner.outerScopes)
  inner : inner.WellKept
  outer : outer.WellKept

namespace Follows

variable {done : List Mention} {inner outer : Store} {name type base : String}

theorem empty : Follows [] {} {} where
  vars := rfl
  untypedCount := rfl
  temporaryCount := rfl
  names := rfl
  types _ := rfl
  scopes := .cons .nil .nil
  inner := .empty
  outer := .empty

theorem hasType_eq (h : Follows done inner outer) (hleft : .type type ∉ left done) :
    inner.hasType type = outer.hasType type := by
  rw [Store.hasType, Store.hasType, h.types, if_neg hleft]

theorem lookup_eq (h : Follows done inner outer) (htype : inner.hasType type = true) :
    outer.types.lookup type = inner.types.lookup type := by
  rw [Store.hasType, h.types] at htype
  rw [h.types]
  split_ifs at htype ⊢
  · simp at htype
  · rfl

theorem lowestType_eq (h : Follows done inner outer) (htype : inner.hasType type = true) :
    outer.lowestType type = inner.lowestType type :=
  Store.lowestType_eq_of_kept h.inner.tidy.grounded (fun type => inner.hasType type = true)
    (fun name base _ halias => (h.inner.tidy.nested.base name base halias).1)
    (fun _ hname => h.lookup_eq hname) htype

theorem idOf?_eq (h : Follows done inner outer) (hleft : .variable name ∉ left done) :
    inner.idOf? name = outer.idOf? name := by
  rw [Store.idOf?, h.names]
  refine (Store.lookup_filter outer.names (fun name => .variable name ∉ left done) name).trans ?_
  simp [hleft, Store.idOf?]

/-! ## A mention more -/

theorem idle (h : Follows done inner outer) {mention : Mention} (hidle : Idle mention) :
    Follows (done ++ [mention]) inner outer where
  vars := h.vars
  untypedCount := h.untypedCount
  temporaryCount := h.temporaryCount
  names := by rw [hidle.left_concat]; exact h.names
  types := by rw [hidle.left_concat]; exact h.types
  scopes := by rw [hidle.scopes_concat]; exact h.scopes
  inner := h.inner
  outer := h.outer

theorem opens (h : Follows done inner outer) :
    Follows (done ++ [.opens]) inner.enterScope outer where
  vars := h.vars
  untypedCount := h.untypedCount
  temporaryCount := h.temporaryCount
  names := by rw [left_opens]; exact h.names
  types := by rw [left_opens]; exact h.types
  scopes := by
    obtain ⟨scope, rest, hscopes⟩ := exists_scopes_eq done
    rw [scopes_concat, hscopes]
    exact .cons .nil (hscopes ▸ h.scopes)
  inner := h.inner.moves (.single (.enterScope inner))
  outer := h.outer

theorem closes (h : Follows done inner outer) (hnodup : (declared done).Nodup) :
    Follows (done ++ [.closes]) (inner.exitScope?.getD inner) outer := by
  have hscopes := h.scopes
  cases houter : inner.outerScopes with
  | nil =>
    have hexit : inner.exitScope? = none := by simp [Store.exitScope?, houter]
    rw [houter] at hscopes
    obtain ⟨scope, rest, hlists, hrest, hdone⟩ := List.forall₂_cons_right_iff.mp hscopes
    obtain rfl := List.forall₂_nil_right_iff.mp hrest
    have hafter : Mentions.scopes (done ++ [.closes]) = Mentions.scopes done := by
      rw [scopes_concat, hdone]
      rfl
    have hleft : left (done ++ [.closes]) = left done := by
      rw [left, left, inScope, inScope, hafter, declared_append]
      simp [declared]
    rw [hexit]
    exact ⟨h.vars, h.untypedCount, h.temporaryCount, hleft ▸ h.names, hleft ▸ h.types,
      hafter ▸ h.scopes, h.inner, h.outer⟩
  | cons around rest =>
    have hexit : inner.exitScope? = some { inner with
        names := inner.names.filter fun entry => entry.1 ∉ inner.scope.vars
        types := inner.types.filter fun entry => entry.1 ∉ inner.scope.types
        scope := around
        outerScopes := rest } := by
      simp [Store.exitScope?, houter]
    rw [houter] at hscopes
    obtain ⟨scope, others, hlists, hothers, hdone⟩ := List.forall₂_cons_right_iff.mp hscopes
    obtain ⟨next, more, -, -, rfl⟩ := List.forall₂_cons_right_iff.mp hothers
    have hleft : ∀ name, name ∈ left (done ++ [.closes]) ↔ name ∈ left done ∨ name ∈ scope :=
      fun name => mem_left_closes hnodup hdone
    rw [hexit, Option.getD_some]
    refine ⟨h.vars, h.untypedCount, h.temporaryCount, ?_, fun type => ?_, ?_,
      h.inner.exitScope? hexit, h.outer⟩
    · show inner.names.filter _ = _
      rw [h.names, List.filter_filter]
      congr 1
      funext entry
      rw [Bool.eq_iff_iff]
      simp only [Bool.and_eq_true, decide_eq_true_eq, hleft, hlists.vars, not_or]
      exact And.comm
    · show (inner.types.filter _).lookup type = _
      rw [Store.lookup_filter_keys, h.types]
      simp only [hleft, hlists.types]
      by_cases hmem : type ∈ inner.scope.types <;> simp [hmem]
    · rw [scopes_concat, hdone]
      exact hothers

theorem insertType (h : Follows done inner outer) (hname : .type name ∉ declared done)
    {kind : TypeKind} (hinner : (inner.insertType name kind).WellKept)
    (houter : (outer.insertType name kind).WellKept) :
    Follows (done ++ [.declares (.type name)]) (inner.insertType name kind)
      (outer.insertType name kind) where
  vars := h.vars
  untypedCount := h.untypedCount
  temporaryCount := h.temporaryCount
  names := by
    simp only [mem_left_declares hname]
    exact h.names
  types type := by
    rw [Store.lookup_insertType, Store.lookup_insertType, h.types]
    simp only [mem_left_declares hname]
    split_ifs with hnew hleft
    · exact absurd (mem_left.mp (hnew ▸ hleft)).1 hname
    · rfl
    · rfl
    · rfl
  scopes := by
    obtain ⟨scope, rest, hlists, hrest, hdone⟩ := List.forall₂_cons_right_iff.mp h.scopes
    rw [scopes_concat, hdone]
    refine .cons ⟨fun other => ?_, fun other => ?_⟩ hrest
    · simp [Store.insertType, hlists.types]
    · simp [Store.insertType, hlists.vars]
  inner := hinner
  outer := houter

theorem insertVariable (h : Follows done inner outer) (hname : .variable name ∉ declared done)
    (htype : inner.hasType type = true) (size : Nat) :
    Follows (done ++ [.declares (.variable name)]) (inner.insertVariable name type size false)
      (outer.insertVariable name type size false) where
  vars := by
    rw [Store.insertVariable, Store.insertVariable, h.vars, h.lowestType_eq htype]
  untypedCount := h.untypedCount
  temporaryCount := h.temporaryCount
  names := by
    have hnew : Name.variable name ∉ left done := fun hleft => hname (mem_left.mp hleft).1
    simp only [mem_left_declares hname]
    show (name, inner.vars.size) :: inner.names = List.filter _ ((name, outer.vars.size) :: _)
    rw [List.filter_cons_of_pos (by simpa using hnew), h.vars, h.names]
  types type := by
    simp only [mem_left_declares hname]
    exact h.types type
  scopes := by
    obtain ⟨scope, rest, hlists, hrest, hdone⟩ := List.forall₂_cons_right_iff.mp h.scopes
    rw [scopes_concat, hdone]
    refine .cons ⟨fun other => ?_, fun other => ?_⟩ hrest
    · simp [Store.insertVariable, hlists.types]
    · simp [Store.insertVariable, hlists.vars]
  inner := h.inner.moves (.single (.make htype))
  outer := h.outer.moves (.single (.make (by rw [Store.hasType, h.lookup_eq htype]; exact htype)))

theorem addTypedef? (h : Follows done inner outer) (hname : .type name ∉ declared done)
    (hbase : .type base ∉ left done) :
    Option.Rel (Follows (done ++ [.declares (.type name)])) (inner.addTypedef? name base)
      (outer.addTypedef? name base) := by
  have hnew : Name.type name ∉ left done := fun hleft => hname (mem_left.mp hleft).1
  have hrefused : (inner.hasType name || !inner.hasType base || inner.lowestType base == name) =
      (outer.hasType name || !outer.hasType base || outer.lowestType base == name) := by
    rw [← h.hasType_eq hnew, ← h.hasType_eq hbase]
    cases htype : inner.hasType base with
    | false => simp
    | true => rw [h.lowestType_eq htype]
  have hinner : ∀ after, inner.addTypedef? name base = some after → after.WellKept :=
    fun _ hadd => h.inner.moves (Store.moves_addTypedef hadd)
  have houter : ∀ after, outer.addTypedef? name base = some after → after.WellKept :=
    fun _ hadd => h.outer.moves (Store.moves_addTypedef hadd)
  unfold Store.addTypedef? at hinner houter ⊢
  rw [hrefused] at hinner ⊢
  split_ifs at hinner houter ⊢
  · exact .none
  · exact .some (h.insertType hname (hinner _ rfl) (houter _ rfl))

theorem addVariable? (h : Follows done inner outer) (hname : .variable name ∉ declared done)
    (htype : .type type ∉ left done) (size : Nat) :
    Option.Rel (Follows (done ++ [.declares (.variable name)]))
      (inner.addVariable? name (some type) size) (outer.addVariable? name (some type) size) := by
  have hnew : Name.variable name ∉ left done := fun hleft => hname (mem_left.mp hleft).1
  unfold Store.addVariable?
  rw [← h.idOf?_eq hnew]
  dsimp only
  rw [← h.hasType_eq htype]
  split_ifs with htaken hknown
  · exact .none
  · exact .some (h.insertVariable hname hknown size)
  · exact .none

end Follows

/-! ## Declaring -/

/-- Two runs end alike: with the same error, or with the same result and with stores that follow the
text. -/
inductive Together {α : Type} (done : List Mention) :
    Except DeclarationError α × Store → Except DeclarationError α × Store → Prop
  | fails {error : DeclarationError} {inner outer : Store} :
    Together done (.error error, inner) (.error error, outer)
  | ends {value : α} {inner outer : Store} (h : Follows done inner outer) :
    Together done (.ok value, inner) (.ok value, outer)

namespace Together

variable {α β : Type} {between done : List Mention} {inner outer : Store}

theorem bind {first second : Declaring α} {next other : α → Declaring β}
    (h : Together between (first.run.run inner) (second.run.run outer))
    (hnext : ∀ value after last, first.run.run inner = (.ok value, after) →
      Follows between after last →
        Together done ((next value).run.run after) ((other value).run.run last)) :
    Together done ((first >>= next).run.run inner) ((second >>= other).run.run outer) := by
  rw [run_run_bind, run_run_bind]
  generalize hfirst : first.run.run inner = reached at h hnext
  generalize second.run.run outer = reachedOther at h
  cases h with
  | fails => exact .fails
  | ends hfollows => exact hnext _ _ _ rfl hfollows

theorem pure (h : Follows done inner outer) (value : α) :
    Together done ((Pure.pure value : Declaring α).run.run inner)
      ((Pure.pure value : Declaring α).run.run outer) :=
  .ends h

theorem get_bind {next other : Store → Declaring β}
    (h : Together done ((next inner).run.run inner) ((other outer).run.run outer)) :
    Together done ((get >>= next).run.run inner) ((get >>= other).run.run outer) :=
  h

end Together

namespace Declaration

variable {mentions done rest : List Mention} {inner outer : Store}

theorem together_declareTypes (hscoped : WellScoped mentions) {base : String} (line : Nat)
    {names : List String} (hbase : .type base ∉ left done)
    (heq : mentions = done ++ (names.map fun name => .declares (.type name)) ++ rest)
    (h : Follows done inner outer) :
    Together (done ++ names.map fun name => .declares (.type name))
      ((declareTypes base line names).run.run inner)
      ((declareTypes base line names).run.run outer) := by
  induction names generalizing done inner outer with
  | nil =>
    rw [List.map_nil, List.append_nil]
    exact .pure h ()
  | cons name names ih =>
    rw [List.map_cons, List.append_cons] at heq ⊢
    have hname : Name.type name ∉ declared done := hscoped.not_mem_declared (by
      rw [heq, List.append_assoc, List.append_assoc]; rfl)
    have hadd := h.addTypedef? hname hbase
    rw [declareTypes]
    refine .get_bind ?_
    generalize inner.addTypedef? name base = added at hadd ⊢
    generalize outer.addTypedef? name base = addedOther at hadd ⊢
    cases hadd with
    | none => exact .fails
    | some hfollows =>
      exact ih (fun hleft => hbase ((mem_left_declares hname).mp hleft)) heq hfollows

theorem together_declareVariables (hscoped : WellScoped mentions) {type : String}
    (slots : Option Nat) (line : Nat) {names : List String} (htype : .type type ∉ left done)
    (heq : mentions = done ++ (names.map fun name => .declares (.variable name)) ++ rest)
    (h : Follows done inner outer) :
    Together (done ++ names.map fun name => .declares (.variable name))
      ((declareVariables type slots line names).run.run inner)
      ((declareVariables type slots line names).run.run outer) := by
  induction names generalizing done inner outer with
  | nil =>
    rw [List.map_nil, List.append_nil]
    exact .pure h ()
  | cons name names ih =>
    rw [List.map_cons, List.append_cons] at heq ⊢
    have hname : Name.variable name ∉ declared done := hscoped.not_mem_declared (by
      rw [heq, List.append_assoc, List.append_assoc]; rfl)
    cases slots with
    | none =>
      rw [declareVariables]
      exact .fails
    | some size =>
      have hadd := h.addVariable? hname htype size
      rw [declareVariables]
      refine .get_bind ?_
      generalize inner.addVariable? name (some type) size = added at hadd ⊢
      generalize outer.addVariable? name (some type) size = addedOther at hadd ⊢
      cases hadd with
      | none => exact .fails
      | some hfollows =>
        exact ih (fun hleft => htype ((mem_left_declares hname).mp hleft)) heq hfollows

theorem run_resolvedType {settings : Settings} {declaration : Declaration} {name : String}
    (htype : declaration.type = some name) (part : DeclarationPart) (line : Nat) (store : Store) :
    (declaration.resolvedType settings part line).run.run store =
      if store.hasType (settings.resolveType name) then (.ok (settings.resolveType name), store)
      else (.error (.unknownType (settings.resolveType name) line), store) := by
  have hget : (declaration.resolvedType settings part line).run.run store =
      (if store.hasType (settings.resolveType name) then pure (settings.resolveType name)
        else throw (.unknownType (settings.resolveType name) line) : Declaring String).run.run
          store := by
    unfold resolvedType
    rw [htype]
    rfl
  rw [hget]
  split_ifs <;> rfl

theorem together_resolvedType {α : Type} (settings : Settings) (declaration : Declaration)
    (part : DeclarationPart) (line : Nat) {next other : String → Declaring α}
    {between : List Mention} (hscoped : WellScoped mentions)
    (hbetween : between = done ++ declaration.type.toList.map fun type =>
      .uses (.type (settings.resolveType type)))
    (heq : mentions = between ++ rest) (h : Follows done inner outer) {last : List Mention}
    (hnext : ∀ type, .type type ∉ left between → Follows between inner outer →
      Together last ((next type).run.run inner) ((other type).run.run outer)) :
    Together last
      ((declaration.resolvedType (settings.withScoping .static) part line >>= next).run.run inner)
      ((declaration.resolvedType (settings.withScoping .off) part line >>= other).run.run
        outer) := by
  cases htype : declaration.type with
  | none =>
    unfold resolvedType
    rw [htype]
    exact .fails
  | some name =>
    rw [htype] at hbetween
    change between = done ++ [.uses (.type (settings.resolveType name))] at hbetween
    subst hbetween
    have hleft : Name.type (settings.resolveType name) ∉ left done :=
      hscoped.not_mem_left (by rw [heq, List.append_assoc]; rfl)
    rw [run_run_bind, run_run_bind, run_resolvedType htype, run_resolvedType htype]
    rw [Settings.resolveType_withScoping, Settings.resolveType_withScoping, ← h.hasType_eq hleft]
    split_ifs
    · exact hnext _ (by rw [(idle_uses _).left_concat]; exact hleft) (h.idle (idle_uses _))
    · exact .fails

variable {settings : Settings} {node : Tree}

theorem together_visit_type (hscoped : WellScoped mentions)
    (hnode : node.symbol = settings.statements.typeDeclaration)
    (heq : mentions = done ++ (ofTree node).mentions settings .type ++ rest)
    (h : Follows done inner outer) :
    Together (done ++ (ofTree node).mentions settings .type)
      ((visit (settings.withScoping .static) node).run.run inner)
      ((visit (settings.withScoping .off) node).run.run outer) := by
  unfold visit
  dsimp only [Settings.statements_withScoping]
  rw [Declaration.mentions, ← List.append_assoc] at heq ⊢
  rw [if_pos hnode, if_pos hnode]
  refine together_resolvedType settings (ofTree node) .baseType node.line hscoped rfl
    (heq.trans (List.append_assoc _ _ _)) h fun base hleft hfollows => ?_
  refine .bind (together_declareTypes hscoped node.line hleft heq hfollows) ?_
  exact fun _ _ _ _ hdone => .pure hdone false

theorem together_visit_variable (hscoped : WellScoped mentions)
    (hother : node.symbol ≠ settings.statements.typeDeclaration)
    (hnode : node.symbol = settings.statements.variableDeclaration)
    (heq : mentions = done ++ (ofTree node).mentions settings .variable ++ rest)
    (h : Follows done inner outer) :
    Together (done ++ (ofTree node).mentions settings .variable)
      ((visit (settings.withScoping .static) node).run.run inner)
      ((visit (settings.withScoping .off) node).run.run outer) := by
  unfold visit
  dsimp only [Settings.statements_withScoping]
  rw [Declaration.mentions, ← List.append_assoc] at heq ⊢
  rw [if_neg hother, if_neg hother, if_pos hnode, if_pos hnode]
  refine together_resolvedType settings (ofTree node) .type node.line hscoped rfl
    (heq.trans (List.append_assoc _ _ _)) h fun type hleft hfollows => ?_
  refine .bind (together_declareVariables hscoped _ node.line hleft heq hfollows) ?_
  exact fun _ _ _ _ hdone => .pure hdone false

theorem ownMentions_cases (node : Tree) :
    (node.ownMentions = [.opens] ∧ scopeAt node = modify Store.enterScope) ∨
    (node.ownMentions = [.closes] ∧
      scopeAt node = modify fun store => store.exitScope?.getD store) ∨
    (∃ name, node.ownMentions = [.uses name] ∧ scopeAt node = pure ()) ∨
    (node.ownMentions = [] ∧ scopeAt node = pure ()) := by
  unfold Tree.ownMentions scopeAt
  split
  · next hmark =>
    rw [hmark]
    exact .inl ⟨rfl, rfl⟩
  · next hmark =>
    rw [hmark]
    exact .inr (.inl ⟨rfl, rfl⟩)
  · next name hword =>
    rw [hword]
    split_ifs
    · exact .inr (.inr (.inl ⟨_, rfl, rfl⟩))
    · exact .inr (.inr (.inr ⟨rfl, rfl⟩))
  · next hopens hcloses _ =>
    refine .inr (.inr (.inr ⟨rfl, ?_⟩))
    split
    · next hmark => exact absurd hmark hopens
    · next hmark => exact absurd hmark hcloses
    · rfl

theorem together_visit_other (hscoped : WellScoped mentions)
    (hnode : settings.declares node = false) (heq : mentions = done ++ node.ownMentions ++ rest)
    (h : Follows done inner outer) :
    Together (done ++ node.ownMentions)
      ((visit (settings.withScoping .static) node).run.run inner)
      ((visit (settings.withScoping .off) node).run.run outer) := by
  simp only [Settings.declares, Bool.or_eq_false_iff, beq_eq_false_iff_ne] at hnode
  have hnodup : (declared done).Nodup := by
    have hall := hscoped.nodup
    rw [heq, List.append_assoc, declared_append] at hall
    exact (List.nodup_append.mp hall).1
  unfold visit
  dsimp only [Settings.statements_withScoping]
  rw [if_neg hnode.1, if_neg hnode.1, if_neg hnode.2, if_neg hnode.2]
  rcases ownMentions_cases node with ⟨hown, hscope⟩ | ⟨hown, hscope⟩ | ⟨name, hown, hscope⟩ |
    ⟨hown, hscope⟩
  all_goals rw [hown, hscope]
  · exact .ends h.opens
  · exact .ends (h.closes hnodup)
  · exact .ends (h.idle (idle_uses name))
  · rw [List.append_nil]
    exact .ends h

/-! ## Whole trees -/

/-- Both runs through a tree end alike, wherever in the text it stands. -/
def VisitsTogether (settings : Settings) (mentions : List Mention) (tree : Tree) : Prop :=
  ∀ done rest inner outer, mentions = done ++ tree.mentions settings ++ rest →
    Follows done inner outer →
    Together (done ++ tree.mentions settings)
      ((visitAll (settings.withScoping .static) tree).run.run inner)
      ((visitAll (settings.withScoping .off) tree).run.run outer)

theorem together_visitEach {trees : List Tree}
    (htrees : ∀ tree ∈ trees, VisitsTogether settings mentions tree)
    (heq : mentions = done ++ Tree.mentionsOfAll settings trees ++ rest)
    (h : Follows done inner outer) :
    Together (done ++ Tree.mentionsOfAll settings trees)
      ((visitEach (settings.withScoping .static) trees).run.run inner)
      ((visitEach (settings.withScoping .off) trees).run.run outer) := by
  induction trees generalizing done inner outer with
  | nil =>
    rw [Tree.mentionsOfAll, List.append_nil, visitEach, visitEach]
    exact .pure h ()
  | cons tree trees ih =>
    rw [Tree.mentionsOfAll, ← List.append_assoc] at heq ⊢
    rw [visitEach, visitEach]
    refine .bind (htrees tree (.head _) _ _ _ _ (heq.trans (List.append_assoc _ _ _)) h) ?_
    exact fun _ _ _ _ hnext => ih (fun other hother => htrees other (.tail _ hother)) heq hnext

theorem visitAll_eq (settings : Settings) (tree : Tree) :
    visitAll settings tree = visit settings tree >>= fun deeper =>
      if deeper = true then visitEach settings tree.children else pure () := by
  obtain ⟨symbol, token, completion, closed, line, children⟩ := tree
  rw [visitAll]

theorem together_visitAll_of_declares {tree : Tree} (hdeclares : settings.declares tree = true)
    (h : Together done ((visit (settings.withScoping .static) tree).run.run inner)
      ((visit (settings.withScoping .off) tree).run.run outer)) :
    Together done ((visitAll (settings.withScoping .static) tree).run.run inner)
      ((visitAll (settings.withScoping .off) tree).run.run outer) := by
  rw [visitAll_eq, visitAll_eq]
  refine .bind h fun deeper after last hrun hdone => ?_
  have hdeeper : deeper = !settings.declares tree :=
    answers_visit (settings.withScoping .static) tree _ _ _ hrun
  rw [hdeeper, hdeclares]
  exact .pure hdone ()

theorem together_visitAll_of_not_declares {tree : Tree} (hscoped : WellScoped mentions)
    (hdeclares : settings.declares tree = false)
    (heq : mentions = done ++ tree.ownMentions ++ rest) (h : Follows done inner outer)
    {last : List Mention}
    (hchildren : ∀ inner outer, Follows (done ++ tree.ownMentions) inner outer →
      Together last ((visitEach (settings.withScoping .static) tree.children).run.run inner)
        ((visitEach (settings.withScoping .off) tree.children).run.run outer)) :
    Together last ((visitAll (settings.withScoping .static) tree).run.run inner)
      ((visitAll (settings.withScoping .off) tree).run.run outer) := by
  rw [visitAll_eq, visitAll_eq]
  refine .bind (together_visit_other hscoped hdeclares heq h) fun deeper after _ hrun hdone => ?_
  have hdeeper : deeper = !settings.declares tree :=
    answers_visit (settings.withScoping .static) tree _ _ _ hrun
  rw [hdeeper, hdeclares]
  exact hchildren after _ hdone

theorem mentions_of_declares (h : settings.declares tree = true) :
    tree.mentions settings = (ofTree tree).mentions settings .type ∧
        tree.symbol = settings.statements.typeDeclaration ∨
      tree.mentions settings = (ofTree tree).mentions settings .variable ∧
        tree.symbol ≠ settings.statements.typeDeclaration ∧
        tree.symbol = settings.statements.variableDeclaration := by
  obtain ⟨symbol, token, completion, closed, line, children⟩ := tree
  simp only [Settings.declares, Bool.or_eq_true, beq_iff_eq] at h
  rw [Tree.mentions]
  split_ifs with htype hvariable
  · exact .inl ⟨rfl, htype⟩
  · exact .inr ⟨rfl, htype, hvariable⟩
  · exact absurd h (by simp [htype, hvariable])
  · exact absurd h (by simp [htype, hvariable])

theorem mentions_of_not_declares (h : settings.declares tree = false)
    (hcall : tree.symbol ≠ settings.statements.call) :
    tree.mentions settings = tree.ownMentions ++ Tree.mentionsOfAll settings tree.children := by
  obtain ⟨symbol, token, completion, closed, line, children⟩ := tree
  simp only [Settings.declares, Bool.or_eq_false_iff, beq_eq_false_iff_ne] at h
  rw [Tree.mentions, if_neg h.1, if_neg h.2, if_neg hcall]

theorem visitsTogether_of_children {tree : Tree} (hscoped : WellScoped mentions)
    (hdeclares : settings.declares tree = false) (hcall : tree.symbol ≠ settings.statements.call)
    (ih : ∀ child ∈ tree.children, VisitsTogether settings mentions child) :
    VisitsTogether settings mentions tree := by
  intro done rest inner outer heq h
  rw [mentions_of_not_declares hdeclares hcall, ← List.append_assoc] at heq ⊢
  exact together_visitAll_of_not_declares hscoped hdeclares
    (heq.trans (List.append_assoc _ _ _)) h fun _ _ hown => together_visitEach ih heq hown

theorem run_visitAll_word (hnames : settings.statements = {}) {token : Token} {name : String}
    (hlexeme : token.lexeme = .word name) (scoping : Scoping) (completion : Completion)
    (closed : Bool) (line : Nat) (store : Store) :
    (visitAll (settings.withScoping scoping)
      ⟨"ID", some token, completion, closed, line, []⟩).run.run store = (.ok (), store) := by
  have hvisit : visit (settings.withScoping scoping)
      ⟨"ID", some token, completion, closed, line, []⟩ = pure true := by
    unfold visit scopeAt
    dsimp only [Option.map_some, Settings.statements_withScoping]
    rw [hnames, if_neg (by decide), if_neg (by decide), hlexeme]
    split_ifs <;> rfl
  rw [visitAll_eq, hvisit]
  rfl

theorem visitsTogether_call (hnames : settings.statements = {}) (hscoped : WellScoped mentions)
    {completion : Completion} {closed : Bool} {line : Nat} {children : List Tree}
    (hform : children.map Tree.symbol ∈ Grammar.statements.forms "function_stmt")
    (hchildren : ∀ child ∈ children, child.Derives .statements)
    (ih : ∀ child ∈ children, VisitsTogether settings mentions child) :
    VisitsTogether settings mentions
      ⟨"function_stmt", none, completion, closed, line, children⟩ := by
  intro done rest inner outer heq h
  have hforms : ∀ form ∈ Grammar.statements.forms "function_stmt", form.head? = some "ID" := by
    decide
  have hhead := hforms _ hform
  rw [List.head?_map] at hhead
  obtain ⟨first, hfirst, hsymbol⟩ := Option.map_eq_some_iff.mp hhead
  obtain ⟨trees, rfl⟩ := List.head?_eq_some_iff.mp hfirst
  obtain ⟨name, token, _, _, _, rfl, hlexeme, -⟩ :=
    (hchildren first (.head _)).exists_word hsymbol
  have hdeclares : ∀ children, settings.declares
      ⟨"function_stmt", none, completion, closed, line, children⟩ = false := by
    intro children
    rw [Settings.declares, hnames]
    rfl
  rw [Tree.mentions, hnames, if_neg (by decide), if_neg (by decide), if_pos rfl,
    Tree.mentionsBehindFirst, List.append_cons] at heq ⊢
  obtain ⟨more, hrest⟩ : ∃ more, mentions = done ++ [] ++ more := by
    rw [List.append_nil]
    exact ⟨_, heq.trans ((List.append_assoc _ _ _).trans (List.append_assoc _ _ _))⟩
  refine together_visitAll_of_not_declares hscoped (hdeclares _) hrest h
    fun inner outer hdone => ?_
  rw [visitEach, visitEach, run_run_bind, run_run_bind,
    run_visitAll_word hnames hlexeme, run_visitAll_word hnames hlexeme]
  refine together_visitEach (fun child hchild => ih child (.tail _ hchild)) heq ?_
  have hown : Follows done inner outer := (List.append_nil done) ▸ hdone
  exact hown.idle (idle_calls _)

theorem visitsTogether (hnames : settings.statements = {}) (hscoped : WellScoped mentions)
    {tree : Tree} (hderives : tree.Derives .statements) : VisitsTogether settings mentions tree := by
  induction hderives with
  | @leaf symbol token completion closed line hterminal _ _ =>
    have hother : ∀ terminal ∈ Grammar.statements.terminals,
        terminal ∉ ["type_decl", "var_decl", "function_stmt"] := by
      decide
    have hsymbol := hother symbol (List.contains_iff_mem.mp hterminal)
    simp only [List.mem_cons, List.not_mem_nil, or_false, not_or] at hsymbol
    refine visitsTogether_of_children hscoped ?_ (by rw [hnames]; exact hsymbol.2.2)
      fun _ hchild => absurd hchild List.not_mem_nil
    simp [Settings.declares, hnames, hsymbol]
  | @node symbol completion closed line children hform hchildren ih =>
    by_cases hdeclares : settings.declares ⟨symbol, none, completion, closed, line, children⟩ = true
    · intro done rest inner outer heq h
      refine together_visitAll_of_declares hdeclares ?_
      rcases mentions_of_declares hdeclares with ⟨hmentions, hsymbol⟩ | ⟨hmentions, hother, hsymbol⟩
      · rw [hmentions] at heq ⊢
        exact together_visit_type hscoped hsymbol heq h
      · rw [hmentions] at heq ⊢
        exact together_visit_variable hscoped hother hsymbol heq h
    by_cases hcall : symbol = "function_stmt"
    · subst hcall
      exact visitsTogether_call hnames hscoped hform hchildren ih
    · exact visitsTogether_of_children hscoped (Bool.eq_false_iff.mpr hdeclares)
        (by rw [hnames]; exact hcall) ih

end Declaration

namespace DeclarationWalk

/-- A walk that is resumed until it ends declares what a visit of the whole tree declares. -/
theorem run_atRoot_eq (settings : Settings) (tree : Tree) (store : Store) :
    atRoot.run settings tree 0 store =
      match (Declaration.visitAll settings tree).run.run store with
      | (.error error, after) => (after, .error error)
      | (.ok (), after) =>
        (after.verifyTypes.1, if after.verifyTypes.2 then .ok (settings.outerLoops tree).length
          else .error .inconsistentTypes) := by
  have hvisible : settings.visible tree =
      (tree.reached settings.declares).map (Tree.under []) := by
    rw [show Tree.under [] = id from rfl, List.map_id, Tree.reached_eq_filter]
    rfl
  have hvisits : (Touring.declaring settings).visitList (settings.visible tree) store =
      (Declaration.visitAll settings tree).run.run store := by
    rw [hvisible, ← Touring.visitAll_declaring settings tree [], Touring.visitAll_eq]
    rfl
  rw [(Touring.run_eq_tour settings tree store).1, Touring.tour, hvisits]
  rcases (Declaration.visitAll settings tree).run.run store with ⟨error | ⟨⟩, after⟩
  · rfl
  · show (after.verifyTypes.1, Except.map _ (if after.verifyTypes.2 then _ else _)) =
      (after.verifyTypes.1, if after.verifyTypes.2 then _ else _)
    cases after.verifyTypes.2 <;> rfl

/-- Of a well-scoped text, the walk with blocks as scopes ends as the one without them does. -/
theorem run_withScoping {settings : Settings} (hnames : settings.statements = {}) {tree : Tree}
    (hderives : tree.Derives .statements) (hscoped : WellScoped (tree.mentions settings)) :
    (atRoot.run (settings.withScoping .static) tree 0 {}).2 =
        (atRoot.run (settings.withScoping .off) tree 0 {}).2 ∧
      ∀ stops, (atRoot.run (settings.withScoping .static) tree 0 {}).2 = .ok stops →
        Follows (tree.mentions settings)
          (atRoot.run (settings.withScoping .static) tree 0 {}).1
          (atRoot.run (settings.withScoping .off) tree 0 {}).1 := by
  have htogether := Declaration.visitsTogether hnames hscoped hderives [] [] {} {}
    (List.append_nil _).symm .empty
  rw [List.nil_append] at htogether
  rw [run_atRoot_eq, run_atRoot_eq]
  generalize (Declaration.visitAll (settings.withScoping .static) tree).run.run {} = first
    at htogether ⊢
  generalize (Declaration.visitAll (settings.withScoping .off) tree).run.run {} = second
    at htogether ⊢
  cases htogether with
  | fails => exact ⟨rfl, fun stops hok => by cases hok⟩
  | ends h =>
    dsimp only
    rw [h.inner.typed.verifyTypes_eq, h.outer.typed.verifyTypes_eq]
    exact ⟨rfl, fun _ _ => h⟩

end DeclarationWalk

end LineGrammar
