import LineGrammar.Declaration
import LineGrammar.Proofs.Source.OfTree
import Mathlib.Data.List.Induction
import Mathlib.Data.List.Nodup

/-!
# What a text mentions

The text of a tree mentions, from left to right, the braces of blocks, the names that it declares
and those that it uses, and the functions that it calls. A name is in scope behind its declaration
up to the end of the block that declares it. In a well-scoped text each name is declared at most
once, and names that are declared are used only where they are in scope.
-/

namespace LineGrammar

/-- A type and a variable of the same name are told apart. -/
inductive Name where
  | type (name : String)
  | variable (name : String)
  deriving DecidableEq, Repr

inductive Mention where
  | opens
  | closes
  | declares (name : Name)
  | uses (name : Name)
  | calls (function : String)
  deriving DecidableEq, Repr

/-- A declaration uses a type, and then declares its names. -/
def Declaration.mentions (declaration : Declaration) (settings : Settings) (kind : String → Name) :
    List Mention :=
  declaration.type.toList.map (fun type => .uses (.type (settings.resolveType type))) ++
    declaration.names.reverse.map fun name => .declares (kind name)

namespace Tree

/-- What the token of a node mentions that is no part of a declaration. -/
def ownMentions (tree : Tree) : List Mention :=
  match tree.token.map Token.lexeme with
  | some (.mark "\x7b") => [.opens]
  | some (.mark "\x7d") => [.closes]
  | some (.word name) => if tree.symbol = "ID" then [.uses (.variable name)] else []
  | _ => []

mutual

/-- What the text of a tree mentions. The first child of a call is the name of the function. -/
def mentions (settings : Settings) : Tree → List Mention
  | tree@⟨symbol, _, _, _, _, children⟩ =>
    if symbol = settings.statements.typeDeclaration then
      (Declaration.ofTree tree).mentions settings .type
    else if symbol = settings.statements.variableDeclaration then
      (Declaration.ofTree tree).mentions settings .variable
    else if symbol = settings.statements.call then
      .calls tree.spelled :: mentionsBehindFirst settings children
    else tree.ownMentions ++ mentionsOfAll settings children

def mentionsBehindFirst (settings : Settings) : List Tree → List Mention
  | [] => []
  | _ :: trees => mentionsOfAll settings trees

def mentionsOfAll (settings : Settings) : List Tree → List Mention
  | [] => []
  | tree :: trees => tree.mentions settings ++ mentionsOfAll settings trees

end

theorem mentionsOfAll_eq (settings : Settings) (trees : List Tree) :
    mentionsOfAll settings trees = trees.flatMap (mentions settings) := by
  induction trees with
  | nil => rfl
  | cons tree trees ih => rw [mentionsOfAll, ih, List.flatMap_cons]

theorem mentionsBehindFirst_eq (settings : Settings) (trees : List Tree) :
    mentionsBehindFirst settings trees = trees.tail.flatMap (mentions settings) := by
  rw [← mentionsOfAll_eq]
  cases trees <;> rfl

end Tree

namespace Mentions

def declared (mentions : List Mention) : List Name :=
  mentions.filterMap fun
    | .declares name => some name
    | _ => none

/-- The blocks that are open, the innermost first, each with the names that it has declared. The
outermost is never closed. -/
def track : List (List Name) → Mention → List (List Name)
  | scope :: outer, .declares name => (name :: scope) :: outer
  | scopes, .opens => [] :: scopes
  | _ :: outer :: rest, .closes => outer :: rest
  | scopes, _ => scopes

/-- The blocks that are open at the end of a text. -/
def scopes (mentions : List Mention) : List (List Name) :=
  mentions.foldl track [[]]

def inScope (mentions : List Mention) : List Name :=
  (scopes mentions).flatten

/-- The names of the blocks that have been closed. -/
def left (mentions : List Mention) : List Name :=
  (declared mentions).filter (· ∉ inScope mentions)

/-- The variables of the blocks that have been closed. -/
def leftVariables (mentions : List Mention) : List String :=
  (left mentions).filterMap fun
    | .variable name => some name
    | .type _ => none

/-- The mention opens and closes no block, and declares nothing. -/
def Idle (mention : Mention) : Prop :=
  ∀ scopes, track scopes mention = scopes

/-- Each name is declared at most once, and a name that is declared is used only where it is in
scope. -/
structure WellScoped (mentions : List Mention) : Prop where
  nodup : (declared mentions).Nodup
  inScope : ∀ index name, mentions[index]? = some (.uses name) → name ∈ declared mentions →
    name ∈ inScope (mentions.take index)

/-- The name that is used at a position. -/
def usedAt? (mentions : List Mention) (index : Nat) : Option Name :=
  mentions[index]?.bind fun
    | .uses name => some name
    | _ => none

theorem usedAt?_eq_some {mentions : List Mention} {index : Nat} {name : Name} :
    usedAt? mentions index = some name ↔ mentions[index]? = some (.uses name) := by
  unfold usedAt?
  rw [Option.bind_eq_some_iff]
  constructor
  · rintro ⟨mention, hmention, heq⟩
    cases mention <;> cases heq
    exact hmention
  · exact fun hmention => ⟨_, hmention, rfl⟩

instance (mentions : List Mention) : Decidable (WellScoped mentions) :=
  decidable_of_iff ((declared mentions).Nodup ∧ ∀ index < mentions.length,
      ∀ name ∈ usedAt? mentions index, name ∈ declared mentions →
        name ∈ inScope (mentions.take index))
    ⟨fun ⟨hnodup, hscope⟩ => ⟨hnodup, fun index name hused =>
        hscope index (List.getElem?_eq_some_iff.mp hused).1 name (usedAt?_eq_some.mpr hused)⟩,
      fun h => ⟨h.nodup, fun index _ name hused =>
        h.inScope index name (usedAt?_eq_some.mp hused)⟩⟩

section

variable {done more mentions : List Mention} {name other : Name}

theorem mem_declared : name ∈ declared mentions ↔ .declares name ∈ mentions := by
  rw [declared, List.mem_filterMap]
  constructor
  · rintro ⟨mention, hmem, heq⟩
    cases mention <;> cases heq
    exact hmem
  · exact fun hmem => ⟨_, hmem, rfl⟩

theorem mem_left : name ∈ left done ↔ name ∈ declared done ∧ name ∉ inScope done := by
  simp [left]

theorem mem_leftVariables {name : String} :
    name ∈ leftVariables mentions ↔ .variable name ∈ left mentions := by
  rw [leftVariables, List.mem_filterMap]
  constructor
  · rintro ⟨other | other, hleft, heq⟩
    · cases heq
    · exact Option.some.inj heq ▸ hleft
  · exact fun hleft => ⟨_, hleft, rfl⟩

/-! ## A mention more -/

theorem declared_append (done more : List Mention) :
    declared (done ++ more) = declared done ++ declared more :=
  List.filterMap_append

theorem scopes_concat (done : List Mention) (mention : Mention) :
    scopes (done ++ [mention]) = track (scopes done) mention := by
  rw [scopes, List.foldl_append]
  rfl

theorem exists_scopes_eq (done : List Mention) : ∃ scope outer, scopes done = scope :: outer := by
  induction done using List.reverseRecOn with
  | nil => exact ⟨[], [], rfl⟩
  | append_singleton done mention ih =>
    obtain ⟨scope, outer, hscopes⟩ := ih
    rw [scopes_concat, hscopes]
    cases mention with
    | closes => cases outer <;> exact ⟨_, _, rfl⟩
    | _ => exact ⟨_, _, rfl⟩

theorem inScope_declares (done : List Mention) (name : Name) :
    inScope (done ++ [.declares name]) = name :: inScope done := by
  obtain ⟨scope, outer, hscopes⟩ := exists_scopes_eq done
  rw [inScope, inScope, scopes_concat, hscopes]
  rfl

theorem inScope_opens (done : List Mention) : inScope (done ++ [.opens]) = inScope done := by
  obtain ⟨scope, outer, hscopes⟩ := exists_scopes_eq done
  rw [inScope, inScope, scopes_concat, hscopes]
  rfl

theorem idle_uses (name : Name) : Idle (.uses name) := by
  rintro (_ | ⟨scope, _ | ⟨outer, rest⟩⟩) <;> rfl

theorem idle_calls (function : String) : Idle (.calls function) := by
  rintro (_ | ⟨scope, _ | ⟨outer, rest⟩⟩) <;> rfl

theorem Idle.scopes_concat {mention : Mention} (h : Idle mention) (done : List Mention) :
    scopes (done ++ [mention]) = scopes done := by
  rw [Mentions.scopes_concat, h]

theorem inScope_sublist (done : List Mention) :
    (inScope done).Sublist (declared done).reverse := by
  induction done using List.reverseRecOn with
  | nil => exact List.Sublist.refl _
  | append_singleton done mention ih =>
    rw [declared_append, List.reverse_append]
    cases mention with
    | declares name =>
      rw [inScope_declares]
      exact ih.cons_cons name
    | opens =>
      rw [inScope_opens]
      exact ih
    | closes =>
      refine List.Sublist.trans ?_ ih
      rw [inScope, inScope, scopes_concat]
      rcases scopes done with _ | ⟨scope, _ | ⟨outer, rest⟩⟩
      · exact List.Sublist.refl _
      · exact List.Sublist.refl _
      · exact List.sublist_append_right _ _
    | uses name =>
      rw [inScope, (idle_uses name).scopes_concat]
      exact ih
    | calls function =>
      rw [inScope, (idle_calls function).scopes_concat]
      exact ih

theorem mem_left_declares (hother : other ∉ declared done) :
    name ∈ left (done ++ [.declares other]) ↔ name ∈ left done := by
  rw [mem_left, mem_left, inScope_declares, declared_append, List.mem_append, List.mem_cons, not_or]
  constructor
  · rintro ⟨hdeclared, hne, hnot⟩
    exact ⟨hdeclared.resolve_right fun hlast => hne (List.mem_singleton.mp hlast), hnot⟩
  · rintro ⟨hdeclared, hnot⟩
    exact ⟨.inl hdeclared, fun heq => hother (heq ▸ hdeclared), hnot⟩

theorem left_opens (done : List Mention) : left (done ++ [.opens]) = left done := by
  rw [left, left, inScope_opens, declared_append]
  simp [declared]

theorem Idle.left_concat {mention : Mention} (h : Idle mention) (done : List Mention) :
    left (done ++ [mention]) = left done := by
  have hdeclared : declared [mention] = [] := by
    cases mention with
    | declares name => exact absurd (h [[]]) (by simp [track])
    | _ => rfl
  rw [left, left, inScope, inScope, h.scopes_concat, declared_append, hdeclared, List.append_nil]

theorem mem_left_closes {scope outer : List Name} {rest : List (List Name)}
    (hnodup : (declared done).Nodup) (hscopes : scopes done = scope :: outer :: rest) :
    name ∈ left (done ++ [.closes]) ↔ name ∈ left done ∨ name ∈ scope := by
  have hsublist := inScope_sublist done
  have hflat := hsublist.nodup (List.nodup_reverse.mpr hnodup)
  have hbefore : inScope done = scope ++ (outer :: rest).flatten := by
    rw [inScope, hscopes, List.flatten_cons]
  have hafter : inScope (done ++ [.closes]) = (outer :: rest).flatten := by
    rw [inScope, scopes_concat, hscopes]
    rfl
  have hdeclared : declared (done ++ [.closes]) = declared done := by
    rw [declared_append]
    simp [declared]
  rw [hbefore] at hflat hsublist
  rw [mem_left, mem_left, hafter, hbefore, hdeclared, List.mem_append, not_or]
  constructor
  · rintro ⟨hmem, hnot⟩
    by_cases hscope : name ∈ scope
    · exact .inr hscope
    · exact .inl ⟨hmem, hscope, hnot⟩
  · rintro (⟨hmem, -, hnot⟩ | hscope)
    · exact ⟨hmem, hnot⟩
    · refine ⟨?_, fun hrest => (List.nodup_append.mp hflat).2.2 name hscope name hrest rfl⟩
      exact List.mem_reverse.mp (hsublist.subset (List.mem_append_left _ hscope))

/-! ## Well-scoped texts -/

theorem WellScoped.not_mem_declared (h : WellScoped mentions)
    (heq : mentions = done ++ .declares name :: more) : name ∉ declared done := by
  have hnodup := h.nodup
  rw [heq, declared_append] at hnodup
  exact fun hmem => (List.nodup_append.mp hnodup).2.2 name hmem name (.head _) rfl

theorem WellScoped.not_mem_left (h : WellScoped mentions)
    (heq : mentions = done ++ .uses name :: more) : name ∉ left done := by
  intro hleft
  obtain ⟨hdeclared, hnot⟩ := mem_left.mp hleft
  have hscope := h.inScope done.length name (by rw [heq]; simp)
    (by rw [heq, declared_append]; exact List.mem_append_left _ hdeclared)
  rw [heq, List.take_left'] at hscope
  · exact hnot hscope
  · rfl

end

end Mentions

end LineGrammar
