import LineGrammar.Proofs.Program.Lockstep
import LineGrammar.Proofs.Program.Meaning

/-!
# Programs that use no forgotten names

A derivation in the grammar of statements that uses no forgotten name becomes the same program on
both stores, and the program runs on both in the same way.
-/

namespace LineGrammar

open Mentions Assembly

/-! ## Derivations -/

namespace Tree

namespace Derives

/-- The symbols of expressions and of what they are made of. -/
def plainSymbols : List String :=
  Grammar.statements.terminals ++ ["condition", "expr", "primary", "array", "op", "relop"]

/-- The symbols of nodes below which there are no statements. -/
def idleSymbols : List String :=
  plainSymbols ++ declarationSymbols

variable {settings : Settings} {tree : Tree} {gone : List String}

theorem mentions_of_plain (hnames : settings.statements = {})
    (hsymbol : tree.symbol ∈ plainSymbols) :
    tree.mentions settings =
      tree.ownMentions ++ tree.children.flatMap (Tree.mentions settings) := by
  have hother : ∀ symbol ∈ plainSymbols,
      symbol ∉ ["type_decl", "var_decl", "function_stmt"] := by
    decide
  have hplain := hother tree.symbol hsymbol
  simp only [List.mem_cons, List.not_mem_nil, or_false, not_or] at hplain
  have hdeclares : settings.declares tree = false := by
    simp [Settings.declares, hnames, hplain]
  rw [Declaration.mentions_of_not_declares hdeclares (by rw [hnames]; exact hplain.2.2),
    mentionsOfAll_eq]

theorem uses_of_mem_leaves (hnames : settings.statements = {}) (h : Derives .statements tree)
    (hsymbol : tree.symbol ∈ plainSymbols) {leaf : Tree} (hleaf : leaf ∈ tree.leaves)
    (hid : leaf.symbol = "ID") {name : String}
    (hword : leaf.token.map Token.lexeme = some (.word name)) :
    .uses (.variable name) ∈ tree.mentions settings := by
  have hclosed : ∀ symbol ∈ plainSymbols, ∀ form ∈ Grammar.statements.forms symbol,
      ∀ other ∈ form, other ∈ plainSymbols := by
    decide +kernel
  rw [mentions_of_plain hnames hsymbol]
  induction h with
  | leaf =>
    obtain rfl := List.mem_singleton.mp hleaf
    refine List.mem_append_left _ ?_
    rw [ownMentions, hword]
    dsimp only
    rw [if_pos hid]
    exact List.mem_singleton_self _
  | @node symbol completion closed line children hform hchildren ih =>
    rw [leaves] at hleaf
    split_ifs at hleaf with hempty
    · obtain rfl := List.mem_singleton.mp hleaf
      cases hword
    · rw [leavesOfAll_eq] at hleaf
      obtain ⟨child, hchild, hbelow⟩ := List.mem_flatMap.mp hleaf
      have hplain := hclosed symbol hsymbol _ hform _ (List.mem_map_of_mem hchild)
      refine List.mem_append_right _ (List.mem_flatMap.mpr ⟨child, hchild, ?_⟩)
      rw [mentions_of_plain hnames hplain]
      exact ih child hchild hplain hbelow

theorem avoids (hnames : settings.statements = {}) (h : Derives .statements tree)
    (hsymbol : tree.symbol ∈ plainSymbols)
    (huses : ∀ name, .uses (.variable name) ∈ tree.mentions settings → name ∉ gone) :
    tree.Avoids gone :=
  fun _ hleaf hid name hword => huses name (h.uses_of_mem_leaves hnames hsymbol hleaf hid hword)

theorem suits_of_not_mem (h : tree.symbol ∉ statementSymbols) : Lockstep.Suits gone {} tree := by
  simp only [statementSymbols, List.mem_cons, List.not_mem_nil, or_false, not_or] at h
  obtain ⟨hassign, hconditional, hwhile, hrepeat, hprint, hcall⟩ := h
  refine ⟨fun hline => ?_, fun heq => absurd heq hcall, fun hmem => ?_⟩
  · exact absurd hline (by simp [hassign, hprint])
  · exact absurd hmem (by simp [hconditional, hwhile, hrepeat])

theorem blocks_of_idle (h : Derives .statements tree) (hsymbol : tree.symbol ∈ idleSymbols) :
    Lockstep.Blocks gone {} tree := by
  have hother : ∀ symbol ∈ idleSymbols, symbol ∉ statementSymbols := by decide
  have hclosed : ∀ symbol ∈ idleSymbols, ∀ form ∈ Grammar.statements.forms symbol,
      ∀ other ∈ form, other ∈ idleSymbols := by
    decide +kernel
  induction h with
  | @leaf symbol =>
    exact .blockOf (suits_of_not_mem (hother symbol hsymbol))
      fun child hchild => absurd hchild List.not_mem_nil
  | @node symbol completion closed line children hform hchildren ih =>
    refine .blockOf (suits_of_not_mem (hother symbol hsymbol)) fun child hchild => ?_
    exact ih child hchild (hclosed symbol hsymbol _ hform _ (List.mem_map_of_mem hchild))

section

variable {completion : Completion} {closed : Bool} {line : Nat} {symbol : String}
  {children : List Tree}

theorem mentions_of_node (hnames : settings.statements = {})
    (hsymbol : symbol ∉ ["type_decl", "var_decl", "function_stmt"]) :
    Tree.mentions settings ⟨symbol, none, completion, closed, line, children⟩ =
      children.flatMap (Tree.mentions settings) := by
  simp only [List.mem_cons, List.not_mem_nil, or_false, not_or] at hsymbol
  rw [Tree.mentions, hnames, if_neg hsymbol.1, if_neg hsymbol.2.1, if_neg hsymbol.2.2,
    mentionsOfAll_eq]
  rfl

theorem mentions_of_call (hnames : settings.statements = {}) :
    Tree.mentions settings ⟨"function_stmt", none, completion, closed, line, children⟩ =
      .calls (spelled ⟨"function_stmt", none, completion, closed, line, children⟩) ::
        children.tail.flatMap (Tree.mentions settings) := by
  rw [Tree.mentions, hnames, if_neg (by decide), if_neg (by decide), if_pos rfl,
    mentionsBehindFirst_eq]

theorem avoids_child (hnames : settings.statements = {})
    (hchildren : ∀ child ∈ children, Derives .statements child)
    (huses : ∀ name, .uses (.variable name) ∈
      Tree.mentions settings ⟨symbol, none, completion, closed, line, children⟩ → name ∉ gone)
    (hsymbol : symbol ∉ ["type_decl", "var_decl", "function_stmt"]) {child : Tree}
    (hchild : child ∈ children) (hplain : child.symbol ∈ plainSymbols) : child.Avoids gone := by
  refine (hchildren child hchild).avoids hnames hplain fun name hname => huses name ?_
  rw [mentions_of_node hnames hsymbol]
  exact List.mem_flatMap.mpr ⟨child, hchild, hname⟩

theorem suits_call (hnames : settings.statements = {})
    (hform : children.map Tree.symbol ∈ Grammar.statements.forms "function_stmt")
    (hchildren : ∀ child ∈ children, Derives .statements child)
    (huses : ∀ name, .uses (.variable name) ∈
      Tree.mentions settings ⟨"function_stmt", none, completion, closed, line, children⟩ →
        name ∉ gone)
    (hdebug : .calls "debug" ∉
      Tree.mentions settings ⟨"function_stmt", none, completion, closed, line, children⟩) :
    (∀ child ∈ children.tail, child.Avoids gone) ∧
      spelled ⟨"function_stmt", none, completion, closed, line, children⟩ ≠ "debug" := by
  rw [mentions_of_call hnames] at huses hdebug
  have hplain : ∀ form ∈ Grammar.statements.forms "function_stmt", ∀ other ∈ form.tail,
      other ∈ plainSymbols := by
    decide
  refine ⟨fun child hmem => ?_, fun hspelled => hdebug ?_⟩
  · have hsymbol := hplain _ hform child.symbol (by
      rw [← List.map_tail]
      exact List.mem_map_of_mem hmem)
    refine (hchildren child (List.mem_of_mem_tail hmem)).avoids hnames hsymbol fun name hname =>
      huses name (.tail _ ?_)
    exact List.mem_flatMap.mpr ⟨child, hmem, hname⟩
  · rw [hspelled]
    exact .head _

/-- The condition of a branch or a loop is one of its children, so that no deeper node is looked
for. -/
theorem mem_of_findBelow
    (hsymbol : symbol ∈ ["if_stmt", "while_stmt", "repeat_stmt"])
    (hform : children.map Tree.symbol ∈ Grammar.statements.forms symbol) {condition : Tree}
    (hfind : findBelow "condition" 2 [⟨symbol, none, completion, closed, line, children⟩] =
      some condition) :
    condition ∈ children ∧ condition.symbol = "condition" := by
  have hforms : ∀ symbol ∈ ["if_stmt", "while_stmt", "repeat_stmt"],
      ∀ form ∈ Grammar.statements.forms symbol, "condition" ∈ form := by
    decide
  obtain ⟨child, hchild, hcondition⟩ := List.mem_map.mp (hforms symbol hsymbol _ hform)
  have hsome : (children.find? fun tree => tree.symbol == "condition").isSome :=
    List.find?_isSome.mpr ⟨child, hchild, by simp [hcondition]⟩
  obtain ⟨found, hfound⟩ := Option.isSome_iff_exists.mp hsome
  have heq : findBelow "condition" 2
      [⟨symbol, none, completion, closed, line, children⟩] = some found := by
    simp [findBelow, hfound]
  obtain rfl := Option.some.inj (heq.symm.trans hfind)
  exact ⟨List.mem_of_find?_eq_some hfound, by simpa using List.find?_some hfound⟩

theorem suits (hnames : settings.statements = {})
    (hform : children.map Tree.symbol ∈ Grammar.statements.forms symbol)
    (hchildren : ∀ child ∈ children, Derives .statements child)
    (huses : ∀ name, .uses (.variable name) ∈
      Tree.mentions settings ⟨symbol, none, completion, closed, line, children⟩ → name ∉ gone)
    (hdebug : .calls "debug" ∉
      Tree.mentions settings ⟨symbol, none, completion, closed, line, children⟩) :
    Lockstep.Suits gone {} ⟨symbol, none, completion, closed, line, children⟩ := by
  have hother : ∀ symbol ∈ ["assign_stmt", "print_stmt", "if_stmt", "while_stmt", "repeat_stmt"],
      symbol ∉ ["type_decl", "var_decl", "function_stmt"] := by
    decide
  constructor
  · intro hsymbol child hmem
    have hline : symbol ∈ ["assign_stmt", "print_stmt"] := by simpa using hsymbol
    have hplain : ∀ symbol ∈ ["assign_stmt", "print_stmt"],
        ∀ form ∈ Grammar.statements.forms symbol, ∀ other ∈ form, other ∈ plainSymbols := by
      decide
    exact avoids_child hnames hchildren huses (hother symbol (List.mem_append_left _ hline)) hmem
      (hplain symbol hline _ hform _ (List.mem_map_of_mem hmem))
  · rintro rfl
    exact suits_call hnames hform hchildren huses hdebug
  · intro hsymbol condition hfind
    obtain ⟨hmem, hcondition⟩ := mem_of_findBelow hsymbol hform hfind
    have havoids := avoids_child hnames hchildren huses
      (hother symbol (List.mem_append_right ["assign_stmt", "print_stmt"] hsymbol)) hmem
      (hcondition ▸ by decide)
    exact havoids.child

theorem blocks (hnames : settings.statements = {}) (h : Derives .statements tree)
    (huses : ∀ name, .uses (.variable name) ∈ tree.mentions settings → name ∉ gone)
    (hdebug : .calls "debug" ∉ tree.mentions settings) : Lockstep.Blocks gone {} tree := by
  induction h with
  | leaf hterminal haccepts hlexical =>
    refine (Derives.leaf hterminal haccepts hlexical).blocks_of_idle ?_
    exact List.mem_append_left _ (List.mem_append_left _ (List.contains_iff_mem.mp hterminal))
  | @node symbol completion closed line children hform hchildren ih =>
    by_cases hidle : symbol ∈ idleSymbols
    · exact (Derives.node hform hchildren).blocks_of_idle hidle
    refine .blockOf (suits hnames hform hchildren huses hdebug) fun child hchild => ?_
    by_cases hcall : symbol = "function_stmt"
    · subst hcall
      have hidle : ∀ form ∈ Grammar.statements.forms "function_stmt", ∀ other ∈ form,
          other ∈ idleSymbols := by
        decide
      exact (hchildren child hchild).blocks_of_idle
        (hidle _ hform _ (List.mem_map_of_mem hchild))
    · have hsymbol : symbol ∉ ["type_decl", "var_decl", "function_stmt"] := by
        intro hmem
        simp only [List.mem_cons, List.not_mem_nil, or_false, hcall] at hmem
        rcases hmem with rfl | rfl <;> exact hidle (by decide)
      rw [mentions_of_node hnames hsymbol] at huses hdebug
      refine ih child hchild (fun name hname => huses name ?_) fun hcalls => hdebug ?_
      · exact List.mem_flatMap.mpr ⟨child, hchild, hname⟩
      · exact List.mem_flatMap.mpr ⟨child, hchild, hcalls⟩

end

end Derives

end Tree

end LineGrammar
