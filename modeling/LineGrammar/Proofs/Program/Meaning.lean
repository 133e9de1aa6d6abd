import LineGrammar.Proofs.Program.Compiling

/-!
# The meaning of programs

A derivation in the grammar of statements becomes a program that does what the command does that is
written there.
-/

namespace LineGrammar

open Source Assembly

theorem Tree.CompilesBody.compiles {tree : Tree} {command : Command}
    (h : tree.CompilesBody command) : tree.Compiles command := by
  intro before hsound
  obtain ⟨block, after, inner, close, hmakes, horder, hclose, hcompiled⟩ := h before hsound
  exact ⟨block, after, hmakes, hcompiled.sound, hcompiled.grows,
    fun table htable => hcompiled.carries_concat horder hclose htable⟩

/-! ## Lines -/

section

variable {completion : Completion} {closed : Bool} {line : Nat} {children : List Tree}
  {command : Command}

theorem compiles_assign
    (h : Realizes (assignment {} ⟨"assign_stmt", none, completion, closed, line, children⟩)
      command) :
    Tree.Compiles ⟨"assign_stmt", none, completion, closed, line, children⟩ command := by
  intro before hsound
  obtain ⟨order, after, actions, hmakes, hgains, hperforms⟩ := h before hsound
  refine ⟨.line order, after, ?_, .row hgains (emitsPlain_assignment hmakes) hperforms⟩
  unfold blockOf
  exact makes_ite.mpr (.inl ⟨rfl, makes_bind.mpr ⟨_, _, hmakes, makes_pure.mpr ⟨rfl, rfl⟩⟩⟩)

theorem compiles_print
    (h : Realizes (output {} ⟨"print_stmt", none, completion, closed, line, children⟩) command) :
    Tree.Compiles ⟨"print_stmt", none, completion, closed, line, children⟩ command := by
  intro before hsound
  obtain ⟨order, after, actions, hmakes, hgains, hperforms⟩ := h before hsound
  refine ⟨.line order, after, ?_, .row hgains (emitsPlain_output hmakes) hperforms⟩
  unfold blockOf
  refine makes_ite.mpr (.inr ⟨by decide, makes_ite.mpr (.inr ⟨by decide, ?_⟩)⟩)
  refine makes_ite.mpr (.inr ⟨by decide, makes_ite.mpr (.inr ⟨by decide, ?_⟩)⟩)
  exact makes_ite.mpr (.inl ⟨rfl, makes_bind.mpr ⟨_, _, hmakes, makes_pure.mpr ⟨rfl, rfl⟩⟩⟩)

theorem compiles_call
    (h : Realizes (call {} ⟨"function_stmt", none, completion, closed, line, children⟩) command) :
    Tree.Compiles ⟨"function_stmt", none, completion, closed, line, children⟩ command := by
  intro before hsound
  obtain ⟨order, after, actions, hmakes, hgains, hperforms⟩ := h before hsound
  refine ⟨.line order, after, ?_, .row hgains (emitsPlain_call hmakes) hperforms⟩
  unfold blockOf
  refine makes_ite.mpr (.inr ⟨by decide, makes_ite.mpr (.inr ⟨by decide, ?_⟩)⟩)
  refine makes_ite.mpr (.inr ⟨by decide, makes_ite.mpr (.inr ⟨by decide, ?_⟩)⟩)
  refine makes_ite.mpr (.inr ⟨by decide, ?_⟩)
  exact makes_ite.mpr (.inl ⟨rfl, makes_bind.mpr ⟨_, _, hmakes, makes_pure.mpr ⟨rfl, rfl⟩⟩⟩)

end

namespace Tree.Derives

theorem comparesTo {condition : Tree} (h : Derives .statements condition) (node : Tree)
    (hsymbol : condition.symbol = "condition")
    (hfind : Tree.findBelow "condition" 2 [node] = some condition) :
    node.ComparesTo condition.condition := by
  obtain ⟨symbol, completion, closed, line, children, rfl, hform, hchildren⟩ :=
    h.exists_children (by rw [hsymbol]; decide)
  obtain rfl : symbol = "condition" := hsymbol
  obtain ⟨a, _, rfl, ha, b, _, rfl, hb, c, _, rfl, hc, d, _, rfl, hd, e, _, rfl, he, rfl⟩ :=
    haveSymbols_of_map_eq (List.mem_singleton.mp hform)
  obtain ⟨hleft, hleftMark⟩ := (hchildren b (by simp)).computes_expression (hb ▸ by decide)
  obtain ⟨hright, -⟩ := (hchildren d (by simp)).computes_expression (hd ▸ by decide)
  have hopening := ((hchildren a (by simp)).silent (ha ▸ by decide) (ha ▸ by decide)).2
  have hrelation := (hchildren c (by simp)).soleRelation? hc
  have hfound : Tree.relation? [a, b, c, d, e] = some (2, c.relation) := by
    have hfirst : a.soleMark?.bind Relation.ofSymbol? = none := by
      rcases hopening with hmark | hmark
      · rw [hmark]
        rfl
      · rw [hmark, ha]
        rfl
    unfold Tree.relation?
    rw [hfirst]
    unfold Tree.relation?
    rw [hleftMark]
    unfold Tree.relation?
    rw [hrelation]
    rfl
  intro before hsound
  exact exists_comparison rfl hfind rfl hfound hleft hright hsound

/-! ## Declarations -/

def declarationSymbols : List String :=
  ["var_decl", "type_decl", "id_list"]

theorem compilesAll_of_forall {trees : List Tree} (h : ∀ tree ∈ trees, tree.Compiles .skip) :
    CompilesAll trees .skip := by
  induction trees with
  | nil => exact .nil
  | cons tree trees ih =>
    have hrest := ih fun other hmem => h other (.tail _ hmem)
    exact (CompilesAll.cons (h tree (.head _)) hrest).congr
      fun _ _ => Command.Settles.of_skip_sequence

theorem compiles_idle {tree : Tree} (h : Derives .statements tree)
    (hsymbol : tree.symbol ∈ Grammar.statements.terminals ++ declarationSymbols) :
    tree.Compiles .skip := by
  have hother : ∀ symbol ∈ Grammar.statements.terminals ++ declarationSymbols,
      symbol ∉ statementSymbols := by
    decide
  have hforms : ∀ symbol ∈ Grammar.statements.terminals ++ declarationSymbols,
      ∀ form ∈ Grammar.statements.forms symbol, ∀ other ∈ form,
        other ∈ Grammar.statements.terminals ++ declarationSymbols := by
    decide
  induction h with
  | leaf hterminal haccepts hlexical => exact compiles_leaf (hother _ hsymbol)
  | @node symbol completion closed line children hform hchildren ih =>
    refine compiles_node (hother _ hsymbol) (compilesAll_of_forall fun child hchild => ?_)
    exact ih child hchild (hforms symbol hsymbol _ hform _ (List.mem_map_of_mem hchild))

theorem command_declaration {symbol : String} {completion : Completion} {closed : Bool} {line : Nat}
    {children : List Tree} (hsymbol : symbol = "var_decl" ∨ symbol = "type_decl")
    (hform : children.map Tree.symbol ∈ Grammar.statements.forms symbol) :
    command ⟨symbol, none, completion, closed, line, children⟩ = .skip := by
  have hlengths : ∀ symbol ∈ ["var_decl", "type_decl"],
      symbol ≠ "repeat_stmt" ∧ symbol ≠ "function_stmt" ∧
        ∀ form ∈ Grammar.statements.forms symbol, form.length = 5 ∨ form.length = 8 := by
    decide
  obtain ⟨hrepeat, hcall, hlength⟩ := hlengths symbol (by simpa using hsymbol)
  have := hlength _ hform
  rw [List.length_map] at this
  match children, this with
  | [_, _, _, _, _], _ => rw [command, if_neg hrepeat, if_neg hcall]
  | [_, _, _, _, _, _, _, _], _ => simp only [command]

/-! ## Statements -/

section

variable {completion : Completion} {closed : Bool} {line : Nat} {children : List Tree}

theorem compiles_assignment
    (hform : children.map Tree.symbol ∈ Grammar.statements.forms "assign_stmt")
    (hchildren : ∀ child ∈ children, Derives .statements child) :
    Tree.Compiles ⟨"assign_stmt", none, completion, closed, line, children⟩
      (command ⟨"assign_stmt", none, completion, closed, line, children⟩) := by
  have hforms : ∀ form ∈ Grammar.statements.forms "assign_stmt", ∃ target,
      (target = "ID" ∨ target = "array") ∧ form = [target, "=", "expr", ";"] := by
    simp only [show Grammar.statements.forms "assign_stmt" =
      [["ID", "=", "expr", ";"], ["array", "=", "expr", ";"]] from by decide]
    simp
  obtain ⟨target, htarget, hmap⟩ := hforms _ hform
  obtain ⟨a, _, rfl, ha, b, _, rfl, hb, c, _, rfl, hc, d, _, rfl, hd, rfl⟩ :=
    haveSymbols_of_map_eq hmap
  have hsymbol : a.symbol = "ID" ∨ a.symbol = "array" := ha ▸ htarget
  obtain ⟨name, index, hexpression, htargets⟩ := (hchildren a (by simp)).exists_targets hsymbol
  have hnotMark := (hchildren a (by simp)).isAssignmentMark_eq hsymbol
  have hmark : b.isAssignmentMark := by
    obtain ⟨symbol, token, completion, closed, line, rfl, -, -, hlexeme⟩ :=
      (hchildren b (by simp)).exists_spelling (hb ▸ by decide) (hb ▸ by decide)
    obtain rfl : symbol = "=" := hb
    have hspelling : (some token).bind Token.spelling = some "=" := by
      rw [Option.bind_some, Token.spelling]
      rcases hlexeme with h | h <;> rw [h] <;> rfl
    unfold isAssignmentMark
    dsimp only
    rw [hspelling]
    rfl
  obtain ⟨hvalue, hvalueMark⟩ := (hchildren c (by simp)).computes_expression (hc ▸ by decide)
  have hparts : Parts [c, d] [c.expression] [] :=
    .operand (arithmeticOp?_of_none hvalueMark) hvalue <|
      (hchildren d (by simp)).parts_silent (hd ▸ by decide) (hd ▸ by decide) (hd ▸ by decide) .nil
  have hcommand : command ⟨"assign_stmt", none, completion, closed, line, [a, b, c, d]⟩ =
      .assign name index c.expression := by
    show assignmentTo a.expression c.expression = _
    rw [hexpression]
    cases index <;> rfl
  rw [hcommand]
  exact compiles_assign (realizes_assignment rfl rfl hnotMark hmark htargets hparts)

theorem compiles_output
    (hform : children.map Tree.symbol ∈ Grammar.statements.forms "print_stmt")
    (hchildren : ∀ child ∈ children, Derives .statements child) :
    Tree.Compiles ⟨"print_stmt", none, completion, closed, line, children⟩
      (command ⟨"print_stmt", none, completion, closed, line, children⟩) := by
  obtain ⟨a, _, rfl, ha, b, _, rfl, hb, c, _, rfl, hc, rfl⟩ :=
    haveSymbols_of_map_eq (List.mem_singleton.mp hform)
  obtain ⟨hvalue, -⟩ := (hchildren b (by simp)).computes_expression (hb ▸ by decide)
  exact compiles_print (realizes_output rfl rfl hvalue)

theorem compiles_calls
    (hform : children.map Tree.symbol ∈ Grammar.statements.forms "function_stmt")
    (hchildren : ∀ child ∈ children, Derives .statements child)
    (hdebug : "debug" ∉
      (command ⟨"function_stmt", none, completion, closed, line, children⟩).functions) :
    Tree.Compiles ⟨"function_stmt", none, completion, closed, line, children⟩
      (command ⟨"function_stmt", none, completion, closed, line, children⟩) := by
  have hforms : ∀ form ∈ Grammar.statements.forms "function_stmt",
      form = ["ID", "(", "expr", ")", ";"] ∨ form = ["ID", "(", ")", ";"] := by
    simp only [show Grammar.statements.forms "function_stmt" =
      [["ID", "(", "expr", ")", ";"], ["ID", "(", ")", ";"]] from by decide]
    simp
  have hnamed : ∀ function, function ≠ "debug" → Builtin.ofName? function ≠ some .debug := by
    intro function hne
    unfold Builtin.ofName?
    split <;> simp_all
  rcases hforms _ hform with hmap | hmap
  · obtain ⟨a, _, rfl, ha, b, _, rfl, hb, c, _, rfl, hc, d, _, rfl, hd, e, _, rfl, he, rfl⟩ :=
      haveSymbols_of_map_eq hmap
    obtain ⟨name, token, _, _, _, rfl, -, -⟩ := (hchildren a (by simp)).exists_word ha
    obtain ⟨hvalue, -⟩ := (hchildren c (by simp)).computes_expression (hc ▸ by decide)
    have hne : token.text ≠ "debug" := fun h => hdebug (h ▸ List.mem_singleton_self _)
    exact compiles_call (realizes_call_some rfl rfl rfl hvalue (hnamed _ hne))
  · obtain ⟨a, _, rfl, ha, b, _, rfl, hb, c, _, rfl, hc, d, _, rfl, hd, rfl⟩ :=
      haveSymbols_of_map_eq hmap
    obtain ⟨name, token, _, _, _, rfl, -, -⟩ := (hchildren a (by simp)).exists_word ha
    obtain ⟨hsilent, -⟩ := (hchildren c (by simp)).silent (hc ▸ by decide) (hc ▸ by decide)
    have hne : token.text ≠ "debug" := fun h => hdebug (h ▸ List.mem_singleton_self _)
    exact compiles_call (realizes_call_none rfl rfl rfl hsilent (hnamed _ hne))

end

/-! ## Commands -/

def commandSymbols : List String :=
  ["program", "stmt_list", "stmt", "else_stmt"] ++ statementSymbols ++ ["var_decl", "type_decl"]

theorem form_cases : ∀ symbol ∈ commandSymbols, ∀ form ∈ Grammar.statements.forms symbol,
    (symbol ∉ statementSymbols ∧ ∃ only ∈ commandSymbols, form = [only]) ∨
    (symbol = "stmt_list" ∧ form = ["stmt", "stmt_list"]) ∨
    (symbol = "else_stmt" ∧ form = ["else", "body"]) ∨
    (symbol = "if_stmt" ∧ form = ["if", "condition", "body"]) ∨
    (symbol = "if_stmt" ∧ form = ["if", "condition", "body", "else_stmt"]) ∨
    (symbol = "while_stmt" ∧ form = ["while", "condition", "body"]) ∨
    (symbol = "repeat_stmt" ∧ form = ["repeat", "body", "until", "condition", ";"]) ∨
    symbol = "assign_stmt" ∨ symbol = "print_stmt" ∨ symbol = "function_stmt" ∨
    symbol = "var_decl" ∨ symbol = "type_decl" := by
  decide

theorem compilesBody {completion : Completion} {closed : Bool} {line : Nat} {children : List Tree}
    (hform : children.map Tree.symbol ∈ Grammar.statements.forms "body")
    (hchildren : ∀ child ∈ children, Derives .statements child)
    (hlist : ∀ child ∈ children, child.symbol = "stmt_list" →
      "debug" ∉ child.command.functions → child.Compiles child.command)
    (hdebug : "debug" ∉
      (command ⟨"body", none, completion, closed, line, children⟩).functions) :
    Tree.CompilesBody ⟨"body", none, completion, closed, line, children⟩
      (command ⟨"body", none, completion, closed, line, children⟩) := by
  have hforms : ∀ form ∈ Grammar.statements.forms "body",
      form = ["\x7b", "stmt_list", "\x7d"] ∨ form = ["\x7b", "\x7d"] := by
    simp only [show Grammar.statements.forms "body" =
      [["\x7b", "stmt_list", "\x7d"], ["\x7b", "\x7d"]] from by decide]
    simp
  rcases hforms _ hform with hmap | hmap
  · obtain ⟨a, _, rfl, ha, b, _, rfl, hb, c, _, rfl, hc, rfl⟩ := haveSymbols_of_map_eq hmap
    have hopening := (hchildren a (by simp)).compiles_idle (ha ▸ by decide)
    obtain ⟨closing, token, _, _, _, rfl, -, -⟩ :=
      (hchildren c (by simp)).exists_token (hc ▸ by decide)
    obtain rfl : closing = "\x7d" := hc
    have hcommand : ∀ brace, command ⟨"body", none, completion, closed, line, [a, b, brace]⟩ =
        b.command := by
      intro brace
      rw [command, if_pos rfl]
    rw [hcommand] at hdebug ⊢
    have hfront : CompilesAll [a, b] b.command :=
      (CompilesAll.cons hopening (.one (hlist b (by simp) hb hdebug))).congr
        fun _ _ => Command.Settles.of_skip_sequence
    exact @compilesBody_node _ _ _ _ _ _ _ _ _ _ [a, b] _ (by decide) (by decide) hfront
  · obtain ⟨a, _, rfl, ha, b, _, rfl, hb, rfl⟩ := haveSymbols_of_map_eq hmap
    have hopening := (hchildren a (by simp)).compiles_idle (ha ▸ by decide)
    obtain ⟨closing, token, _, _, _, rfl, -, -⟩ :=
      (hchildren b (by simp)).exists_token (hb ▸ by decide)
    obtain rfl : closing = "\x7d" := hb
    have hskip : ∀ brace, command ⟨"body", none, completion, closed, line, [a, brace]⟩ = .skip := by
      intro brace
      rw [command, if_neg (by decide), if_neg (by decide)]
    rw [hskip]
    exact @compilesBody_node _ _ _ _ _ _ _ _ _ _ [a] _ (by decide) (by decide) (.one hopening)

/-- A derivation compiles to the command that it writes, if that does not print all variables. -/
theorem compiles_command {tree : Tree} (h : Derives .statements tree)
    (hdebug : "debug" ∉ tree.command.functions) :
    (tree.symbol ∈ commandSymbols → tree.Compiles tree.command) ∧
      (tree.symbol = "body" → tree.CompilesBody tree.command) := by
  induction h with
  | @leaf symbol token completion closed line hterminal haccepts hlexical =>
    have hother : ∀ symbol ∈ Grammar.statements.terminals,
        symbol ∉ commandSymbols ∧ symbol ≠ "body" := by
      decide
    obtain ⟨hcommand, hbody⟩ := hother symbol (List.contains_iff_mem.mp hterminal)
    exact ⟨fun h => absurd h hcommand, fun h => absurd h hbody⟩
  | @node symbol completion closed line children hform hchildren ih =>
    constructor
    · intro hsymbol
      rcases form_cases symbol hsymbol _ hform with ⟨hnot, only, honly, hmap⟩ | ⟨rfl, hmap⟩ |
        ⟨rfl, hmap⟩ | ⟨rfl, hmap⟩ | ⟨rfl, hmap⟩ | ⟨rfl, hmap⟩ | ⟨rfl, hmap⟩ | rfl | rfl | rfl |
        hdeclaration
      · obtain ⟨a, _, rfl, rfl, rfl⟩ := haveSymbols_of_map_eq hmap
        exact compiles_node hnot (.one ((ih a (.head _) hdebug).1 honly))
      · -- statements after each other
        obtain ⟨a, _, rfl, ha, b, _, rfl, hb, rfl⟩ := haveSymbols_of_map_eq hmap
        have hfunctions : "debug" ∉ a.command.functions ++ b.command.functions := hdebug
        rw [List.mem_append, not_or] at hfunctions
        have hfirst := (ih a (by simp) hfunctions.1).1 (ha ▸ by decide)
        have hrest := (ih b (by simp) hfunctions.2).1 (hb ▸ by decide)
        exact compiles_node (by decide) (.cons hfirst (.one hrest))
      · -- the other branch of a conditional
        obtain ⟨a, _, rfl, ha, b, _, rfl, hb, rfl⟩ := haveSymbols_of_map_eq hmap
        have hkeyword := (hchildren a (by simp)).compiles_idle (ha ▸ by decide)
        have hbody := ((ih b (by simp) hdebug).2 hb).compiles
        exact compiles_node (by decide) ((CompilesAll.cons hkeyword (.one hbody)).congr
          fun _ _ => Command.Settles.of_skip_sequence)
      · -- a conditional
        obtain ⟨a, _, rfl, ha, b, _, rfl, hb, c, _, rfl, hc, rfl⟩ := haveSymbols_of_map_eq hmap
        have hcondition := (hchildren b (by simp)).comparesTo
          ⟨"if_stmt", none, completion, closed, line, [a, b, c]⟩ hb
          (by simp [findBelow, ha, hb])
        exact compiles_conditional ha hb hc hcondition ((ih c (by simp) hdebug).2 hc)
      · -- a conditional with another branch
        obtain ⟨a, _, rfl, ha, b, _, rfl, hb, c, _, rfl, hc, d, _, rfl, hd, rfl⟩ :=
          haveSymbols_of_map_eq hmap
        have hfunctions : "debug" ∉ c.command.functions ++ d.command.functions := hdebug
        rw [List.mem_append, not_or] at hfunctions
        have hcondition := (hchildren b (by simp)).comparesTo
          ⟨"if_stmt", none, completion, closed, line, [a, b, c, d]⟩ hb
          (by simp [findBelow, ha, hb])
        exact compiles_choice ha hb hc hd hcondition ((ih c (by simp) hfunctions.1).2 hc)
          ((ih d (by simp) hfunctions.2).1 (hd ▸ by decide))
      · -- a loop that tests first
        obtain ⟨a, _, rfl, ha, b, _, rfl, hb, c, _, rfl, hc, rfl⟩ := haveSymbols_of_map_eq hmap
        have hcondition := (hchildren b (by simp)).comparesTo
          ⟨"while_stmt", none, completion, closed, line, [a, b, c]⟩ hb
          (by simp [findBelow, ha, hb])
        exact compiles_whileLoop ha hb hc hcondition ((ih c (by simp) hdebug).2 hc)
      · -- a loop that tests last
        obtain ⟨a, _, rfl, ha, b, _, rfl, hb, c, _, rfl, hc, d, _, rfl, hd, e, _, rfl, he, rfl⟩ :=
          haveSymbols_of_map_eq hmap
        have hcondition := (hchildren d (by simp)).comparesTo
          ⟨"repeat_stmt", none, completion, closed, line, [a, b, c, d, e]⟩ hd
          (by simp [findBelow, ha, hb, hc, hd])
        exact compiles_repeatLoop ha hb hcondition ((ih b (by simp) hdebug).2 hb)
      · exact compiles_assignment hform hchildren
      · exact compiles_output hform hchildren
      · exact compiles_calls hform hchildren hdebug
      · rw [command_declaration hdeclaration hform]
        have hidle : symbol ∈ Grammar.statements.terminals ++ declarationSymbols := by
          rcases hdeclaration with rfl | rfl <;> decide
        exact (Derives.node hform hchildren).compiles_idle hidle
    · rintro rfl
      exact compilesBody hform hchildren (fun child hchild hlist hfunctions =>
        (ih child hchild hfunctions).1 (hlist ▸ by decide)) hdebug

end Tree.Derives

end LineGrammar
