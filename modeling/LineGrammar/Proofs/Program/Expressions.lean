import LineGrammar.Proofs.Program.Computing
import LineGrammar.Proofs.Source.Derivation

/-!
# Expressions of derivations

What assembling makes of an expression of the grammar of statements computes the expression that is
written there.
-/

namespace LineGrammar

open Source Assembly

/-! ## Marks -/

namespace Tree

variable {symbol : String} {token : Token} {completion : Completion} {closed : Bool} {line : Nat}

theorem soleMark?_of_mark {text : String} (h : token.lexeme = .mark text) :
    (⟨symbol, some token, completion, closed, line, []⟩ : Tree).soleMark? = some text := by
  unfold soleMark? bottom
  dsimp only
  rw [Option.map_some, h]

theorem soleMark?_of_not_mark (h : ∀ text, token.lexeme ≠ .mark text) :
    (⟨symbol, some token, completion, closed, line, []⟩ : Tree).soleMark? = none := by
  unfold soleMark? bottom
  dsimp only
  rw [Option.map_some]
  cases hlexeme : token.lexeme with
  | mark text => exact absurd hlexeme (h text)
  | _ => rfl

theorem soleMark?_only (only : Tree) (other : Option Token) :
    (⟨symbol, other, completion, closed, line, [only]⟩ : Tree).soleMark? = only.soleMark? := by
  unfold soleMark?
  rw [bottom]

theorem soleMark?_of_two (first second : Tree) (rest : List Tree) :
    (⟨symbol, none, completion, closed, line, first :: second :: rest⟩ : Tree).soleMark? =
      none := rfl

theorem arithmeticOp?_of_none {tree : Tree} (h : tree.soleMark? = none) :
    tree.arithmeticOp? = none := by
  unfold arithmeticOp?
  rw [h]
  rfl

end Tree

/-! ## Leaves -/

theorem Assembly.makes_leaf {symbol : String} {token : Option Token} {completion : Completion}
    {closed : Bool} {line : Nat} {before after : Assembly} {access : Option Access}
    (h : Makes (leafAccess symbol (token.map Token.lexeme)) before access after) :
    Makes (Assembly.expression "array" ⟨symbol, token, completion, closed, line, []⟩) before
      ([], access) after := by
  unfold Assembly.expression
  exact makes_ite.mpr (.inl ⟨rfl, makes_bind.mpr ⟨_, _, h, makes_pure.mpr ⟨rfl, rfl⟩⟩⟩)

namespace Tree.Derives

variable {tree : Tree}

theorem names (h : Derives .statements tree) (hsymbol : tree.symbol = "ID") :
    tree.Names tree.spelled ∧ tree.expression = .variable tree.spelled ∧ tree.soleMark? = none := by
  obtain ⟨name, token, completion, closed, line, rfl, hlexeme, hlexical⟩ :=
    h.exists_word hsymbol
  have hname : IsProgramName name := hlexical.not_mem hlexeme (by decide)
  have hspelled : (⟨"ID", some token, completion, closed, line, []⟩ : Tree).spelled = name := by
    show token.lexeme.text = name
    rw [hlexeme]
    rfl
  refine ⟨⟨hspelled.symm ▸ hname, fun before hsound => ?_⟩, rfl, ?_⟩
  · have hleaf : Makes (leafAccess "ID" ((some token).map Token.lexeme)) before
        (some (.ofVariable (before.store.ensureVariable name).2))
        { before with store := (before.store.ensureVariable name).1 } := by
      rw [Option.map_some, hlexeme, leafAccess, if_pos rfl]
      exact makes_bind.mpr
        ⟨_, _, makes_variableNamed.mpr ⟨rfl, rfl⟩, makes_pure.mpr ⟨rfl, rfl⟩⟩
    refine ⟨_, _, makes_leaf hleaf, ⟨.nil rfl, Store.sound_ensureVariable hsound name,
      Store.grows_ensureVariable _ name⟩, ?_⟩
    rw [hspelled]
    exact Store.idOf?_ensureVariable _ name
  · exact soleMark?_of_not_mark fun text heq => by simp [hlexeme] at heq

theorem constant (h : Derives .statements tree)
    (hsymbol : tree.symbol = "NUM" ∨ tree.symbol = "PRIM_STRING") :
    Computes (Assembly.expression "array" tree) tree.expression ∧ tree.soleMark? = none := by
  obtain ⟨symbol, token, completion, closed, line, rfl, hne, hlexeme⟩ := h.exists_constant hsymbol
  have hexpression : (⟨symbol, some token, completion, closed, line, []⟩ : Tree).expression =
      .constant (⟨symbol, some token, completion, closed, line, []⟩ : Tree).constant := by
    rw [Tree.expression]
    exact if_neg hne
  rw [hexpression]
  have hmark : ∀ text, token.lexeme ≠ .mark text := by
    intro text
    rcases hlexeme with ⟨value, h⟩ | ⟨value, h⟩ | ⟨value, h⟩ <;> simp [h]
  refine ⟨computes_constant fun before => makes_leaf ?_, soleMark?_of_not_mark hmark⟩
  unfold Tree.constant
  dsimp only
  rw [Option.map_some]
  rcases hlexeme with ⟨value, h⟩ | ⟨value, h⟩ | ⟨value, h⟩ <;> rw [h] <;>
    exact makes_pure.mpr ⟨rfl, rfl⟩

theorem silent (h : Derives .statements tree)
    (hterminal : Grammar.statements.isTerminal tree.symbol)
    (hclass : tree.symbol ∉ ["ID", "NUM", "PRIM_STRING"]) :
    tree.IsSilent ∧ (tree.soleMark? = none ∨ tree.soleMark? = some tree.symbol) := by
  obtain ⟨symbol, token, completion, closed, line, rfl, hne, -, hlexeme⟩ :=
    h.exists_spelling hterminal hclass
  constructor
  · intro before
    refine makes_leaf ?_
    rw [Option.map_some]
    rcases hlexeme with hword | hmark
    · rw [hword, leafAccess, if_neg hne]
      exact makes_pure.mpr ⟨rfl, rfl⟩
    · rw [hmark]
      exact makes_pure.mpr ⟨rfl, rfl⟩
  · rcases hlexeme with hword | hmark
    · exact .inl (soleMark?_of_not_mark fun text heq => by simp [hword] at heq)
    · exact .inr (soleMark?_of_mark hmark)

theorem parts_silent (h : Derives .statements tree)
    (hterminal : Grammar.statements.isTerminal tree.symbol)
    (hclass : tree.symbol ∉ ["ID", "NUM", "PRIM_STRING"])
    (hoperator : ArithmeticOp.ofSymbol? tree.symbol = none) {trees : List Tree}
    {expressions : List Expression} {operators : List ArithmeticOp}
    (hrest : Parts trees expressions operators) : Parts (tree :: trees) expressions operators := by
  obtain ⟨hsilent, hmark⟩ := h.silent hterminal hclass
  refine .silent ?_ hsilent hrest
  rcases hmark with hmark | hmark
  · exact arithmeticOp?_of_none hmark
  · unfold arithmeticOp?
    rw [hmark]
    exact hoperator

theorem exists_mark (h : Derives .statements tree) {marks : List String}
    (hsymbol : Grammar.statements.isTerminal tree.symbol = false)
    (hforms : Grammar.statements.forms tree.symbol = marks.map fun mark => [mark])
    (hmarks : ∀ mark ∈ marks, Grammar.statements.isTerminal mark ∧
      mark ∉ ["ID", "NUM", "PRIM_STRING"] ∧ mark.toList.any fun c => !Lexeme.continuesWord c) :
    ∃ mark ∈ marks, tree.soleMark? = some mark ∧ tree.spelled = mark := by
  obtain ⟨symbol, completion, closed, line, children, rfl, hform, hchildren⟩ :=
    h.exists_children hsymbol
  rw [show Grammar.statements.forms symbol = _ from hforms] at hform
  obtain ⟨mark, hmark, heq⟩ := List.mem_map.mp hform
  obtain ⟨hterminal, hclass, hany⟩ := hmarks mark hmark
  obtain ⟨only, _, rfl, rfl, rfl⟩ := haveSymbols_of_map_eq heq.symm
  obtain ⟨text, token, _, _, _, rfl, -, hlexical, hlexeme⟩ :=
    (hchildren only (.head _)).exists_spelling hterminal hclass
  refine ⟨text, hmark, ?_⟩
  obtain ⟨c, hc, hnot⟩ := List.any_eq_true.mp hany
  rcases hlexeme with hword | hlexeme
  · exact absurd hc (hlexical.not_mem hword (Bool.not_eq_true' _ ▸ hnot))
  · refine ⟨(soleMark?_only _ _).trans (soleMark?_of_mark hlexeme), ?_⟩
    show token.lexeme.text = text
    rw [hlexeme]
    rfl

theorem arithmeticOp? (h : Derives .statements tree) (hsymbol : tree.symbol = "op") :
    tree.arithmeticOp? = some tree.operator := by
  obtain ⟨mark, hmark, hsole, hspelled⟩ := h.exists_mark (by rw [hsymbol]; decide)
    (show _ = ["+", "-", "*", "/"].map _ by rw [hsymbol]; decide) (by decide)
  have hsome : ∀ mark ∈ ["+", "-", "*", "/"],
      ArithmeticOp.ofSymbol? mark = some ((ArithmeticOp.ofSymbol? mark).getD .add) := by
    decide
  rw [Tree.arithmeticOp?, hsole, Tree.operator, hspelled]
  exact hsome mark hmark

theorem soleRelation? (h : Derives .statements tree) (hsymbol : tree.symbol = "relop") :
    tree.soleMark?.bind Relation.ofSymbol? = some tree.relation := by
  obtain ⟨mark, hmark, hsole, hspelled⟩ := h.exists_mark (by rw [hsymbol]; decide)
    (show _ = ["<", ">", "<=", ">=", "=", "<>"].map _ by rw [hsymbol]; decide) (by decide)
  have hsome : ∀ mark ∈ ["<", ">", "<=", ">=", "=", "<>"],
      Relation.ofSymbol? mark = some ((Relation.ofSymbol? mark).getD .equal) := by
    decide
  rw [hsole, Tree.relation, hspelled]
  exact hsome mark hmark

end Tree.Derives

/-! ## Nodes -/

theorem computes_row {symbol : String} {completion : Completion} {closed : Bool} {line : Nat}
    {children : List Tree} {first : Expression} {others : List Expression}
    {operators : List ArithmeticOp} (hsymbol : symbol ≠ "array")
    (h : Parts children (first :: others) operators) (hlength : others.length = operators.length) :
    Computes (Assembly.expression "array" ⟨symbol, none, completion, closed, line, children⟩)
      (first.applyAll (operators.zip others)) := by
  have hne : ¬children.isEmpty := by
    cases h <;> simp
  have hrow : Assembly.expression "array" ⟨symbol, none, completion, closed, line, children⟩ =
      rowValue "array" line children := by
    rw [Assembly.expression, if_neg hne, if_neg hsymbol]
    rfl
  rw [hrow]
  exact computes_rowValue h hlength line

namespace Tree.Derives

def expressionSymbols : List String :=
  ["expr", "primary", "array", "ID", "NUM", "PRIM_STRING"]

/-- The value of an expression is computed, and no expression is taken for an operator. -/
theorem computes_expression {tree : Tree} (h : Derives .statements tree)
    (hsymbol : tree.symbol ∈ expressionSymbols) :
    Computes (Assembly.expression "array" tree) tree.expression ∧ tree.soleMark? = none := by
  induction h with
  | @leaf symbol token completion closed line hterminal haccepts hlexical =>
    have hleaf : Derives .statements ⟨symbol, some token, completion, closed, line, []⟩ :=
      .leaf hterminal haccepts hlexical
    have hclass : ∀ symbol ∈ expressionSymbols, Grammar.statements.isTerminal symbol →
        symbol = "ID" ∨ symbol = "NUM" ∨ symbol = "PRIM_STRING" := by
      decide
    rcases hclass symbol hsymbol hterminal with heq | hconstant
    · obtain ⟨hnames, hexpression, hmark⟩ := hleaf.names heq
      exact ⟨hexpression ▸ (targets_variable hnames).computes, hmark⟩
    · exact hleaf.constant hconstant
  | @node symbol completion closed line children hform hchildren ih =>
    have hcases : ∀ symbol ∈ expressionSymbols, ∀ form ∈ Grammar.statements.forms symbol,
        (symbol ≠ "array" ∧ ∃ only ∈ expressionSymbols, form = [only]) ∨
        (symbol = "expr" ∧ form = ["primary", "op", "primary"]) ∨
        (symbol = "expr" ∧ form = ["primary", "op", "primary", "op", "primary"]) ∨
        (symbol = "primary" ∧ form = ["(", "expr", ")"]) ∨
        (symbol = "array" ∧ form = ["ID", "[", "expr", "]"]) := by
      decide
    -- An operand of a row is an expression by itself, and no operator.
    have hoperand : ∀ child ∈ children, child.symbol ∈ expressionSymbols →
        ∀ {trees expressions operators}, Parts trees expressions operators →
          Parts (child :: trees) (child.expression :: expressions) operators :=
      fun child hmem hchild {_ _ _} hrest =>
        .operand (arithmeticOp?_of_none (ih child hmem hchild).2) (ih child hmem hchild).1 hrest
    rcases hcases symbol hsymbol _ hform with
      ⟨hne, only, honly, hmap⟩ | ⟨rfl, hmap⟩ | ⟨rfl, hmap⟩ | ⟨rfl, hmap⟩ | ⟨rfl, hmap⟩
    · obtain ⟨a, _, rfl, rfl, rfl⟩ := haveSymbols_of_map_eq hmap
      obtain ⟨-, hmark⟩ := ih a (.head _) honly
      refine ⟨?_, (soleMark?_only _ _).trans hmark⟩
      exact computes_row hne (hoperand a (.head _) honly .nil) rfl
    · obtain ⟨a, _, rfl, ha, b, _, rfl, hb, c, _, rfl, hc, rfl⟩ := haveSymbols_of_map_eq hmap
      refine ⟨?_, soleMark?_of_two _ _ _⟩
      have hparts := hoperand a (by simp) (ha ▸ by decide)
        (.operator ((hchildren b (by simp)).arithmeticOp? hb)
          (hoperand c (by simp) (hc ▸ by decide) .nil))
      exact computes_row (by decide) hparts rfl
    · obtain ⟨a, _, rfl, ha, b, _, rfl, hb, c, _, rfl, hc, d, _, rfl, hd, e, _, rfl, he, rfl⟩ :=
        haveSymbols_of_map_eq hmap
      refine ⟨?_, soleMark?_of_two _ _ _⟩
      have hparts := hoperand a (by simp) (ha ▸ by decide)
        (.operator ((hchildren b (by simp)).arithmeticOp? hb)
          (hoperand c (by simp) (hc ▸ by decide)
            (.operator ((hchildren d (by simp)).arithmeticOp? hd)
              (hoperand e (by simp) (he ▸ by decide) .nil))))
      exact computes_row (by decide) hparts rfl
    · obtain ⟨a, _, rfl, ha, b, _, rfl, hb, c, _, rfl, hc, rfl⟩ := haveSymbols_of_map_eq hmap
      refine ⟨?_, soleMark?_of_two _ _ _⟩
      have hclosing := (hchildren c (by simp)).parts_silent (hc ▸ by decide) (hc ▸ by decide)
        (hc ▸ by decide) .nil
      have hparts := (hchildren a (by simp)).parts_silent (ha ▸ by decide) (ha ▸ by decide)
        (ha ▸ by decide) (hoperand b (by simp) (hb ▸ by decide) hclosing)
      exact computes_row (by decide) hparts rfl
    · obtain ⟨a, _, rfl, ha, b, _, rfl, hb, c, _, rfl, hc, d, _, rfl, hd, rfl⟩ :=
        haveSymbols_of_map_eq hmap
      refine ⟨?_, soleMark?_of_two _ _ _⟩
      obtain ⟨hnames, -, -⟩ := (hchildren a (by simp)).names ha
      exact (targets_element hnames (ih c (by simp) (hc ▸ by decide)).1 none completion closed
        line).computes

theorem exists_targets {tree : Tree} (h : Derives .statements tree)
    (hsymbol : tree.symbol = "ID" ∨ tree.symbol = "array") :
    ∃ name index, tree.expression = .ofName name index ∧
      Targets (Assembly.expression "array" tree) name index := by
  rcases hsymbol with hsymbol | hsymbol
  · obtain ⟨hnames, hexpression, -⟩ := h.names hsymbol
    exact ⟨_, none, hexpression, targets_variable hnames⟩
  · obtain ⟨symbol, completion, closed, line, children, rfl, hform, hchildren⟩ :=
      h.exists_children (by rw [hsymbol]; decide)
    obtain rfl : symbol = "array" := hsymbol
    obtain ⟨a, _, rfl, ha, b, _, rfl, hb, c, _, rfl, hc, d, _, rfl, hd, rfl⟩ :=
      haveSymbols_of_map_eq (List.mem_singleton.mp hform)
    obtain ⟨hnames, -, -⟩ := (hchildren a (by simp)).names ha
    have hindex := (hchildren c (by simp)).computes_expression (hc ▸ by decide)
    exact ⟨_, _, rfl, targets_element hnames hindex.1 none completion closed line⟩

end Tree.Derives

end LineGrammar
