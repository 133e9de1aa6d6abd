import LineGrammar.Parse.Extension
import LineGrammar.Proofs.Token.Lexical

/-!
# Derivations

A tree derives its tokens in a grammar if each node without a token has children as one of the
alternatives of its symbol asks for, and each leaf has a token that belongs to its terminal. Such a
tree is complete: nothing is still to be read anywhere in it.
-/

namespace LineGrammar

/-- The grammar of statements, of which programs are made. -/
def Grammar.statements : Grammar where
  nonTerminals := ["program", "stmt_list", "stmt", "assign_stmt", "print_stmt", "if_stmt",
    "else_stmt", "while_stmt", "repeat_stmt", "function_stmt", "var_decl", "type_decl", "id_list",
    "condition", "body", "expr", "primary", "array", "op", "relop"]
  terminals := ["ID", "NUM", "PRIM_STRING", ";", "=", "+", "-", "*", "/", "\x7b", "\x7d", "(", ")",
    "[", "]", ",", ":", "<", ">", "<=", ">=", "<>", "print", "if", "else", "while", "repeat",
    "until", "var", "type", "$", "#"]
  rules := [
    ("program", [["stmt_list", "$"]]),
    ("stmt_list", [["stmt"], ["stmt", "stmt_list"]]),
    ("stmt", [["assign_stmt"], ["print_stmt"], ["if_stmt"], ["while_stmt"], ["repeat_stmt"],
      ["function_stmt"], ["var_decl"], ["type_decl"]]),
    ("assign_stmt", [["ID", "=", "expr", ";"], ["array", "=", "expr", ";"]]),
    ("print_stmt", [["print", "expr", ";"]]),
    ("if_stmt", [["if", "condition", "body"], ["if", "condition", "body", "else_stmt"]]),
    ("else_stmt", [["else", "body"]]),
    ("while_stmt", [["while", "condition", "body"]]),
    ("repeat_stmt", [["repeat", "body", "until", "condition", ";"]]),
    ("function_stmt", [["ID", "(", "expr", ")", ";"], ["ID", "(", ")", ";"]]),
    ("var_decl", [["var", "id_list", ":", "ID", ";"],
      ["var", "id_list", ":", "ID", "[", "NUM", "]", ";"]]),
    ("type_decl", [["type", "id_list", ":", "ID", ";"]]),
    ("id_list", [["ID"], ["ID", ",", "id_list"]]),
    ("condition", [["(", "expr", "relop", "expr", ")"]]),
    ("body", [["\x7b", "stmt_list", "\x7d"], ["\x7b", "\x7d"]]),
    ("expr", [["primary"], ["primary", "op", "primary"],
      ["primary", "op", "primary", "op", "primary"]]),
    ("primary", [["ID"], ["NUM"], ["PRIM_STRING"], ["array"], ["(", "expr", ")"]]),
    ("array", [["ID", "[", "expr", "]"]]),
    ("op", [["+"], ["-"], ["*"], ["/"]]),
    ("relop", [["<"], [">"], ["<="], [">="], ["="], ["<>"]])]

/-- What the children of a node of a symbol can be. No node stands for the end of the input. -/
def Grammar.forms (grammar : Grammar) (symbol : String) : List (List String) :=
  (grammar.alternatives symbol).map (List.filter (· ≠ endOfInput))

inductive Tree.Derives (grammar : Grammar) : Tree → Prop
  | leaf {symbol : String} {token : Token} {completion : Completion} {closed : Bool} {line : Nat}
      (hterminal : grammar.isTerminal symbol) (haccepts : grammar.accepts symbol token)
      (hlexical : token.IsLexical) :
      Derives grammar ⟨symbol, some token, completion, closed, line, []⟩
  | node {symbol : String} {completion : Completion} {closed : Bool} {line : Nat}
      {children : List Tree} (hform : children.map Tree.symbol ∈ grammar.forms symbol)
      (hchildren : ∀ child ∈ children, Derives grammar child) :
      Derives grammar ⟨symbol, none, completion, closed, line, children⟩

namespace Tree

/-! ## Checking trees -/

mutual

/-- Does the tree derive its tokens? -/
def derives (grammar : Grammar) : Tree → Bool
  | ⟨symbol, token, _, _, _, children⟩ =>
    match token with
    | some token =>
      children.isEmpty && grammar.isTerminal symbol && grammar.accepts symbol token &&
        token.lexeme.isLexical
    | none =>
      (grammar.forms symbol).contains (children.map Tree.symbol) && deriveAll grammar children

def deriveAll (grammar : Grammar) : List Tree → Bool
  | [] => true
  | tree :: trees => tree.derives grammar && deriveAll grammar trees

end

mutual

theorem derives_of_derives {grammar : Grammar} :
    ∀ {tree : Tree}, tree.derives grammar → tree.Derives grammar
  | ⟨symbol, some token, completion, closed, line, children⟩, h => by
    rw [derives] at h
    simp only [Bool.and_eq_true, List.isEmpty_iff] at h
    obtain ⟨⟨⟨rfl, hterminal⟩, haccepts⟩, hlexical⟩ := h
    exact .leaf hterminal haccepts hlexical
  | ⟨symbol, none, completion, closed, line, children⟩, h => by
    rw [derives, Bool.and_eq_true] at h
    exact .node (List.contains_iff_mem.mp h.1) (derives_of_deriveAll h.2)

theorem derives_of_deriveAll {grammar : Grammar} :
    ∀ {trees : List Tree}, deriveAll grammar trees → ∀ tree ∈ trees, tree.Derives grammar
  | [], _ => fun tree htree => absurd htree List.not_mem_nil
  | tree :: trees, h => by
    rw [deriveAll, Bool.and_eq_true] at h
    exact List.forall_mem_cons.mpr ⟨derives_of_derives h.1, derives_of_deriveAll h.2⟩

end

theorem Derives.derives {grammar : Grammar} {tree : Tree} (h : tree.Derives grammar) :
    tree.derives grammar := by
  induction h with
  | leaf hterminal haccepts hlexical =>
    rw [Tree.derives]
    simp only [List.isEmpty_nil, Bool.true_and, Bool.and_eq_true]
    exact ⟨⟨hterminal, haccepts⟩, hlexical⟩
  | @node symbol completion closed line children hform hchildren ih =>
    have hall : deriveAll grammar children := by
      clear hform hchildren
      induction children with
      | nil => rfl
      | cons child children hrest =>
        rw [deriveAll, Bool.and_eq_true]
        exact ⟨ih child (.head _), hrest fun other hother => ih other (.tail _ hother)⟩
    rw [Tree.derives, Bool.and_eq_true]
    exact ⟨List.contains_iff_mem.mpr hform, hall⟩

instance (grammar : Grammar) (tree : Tree) : Decidable (tree.Derives grammar) :=
  decidable_of_iff (tree.derives grammar) ⟨derives_of_derives, Derives.derives⟩

/-! ## Nodes of known symbols -/

/-- These are all the trees, and each has the symbol that is named for it. -/
def HaveSymbols : List String → List Tree → Prop
  | [], trees => trees = []
  | name :: names, trees =>
    ∃ tree rest, trees = tree :: rest ∧ tree.symbol = name ∧ HaveSymbols names rest

theorem haveSymbols_of_map_eq {names : List String} {trees : List Tree}
    (h : trees.map symbol = names) : HaveSymbols names trees := by
  subst h
  induction trees with
  | nil => rfl
  | cons tree rest ih => exact ⟨tree, rest, rfl, rfl, ih⟩

namespace Derives

variable {tree : Tree}

theorem forms_eq_nil {symbol : String} (h : Grammar.statements.isTerminal symbol) :
    Grammar.statements.forms symbol = [] := by
  have hall : ∀ terminal ∈ Grammar.statements.terminals,
      Grammar.statements.forms terminal = [] := by decide
  exact hall symbol (List.contains_iff_mem.mp h)

theorem exists_token (h : Derives .statements tree)
    (hterminal : Grammar.statements.isTerminal tree.symbol) :
    ∃ symbol token completion closed line,
      tree = ⟨symbol, some token, completion, closed, line, []⟩ ∧
      Grammar.statements.accepts symbol token ∧ token.IsLexical := by
  cases h with
  | leaf _ haccepts hlexical => exact ⟨_, _, _, _, _, rfl, haccepts, hlexical⟩
  | node hform _ =>
    rw [forms_eq_nil hterminal] at hform
    exact absurd hform List.not_mem_nil

theorem exists_children (h : Derives .statements tree)
    (hsymbol : Grammar.statements.isTerminal tree.symbol = false) :
    ∃ symbol completion closed line children,
      tree = ⟨symbol, none, completion, closed, line, children⟩ ∧
        children.map Tree.symbol ∈ Grammar.statements.forms symbol ∧
        ∀ child ∈ children, Derives .statements child := by
  cases h with
  | leaf hterminal _ _ =>
    rw [hsymbol] at hterminal
    exact absurd hterminal (by simp)
  | node hform hchildren => exact ⟨_, _, _, _, _, rfl, hform, hchildren⟩

/-! ## Leaves -/

theorem exists_word (h : Derives .statements tree) (hsymbol : tree.symbol = "ID") :
    ∃ name token completion closed line, tree = ⟨"ID", some token, completion, closed, line, []⟩ ∧
      token.lexeme = .word name ∧ token.IsLexical := by
  obtain ⟨symbol, token, completion, closed, line, rfl, haccepts, hlexical⟩ :=
    h.exists_token (by rw [hsymbol]; decide)
  obtain rfl : symbol = "ID" := hsymbol
  obtain ⟨-, hbelongs⟩ := Bool.and_eq_true_iff.mp haccepts
  cases hlexeme : token.lexeme with
  | word name =>
    exact ⟨name, token, completion, closed, line, rfl, hlexeme, hlexical⟩
  | _ =>
    rw [hlexeme] at hbelongs
    exact absurd hbelongs (by simp [Lexeme.belongsTo])

theorem exists_constant (h : Derives .statements tree)
    (hsymbol : tree.symbol = "NUM" ∨ tree.symbol = "PRIM_STRING") :
    ∃ symbol token completion closed line,
      tree = ⟨symbol, some token, completion, closed, line, []⟩ ∧
      symbol ≠ "ID" ∧ ((∃ value, token.lexeme = .integer value) ∨
        (∃ value, token.lexeme = .real value) ∨ ∃ text, token.lexeme = .quoted text) := by
  obtain ⟨symbol, token, completion, closed, line, rfl, haccepts, -⟩ :=
    h.exists_token (by rcases hsymbol with h | h <;> rw [h] <;> decide)
  obtain ⟨-, hbelongs⟩ := Bool.and_eq_true_iff.mp haccepts
  rcases hsymbol with hsymbol | hsymbol
  · obtain rfl : symbol = "NUM" := hsymbol
    refine ⟨_, token, completion, closed, line, rfl, by decide, ?_⟩
    cases hlexeme : token.lexeme with
    | integer value => exact .inl ⟨value, rfl⟩
    | real value => exact .inr (.inl ⟨value, rfl⟩)
    | _ =>
      rw [hlexeme] at hbelongs
      exact absurd hbelongs (by simp [Lexeme.belongsTo])
  · obtain rfl : symbol = "PRIM_STRING" := hsymbol
    refine ⟨_, token, completion, closed, line, rfl, by decide, ?_⟩
    cases hlexeme : token.lexeme with
    | quoted text => exact .inr (.inr ⟨text, rfl⟩)
    | _ =>
      rw [hlexeme] at hbelongs
      exact absurd hbelongs (by simp [Lexeme.belongsTo])

theorem exists_spelling (h : Derives .statements tree)
    (hterminal : Grammar.statements.isTerminal tree.symbol)
    (hclass : tree.symbol ∉ ["ID", "NUM", "PRIM_STRING"]) :
    ∃ symbol token completion closed line,
      tree = ⟨symbol, some token, completion, closed, line, []⟩ ∧
      symbol ≠ "ID" ∧ token.IsLexical ∧
      (token.lexeme = .word symbol ∨ token.lexeme = .mark symbol) := by
  obtain ⟨symbol, token, completion, closed, line, rfl, haccepts, hlexical⟩ :=
    h.exists_token hterminal
  have hmem : symbol ∈ Grammar.statements.terminals := List.contains_iff_mem.mp hterminal
  have hother : symbol ≠ "PRIM_INT" ∧ symbol ≠ "PRIM_REAL" := by
    constructor <;> rintro rfl <;> exact absurd hmem (by decide)
  have hne : symbol ∉ ["ID", "NUM", "PRIM_STRING"] := hclass
  simp only [List.mem_cons, List.not_mem_nil, or_false, not_or] at hne
  obtain ⟨-, hbelongs⟩ := Bool.and_eq_true_iff.mp haccepts
  unfold Lexeme.belongsTo at hbelongs
  rw [if_neg hne.1, if_neg hne.2.1, if_neg hother.1, if_neg hother.2, if_neg hne.2.2] at hbelongs
  refine ⟨symbol, token, completion, closed, line, rfl, hne.1, hlexical, ?_⟩
  cases hlexeme : token.lexeme with
  | word text =>
    rw [hlexeme] at hbelongs
    exact .inl (congrArg _ (Option.some.inj (beq_iff_eq.mp hbelongs)))
  | mark text =>
    rw [hlexeme] at hbelongs
    exact .inr (congrArg _ (Option.some.inj (beq_iff_eq.mp hbelongs)))
  | _ =>
    rw [hlexeme] at hbelongs
    exact absurd hbelongs (by simp [Lexeme.spelling])

end Derives

end Tree

end LineGrammar
