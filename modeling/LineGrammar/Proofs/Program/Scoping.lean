import LineGrammar.Proofs.Program.Forgetting
import LineGrammar.Proofs.Program.Locality
import LineGrammar.Proofs.Session.Running

/-!
# Sessions with and without scopes

A session compiles a program when all blocks have been left. The program does the same with blocks
as scopes and without them, if it uses no variable of a block: a name that is used and has been
forgotten is made anew, without the type that it was declared with.
-/

namespace LineGrammar

open Mentions Assembly

/-! ## Names of declarations -/

theorem Declaration.mem_names_foldl {leaves : List Tree} {declaration : Declaration} {name : String}
    (h : name ∈ (leaves.foldl addLeaf declaration).names) :
    name ∈ declaration.names ∨
      ∃ leaf ∈ leaves, leaf.token.map Token.lexeme = some (.word name) := by
  induction leaves generalizing declaration with
  | nil => exact .inl h
  | cons leaf leaves ih =>
    rcases ih h with hnames | ⟨other, hother, hword⟩
    · unfold addLeaf at hnames
      split at hnames
      · exact .inl hnames
      · next word hword =>
        split_ifs at hnames
        · exact .inl hnames
        · rcases List.mem_cons.mp hnames with rfl | hold
          · exact .inr ⟨leaf, .head _, hword⟩
          · exact .inl hold
        · exact .inl hnames
      · split_ifs at hnames <;> exact .inl hnames
      · exact .inl hnames
    · exact .inr ⟨other, .tail _ hother, hword⟩

namespace Tree

variable {settings : Settings} {tree : Tree} {name : String}

theorem Derives.isLexical_of_mem_leaves {grammar : Grammar} (h : tree.Derives grammar) {leaf : Tree}
    (hleaf : leaf ∈ tree.leaves) {token : Token} (htoken : leaf.token = some token) :
    token.IsLexical := by
  induction h with
  | leaf _ _ hlexical =>
    obtain rfl := List.mem_singleton.mp hleaf
    obtain rfl := Option.some.inj htoken
    exact hlexical
  | node hform hchildren ih =>
    rw [leaves] at hleaf
    split_ifs at hleaf
    · obtain rfl := List.mem_singleton.mp hleaf
      cases htoken
    · rw [leavesOfAll_eq] at hleaf
      obtain ⟨child, hchild, hbelow⟩ := List.mem_flatMap.mp hleaf
      exact ih child hchild hbelow

theorem mem_mentions_declares (h : .declares (.variable name) ∈ tree.mentions settings) :
    name ∈ (Declaration.ofTree tree).names ∨
      ∃ child ∈ tree.children, .declares (.variable name) ∈ child.mentions settings := by
  obtain ⟨symbol, token, completion, closed, line, children⟩ := tree
  have hown : ∀ tree : Tree, Mention.declares (.variable name) ∉ tree.ownMentions := by
    intro tree
    unfold ownMentions
    split
    · simp
    · simp
    · split_ifs <;> simp
    · simp
  rw [mentions] at h
  split_ifs at h
  · simp [Declaration.mentions] at h
  · refine .inl ?_
    simpa [Declaration.mentions] using h
  · obtain ⟨child, hchild, hmem⟩ : ∃ child ∈ children.tail,
        .declares (.variable name) ∈ child.mentions settings := by
      rw [mentionsBehindFirst_eq] at h
      simpa using h
    exact .inr ⟨child, List.mem_of_mem_tail hchild, hmem⟩
  · rw [mentionsOfAll_eq] at h
    rcases List.mem_append.mp h with hmem | hmem
    · exact absurd hmem (hown _)
    · exact .inr (List.mem_flatMap.mp hmem)

theorem Derives.isProgramName_of_mem_names {grammar : Grammar} (h : tree.Derives grammar)
    (hmem : name ∈ (Declaration.ofTree tree).names) : IsProgramName name := by
  rcases Declaration.mem_names_foldl hmem with hnone | ⟨leaf, hleaf, hword⟩
  · exact absurd hnone List.not_mem_nil
  · obtain ⟨token, htoken, hlexeme⟩ := Option.map_eq_some_iff.mp hword
    exact (h.isLexical_of_mem_leaves hleaf htoken).not_mem hlexeme (by decide)

theorem Derives.isProgramName_of_declares {grammar : Grammar} (h : tree.Derives grammar)
    (hmem : .declares (.variable name) ∈ tree.mentions settings) : IsProgramName name := by
  induction h with
  | leaf hterminal haccepts hlexical =>
    rcases mem_mentions_declares hmem with hnames | ⟨child, hchild, -⟩
    · exact (Derives.leaf hterminal haccepts hlexical).isProgramName_of_mem_names hnames
    · exact absurd hchild List.not_mem_nil
  | node hform hchildren ih =>
    rcases mem_mentions_declares hmem with hnames | ⟨child, hchild, hbelow⟩
    · exact (Derives.node hform hchildren).isProgramName_of_mem_names hnames
    · exact ih child hchild hbelow

end Tree

/-! ## Behind the declarations -/

/-- What declaring with scopes leaves has forgotten the variables of the closed blocks. -/
theorem Follows.veils {done : List Mention} {inner outer : Store} (h : Follows done inner outer)
    (hnames : ∀ name, .declares (.variable name) ∈ done → IsProgramName name) :
    Store.Veils (leftVariables done) inner outer where
  vars := h.vars
  untypedCount := h.untypedCount
  temporaryCount := h.temporaryCount
  names := by
    simp only [mem_leftVariables]
    exact h.names
  types _ := h.lookup_eq
  base name base halias := (h.inner.tidy.nested.base name base halias).1
  typed name id var hmem hvar := (h.inner.tidy.nested.type name id var hmem hvar).1
  sound := h.inner.tidy.sound
  grounded := h.inner.tidy.grounded
  temporary number hmem := by
    have hleft := (mem_left.mp (mem_leftVariables.mp hmem)).1
    exact Store.not_isProgramName_temporaryName number (hnames _ (mem_declared.mp hleft))

namespace Program

/-- Trees that use no forgotten name become the same program on both stores, and a run of it ends
alike. -/
theorem execute_ofTree_veils {names : StatementNames} {tree : Tree} {gone : List String}
    {inner outer : Store} (hblocks : Lockstep.Blocks gone names tree)
    (h : Store.Veils gone inner outer) (limit : Nat) :
    (ofTree names tree inner).1 = (ofTree names tree outer).1 ∧
      ∀ program, (ofTree names tree inner).1 = .ok program →
        (program.execute (ofTree names tree inner).2 limit).2 =
          (program.execute (ofTree names tree outer).2 limit).2 := by
  have halike : Alike gone { store := inner } { store := outer } :=
    ⟨h, rfl, fun _ hmem => absurd hmem (Array.not_mem_empty _)⟩
  have hends := hblocks [] _ _ halike (List.nil_subset _)
  unfold ofTree
  generalize (blockOf names tree).run.run { store := inner } = reached at hends ⊢
  generalize (blockOf names tree).run.run { store := outer } = reachedOther at hends ⊢
  cases hends with
  | fails => exact ⟨rfl, fun program hprogram => by cases hprogram⟩
  | @ends block first second hlast _ _ =>
    have hlink : link first.statements block.order = link second.statements block.order := by
      rw [hlast.statements]
    refine ⟨congrArg Except.ok hlink, fun program hprogram => ?_⟩
    obtain rfl := Except.ok.inj hprogram
    exact execute_alike (named_link block.order hlast.named) hlast.store.seenAlike limit

end Program

/-! ## Sessions -/

namespace Session

/-- The session with blocks as scopes, or without. -/
def withScoping (session : Session) (scoping : Scoping) : Session :=
  { session with settings := session.settings.withScoping scoping }

section

variable {session : Session} {root : Tree}

/-- A program that uses no variable of a block prints the same lines, or ends with the same error,
with blocks as scopes and without them. -/
theorem run_static_eq_off (hnames : session.settings.statements = {})
    (hroot : session.parse.root = some root) (hderives : root.Derives .statements)
    (hscoped : WellScoped (root.mentions session.settings))
    (hdebug : .calls "debug" ∉ root.mentions session.settings)
    (huses : ∀ name ∈ leftVariables (root.mentions session.settings),
      .uses (.variable name) ∉ root.mentions session.settings) :
    (Session.run.run.run (session.withScoping .static)).1 =
      (Session.run.run.run (session.withScoping .off)).1 := by
  have hblocks : Lockstep.Blocks (leftVariables (root.mentions session.settings)) {} root :=
    hderives.blocks hnames (fun name hname hleft => huses name hleft hname) hdebug
  obtain ⟨hresult, hfollows⟩ := DeclarationWalk.run_withScoping hnames hderives hscoped
  rw [@run_answer (session.withScoping .static) root hroot,
    @run_answer (session.withScoping .off) root hroot]
  refine congrArg (_ >>= ·) (funext fun _ => ?_)
  dsimp only [withScoping, Settings.statements_withScoping]
  rw [hnames]
  generalize DeclarationWalk.atRoot.run (session.settings.withScoping .static) root 0 {} = walked
    at hresult hfollows ⊢
  generalize DeclarationWalk.atRoot.run (session.settings.withScoping .off) root 0 {} = walkedOff
    at hresult hfollows ⊢
  obtain ⟨inner, result⟩ := walked
  obtain ⟨outer, resultOff⟩ := walkedOff
  obtain rfl : result = resultOff := hresult
  dsimp only at hfollows ⊢
  rcases result with error | stops
  · rfl
  · -- all that is compiled and run from here on sees only names that have not been forgotten
    have hveils := (hfollows stops rfl).veils fun name hname =>
      hderives.isProgramName_of_declares hname
    obtain ⟨hprogram, hexecute⟩ :=
      Program.execute_ofTree_veils hblocks hveils session.settings.stepLimit
    refine congrArg (_ >>= ·) (funext fun _ => ?_)
    rw [← hprogram]
    cases hcompiled : (Program.ofTree {} root inner).1 with
    | error error => rfl
    | ok program =>
      exact congrArg (Except.mapError SessionError.execution) (hexecute program hcompiled)

end

/-- The program `if (1 > 0) { var a : string; name = 1 + 2; print name + 1; }` behind declarations
of other texts. -/
def sumInBlock (around : List String) (name : String) : Tree :=
  let node (symbol : String) (children : List Tree) : Tree :=
    ⟨symbol, none, .complete, true, 1, children⟩
  let leaf (symbol : String) (lexeme : Lexeme) : Tree := .leaf symbol (some ⟨lexeme, ⟨1, 0⟩⟩) 1
  let word (text : String) := leaf text (.word text)
  let mark (text : String) := leaf text (.mark text)
  let id (text : String) := leaf "ID" (.word text)
  let number (value : Int64) := node "primary" [leaf "NUM" (.integer value)]
  let sum (left right : Tree) := node "expr" [left, node "op" [mark "+"], right]
  let statement (kind : String) (children : List Tree) := node "stmt" [node kind children]
  let text (name : String) :=
    statement "var_decl" [word "var", node "id_list" [id name], mark ":", id "string", mark ";"]
  let block := statement "if_stmt" [word "if",
    node "condition" [mark "(", node "expr" [number 1], node "relop" [mark ">"],
      node "expr" [number 0], mark ")"],
    node "body" [mark "\x7b", node "stmt_list" [text "a", node "stmt_list" [
      statement "assign_stmt" [id name, mark "=", sum (number 1) (number 2), mark ";"],
      node "stmt_list" [statement "print_stmt" [word "print",
        sum (node "primary" [id name]) (number 1), mark ";"]]]], mark "\x7d"]]
  node "program" [around.foldr (fun other rest => node "stmt_list" [text other, rest])
    (node "stmt_list" [block])]

/-- The sum is stored around the block, though the block has a variable too. -/
theorem run_static_eq_off_outerSum :
    (Session.run.run.run ((ofRoot (sumInBlock ["b"] "b")).withScoping .static)).1 =
        (Session.run.run.run ((ofRoot (sumInBlock ["b"] "b")).withScoping .off)).1 ∧
      (Session.run.run.run ((ofRoot (sumInBlock ["b"] "b")).withScoping .static)).1.toOption =
        some ["31"] := by
  refine ⟨run_static_eq_off rfl rfl ?_ ?_ ?_ ?_, ?_⟩ <;> decide +kernel

/-- The variable of the block is a text only without scopes. With them it has been forgotten when
the program is compiled, and is made without a type. -/
theorem not_run_static_eq_off_blockSum :
    (sumInBlock [] "a").Derives .statements ∧ WellScoped ((sumInBlock [] "a").mentions {}) ∧
      .calls "debug" ∉ (sumInBlock [] "a").mentions {} ∧
      (Session.run.run.run ((ofRoot (sumInBlock [] "a")).withScoping .static)).1.toOption =
        some ["4"] ∧
      (Session.run.run.run ((ofRoot (sumInBlock [] "a")).withScoping .off)).1.toOption =
        some ["31"] := by
  decide +kernel

end Session

end LineGrammar
