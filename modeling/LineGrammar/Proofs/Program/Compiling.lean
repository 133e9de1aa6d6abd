import LineGrammar.Proofs.Program.Simulation

/-!
# Compiling derivations

Assembling a statement of the grammar of statements succeeds, and the order that it makes carries the
command that is written there. What the statements of the order do is told by their actions, so that
it holds in any table in which they have these.
-/

namespace LineGrammar

open Source Assembly

/-- A part of a program has been assembled, the order of which carries a command. -/
structure Compiled (before after : Assembly) (order : Order) (command : Command) : Prop where
  sound : after.store.Sound
  grows : Store.Grows before.store after.store
  carries : ∀ table, (∀ id ∈ order, actionAt? table id = actionAt? after.statements id) →
    Carries after.store table order command

theorem Carries.grows {made more : Store} {table : Array Statement} {order : Order}
    {command : Command} (h : Carries made table order command) (hgrows : Store.Grows made more) :
    Carries more table order command :=
  fun whole front back hwhole hnodup store hhosts =>
    h whole front back hwhole hnodup store (hhosts.of_grows hgrows)

namespace Compiled

variable {before between after : Assembly} {order others : Order} {first second command : Command}

theorem congr (h : Compiled before after order first)
    (hsettles : ∀ memory outcome, first.Settles memory outcome → second.Settles memory outcome) :
    Compiled before after order second :=
  ⟨h.sound, h.grows, fun table htable => (h.carries table htable).congr hsettles⟩

theorem nil (h : before.store.Sound) : Compiled before before [] .skip :=
  ⟨h, .refl _, fun _ _ => .nil⟩

theorem later (h : Compiled before between order first) (hoccupies : Occupies before order between)
    (hlater : Occupies between others after) (hsound : after.store.Sound)
    (hgrows : Store.Grows between.store after.store) : Compiled before after order first where
  sound := hsound
  grows := h.grows.trans hgrows
  carries table htable := by
    refine (h.carries table fun id hid => ?_).grows hgrows
    rw [htable id hid, hlater.actionAt? (hoccupies.within id hid).2]

theorem append (h : Compiled before between order first) (hoccupies : Occupies before order between)
    (hnext : Compiled between after others second) (hlater : Occupies between others after) :
    Compiled before after (order ++ others) (.sequence first second) where
  sound := hnext.sound
  grows := h.grows.trans hnext.grows
  carries table htable := by
    have hfirst := h.later hoccupies hlater hnext.sound hnext.grows
    exact (hfirst.carries table fun id hid => htable id (List.mem_append_left _ hid)).append
      (hnext.carries table fun id hid => htable id (List.mem_append_right _ hid))

theorem skip {id : StatementId} (hsound : before.store.Sound)
    (h : Makes (emit .skip) before id after) : Compiled before after [id] .skip := by
  have haction := actionAt?_emit h
  obtain ⟨-, rfl⟩ := makes_emit.mp h
  refine ⟨hsound, .refl _, fun table htable => .skip ?_⟩
  rw [htable id (.head _), haction]

theorem row {actions : List Action} (hgains : Gains before after order actions)
    (hplain : EmitsPlain before order after) (h : Performs after.store actions command) :
    Compiled before after order command := by
  have hrow := RowAt.of_emits hgains.emits
  refine ⟨hgains.sound, hgains.grows, fun table htable => ?_⟩
  exact .row (hrow.congr htable) (hrow.isPlain (.of_emitsPlain hplain)) h

end Compiled

/-! ## Nodes that are not statements themselves -/

/-- A node becomes a block that carries the command. -/
def Tree.Compiles (tree : Tree) (command : Command) : Prop :=
  ∀ before : Assembly, before.store.Sound → ∃ block after,
    Makes (blockOf {} tree) before block after ∧ Compiled before after block.order command

/-- The same for nodes one after the other. -/
def CompilesAll (trees : List Tree) (command : Command) : Prop :=
  ∀ before : Assembly, before.store.Sound → ∃ block after,
    Makes (blockOfAll {} trees) before block after ∧ Compiled before after block.order command

theorem makes_blockOfAll_nil {before : Assembly} :
    Makes (blockOfAll {} []) before .empty before := by
  unfold blockOfAll
  exact makes_pure.mpr ⟨rfl, rfl⟩

theorem makes_blockOfAll_cons {tree : Tree} {trees : List Tree} {before between after : Assembly}
    {block rest : Block} (h : Makes (blockOf {} tree) before block between)
    (hrest : Makes (blockOfAll {} trees) between rest after) :
    Makes (blockOfAll {} (tree :: trees)) before (.append block rest) after := by
  unfold blockOfAll
  exact makes_bind.mpr ⟨_, _, h, makes_bind.mpr ⟨_, _, hrest, makes_pure.mpr ⟨rfl, rfl⟩⟩⟩

theorem CompilesAll.nil : CompilesAll [] .skip :=
  fun before hsound => ⟨.empty, before, makes_blockOfAll_nil, .nil hsound⟩

theorem CompilesAll.cons {tree : Tree} {trees : List Tree} {first second : Command}
    (h : tree.Compiles first) (hrest : CompilesAll trees second) :
    CompilesAll (tree :: trees) (.sequence first second) := by
  intro before hsound
  obtain ⟨block, between, hmakes, hcompiled⟩ := h before hsound
  obtain ⟨rest, after, hmakesRest, hcompiledRest⟩ := hrest between hcompiled.sound
  exact ⟨_, after, makes_blockOfAll_cons hmakes hmakesRest,
    hcompiled.append (places_blockOf hmakes).1.occupies hcompiledRest
      (places_blockOfAll hmakesRest).occupies⟩

theorem CompilesAll.congr {trees : List Tree} {first second : Command}
    (h : CompilesAll trees first)
    (hsettles : ∀ memory outcome, first.Settles memory outcome → second.Settles memory outcome) :
    CompilesAll trees second := by
  intro before hsound
  obtain ⟨block, after, hmakes, hcompiled⟩ := h before hsound
  exact ⟨block, after, hmakes, hcompiled.congr hsettles⟩

theorem CompilesAll.one {tree : Tree} {command : Command} (h : tree.Compiles command) :
    CompilesAll [tree] command :=
  (CompilesAll.cons h .nil).congr fun _ _ => Command.Settles.of_sequence_skip

/-- The symbols of the nodes that statements are made of by themselves. -/
def statementSymbols : List String :=
  ["assign_stmt", "if_stmt", "while_stmt", "repeat_stmt", "print_stmt", "function_stmt"]

section

variable {symbol : String} {token : Option Token} {completion : Completion} {closed : Bool}
  {line : Nat} {children : List Tree} {command : Command}

theorem makes_node (hsymbol : symbol ∉ statementSymbols) {before first after : Assembly}
    {id : StatementId} {rest : Block} (hemit : Makes (emit .skip) before id first)
    (h : Makes (blockOfAll {} children) first rest after) :
    Makes (blockOf {} ⟨symbol, token, completion, closed, line, children⟩) before
      (.append (.line [id]) rest) after := by
  simp only [statementSymbols, List.mem_cons, List.not_mem_nil, or_false, not_or] at hsymbol
  obtain ⟨hassign, hconditional, hwhile, hrepeat, hprint, hcall⟩ := hsymbol
  unfold blockOf
  refine makes_ite.mpr (.inr ⟨hassign, makes_ite.mpr (.inr ⟨hconditional, ?_⟩)⟩)
  refine makes_ite.mpr (.inr ⟨hwhile, makes_ite.mpr (.inr ⟨hrepeat, ?_⟩)⟩)
  refine makes_ite.mpr (.inr ⟨hprint, makes_ite.mpr (.inr ⟨hcall, ?_⟩)⟩)
  exact makes_bind.mpr ⟨_, _, hemit, makes_bind.mpr ⟨_, _, h, makes_pure.mpr ⟨rfl, rfl⟩⟩⟩

theorem compiles_node (hsymbol : symbol ∉ statementSymbols) (h : CompilesAll children command) :
    Tree.Compiles ⟨symbol, token, completion, closed, line, children⟩ command := by
  intro before hsound
  have hemit : Makes (emit .skip) before _ _ := makes_emit.mpr ⟨rfl, rfl⟩
  obtain ⟨rest, after, hmakes, hcompiled⟩ := h _ (Compiled.skip hsound hemit).sound
  refine ⟨_, after, makes_node hsymbol hemit hmakes, ?_⟩
  exact ((Compiled.skip hsound hemit).append (.of_emit hemit) hcompiled
    (places_blockOfAll hmakes).occupies).congr fun _ _ => Command.Settles.of_skip_sequence

theorem compiles_leaf (hsymbol : symbol ∉ statementSymbols) :
    Tree.Compiles ⟨symbol, token, completion, closed, line, []⟩ .skip :=
  compiles_node hsymbol .nil

end

/-! ## Bodies -/

/-- A body becomes a block that ends with a statement that does nothing. -/
def Tree.CompilesBody (tree : Tree) (command : Command) : Prop :=
  ∀ before : Assembly, before.store.Sound → ∃ block after inner close,
    Makes (blockOf {} tree) before block after ∧ block.order = inner ++ [close] ∧
      actionAt? after.statements close = some .skip ∧ Compiled before after inner command

theorem makes_blockOfAll_append {front rest : List Tree} {before between after : Assembly}
    {first second : Block} (h : Makes (blockOfAll {} front) before first between)
    (hrest : Makes (blockOfAll {} rest) between second after) :
    ∃ block, Makes (blockOfAll {} (front ++ rest)) before block after ∧
      block.order = first.order ++ second.order := by
  induction front generalizing before first with
  | nil =>
    unfold blockOfAll at h
    obtain ⟨rfl, rfl⟩ := makes_pure.mp h
    exact ⟨second, hrest, rfl⟩
  | cons tree front ih =>
    unfold blockOfAll at h
    obtain ⟨block, next, htree, hfront⟩ := makes_bind.mp h
    obtain ⟨others, last, hothers, hpure⟩ := makes_bind.mp hfront
    obtain ⟨rfl, rfl⟩ := makes_pure.mp hpure
    obtain ⟨found, hfound, horder⟩ := ih hothers
    refine ⟨.append block found, makes_blockOfAll_cons htree hfound, ?_⟩
    show block.order ++ found.order = block.order ++ others.order ++ second.order
    rw [horder, List.append_assoc]

/-- The closing brace is the statement that a body ends with. -/
theorem compilesBody_node {symbol closing : String} {token other : Option Token}
    {completion otherCompletion : Completion} {closed otherClosed : Bool} {line otherLine : Nat}
    {front : List Tree} {command : Command} (hsymbol : symbol ∉ statementSymbols)
    (hclosing : closing ∉ statementSymbols) (h : CompilesAll front command) :
    Tree.CompilesBody ⟨symbol, token, completion, closed, line,
      front ++ [⟨closing, other, otherCompletion, otherClosed, otherLine, []⟩]⟩ command := by
  intro before hsound
  have hemit : Makes (emit .skip) before _ _ := makes_emit.mpr ⟨rfl, rfl⟩
  have hskip := Compiled.skip hsound hemit
  obtain ⟨body, between, hmakes, hcompiled⟩ := h _ hskip.sound
  have hclose : Makes (emit .skip) between _ _ := makes_emit.mpr ⟨rfl, rfl⟩
  obtain ⟨rest, hrest, horder⟩ := makes_blockOfAll_append hmakes
    (makes_blockOfAll_cons (makes_node hclosing hclose makes_blockOfAll_nil) makes_blockOfAll_nil)
  have hinner := (hskip.append (.of_emit hemit) hcompiled (places_blockOfAll hmakes).occupies).congr
    fun _ _ => Command.Settles.of_skip_sequence
  have hplaces := (Occupies.of_emit hemit).append (places_blockOfAll hmakes).occupies
  refine ⟨_, _, _, _, makes_node hsymbol hemit hrest, ?_, actionAt?_emit hclose,
    hinner.later hplaces (.of_emit hclose) hinner.sound (.refl _)⟩
  show [before.statements.size] ++ rest.order = _
  rw [horder, ← List.append_assoc]
  rfl

theorem Compiled.carries_concat {before after : Assembly} {order inner : Order}
    {close : StatementId} {command : Command} (h : Compiled before after inner command)
    (horder : order = inner ++ [close])
    (hclose : actionAt? after.statements close = some .skip) {table : Array Statement}
    (htable : ∀ id ∈ order, actionAt? table id = actionAt? after.statements id) :
    Carries after.store table order command := by
  rw [horder] at htable ⊢
  have hinner := h.carries table fun id hid => htable id (List.mem_append_left _ hid)
  have hlast : actionAt? table close = some .skip := by
    rw [htable close (List.mem_append_right _ (.head _)), hclose]
  exact (hinner.append (.skip hlast)).congr fun _ _ => Command.Settles.of_sequence_skip

theorem makes_blockOfFirst {symbol : String} {front rest : List Tree} {tree : Tree}
    {before after : Assembly} {block : Block} (hfront : ∀ other ∈ front, other.symbol ≠ symbol)
    (htree : tree.symbol = symbol) (h : Makes (blockOf {} tree) before block after) :
    Makes (blockOfFirst {} symbol (front ++ tree :: rest)) before (some block) after := by
  induction front with
  | nil =>
    rw [List.nil_append, blockOfFirst, if_pos htree]
    exact makes_bind.mpr ⟨_, _, h, makes_pure.mpr ⟨rfl, rfl⟩⟩
  | cons first front ih =>
    rw [List.cons_append, blockOfFirst, if_neg (hfront first (.head _))]
    exact ih fun other hother => hfront other (.tail _ hother)

/-! ## Conditions -/

/-- The condition of a node is computed and compared. -/
def Tree.ComparesTo (node : Tree) (condition : Condition) : Prop :=
  ∀ before : Assembly, before.store.Sound → ∃ test after actions,
    Makes (comparison {} node) before test after ∧ Gains before after test.order actions ∧
      Compares after.store actions test condition

theorem Tests.of_makes {node : Tree} {before after : Assembly} {test : Comparison}
    {actions : List Action} {condition : Condition}
    (h : Makes (comparison {} node) before test after)
    (hgains : Gains before after test.order actions)
    (hcompares : Compares after.store actions test condition) {made : Store}
    (hgrows : Store.Grows after.store made) {table : Array Statement}
    (htable : ∀ id ∈ test.order, actionAt? table id = actionAt? after.statements id) :
    Tests made table test condition := by
  have hrow := RowAt.of_emits hgains.emits
  have hline := LineLaid.of_emitsPlain (emitsPlain_comparison h).1
  exact ⟨actions, hrow.congr htable, hrow.isPlain hline,
    fun store hhosts => hcompares store (hhosts.of_grows hgrows)⟩

theorem exists_emit (action : Action) (before : Assembly) :
    ∃ id after, Makes (emit action) before id after ∧ after.store = before.store :=
  ⟨_, _, makes_emit.mpr ⟨rfl, rfl⟩, rfl⟩

theorem exists_copies (originals : Order) (before : Assembly) :
    ∃ order after, Makes (copies originals) before order after ∧ after.store = before.store := by
  induction originals generalizing before with
  | nil =>
    refine ⟨[], before, ?_, rfl⟩
    unfold copies
    exact makes_pure.mpr ⟨rfl, rfl⟩
  | cons id originals ih =>
    cases hstatement : before.statements[id]? with
    | none =>
      obtain ⟨order, after, hmakes, hstore⟩ := ih before
      refine ⟨order, after, ?_, hstore⟩
      unfold copies
      refine makes_bind.mpr ⟨_, _, makes_get.mpr ⟨rfl, rfl⟩, ?_⟩
      rw [hstatement]
      exact hmakes
    | some statement =>
      obtain ⟨copy, between, hemit, hbetween⟩ := exists_emit statement.action before
      obtain ⟨order, after, hmakes, hstore⟩ := ih between
      refine ⟨copy :: order, after, ?_, hstore.trans hbetween⟩
      unfold copies
      refine makes_bind.mpr ⟨_, _, makes_get.mpr ⟨rfl, rfl⟩, ?_⟩
      rw [hstatement]
      exact makes_bind.mpr
        ⟨_, _, hemit, makes_bind.mpr ⟨_, _, hmakes, makes_pure.mpr ⟨rfl, rfl⟩⟩⟩

/-! ## What statements with bodies become -/

section

variable {completion : Completion} {closed : Bool} {line : Nat} {first second third fourth : Tree}
  {body other : Tree} {before tested branched bodied last : Assembly} {test : Comparison}
  {branch exit : StatementId} {block : Block}

theorem makes_conditional (hfirst : first.symbol = "if") (hsecond : second.symbol = "condition")
    (hsymbol : body.symbol = "body")
    (htest : Makes (comparison {} ⟨"if_stmt", none, completion, closed, line,
      [first, second, body]⟩) before test tested)
    (hbranch : Makes (emit (test.branch none none)) tested branch branched)
    (hbody : Makes (blockOf {} body) branched block last) :
    Makes (blockOf {} ⟨"if_stmt", none, completion, closed, line, [first, second, body]⟩)
      before (.conditional test branch block)
      (last.setAt branch (test.branch block.order.head? block.order.getLast?)) := by
  have hfound : Makes (blockOfFirst {} "body" ([first, second] ++ body :: [])) branched
      (some block) last :=
    makes_blockOfFirst (by simp [hfirst, hsecond]) hsymbol hbody
  unfold blockOf
  refine makes_ite.mpr (.inr ⟨by decide, makes_ite.mpr (.inl ⟨rfl, ?_⟩)⟩)
  refine makes_bind.mpr ⟨_, _, htest, makes_bind.mpr ⟨_, _, hbranch, ?_⟩⟩
  refine makes_bind.mpr ⟨_, _, hfound, makes_require_bind.mpr ⟨block, rfl, ?_⟩⟩
  refine makes_ite.mpr (.inr ⟨by simp [hfirst, hsecond, hsymbol], ?_⟩)
  exact makes_bind.mpr ⟨(), _, makes_setAction.mpr rfl, makes_pure.mpr ⟨rfl, rfl⟩⟩

theorem makes_choice {skipped othered : Assembly} {skip : StatementId} {otherBlock : Block}
    (hfirst : first.symbol = "if") (hsecond : second.symbol = "condition")
    (hsymbol : body.symbol = "body") (hotherSymbol : other.symbol = "else_stmt")
    (htest : Makes (comparison {} ⟨"if_stmt", none, completion, closed, line,
      [first, second, body, other]⟩) before test tested)
    (hbranch : Makes (emit (test.branch none none)) tested branch branched)
    (hbody : Makes (blockOf {} body) branched block bodied)
    (hskip : Makes (emit (.goto none)) bodied skip skipped)
    (hother : Makes (blockOf {} other) skipped otherBlock othered)
    (hexit : Makes (emit .skip) othered exit last) :
    Makes (blockOf {} ⟨"if_stmt", none, completion, closed, line, [first, second, body, other]⟩)
      before (.choice test branch block skip otherBlock exit)
      ((last.setAt skip (.goto (some exit))).setAt branch
        (test.branch block.order.head? otherBlock.order.head?)) := by
  have hfound : Makes (blockOfFirst {} "body" ([first, second] ++ body :: [other])) branched
      (some block) bodied :=
    makes_blockOfFirst (by simp [hfirst, hsecond]) hsymbol hbody
  have hfoundOther : Makes (blockOfFirst {} "else_stmt" ([first, second, body] ++ other :: []))
      skipped (some otherBlock) othered :=
    makes_blockOfFirst (by simp [hfirst, hsecond, hsymbol]) hotherSymbol hother
  unfold blockOf
  refine makes_ite.mpr (.inr ⟨by decide, makes_ite.mpr (.inl ⟨rfl, ?_⟩)⟩)
  refine makes_bind.mpr ⟨_, _, htest, makes_bind.mpr ⟨_, _, hbranch, ?_⟩⟩
  refine makes_bind.mpr ⟨_, _, hfound, makes_require_bind.mpr ⟨block, rfl, ?_⟩⟩
  refine makes_ite.mpr (.inl ⟨by simp [hotherSymbol], ?_⟩)
  refine makes_bind.mpr ⟨_, _, hskip, makes_bind.mpr ⟨_, _, hfoundOther, ?_⟩⟩
  refine makes_bind.mpr ⟨_, _, hexit, makes_bind.mpr ⟨(), _, makes_setAction.mpr rfl, ?_⟩⟩
  exact makes_bind.mpr ⟨(), _, makes_setAction.mpr rfl, makes_pure.mpr ⟨rfl, rfl⟩⟩

theorem makes_whileLoop {copied : Assembly} {evaluation : Order} {close back : StatementId}
    (hfirst : first.symbol = "while") (hsecond : second.symbol = "condition")
    (hsymbol : body.symbol = "body")
    (htest : Makes (comparison {} ⟨"while_stmt", none, completion, closed, line,
      [first, second, body]⟩) before test tested)
    (hbranch : Makes (emit (test.branch none none)) tested branch branched)
    (hbody : Makes (blockOf {} body) branched block bodied)
    (hclose : block.order.getLast? = some close)
    (hcopies : Makes (copies test.order) bodied evaluation copied)
    (hback : Makes (emit (.goto (some branch))) copied back last) :
    Makes (blockOf {} ⟨"while_stmt", none, completion, closed, line, [first, second, body]⟩) before
      (.whileLoop test branch block evaluation back) (last.setAt branch
        (test.branch (Block.round block.order evaluation back).head? (some close))) := by
  have hfound : Makes (blockOfFirst {} "body" ([first, second] ++ body :: [])) branched
      (some block) bodied :=
    makes_blockOfFirst (by simp [hfirst, hsecond]) hsymbol hbody
  unfold blockOf
  refine makes_ite.mpr (.inr ⟨by decide, makes_ite.mpr (.inr ⟨by decide, ?_⟩)⟩)
  refine makes_ite.mpr (.inl ⟨rfl, makes_bind.mpr ⟨_, _, htest, ?_⟩⟩)
  refine makes_bind.mpr ⟨_, _, hbranch, makes_bind.mpr ⟨_, _, hfound, ?_⟩⟩
  refine makes_require_bind.mpr ⟨block, rfl, makes_require_bind.mpr ⟨close, hclose, ?_⟩⟩
  refine makes_bind.mpr ⟨_, _, hcopies, makes_bind.mpr ⟨_, _, hback, ?_⟩⟩
  exact makes_bind.mpr ⟨(), _, makes_setAction.mpr rfl, makes_pure.mpr ⟨rfl, rfl⟩⟩

theorem makes_repeatLoop {started : Assembly} {start : StatementId}
    (hfirst : first.symbol = "repeat") (hsymbol : body.symbol = "body")
    (hstart : Makes (emit .skip) before start started)
    (hbody : Makes (blockOf {} body) started block bodied)
    (htest : Makes (comparison {} ⟨"repeat_stmt", none, completion, closed, line,
      [first, body, second, third, fourth]⟩) bodied test tested)
    (hbranch : Makes (emit (test.branch none none)) tested branch branched)
    (hexit : Makes (emit .skip) branched exit last) :
    Makes (blockOf {}
      ⟨"repeat_stmt", none, completion, closed, line, [first, body, second, third, fourth]⟩) before
      (.repeatLoop start block test branch exit)
      (last.setAt branch (test.branch (some exit) (some start))) := by
  have hfound : Makes (blockOfFirst {} "body" ([first] ++ body :: [second, third, fourth]))
      started (some block) bodied :=
    makes_blockOfFirst (by simp [hfirst]) hsymbol hbody
  unfold blockOf
  refine makes_ite.mpr (.inr ⟨by decide, makes_ite.mpr (.inr ⟨by decide, ?_⟩)⟩)
  refine makes_ite.mpr (.inr ⟨by decide, makes_ite.mpr (.inl ⟨rfl, ?_⟩)⟩)
  refine makes_bind.mpr ⟨_, _, hstart, makes_bind.mpr ⟨_, _, hfound, ?_⟩⟩
  refine makes_require_bind.mpr ⟨block, rfl, makes_bind.mpr ⟨_, _, htest, ?_⟩⟩
  refine makes_bind.mpr ⟨_, _, hbranch, makes_bind.mpr ⟨_, _, hexit, ?_⟩⟩
  exact makes_bind.mpr ⟨(), _, makes_setAction.mpr rfl, makes_pure.mpr ⟨rfl, rfl⟩⟩

end

/-! ## Statements with bodies -/

section

variable {completion : Completion} {closed : Bool} {line : Nat} {condition : Condition}
  {command otherCommand : Command}

theorem compiles_conditional {first second body : Tree}
    (hfirst : first.symbol = "if") (hsecond : second.symbol = "condition")
    (hsymbol : body.symbol = "body")
    (hcondition : Tree.ComparesTo ⟨"if_stmt", none, completion, closed, line, [first, second, body]⟩
      condition) (hbody : body.CompilesBody command) :
    Tree.Compiles ⟨"if_stmt", none, completion, closed, line, [first, second, body]⟩
      (.conditional condition command) := by
  intro before hsound
  obtain ⟨test, tested, actions, htest, hgains, hcompares⟩ := hcondition before hsound
  obtain ⟨branch, branched, hbranch, hstore⟩ := exists_emit (test.branch none none) tested
  obtain ⟨block, last, inner, close, hmakes, horder, hclose, hcompiled⟩ :=
    hbody branched (hstore ▸ hgains.sound)
  have hnode := makes_conditional hfirst hsecond hsymbol htest hbranch hmakes
  obtain ⟨-, -, hbranchAt, -, -⟩ := (places_blockOf hnode).1.laid
  have htests := Occupies.of_emitsPlain (emitsPlain_comparison htest).1
  have hbranches := Occupies.of_emit hbranch
  have hbodies := (places_blockOf hmakes).1.occupies
  obtain ⟨hbranchFrom, hbranchTo⟩ := hbranches.within branch (.head _)
  refine ⟨_, _, hnode, hcompiled.sound, hgains.grows.trans (hstore ▸ hcompiled.grows),
    fun table htable => ?_⟩
  have hagrees : AgreesOutside [branch] table (Block.conditional test branch block).order last :=
    .of_setAt fun id hid _ => htable id hid
  have htestSame := hagrees.part htests (hbranches.append hbodies)
    (fun id hid => by simp [Block.order, hid]) (by simpa using .inr hbranchFrom)
  have hbodySame := hagrees.part hbodies (.nil last) (fun id hid => by simp [Block.order, hid])
    (by simpa using .inl hbranchTo)
  have hcloseAt : actionAt? table close = some .skip := by
    rw [hbodySame close (by simp [horder]), hclose]
  have hcarries := hcompiled.carries_concat horder hclose hbodySame
  rw [← htable branch (by simp [Block.order]), horder] at hbranchAt
  rw [horder] at hcarries
  show Carries last.store table (test.order ++ [branch] ++ block.order) _
  rw [horder]
  exact .conditional (.of_makes htest hgains hcompares (hstore ▸ hcompiled.grows) htestSame)
    hbranchAt hcloseAt hcarries

theorem compiles_choice {first second body other : Tree}
    (hfirst : first.symbol = "if") (hsecond : second.symbol = "condition")
    (hsymbol : body.symbol = "body") (hotherSymbol : other.symbol = "else_stmt")
    (hcondition : Tree.ComparesTo
      ⟨"if_stmt", none, completion, closed, line, [first, second, body, other]⟩ condition)
    (hbody : body.CompilesBody command) (hother : other.Compiles otherCommand) :
    Tree.Compiles ⟨"if_stmt", none, completion, closed, line, [first, second, body, other]⟩
      (.choice condition command otherCommand) := by
  intro before hsound
  obtain ⟨test, tested, actions, htest, hgains, hcompares⟩ := hcondition before hsound
  obtain ⟨branch, branched, hbranch, hstore⟩ := exists_emit (test.branch none none) tested
  obtain ⟨block, bodied, inner, close, hmakes, horder, hclose, hcompiled⟩ :=
    hbody branched (hstore ▸ hgains.sound)
  obtain ⟨skip, skipped, hskip, hskipStore⟩ := exists_emit (.goto none) bodied
  obtain ⟨otherBlock, othered, hotherMakes, hotherCompiled⟩ :=
    hother skipped (hskipStore ▸ hcompiled.sound)
  obtain ⟨exit, last, hexit, hlastStore⟩ := exists_emit .skip othered
  have hnode := makes_choice hfirst hsecond hsymbol hotherSymbol htest hbranch hmakes hskip
    hotherMakes hexit
  obtain ⟨-, -, hbranchAt, hskipAt, hexitAt, hbodyNe, -, hotherNe, -⟩ :=
    (places_blockOf hnode).1.laid
  have htests := Occupies.of_emitsPlain (emitsPlain_comparison htest).1
  have hbranches := Occupies.of_emit hbranch
  have hbodies := (places_blockOf hmakes).1.occupies
  have hskips := Occupies.of_emit hskip
  have hothers := (places_blockOf hotherMakes).1.occupies
  have hexits := Occupies.of_emit hexit
  obtain ⟨hbranchFrom, hbranchTo⟩ := hbranches.within branch (.head _)
  obtain ⟨hskipFrom, hskipTo⟩ := hskips.within skip (.head _)
  have hbodySizes := hbodies.size_le
  have hotherGrows : Store.Grows bodied.store last.store := by
    rw [hlastStore, ← hskipStore]
    exact hotherCompiled.grows
  have hbodyGrows : Store.Grows tested.store bodied.store := hstore ▸ hcompiled.grows
  refine ⟨_, _, hnode, hlastStore.symm ▸ hotherCompiled.sound,
    (hgains.grows.trans hbodyGrows).trans hotherGrows, fun table htable => ?_⟩
  have hagrees : AgreesOutside [skip, branch] table
      (Block.choice test branch block skip otherBlock exit).order last :=
    .of_setAt (.of_setAt fun id hid _ => htable id hid)
  have htestSame := hagrees.part htests
    ((((hbranches.append hbodies).append hskips).append hothers).append hexits)
    (fun id hid => by simp [Block.order, hid]) (by simp only [List.mem_pair]; omega)
  have hbodySame := hagrees.part hbodies ((hskips.append hothers).append hexits)
    (fun id hid => by simp [Block.order, hid]) (by simp only [List.mem_pair]; omega)
  have hotherSame := hagrees.part hothers hexits
    (fun id hid => by simp [Block.order, hid]) (by simp only [List.mem_pair]; omega)
  have hcarries := (hcompiled.carries_concat horder hclose hbodySame).grows hotherGrows
  have hotherCarries := hotherCompiled.carries table hotherSame
  have hcondition := Tests.of_makes htest hgains hcompares (hbodyGrows.trans hotherGrows) htestSame
  rw [← hlastStore] at hotherCarries
  rw [← htable branch (by simp [Block.order])] at hbranchAt
  rw [← htable skip (by simp [Block.order])] at hskipAt
  rw [← htable exit (by simp [Block.order])] at hexitAt
  exact .choice hcondition hbranchAt hskipAt hexitAt hbodyNe hotherNe hcarries hotherCarries

/-- The condition is computed once more behind the body, by the same actions. -/
theorem compiles_whileLoop {first second body : Tree}
    (hfirst : first.symbol = "while") (hsecond : second.symbol = "condition")
    (hsymbol : body.symbol = "body")
    (hcondition : Tree.ComparesTo
      ⟨"while_stmt", none, completion, closed, line, [first, second, body]⟩ condition)
    (hbody : body.CompilesBody command) :
    Tree.Compiles ⟨"while_stmt", none, completion, closed, line, [first, second, body]⟩
      (.whileLoop condition command) := by
  intro before hsound
  obtain ⟨test, tested, actions, htest, hgains, hcompares⟩ := hcondition before hsound
  obtain ⟨branch, branched, hbranch, hstore⟩ := exists_emit (test.branch none none) tested
  obtain ⟨block, bodied, inner, close, hmakes, horder, hclose, hcompiled⟩ :=
    hbody branched (hstore ▸ hgains.sound)
  obtain ⟨evaluation, copied, hcopies, hcopiedStore⟩ := exists_copies test.order bodied
  obtain ⟨back, last, hback, hlastStore⟩ := exists_emit (.goto (some branch)) copied
  have hnode := makes_whileLoop hfirst hsecond hsymbol htest hbranch hmakes
    (by rw [horder, List.getLast?_concat]) hcopies hback
  obtain ⟨-, -, hbranchAt, -, hbackAt, -, -⟩ := (places_blockOf hnode).1.laid
  have htests := Occupies.of_emitsPlain (emitsPlain_comparison htest).1
  have hbranches := Occupies.of_emit hbranch
  have hbodies := (places_blockOf hmakes).1.occupies
  have hrow : RowAt bodied.statements test.order actions :=
    (RowAt.of_emits hgains.emits).congr fun id hid =>
      (hbranches.append hbodies).actionAt? (htests.within id hid).2
  have hplain := (RowAt.of_emits hgains.emits).isPlain
    (.of_emitsPlain (emitsPlain_comparison htest).1)
  have hemits := emits_copies hrow hcopies
  have hevaluations := Occupies.of_emitsPlain ⟨actions, hemits, hplain⟩
  have hbacks := Occupies.of_emit hback
  obtain ⟨hbranchFrom, hbranchTo⟩ := hbranches.within branch (.head _)
  have hbodySizes := hbodies.size_le
  have hlast : last.store = bodied.store := hlastStore.trans hcopiedStore
  have hbodyGrows : Store.Grows tested.store last.store := by
    rw [hlast, ← hstore]
    exact hcompiled.grows
  refine ⟨_, _, hnode, hlast.symm ▸ hcompiled.sound, hgains.grows.trans hbodyGrows,
    fun table htable => ?_⟩
  have hround : Block.round block.order evaluation back =
      inner ++ evaluation ++ [back] ++ [close] := by
    rw [horder]
    simp [Block.round]
  have hall : (Block.whileLoop test branch block evaluation back).order =
      test.order ++ [branch] ++ (inner ++ evaluation ++ [back] ++ [close]) := by
    rw [Block.order, hround]
  rw [hall] at htable ⊢
  have hagrees : AgreesOutside [branch] table
      (test.order ++ [branch] ++ (inner ++ evaluation ++ [back] ++ [close])) last :=
    .of_setAt fun id hid _ => htable id hid
  have htestSame := hagrees.part htests
    (((hbranches.append hbodies).append hevaluations).append hbacks)
    (fun id hid => by simp [hid]) (by simp only [List.mem_singleton]; omega)
  have hbodySame := hagrees.part hbodies (hevaluations.append hbacks)
    (fun id hid => by
      have hmem : id ∈ inner ∨ id = close := by simpa [horder] using hid
      rcases hmem with h | h <;> simp [h]) (by simp only [List.mem_singleton]; omega)
  have hevaluationSame := hagrees.part hevaluations hbacks
    (fun id hid => by simp [hid]) (by simp only [List.mem_singleton]; omega)
  have hcloseAt : actionAt? table close = some .skip := by
    rw [hbodySame close (by simp [horder]), hclose]
  have hcondition := Tests.of_makes htest hgains hcompares hbodyGrows htestSame
  have hagain : Tests last.store table { test with order := evaluation } condition :=
    ⟨actions, (RowAt.of_emits hemits).congr hevaluationSame, hplain,
      fun store hhosts => hcompares store (hhosts.of_grows hbodyGrows)⟩
  have hcarries := hcompiled.carries table fun id hid => hbodySame id (by simp [horder, hid])
  rw [← hlast] at hcarries
  rw [← htable branch (by simp), hround, horder, List.getLast?_concat] at hbranchAt
  rw [← htable back (by simp)] at hbackAt
  exact .whileLoop hcondition hagain hbranchAt hbackAt hcloseAt hcarries

theorem compiles_repeatLoop {first second third fourth body : Tree}
    (hfirst : first.symbol = "repeat") (hsymbol : body.symbol = "body")
    (hcondition : Tree.ComparesTo
      ⟨"repeat_stmt", none, completion, closed, line, [first, body, second, third, fourth]⟩
      condition) (hbody : body.CompilesBody command) :
    Tree.Compiles
      ⟨"repeat_stmt", none, completion, closed, line, [first, body, second, third, fourth]⟩
      (.repeatLoop command condition) := by
  intro before hsound
  obtain ⟨start, started, hstart, hstartStore⟩ := exists_emit .skip before
  obtain ⟨block, bodied, inner, close, hmakes, horder, hclose, hcompiled⟩ :=
    hbody started (hstartStore ▸ hsound)
  obtain ⟨test, tested, actions, htest, hgains, hcompares⟩ := hcondition bodied hcompiled.sound
  obtain ⟨branch, branched, hbranch, hbranchStore⟩ := exists_emit (test.branch none none) tested
  obtain ⟨exit, last, hexit, hlastStore⟩ := exists_emit .skip branched
  have hnode := makes_repeatLoop hfirst hsymbol hstart hmakes htest hbranch hexit
  obtain ⟨-, hstartAt, -, hbranchAt, hexitAt, -, -⟩ := (places_blockOf hnode).1.laid
  have hbodies := (places_blockOf hmakes).1.occupies
  have htests := Occupies.of_emitsPlain (emitsPlain_comparison htest).1
  have hbranches := Occupies.of_emit hbranch
  have hexits := Occupies.of_emit hexit
  obtain ⟨hbranchFrom, hbranchTo⟩ := hbranches.within branch (.head _)
  have htestSizes := htests.size_le
  have hlast : last.store = tested.store := hlastStore.trans hbranchStore
  have htestGrows : Store.Grows bodied.store last.store := hlast.symm ▸ hgains.grows
  refine ⟨_, _, hnode, hlast.symm ▸ hgains.sound,
    Store.Grows.trans (hstartStore ▸ hcompiled.grows) htestGrows, fun table htable => ?_⟩
  have hagrees : AgreesOutside [branch] table
      (Block.repeatLoop start block test branch exit).order last :=
    .of_setAt fun id hid _ => htable id hid
  have htestSame := hagrees.part htests (hbranches.append hexits)
    (fun id hid => by simp [Block.order, hid]) (by simp only [List.mem_singleton]; omega)
  have hbodySame := hagrees.part hbodies ((htests.append hbranches).append hexits)
    (fun id hid => by simp [Block.order, hid]) (by simp only [List.mem_singleton]; omega)
  have hcarries := (hcompiled.carries_concat horder hclose hbodySame).grows htestGrows
  have hlastGrows : Store.Grows tested.store last.store := hlast.symm ▸ .refl _
  have hcondition := Tests.of_makes htest hgains hcompares hlastGrows htestSame
  rw [← htable start (by simp [Block.order])] at hstartAt
  rw [← htable branch (by simp [Block.order])] at hbranchAt
  rw [← htable exit (by simp [Block.order])] at hexitAt
  exact .repeatLoop hcondition hstartAt hbranchAt hexitAt hcarries

end

end LineGrammar
