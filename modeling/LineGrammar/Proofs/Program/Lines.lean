import LineGrammar.Program.OfTree
import LineGrammar.Proofs.Program.Expressions
import LineGrammar.Proofs.Source.Settling

/-!
# Statements without jumps

An assignment, an output and a call become actions that do what the command does. The actions of a
condition compute both sides, so that the branch behind them goes by whether the condition holds.
-/

namespace LineGrammar

open Source Assembly

/-- What does not depend on how many rounds are allowed. -/
theorem Source.Command.Settles.of_forall {command : Command} {memory : Memory} {outcome : Outcome}
    (h : ∀ rounds, command.evaluate rounds memory = outcome) : command.Settles memory outcome :=
  ⟨0, fun more _ => h more⟩

/-- Performing the actions fails or ends as the command does. -/
def Performs (made : Store) (actions : List Action) (command : Command) : Prop :=
  ∀ store : Store, store.Hosts made →
    (Action.performAll store actions = none ∧ command.Settles store.memory .fails) ∨
      ∃ after lines, Action.performAll store actions = some (after, lines) ∧
        store.shape = after.shape ∧ command.Settles store.memory (.ends after.memory lines)

theorem performs_append {made : Store} {actions : List Action} {action : Action}
    {command : Command} {fails : Store → Prop} {ends : Store → Store → Prop}
    (h : ∀ store : Store, store.Hosts made → Silently store actions (fails store) (ends store))
    (hfails : ∀ store, fails store → command.Settles store.memory .fails)
    (hlast : ∀ store : Store, store.Hosts made → ∀ after, ends store after →
      (action.effect? after = none ∧ command.Settles store.memory .fails) ∨
        ∃ last lines, action.effect? after = some (last, lines) ∧ store.shape = last.shape ∧
          command.Settles store.memory (.ends last.memory lines)) :
    Performs made (actions ++ [action]) command := by
  intro store hhosts
  rcases h store hhosts with ⟨hnone, hbefore⟩ | ⟨after, hsome, hends⟩
  · exact .inl ⟨Action.performAll_append_of_none hnone _, hfails store hbefore⟩
  · rcases hlast store hhosts after hends with ⟨hnone, hsettles⟩ | ⟨last, lines, heffect, hrest⟩
    · refine .inl ⟨?_, hsettles⟩
      rw [Action.performAll_append_of_some hsome, Action.performAll_cons_of_none hnone]
      rfl
    · refine .inr ⟨last, lines, ?_, hrest⟩
      rw [Action.performAll_append_of_some hsome, Action.performAll_cons_of_some heffect]
      simp [Action.performAll]

theorem Assembly.expressionAt_of_getElem? {array : String} {position : Nat} {trees : List Tree}
    {tree : Tree} (h : trees[position]? = some tree) :
    expressionAt array position trees = Assembly.expression array tree := by
  induction trees generalizing position with
  | nil => simp at h
  | cons first trees ih =>
    cases position with
    | zero =>
      obtain rfl : first = tree := by simpa using h
      rw [expressionAt]
    | succ position =>
      rw [expressionAt]
      exact ih (by simpa using h)

/-! ## Assignments -/

theorem evaluate_assign (rounds : Nat) (name : String) (index : Option Expression)
    (value : Expression) (memory : Memory) :
    (Command.assign name index value).evaluate rounds memory =
      .ofOption ((value.value? memory).bind fun found =>
        (((slot? memory index).bind fun slot =>
          (memory name).write? slot found).map (memory.set name)).map (·, [])) := by
  show Outcome.ofOption ((value.value? memory).bind _) = _
  congr 2
  funext found
  cases slot? memory index with
  | none => rfl
  | some slot =>
    show ((memory name).write? slot found).bind _ = (((memory name).write? slot found).map _).map _
    cases (memory name).write? slot found <;> rfl

theorem effect?_assign {store : Store} {target access : Access} {name : String}
    {index : Option Expression} {value : Expression} (hsound : store.Sound)
    (htarget : Fits store target (.ofName name index))
    (hvalue : access.value? store = value.value? store.memory) :
    ((Action.assign (some target) (some access) none none).effect? store = none ∧
        (Command.assign name index value).Settles store.memory .fails) ∨
      ∃ after, (Action.assign (some target) (some access) none none).effect? store =
          some (after, []) ∧ store.shape = after.shape ∧
        (Command.assign name index value).Settles store.memory (.ends after.memory []) := by
  have heffect : (Action.assign (some target) (some access) none none).effect? store =
      (access.value? store).bind fun found => (target.write? store found).map fun after =>
        (after, []) := by
    show (access.value? store).bind _ = _
    congr 1
    funext found
    cases target.write? store found <;> rfl
  have hevaluate : ∀ rounds, (Command.assign name index value).evaluate rounds store.memory = _ :=
    fun rounds => evaluate_assign rounds name index value store.memory
  rw [hvalue] at heffect
  rw [heffect]
  cases hfound : value.value? store.memory with
  | none =>
    refine .inl ⟨rfl, .of_forall fun rounds => ?_⟩
    rw [hevaluate, hfound]
    rfl
  | some found =>
    obtain ⟨hwrite, hshape⟩ := htarget.write? hsound found
    rw [hfound, Option.bind_some, ← hwrite] at hevaluate
    rw [Option.bind_some]
    cases hafter : target.write? store found with
    | none =>
      refine .inl ⟨rfl, .of_forall fun rounds => ?_⟩
      rw [hevaluate, hafter]
      rfl
    | some after =>
      refine .inr ⟨after, rfl, hshape after hafter, .of_forall fun rounds => ?_⟩
      rw [hevaluate, hafter]
      rfl

theorem Tree.Derives.isAssignmentMark_eq {tree : Tree} (h : Derives .statements tree)
    (hsymbol : tree.symbol = "ID" ∨ tree.symbol = "array") : tree.isAssignmentMark = false := by
  rcases hsymbol with hsymbol | hsymbol
  · obtain ⟨name, token, completion, closed, line, rfl, hlexeme, hlexical⟩ :=
      h.exists_word hsymbol
    have hnot : ∀ mark ∈ ["=", ":=", ":"], name ≠ mark := by
      rintro mark hmark rfl
      have hmarks : ∀ mark ∈ ["=", ":=", ":"],
          mark.toList.any fun c => !Lexeme.continuesWord c := by
        decide
      obtain ⟨c, hc, hword⟩ := List.any_eq_true.mp (hmarks name hmark)
      exact hlexical.not_mem hlexeme (Bool.not_eq_true' _ ▸ hword) hc
    have hspelling : (some token).bind Token.spelling = some name := by
      rw [Option.bind_some, Token.spelling, hlexeme]
      rfl
    unfold Tree.isAssignmentMark
    dsimp only
    rw [hspelling]
    simp [hnot "=", hnot ":=", hnot ":"]
  · obtain ⟨symbol, completion, closed, line, children, rfl, -, -⟩ :=
      h.exists_children (by rw [hsymbol]; decide)
    rfl

/-- Assembling makes statements that do what the command does. -/
def Realizes (assembling : Assembling Order) (command : Command) : Prop :=
  ∀ before : Assembly, before.store.Sound → ∃ order after actions,
    Makes assembling before order after ∧ Gains before after order actions ∧
      Performs after.store actions command

theorem Gains.emit {before between : Assembly} {order : Order} {actions : List Action}
    (h : Gains before between order actions) (action : Action) :
    ∃ id after, Makes (Assembly.emit action) between id after ∧
      Gains before after (order ++ [id]) (actions ++ [action]) ∧ after.store = between.store :=
  ⟨_, _, makes_emit.mpr ⟨rfl, rfl⟩, h.append
    ⟨.emit (makes_emit.mpr ⟨rfl, rfl⟩), h.sound, .refl _⟩, rfl⟩

theorem realizes_assignment {names : StatementNames} {node first second third fourth : Tree}
    (hnames : names.array = "array") (hchildren : node.children = [first, second, third, fourth])
    (hfirst : first.isAssignmentMark = false) (hsecond : second.isAssignmentMark)
    {name : String} {index : Option Expression} {value : Expression}
    (htarget : Targets (Assembly.expression "array" first) name index)
    (hvalue : Parts [third, fourth] [value] []) :
    Realizes (assignment names node) (.assign name index value) := by
  intro before hsound
  obtain ⟨targetOrder, target, targeted, targetActions, htargetMakes, hvariable, htargetGains,
    htargetRuns⟩ := htarget before hsound
  obtain ⟨valueOrder, access, valued, valueActions, hvalueMakes, hvalueGains, hvalueRuns⟩ :=
    computes_rowValue hvalue rfl node.line targeted htargetGains.sound
  have hgains := htargetGains.append hvalueGains
  obtain ⟨id, after, hemit, hgainsAll, hstore⟩ :=
    hgains.emit (.assign (some target) (some access) none none)
  refine ⟨_, after, _, ?_, hgainsAll, ?_⟩
  · have hmark : Tree.assignmentMark? [first, second, third, fourth] = some 1 := by
      simp [Tree.assignmentMark?, List.findIdx?_cons, hfirst, hsecond]
    unfold assignment
    rw [hchildren, hnames]
    refine makes_require_bind.mpr ⟨1, hmark, makes_ite_throw.mpr ⟨by simp, ?_⟩⟩
    refine makes_bind.mpr ⟨_, _, htargetMakes, makes_require_bind.mpr ⟨target, rfl, ?_⟩⟩
    refine makes_ite_throw.mpr ⟨by simp [Option.isSome_iff_ne_none.mp hvariable], ?_⟩
    refine makes_bind.mpr ⟨_, _, hvalueMakes, ?_⟩
    refine makes_require_bind.mpr ⟨access, rfl, makes_bind.mpr ⟨_, _, hemit, ?_⟩⟩
    exact makes_pure.mpr ⟨rfl, rfl⟩
  · have hruns : ∀ store : Store, store.Hosts after.store →
        Silently store (targetActions ++ valueActions)
          (slot? store.memory index = none ∨ value.value? store.memory = none) fun last =>
            Store.SameBelow before.store.vars.size store last ∧
              Fits last target (.ofName name index) ∧ Fits last access value := by
      intro store hhosts
      rw [hstore] at hhosts
      refine ((htargetRuns store (hhosts.of_grows hvalueGains.grows)).imp .inl
        fun _ h => h).append fun next hnext => ?_
      obtain ⟨hsame, htargetHolds⟩ := hnext
      refine (hvalueRuns next (hhosts.of_shape hsame.shape)).imp (fun hnone => ?_)
        fun last hlast => ?_
      · rw [hsame.memory] at hnone
        exact .inr hnone
      · exact ⟨hsame.trans (hlast.1.mono htargetGains.size_le), htargetHolds last hlast.1,
          hlast.2.fits⟩
    refine performs_append hruns (fun store hfails => .of_forall fun rounds => ?_)
      fun store hhosts last hlast => ?_
    · rw [evaluate_assign]
      rcases hfails with hnone | hnone
      · rw [hnone]
        cases value.value? store.memory <;> rfl
      · rw [hnone]
        rfl
    · obtain ⟨hsame, htargetFits, hvalueFits⟩ := hlast
      have hlastHosts := hhosts.of_shape hsame.shape
      rw [← hsame.memory]
      rcases effect?_assign hlastHosts.sound htargetFits hvalueFits.value with
        ⟨hnone, hsettles⟩ | ⟨final, hsome, hshape, hsettles⟩
      · exact .inl ⟨hnone, hsettles⟩
      · exact .inr ⟨final, [], hsome, hsame.shape.trans hshape, hsettles⟩

/-! ## Output and calls -/

theorem effect?_printing {store : Store} {access : Access} {value : Expression} {action : Action}
    {command : Command} (hvalue : access.value? store = value.value? store.memory)
    (heffect : action.effect? store = (access.value? store).map fun found =>
      (store, [found.display]))
    (hcommand : ∀ rounds, command.evaluate rounds store.memory =
      .ofOption ((value.value? store.memory).map fun found => (store.memory, [found.display]))) :
    (action.effect? store = none ∧ command.Settles store.memory .fails) ∨
      ∃ after lines, action.effect? store = some (after, lines) ∧ store.shape = after.shape ∧
        command.Settles store.memory (.ends after.memory lines) := by
  rw [heffect, hvalue]
  cases hfound : value.value? store.memory with
  | none =>
    refine .inl ⟨rfl, .of_forall fun rounds => ?_⟩
    rw [hcommand, hfound]
    rfl
  | some found =>
    refine .inr ⟨store, [found.display], rfl, rfl, .of_forall fun rounds => ?_⟩
    rw [hcommand, hfound]
    rfl

theorem realizes_output {names : StatementNames} {node operand : Tree} {value : Expression}
    (hnames : names.array = "array") (hchildren : node.children[1]? = some operand)
    (hvalue : Computes (Assembly.expression "array" operand) value) :
    Realizes (output names node) (.print value) := by
  intro before hsound
  obtain ⟨order, access, valued, actions, hmakes, hgains, hruns⟩ := hvalue before hsound
  obtain ⟨id, after, hemit, hgainsAll, hstore⟩ := hgains.emit (.print (some access))
  refine ⟨_, after, _, ?_, hgainsAll, ?_⟩
  · unfold output
    rw [hnames, expressionAt_of_getElem? hchildren]
    exact makes_bind.mpr ⟨_, _, hmakes, makes_require_bind.mpr
      ⟨access, rfl, makes_bind.mpr ⟨_, _, hemit, makes_pure.mpr ⟨rfl, rfl⟩⟩⟩⟩
  · rw [← hstore] at hruns
    refine performs_append hruns (fun store hnone => .of_forall fun rounds => ?_)
      fun store hhosts last hlast => ?_
    · show Outcome.ofOption ((value.value? store.memory).map _) = _
      rw [hnone]
      rfl
    · obtain ⟨hsame, hholds⟩ := hlast
      rw [← hsame.memory, hsame.shape]
      refine effect?_printing hholds.fits.value ?_ fun rounds => rfl
      show (access.value? last).bind _ = _
      cases access.value? last <;> rfl

theorem realizes_call_none {names : StatementNames} {node operand : Tree} {token : Token}
    (hnames : names.array = "array") (htoken : node.firstToken? = some token)
    (hchildren : node.children[2]? = some operand) (hsilent : operand.IsSilent)
    (hdebug : Builtin.ofName? token.text ≠ some .debug) :
    Realizes (call names node) (.call token.text none) := by
  intro before hsound
  obtain ⟨id, after, hemit, hgains, hstore⟩ :=
    (Gains.nil hsound).emit (.call token.text none)
  refine ⟨_, after, _, ?_, hgains, fun store hhosts => ?_⟩
  · unfold call
    rw [hnames, expressionAt_of_getElem? hchildren]
    exact makes_require_bind.mpr ⟨token, htoken, makes_bind.mpr
      ⟨_, _, hsilent before, makes_bind.mpr ⟨_, _, hemit, makes_pure.mpr ⟨rfl, rfl⟩⟩⟩⟩
  cases hbuiltin : Builtin.ofName? token.text with
  | none =>
    refine .inl ⟨Action.performAll_cons_of_none ?_ [], .of_forall fun rounds => ?_⟩
    · rw [Action.effect?, hbuiltin]
      rfl
    · simp only [Command.evaluate, hbuiltin]
  | some builtin =>
    cases builtin with
    | debug => exact absurd hbuiltin hdebug
    | print =>
      have heffect : (Action.call token.text none).effect? store = some (store, [""]) := by
        rw [Action.effect?, hbuiltin]
        rfl
      refine .inr ⟨store, [""], ?_, rfl, .of_forall fun rounds => ?_⟩
      · show Action.performAll store [Action.call token.text none] = _
        rw [Action.performAll_cons_of_some heffect]
        rfl
      · simp only [Command.evaluate, hbuiltin]

theorem realizes_call_some {names : StatementNames} {node operand : Tree} {token : Token}
    {value : Expression} (hnames : names.array = "array") (htoken : node.firstToken? = some token)
    (hchildren : node.children[2]? = some operand)
    (hvalue : Computes (Assembly.expression "array" operand) value)
    (hdebug : Builtin.ofName? token.text ≠ some .debug) :
    Realizes (call names node) (.call token.text (some value)) := by
  intro before hsound
  obtain ⟨order, access, valued, actions, hmakes, hgains, hruns⟩ := hvalue before hsound
  obtain ⟨id, after, hemit, hgainsAll, hstore⟩ := hgains.emit (.call token.text (some access))
  refine ⟨_, after, _, ?_, hgainsAll, ?_⟩
  · unfold call
    rw [hnames, expressionAt_of_getElem? hchildren]
    exact makes_require_bind.mpr ⟨token, htoken, makes_bind.mpr
      ⟨_, _, hmakes, makes_bind.mpr ⟨_, _, hemit, makes_pure.mpr ⟨rfl, rfl⟩⟩⟩⟩
  rw [← hstore] at hruns
  cases hbuiltin : Builtin.ofName? token.text with
  | none =>
    have hfails : ∀ memory, (Command.call token.text (some value)).Settles memory .fails :=
      fun memory => .of_forall fun rounds => by simp only [Command.evaluate, hbuiltin]
    refine performs_append hruns (fun store _ => hfails _) fun store hhosts last hlast =>
      .inl ⟨?_, hfails _⟩
    rw [Action.effect?, hbuiltin]
    rfl
  | some builtin =>
    cases builtin with
    | debug => exact absurd hbuiltin hdebug
    | print =>
      have hprints : ∀ rounds memory,
          (Command.call token.text (some value)).evaluate rounds memory =
            .ofOption ((value.value? memory).map fun found => (memory, [found.display])) :=
        fun rounds memory => by simp only [Command.evaluate, hbuiltin]
      refine performs_append hruns (fun store hnone => .of_forall fun rounds => ?_)
        fun store hhosts last hlast => ?_
      · rw [hprints, hnone]
        rfl
      · obtain ⟨hsame, hholds⟩ := hlast
        rw [← hsame.memory, hsame.shape]
        refine effect?_printing hholds.fits.value ?_ fun rounds => hprints rounds last.memory
        rw [Action.effect?, hbuiltin]
        show (access.value? last).bind _ = _
        cases access.value? last <;> rfl

/-! ## Conditions -/

/-- The actions compute both sides of a condition, and leave what a program knows as it is. -/
def Compares (made : Store) (actions : List Action) (test : Comparison) (condition : Condition) :
    Prop :=
  ∀ store : Store, store.Hosts made →
    Silently store actions (condition.holds? store.memory = none) fun result =>
      store.shape = result.shape ∧ result.memory = store.memory ∧
        ∀ statement, (Program.comparisonHolds result statement test.left test.right
          test.relation).toOption = condition.holds? store.memory

theorem holds?_eq_none {condition : Condition} {memory : Memory}
    (h : condition.left.value? memory = none ∨ condition.right.value? memory = none) :
    condition.holds? memory = none := by
  show ((condition.left.value? memory).bind fun left =>
    (condition.right.value? memory).bind fun right => _) = none
  rcases h with h | h
  · rw [h]
    rfl
  · rw [h]
    cases condition.left.value? memory <;> rfl

theorem silently_sides {store : Store} {id : VariableId} {leftAccess rightAccess : Access}
    (condition : Condition) (hleftSpare : store.Spare id) (hrightSpare : store.Spare (id + 1))
    (hleft : Holds id store leftAccess condition.left)
    (hright : Holds id store rightAccess condition.right) :
    Silently store
      ([.assign (some (.ofVariable id)) (some leftAccess) none none] ++
        [.assign (some (.ofVariable (id + 1))) (some rightAccess) none none])
      (condition.holds? store.memory = none) fun result =>
        Store.SameBelow id store result ∧
          ∀ statement, (Program.comparisonHolds result statement (.ofVariable id)
            (.ofVariable (id + 1)) condition.relation).toOption =
              condition.holds? store.memory := by
  have hleftValue : assigned? store leftAccess none none = condition.left.value? store.memory :=
    hleft.fits.value
  refine ((silently_assign hleftSpare leftAccess none none).imp
    (fun hnone => holds?_eq_none (.inl (hleftValue ▸ hnone))) fun _ h => h).append ?_
  intro next hnext
  obtain ⟨hsame, hheld⟩ := hnext
  have hrightValue : assigned? next rightAccess none none =
      condition.right.value? store.memory := by
    rw [← hsame.memory]
    exact (hright next hsame).value
  refine (silently_assign (hrightSpare.of_shape hsame.shape) rightAccess none none).imp
    (fun hnone => holds?_eq_none (.inr (hrightValue ▸ hnone))) fun last hlast => ?_
  obtain ⟨hlastSame, hlastHeld⟩ := hlast
  refine ⟨hsame.trans (hlastSame.mono (Nat.le_succ _)), fun statement => ?_⟩
  rw [Program.toOption_comparisonHolds, hheld last hlastSame, hlastHeld last (.refl _ _),
    hleftValue, hrightValue]
  rfl

theorem exists_comparison {names : StatementNames} {node condition first second third fourth : Tree}
    {rest : List Tree} {left right : Expression} {relation : Relation}
    (hnames : names.array = "array")
    (hcondition : Tree.findBelow names.condition 2 [node] = some condition)
    (hchildren : condition.children = first :: second :: third :: fourth :: rest)
    (hrelation : Tree.relation? condition.children = some (2, relation))
    (hleft : Computes (Assembly.expression "array" second) left)
    (hright : Computes (Assembly.expression "array" fourth) right) {before : Assembly}
    (hsound : before.store.Sound) :
    ∃ test after actions, Makes (comparison names node) before test after ∧
      Gains before after test.order actions ∧
      Compares after.store actions test ⟨left, relation, right⟩ := by
  obtain ⟨leftOrder, leftAccess, computed, leftActions, hleftMakes, hleftGains, hleftRuns⟩ :=
    hleft before hsound
  obtain ⟨rightOrder, rightAccess, both, rightActions, hrightMakes, hrightGains, hrightRuns⟩ :=
    hright computed hleftGains.sound
  obtain ⟨leftId, copied, hcopyMakes, hcopyGains, hcopySize, hcopySpare⟩ :=
    exists_toTemporary hrightGains.sound leftAccess none
  obtain ⟨rightId, after, hlastMakes, hlastGains, hlastSize, hlastSpare⟩ :=
    exists_toTemporary hcopyGains.sound rightAccess none
  have hgains := (hleftGains.append hrightGains).append (hcopyGains.append hlastGains)
  refine ⟨⟨leftOrder ++ rightOrder ++ [leftId, rightId], .ofVariable both.store.vars.size, relation,
    .ofVariable copied.store.vars.size⟩, after, _, ?_, hgains, fun store hhosts => ?_⟩
  · unfold comparison
    refine makes_require_bind.mpr ⟨condition, hcondition, ?_⟩
    refine makes_require_bind.mpr ⟨(2, relation), hrelation, ?_⟩
    refine makes_ite_throw.mpr ⟨by simp, makes_ite_throw.mpr ⟨by simp [hchildren], ?_⟩⟩
    rw [hnames, hchildren]
    refine makes_bind.mpr ⟨_, _, hleftMakes, makes_require_bind.mpr ⟨_, rfl, ?_⟩⟩
    refine makes_bind.mpr ⟨_, _, hrightMakes, makes_require_bind.mpr ⟨_, rfl, ?_⟩⟩
    exact makes_bind.mpr ⟨_, _, hcopyMakes, makes_bind.mpr
      ⟨_, _, hlastMakes, makes_pure.mpr ⟨rfl, rfl⟩⟩⟩
  have hcopied := hhosts.of_grows hlastGains.grows
  have hboth := hcopied.of_grows hcopyGains.grows
  have hoperands : Silently store (leftActions ++ rightActions)
      ((⟨left, relation, right⟩ : Condition).holds? store.memory = none) fun next =>
        Store.SameBelow before.store.vars.size store next ∧
          Holds both.store.vars.size next leftAccess left ∧
          Holds both.store.vars.size next rightAccess right := by
    refine ((hleftRuns store (hboth.of_grows hrightGains.grows)).imp
      (fun hnone => holds?_eq_none (.inl hnone)) fun _ h => h).append fun next hnext => ?_
    obtain ⟨hsame, hholds⟩ := hnext
    refine (hrightRuns next (hboth.of_shape hsame.shape)).imp (fun hnone => ?_) fun last hlast => ?_
    · rw [hsame.memory] at hnone
      exact holds?_eq_none (.inr hnone)
    · exact ⟨hsame.trans (hlast.1.mono hleftGains.size_le),
        hholds.later hlast.1 hrightGains.size_le, hlast.2⟩
  refine hoperands.append fun next hnext => ?_
  obtain ⟨hsame, hleftHolds, hrightHolds⟩ := hnext
  have hspare := (hcopied.of_shape hsame.shape).spare _ hcopySpare
  have hspareNext := (hhosts.of_shape hsame.shape).spare _ hlastSpare
  rw [hcopySize] at hspareNext ⊢
  have hsides := silently_sides ⟨left, relation, right⟩ hspare hspareNext hleftHolds hrightHolds
  refine hsides.imp (fun hnone => ?_) fun last hlast => ?_
  · rw [hsame.memory] at hnone
    exact hnone
  · refine ⟨hsame.shape.trans hlast.1.shape, hlast.1.memory.trans hsame.memory, ?_⟩
    rw [← hsame.memory]
    exact hlast.2

end LineGrammar
