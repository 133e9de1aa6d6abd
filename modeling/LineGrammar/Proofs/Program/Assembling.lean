import LineGrammar.Program.Expression
import LineGrammar.Proofs.Program.Flow
import Mathlib.Data.List.Basic

/-!
# What assembling makes

`Makes` tells the success of an assembling step apart into the success of its parts. `Emits` says
that some statements have been emitted in a row: nothing else in the statements has changed, and
their order is that of their numbers. Expressions emit nothing but assignments, in this way.
-/

namespace LineGrammar.Assembly

/-- Assembling succeeds, and this is what it results in. -/
def Makes {α : Type} (assembling : Assembling α) (before : Assembly) (result : α)
    (after : Assembly) : Prop :=
  assembling.run.run before = (.ok result, after)

section

variable {α β : Type} {before after : Assembly}

theorem makes_pure {value result : α} :
    Makes (pure value) before result after ↔ result = value ∧ after = before := by
  constructor
  · rintro ⟨⟩
    exact ⟨rfl, rfl⟩
  · rintro ⟨rfl, rfl⟩
    rfl

theorem makes_bind {first : Assembling α} {next : α → Assembling β} {result : β} :
    Makes (first >>= next) before result after ↔
      ∃ value between, Makes first before value between ∧
        Makes (next value) between result after := by
  unfold Makes
  rw [ExceptT.run_bind, StateT.run_bind]
  rcases first.run.run before with ⟨error | value, between⟩
  · constructor
    · rintro ⟨⟩
    · rintro ⟨value, between, ⟨⟩, -⟩
  · constructor
    · intro h
      exact ⟨value, between, rfl, h⟩
    · rintro ⟨value, between, ⟨⟩, h⟩
      exact h

theorem not_makes_throw {error : CompileError} {result : α} :
    ¬Makes (throw error) before result after := by
  rintro ⟨⟩

theorem makes_get {result : Assembly} :
    Makes get before result after ↔ before = result ∧ before = after := by
  constructor
  · rintro ⟨⟩
    exact ⟨rfl, rfl⟩
  · rintro ⟨rfl, rfl⟩
    rfl

theorem makes_emit {action : Action} {id : StatementId} :
    Makes (emit action) before id after ↔
      id = before.statements.size ∧
        after = { before with statements := before.statements.push { action } } := by
  constructor
  · rintro ⟨⟩
    exact ⟨rfl, rfl⟩
  · rintro ⟨rfl, rfl⟩
    rfl

def setAt (assembly : Assembly) (id : StatementId) (action : Action) : Assembly :=
  { assembly with
    statements := assembly.statements.modify id fun statement => { statement with action } }

theorem makes_setAction {id : StatementId} {action : Action} {result : Unit} :
    Makes (setAction id action) before result after ↔ after = before.setAt id action := by
  constructor
  · rintro ⟨⟩
    rfl
  · rintro rfl
    rfl

theorem makes_require {node : Tree} {part : StatementPart} {value : Option α} {result : α} :
    Makes (require node part value) before result after ↔ value = some result ∧ after = before := by
  cases value with
  | none =>
    constructor
    · intro h
      exact absurd h not_makes_throw
    · rintro ⟨⟨⟩, -⟩
  | some value =>
    rw [require, makes_pure]
    constructor
    · rintro ⟨rfl, rfl⟩
      exact ⟨rfl, rfl⟩
    · rintro ⟨⟨⟩, rfl⟩
      exact ⟨rfl, rfl⟩

theorem makes_require_bind {node : Tree} {part : StatementPart} {value : Option α}
    {next : α → Assembling β} {result : β} :
    Makes (require node part value >>= next) before result after ↔
      ∃ found, value = some found ∧ Makes (next found) before result after := by
  rw [makes_bind]
  constructor
  · rintro ⟨found, between, hrequire, hnext⟩
    obtain ⟨hvalue, rfl⟩ := makes_require.mp hrequire
    exact ⟨found, hvalue, hnext⟩
  · rintro ⟨found, hvalue, hnext⟩
    exact ⟨found, before, makes_require.mpr ⟨hvalue, rfl⟩, hnext⟩

theorem makes_ite {condition : Prop} [Decidable condition] {first second : Assembling α}
    {result : α} :
    Makes (if condition then first else second) before result after ↔
      (condition ∧ Makes first before result after) ∨
        (¬condition ∧ Makes second before result after) := by
  by_cases h : condition
  · rw [if_pos h]
    simp [h]
  · rw [if_neg h]
    simp [h]

theorem makes_ite_throw {condition : Prop} [Decidable condition] {error : CompileError}
    {first : α → Assembling β} {second : Assembling β} {result : β} :
    Makes (if condition then throw error >>= first else second) before result after ↔
      ¬condition ∧ Makes second before result after := by
  rw [makes_ite]
  constructor
  · rintro (⟨-, hthrow⟩ | h)
    · obtain ⟨value, between, hthrow, -⟩ := makes_bind.mp hthrow
      exact absurd hthrow not_makes_throw
    · exact h
  · exact .inr

end

/-! ## Statements in a row -/

/-- Statements with these actions have been emitted in a row, and nothing else has changed in the
statements. -/
structure Emits (before : Assembly) (order : Order) (actions : List Action) (after : Assembly) :
    Prop where
  statements : after.statements =
    before.statements ++ (actions.map fun action => ({ action } : Statement)).toArray
  order : order = List.range' before.statements.size actions.length

namespace Emits

variable {before between after : Assembly} {order others : Order} {actions more : List Action}

theorem nil (h : after.statements = before.statements) : Emits before [] [] after where
  statements := by simpa using h
  order := rfl

theorem append (hfirst : Emits before order actions between)
    (hnext : Emits between others more after) :
    Emits before (order ++ others) (actions ++ more) after where
  statements := by
    rw [hnext.statements, hfirst.statements]
    simp
  order := by
    have hsize : between.statements.size = before.statements.size + actions.length := by
      rw [hfirst.statements]
      simp
    rw [hfirst.order, hnext.order, hsize, List.length_append, List.range'_append_1]

theorem emit {action : Action} {id : StatementId}
    (h : Makes (Assembly.emit action) before id after) : Emits before [id] [action] after := by
  obtain ⟨rfl, rfl⟩ := makes_emit.mp h
  exact ⟨by simp, rfl⟩

end Emits

/-- Statements without jumps have been emitted in a row. -/
def EmitsPlain (before : Assembly) (order : Order) (after : Assembly) : Prop :=
  ∃ actions, Emits before order actions after ∧ ∀ action ∈ actions, action.IsPlain

namespace EmitsPlain

variable {before between after : Assembly} {order others : Order}

theorem nil (h : after.statements = before.statements) : EmitsPlain before [] after :=
  ⟨[], .nil h, by simp⟩

theorem append (hfirst : EmitsPlain before order between)
    (hnext : EmitsPlain between others after) : EmitsPlain before (order ++ others) after := by
  obtain ⟨actions, hactions, hplain⟩ := hfirst
  obtain ⟨more, hmore, hplainMore⟩ := hnext
  refine ⟨actions ++ more, hactions.append hmore, fun action haction => ?_⟩
  rcases List.mem_append.mp haction with h | h
  · exact hplain action h
  · exact hplainMore action h

theorem emit {action : Action} {id : StatementId} (h : Makes (Assembly.emit action) before id after)
    (hplain : action.IsPlain) : EmitsPlain before [id] after :=
  ⟨[action], .emit h, by simpa using hplain⟩

end EmitsPlain

/-! ## Expressions -/

section

variable {before after : Assembly}

theorem makes_variableNamed {name : String} {id : VariableId} :
    Makes (variableNamed name) before id after ↔
      id = (before.store.ensureVariable name).2 ∧
        after = { before with store := (before.store.ensureVariable name).1 } := by
  constructor
  · rintro ⟨⟩
    exact ⟨rfl, rfl⟩
  · rintro ⟨rfl, rfl⟩
    rfl

theorem makes_toTemporary {left access : Access} {second : Option (ArithmeticOp × Access)}
    {id : StatementId} :
    Makes (toTemporary left second) before (id, access) after ↔
      id = before.statements.size ∧ access = .ofVariable before.store.vars.size ∧
        after = ⟨before.store.addTemporary.1, before.statements.push
          ⟨.assign (some access) (some left) (second.map (·.2)) (second.map (·.1)), none⟩⟩ := by
  constructor
  · rintro ⟨⟩
    exact ⟨rfl, rfl, rfl⟩
  · rintro ⟨rfl, rfl, rfl⟩
    rfl

theorem emitsPlain_toTemporary {left access : Access} {second : Option (ArithmeticOp × Access)}
    {id : StatementId} (h : Makes (toTemporary left second) before (id, access) after) :
    EmitsPlain before [id] after := by
  obtain ⟨rfl, rfl, rfl⟩ := makes_toTemporary.mp h
  refine ⟨[.assign (some (.ofVariable before.store.vars.size)) (some left) (second.map (·.2))
    (second.map (·.1))], ⟨by simp, rfl⟩, fun action haction => ?_⟩
  obtain rfl := List.mem_singleton.mp haction
  rfl

theorem statements_leafAccess {symbol : String} {lexeme : Option Lexeme} {access : Option Access}
    (h : Makes (leafAccess symbol lexeme) before access after) :
    after.statements = before.statements := by
  unfold leafAccess at h
  split at h
  · rcases makes_ite.mp h with ⟨-, hname⟩ | ⟨-, hnone⟩
    · obtain ⟨id, between, hvariable, hpure⟩ := makes_bind.mp hname
      obtain ⟨-, rfl⟩ := makes_variableNamed.mp hvariable
      obtain ⟨-, rfl⟩ := makes_pure.mp hpure
      rfl
    · obtain ⟨-, rfl⟩ := makes_pure.mp hnone
      rfl
  all_goals
    obtain ⟨-, rfl⟩ := makes_pure.mp h
    rfl

theorem emitsPlain_applyAll {first : Access} {rest : List (ArithmeticOp × Access)} {order : Order}
    {access : Access} (h : Makes (applyAll first rest) before (order, access) after) :
    EmitsPlain before order after := by
  induction rest generalizing first before order access with
  | nil =>
    obtain ⟨⟨⟩, rfl⟩ := makes_pure.mp h
    exact .nil rfl
  | cons second rest ih =>
    obtain ⟨⟨id, result⟩, between, htemporary, hrest⟩ := makes_bind.mp h
    obtain ⟨⟨others, last⟩, final, happly, hpure⟩ := makes_bind.mp hrest
    obtain ⟨⟨⟩, rfl⟩ := makes_pure.mp hpure
    exact (emitsPlain_toTemporary htemporary).append (ih happly)

/-- The operands of a row are computed before the operators are applied. -/
theorem emitsPlain_ofRow {line : Nat} {row : Row} {order : Order} {access : Option Access}
    {start : Assembly} (hrow : EmitsPlain start row.order before)
    (h : Makes (ofRow line row) before (order, access) after) :
    EmitsPlain start order after := by
  unfold ofRow at h
  split at h
  · rcases makes_ite.mp h with ⟨-, hnone⟩ | ⟨-, hthrow⟩
    · obtain ⟨⟨⟩, rfl⟩ := makes_pure.mp hnone
      exact hrow
    · exact absurd hthrow not_makes_throw
  · obtain ⟨-, hrest⟩ := makes_ite_throw.mp h
    obtain ⟨⟨others, result⟩, final, happly, hpure⟩ := makes_bind.mp hrest
    obtain ⟨⟨⟩, rfl⟩ := makes_pure.mp hpure
    exact hrow.append (emitsPlain_applyAll happly)

theorem emitsPlain_indexOperand {index : Access} {order : Order} {operand : Operand}
    (h : Makes (indexOperand index) before (order, operand) after) :
    EmitsPlain before order after := by
  rcases makes_ite.mp h with ⟨-, hcopy⟩ | ⟨-, hpure⟩
  · obtain ⟨⟨id, copy⟩, between, htemporary, hpure⟩ := makes_bind.mp hcopy
    obtain ⟨⟨⟩, rfl⟩ := makes_pure.mp hpure
    exact emitsPlain_toTemporary htemporary
  · obtain ⟨⟨⟩, rfl⟩ := makes_pure.mp hpure
    exact .nil rfl

end

mutual

theorem emitsPlain_expression {array : String} :
    ∀ {tree : Tree} {before after : Assembly} {order : Order} {access : Option Access},
      Makes (expression array tree) before (order, access) after → EmitsPlain before order after
  | ⟨symbol, token, completion, closed, line, children⟩, before, after, order, access, h => by
    unfold expression at h
    rcases makes_ite.mp h with ⟨-, hleaf⟩ | ⟨-, hinner⟩
    · obtain ⟨leaf, between, hmakes, hpure⟩ := makes_bind.mp hleaf
      obtain ⟨⟨⟩, rfl⟩ := makes_pure.mp hpure
      exact .nil (statements_leafAccess hmakes)
    rcases makes_ite.mp hinner with ⟨-, harray⟩ | ⟨-, hrow⟩
    · obtain ⟨⟨baseOrder, base⟩, between, hbase, hrest⟩ := makes_bind.mp harray
      obtain ⟨name, -, hrest⟩ := makes_require_bind.mp hrest
      obtain ⟨-, hrest⟩ := makes_ite_throw.mp hrest
      obtain ⟨⟨indexOrder, index⟩, next, hindex, hrest⟩ := makes_bind.mp hrest
      obtain ⟨access, -, hrest⟩ := makes_require_bind.mp hrest
      obtain ⟨⟨copyOrder, operand⟩, final, hcopy, hpure⟩ := makes_bind.mp hrest
      obtain ⟨⟨⟩, rfl⟩ := makes_pure.mp hpure
      exact ((emitsPlain_expressionAt hbase).append (emitsPlain_expressionAt hindex)).append
        (emitsPlain_indexOperand hcopy)
    · obtain ⟨row, between, hmakes, hrest⟩ := makes_bind.mp hrow
      exact emitsPlain_ofRow (emitsPlain_rowOf hmakes) hrest

theorem emitsPlain_expressionAt {array : String} :
    ∀ {position : Nat} {trees : List Tree} {before after : Assembly} {order : Order}
      {access : Option Access},
      Makes (expressionAt array position trees) before (order, access) after →
        EmitsPlain before order after
  | _, [], before, after, order, access, h => by
    unfold expressionAt at h
    obtain ⟨⟨⟩, rfl⟩ := makes_pure.mp h
    exact .nil rfl
  | 0, tree :: trees, before, after, order, access, h => by
    unfold expressionAt at h
    exact emitsPlain_expression h
  | position + 1, tree :: trees, before, after, order, access, h => by
    unfold expressionAt at h
    exact emitsPlain_expressionAt h

theorem emitsPlain_rowOf {array : String} :
    ∀ {trees : List Tree} {before after : Assembly} {row : Row},
      Makes (rowOf array trees) before row after → EmitsPlain before row.order after
  | [], before, after, row, h => by
    unfold rowOf at h
    obtain ⟨rfl, rfl⟩ := makes_pure.mp h
    exact .nil rfl
  | tree :: trees, before, after, row, h => by
    unfold rowOf at h
    split at h
    · obtain ⟨rest, between, hmakes, hpure⟩ := makes_bind.mp h
      obtain ⟨rfl, rfl⟩ := makes_pure.mp hpure
      have hrest := emitsPlain_rowOf hmakes
      exact hrest
    · obtain ⟨⟨order, access⟩, between, hfirst, hrest⟩ := makes_bind.mp h
      obtain ⟨rest, final, hmakes, hpure⟩ := makes_bind.mp hrest
      obtain ⟨rfl, rfl⟩ := makes_pure.mp hpure
      exact (emitsPlain_expression hfirst).append (emitsPlain_rowOf hmakes)

end

end LineGrammar.Assembly
