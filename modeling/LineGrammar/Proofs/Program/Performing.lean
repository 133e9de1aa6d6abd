import LineGrammar.Proofs.Program.Flow

/-!
# Performing actions in a row

What an action without jumps does to a store does not depend on where its statement stands, apart
from the error if it fails. So a row of statements that follow each other can be run by performing
their actions one after the other.
-/

namespace LineGrammar

theorem Except.toOption_bind {ε α β : Type} (first : Except ε α) (next : α → Except ε β) :
    (first >>= next).toOption = first.toOption.bind fun value => (next value).toOption := by
  cases first <;> rfl

/-- The number of the slot that an index means, if it means one. -/
def Operand.slot? (store : Store) (index : Option Operand) : Option Nat :=
  (Program.indexOf store 0 index).toOption

/-- The value of an access, if it has one. -/
def Access.value? (store : Store) (access : Access) : Option Value :=
  (Program.read store 0 access).toOption

/-- The store with a value at an access, if it can be stored there. -/
def Access.write? (store : Store) (access : Access) (value : Value) : Option Store :=
  (Program.write store 0 access value).toOption

def Operand.value? (store : Store) (operand : Operand) : Option Value :=
  (Program.readOperand store 0 operand).toOption

/-- The value that an assignment stores, if it has one. -/
def assigned? (store : Store) (left : Access) (right : Option Access)
    (operator : Option ArithmeticOp) : Option Value :=
  (Program.assigned store 0 left right operator).toOption

namespace Action

/-- What an action without jumps does to a store, and the lines that it prints. -/
def effect? (store : Store) : Action → Option (Store × List String)
  | .print access => do
    let value ← (← access).value? store
    return (store, [value.display])
  | .assign target left right operator => do
    let target ← target
    let left ← left
    let value ← assigned? store left right operator
    let store ← target.write? store value
    return (store, [])
  | .call function argument => do
    match (← Builtin.ofName? function), argument with
    | .debug, _ => return (store, store.describe)
    | .print, none => return (store, [""])
    | .print, some access =>
      let value ← access.value? store
      return (store, [value.display])
  | _ => return (store, [])

def performAll (store : Store) : List Action → Option (Store × List String)
  | [] => some (store, [])
  | action :: actions => do
    let (store, output) ← action.effect? store
    let (store, more) ← performAll store actions
    return (store, output ++ more)

theorem performAll_cons_of_some {store next : Store} {action : Action} {output : List String}
    (h : action.effect? store = some (next, output)) (actions : List Action) :
    performAll store (action :: actions) =
      (performAll next actions).map fun (last, more) => (last, output ++ more) := by
  rw [performAll, h]
  show (performAll next actions).bind _ = _
  cases performAll next actions <;> rfl

theorem performAll_cons_of_none {store : Store} {action : Action}
    (h : action.effect? store = none) (actions : List Action) :
    performAll store (action :: actions) = none := by
  rw [performAll, h]
  rfl

theorem performAll_append_of_none {store : Store} {actions : List Action}
    (h : performAll store actions = none) (more : List Action) :
    performAll store (actions ++ more) = none := by
  induction actions generalizing store with
  | nil => simp [performAll] at h
  | cons action actions ih =>
    rw [List.cons_append]
    cases heffect : action.effect? store with
    | none => exact performAll_cons_of_none heffect _
    | some effect =>
      obtain ⟨next, output⟩ := effect
      rw [performAll_cons_of_some heffect, Option.map_eq_none_iff] at h ⊢
      exact ih h

theorem performAll_append_of_some {store next : Store} {actions : List Action}
    {output : List String} (h : performAll store actions = some (next, output))
    (more : List Action) :
    performAll store (actions ++ more) =
      (performAll next more).map fun (last, rest) => (last, output ++ rest) := by
  induction actions generalizing store output with
  | nil =>
    obtain ⟨rfl, rfl⟩ := Prod.mk.inj (Option.some.inj h)
    rw [List.nil_append]
    cases performAll store more <;> rfl
  | cons action actions ih =>
    rw [List.cons_append]
    cases heffect : action.effect? store with
    | none =>
      rw [performAll_cons_of_none heffect] at h
      exact absurd h (by simp)
    | some effect =>
      obtain ⟨between, first⟩ := effect
      rw [performAll_cons_of_some heffect] at h ⊢
      obtain ⟨⟨last, rest⟩, hrest, heq⟩ := Option.map_eq_some_iff.mp h
      obtain ⟨rfl, rfl⟩ := Prod.mk.inj heq
      rw [ih hrest, Option.map_map]
      congr 1
      funext ⟨final, lines⟩
      show (final, first ++ (rest ++ lines)) = (final, first ++ rest ++ lines)
      rw [List.append_assoc]

end Action

namespace Program

variable {store : Store}

theorem toOption_readSlot (statement : StatementId) (id : VariableId) (slot : Nat) :
    (readSlot store statement id slot).toOption =
      (store.get? id).bind fun var => var.values[slot]? := by
  unfold readSlot
  cases store.get? id with
  | none => rfl
  | some var =>
    dsimp only [Option.bind_some]
    cases var.values[slot]? <;> rfl

theorem toOption_readOperand (statement : StatementId) (operand : Operand) :
    (readOperand store statement operand).toOption = operand.value? store := by
  unfold Operand.value?
  rcases operand with id | value
  · rw [readOperand, readOperand, toOption_readSlot, toOption_readSlot]
  · rfl

theorem toOption_indexOf_some (statement : StatementId) (operand : Operand) :
    (indexOf store statement (some operand)).toOption =
      (operand.value? store).bind Value.toIndex? := by
  rw [indexOf, Except.toOption_bind, toOption_readOperand]
  congr 1
  funext value
  cases value.toIndex? <;> rfl

theorem toOption_indexOf (statement : StatementId) (index : Option Operand) :
    (indexOf store statement index).toOption = Operand.slot? store index := by
  cases index with
  | none => rfl
  | some operand => rw [toOption_indexOf_some, Operand.slot?, toOption_indexOf_some]

theorem toOption_read (statement : StatementId) (access : Access) :
    (read store statement access).toOption = access.value? store := by
  unfold Access.value? read
  rw [Except.toOption_bind, Except.toOption_bind, toOption_indexOf, toOption_indexOf]
  congr 1
  funext slot
  rcases access.base with id | value
  · dsimp only
    rw [toOption_readSlot, toOption_readSlot]
  · cases access.index.isSome <;> rfl

theorem toOption_write (statement : StatementId) (access : Access) (value : Value) :
    (write store statement access value).toOption = access.write? store value := by
  unfold Access.write? write
  rw [Except.toOption_bind, Except.toOption_bind, toOption_indexOf, toOption_indexOf]
  congr 1
  funext slot
  rcases access.base with id | other
  · rfl
  · rfl

theorem value?_of_base {access : Access} {id : VariableId} (h : access.base = .variable id) :
    access.value? store =
      (Operand.slot? store access.index).bind fun slot =>
        (store.get? id).bind fun var => var.values[slot]? := by
  unfold Access.value? read
  rw [Except.toOption_bind, toOption_indexOf, h]
  congr 1
  funext slot
  exact toOption_readSlot 0 id slot

theorem write?_of_base {access : Access} {id : VariableId} (h : access.base = .variable id)
    (value : Value) :
    access.write? store value =
      (Operand.slot? store access.index).bind fun slot => store.setValue? id value slot := by
  unfold Access.write? write
  rw [Except.toOption_bind, toOption_indexOf, h]
  congr 1
  funext slot
  dsimp only
  cases store.setValue? id value slot <;> rfl

theorem value?_of_index {access : Access} (h : access.index = none) :
    access.value? store = access.base.value? store := by
  obtain ⟨base, index⟩ := access
  obtain rfl : index = none := h
  rcases base with id | value
  · rw [value?_of_base rfl, Operand.value?, readOperand, toOption_readSlot]
    rfl
  · rfl

theorem toOption_demand {α : Type} (statement : StatementId) (defect : Defect) (part : Option α) :
    (demand statement defect part).toOption = part := by
  cases part <;> rfl

theorem toOption_assigned (statement : StatementId) (left : Access) (right : Option Access)
    (operator : Option ArithmeticOp) :
    (assigned store statement left right operator).toOption =
      assigned? store left right operator := by
  unfold assigned? assigned
  cases operator with
  | none => rw [toOption_read, toOption_read]
  | some operator => simp only [Except.toOption_bind, toOption_demand, toOption_read]

theorem assigned?_operator (left right : Access) (operator : ArithmeticOp) :
    assigned? store left (some right) (some operator) =
      (left.value? store).bind fun leftValue => (right.value? store).bind fun rightValue =>
        (operator.apply (isText store left || isText store right) leftValue
          rightValue).toOption := by
  unfold assigned? assigned
  simp only [Except.toOption_bind, toOption_demand, toOption_read]
  rfl

theorem toOption_comparisonHolds (statement : StatementId) (left right : Access)
    (relation : Relation) :
    (comparisonHolds store statement left right relation).toOption =
      (left.value? store).bind fun leftValue => (right.value? store).bind fun rightValue =>
        (leftValue.compare? rightValue).map relation.holds := by
  unfold comparisonHolds
  rw [Except.toOption_bind, toOption_read]
  congr 1
  funext leftValue
  rw [Except.toOption_bind, toOption_read]
  congr 1
  funext rightValue
  cases leftValue.compare? rightValue <;> rfl

theorem toOption_step {program : Program} {id : StatementId} {action : Action}
    {next : Option StatementId} (hstatement : program.statements[id]? = some ⟨action, next⟩)
    (hplain : action.IsPlain) :
    (program.step store id).toOption =
      (action.effect? store).map fun (store, output) => { store, output, next } := by
  unfold step
  rw [hstatement, Except.toOption_bind, toOption_demand, Option.bind_some]
  cases action with
  | skip => rfl
  | print access =>
    simp only [Except.toOption_bind, toOption_demand, toOption_read]
    cases access with
    | none => rfl
    | some access =>
      show (access.value? store).bind _ = ((access.value? store).bind _).map _
      cases access.value? store <;> rfl
  | assign target left right operator =>
    simp only [Except.toOption_bind, toOption_demand, toOption_assigned, toOption_write]
    cases target with
    | none => rfl
    | some target =>
      cases left with
      | none => rfl
      | some left =>
        show (assigned? store left right operator).bind _ =
          ((assigned? store left right operator).bind _).map _
        cases assigned? store left right operator with
        | none => rfl
        | some value =>
          show (target.write? store value).bind _ = ((target.write? store value).bind _).map _
          cases target.write? store value <;> rfl
  | branch left right relation onTrue onFalse =>
    exact absurd hplain (by simp [Action.IsPlain, Action.targets])
  | goto target => exact absurd hplain (by simp [Action.IsPlain, Action.targets])
  | call function argument =>
    unfold Action.effect?
    dsimp only
    cases Builtin.ofName? function with
    | none => rfl
    | some builtin =>
      cases builtin with
      | debug => rfl
      | print =>
        cases argument with
        | none => rfl
        | some access =>
          show (read store id access >>= _).toOption = ((access.value? store).bind _).map _
          rw [Except.toOption_bind, toOption_read]
          cases access.value? store <;> rfl

end Program

end LineGrammar
