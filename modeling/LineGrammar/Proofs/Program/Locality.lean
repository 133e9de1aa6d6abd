import LineGrammar.Program.Execution
import LineGrammar.Proofs.Program.Flow
import LineGrammar.Proofs.Program.Lockstep

/-!
# Runs see only what they name

A run reads and writes the values of variables, and asks for the final types of those that its
statements name. On two stores with the same variables, in which these have the same final types,
it prints the same lines or fails alike.
-/

namespace LineGrammar

open Assembly

/-- Two stores with the same variables, of which the named ones are finally of the same types. -/
structure Store.SeenAlike (table : NameTable) (first second : Store) : Prop where
  vars : first.vars = second.vars
  lowest : ∀ name id var, (name, id) ∈ table → first.get? id = some var →
    second.lowestType var.type = first.lowestType var.type

/-- Two results: the same error, or values that are related. -/
inductive ResultsAlike {α : Type} (related : α → α → Prop) :
    Except ExecutionError α → Except ExecutionError α → Prop
  | fails (error : ExecutionError) : ResultsAlike related (.error error) (.error error)
  | ends {first second : α} (h : related first second) :
    ResultsAlike related (.ok first) (.ok second)

/-- Two effects with the same lines and the same successor. -/
structure Program.Effect.Alike (table : NameTable) (first second : Effect) : Prop where
  store : Store.SeenAlike table first.store second.store
  output : first.output = second.output
  next : first.next = second.next

theorem Store.SeenAlike.get?_eq {table : NameTable} {first second : Store}
    (h : SeenAlike table first second) : second.get? = first.get? := by
  funext id
  rw [get?, get?, h.vars]

theorem Store.Veils.seenAlike {gone : List String} {inner outer : Store}
    (h : Veils gone inner outer) : SeenAlike inner.names inner outer :=
  ⟨h.vars, fun name id var hmem hvar => h.lowestType_eq (h.typed name id var hmem hvar)⟩

namespace ResultsAlike

variable {α β : Type} {related : α → α → Prop} {relatedNext : β → β → Prop}

theorem bind {first second : Except ExecutionError α} {next other : α → Except ExecutionError β}
    (h : ResultsAlike related first second)
    (hnext : ∀ value last, related value last →
      ResultsAlike relatedNext (next value) (other last)) :
    ResultsAlike relatedNext (first >>= next) (second >>= other) := by
  cases h with
  | fails error => exact .fails error
  | ends h => exact hnext _ _ h

theorem same_bind {result : Except ExecutionError α} {next other : α → Except ExecutionError β}
    (hnext : ∀ value, result = .ok value → ResultsAlike relatedNext (next value) (other value)) :
    ResultsAlike relatedNext (result >>= next) (result >>= other) := by
  cases result with
  | error error => exact .fails error
  | ok value => exact hnext value rfl

end ResultsAlike

namespace Program

section

variable {first second : Store}

/-! ## Reading -/

theorem readOperand_eq (h : first.vars = second.vars) :
    readOperand first = readOperand second := by
  funext statement operand
  rcases operand with id | value
  · simp only [readOperand, readSlot, Store.get?, h]
  · rfl

theorem indexOf_eq (h : first.vars = second.vars) : indexOf first = indexOf second := by
  funext statement index
  cases index with
  | none => rfl
  | some operand => simp only [indexOf, readOperand_eq h]

theorem read_eq (h : first.vars = second.vars) : read first = read second := by
  funext statement access
  simp only [read, indexOf_eq h, readSlot, Store.get?, h]

theorem comparisonHolds_eq (h : first.vars = second.vars) :
    comparisonHolds first = comparisonHolds second := by
  funext statement left right relation
  simp only [comparisonHolds, read_eq h]

end

variable {table : NameTable} {first second : Store}

theorem isText_eq (h : Store.SeenAlike table first second) {access : Access}
    (hnamed : access.Named table) : isText first access = isText second access := by
  obtain ⟨base, index⟩ := access
  unfold isText Access.variableId?
  rcases base with id | value
  · obtain ⟨name, hmem⟩ := hnamed.base
    simp only [Option.bind_some]
    rw [h.get?_eq]
    cases hvar : first.get? id with
    | none => rfl
    | some var => simp only [h.lowest name id var hmem hvar]
  · rfl

theorem assigned_eq (h : Store.SeenAlike table first second) (statement : StatementId)
    {left : Access} {right : Option Access} (operator : Option ArithmeticOp)
    (hleft : left.Named table) (hright : ∀ access ∈ right, access.Named table) :
    assigned first statement left right operator =
      assigned second statement left right operator := by
  unfold assigned
  rw [read_eq h.vars, isText_eq h hleft]
  cases right with
  | none => rfl
  | some right =>
    have htext := isText_eq h (hright right rfl)
    cases operator with
    | none => rfl
    | some operator =>
      show (do
        let leftValue ← read second statement left
        let rightValue ← read second statement right
        operator.apply (isText second left || isText first right) leftValue rightValue) = _
      rw [htext]
      rfl

/-! ## Writing -/

theorem setValue?_alike (h : Store.SeenAlike table first second) {id : VariableId} {name : String}
    (hmem : (name, id) ∈ table) (value : Value) (index : Nat) :
    Option.Rel (Store.SeenAlike table) (first.setValue? id value index)
      (second.setValue? id value index) := by
  unfold Store.setValue?
  rw [h.get?_eq]
  cases hvar : first.get? id with
  | none => exact .none
  | some var =>
    dsimp only
    rw [h.lowest name id var hmem hvar]
    cases value.convert? (first.lowestType var.type) with
    | none => exact .none
    | some converted =>
      refine .some ⟨?_, fun name other found hother hfound => ?_⟩
      · dsimp only
        rw [h.vars]
      · rw [Store.get?, Array.getElem?_modify] at hfound
        split_ifs at hfound
        · obtain ⟨old, hold, rfl⟩ := Option.map_eq_some_iff.mp hfound
          exact h.lowest name other old hother hold
        · exact h.lowest name other found hother hfound

theorem write_alike (h : Store.SeenAlike table first second) (statement : StatementId)
    {access : Access} (hnamed : access.Named table) (value : Value) :
    ResultsAlike (Store.SeenAlike table) (write first statement access value)
      (write second statement access value) := by
  obtain ⟨base, index⟩ := access
  unfold write
  rw [indexOf_eq h.vars]
  refine .same_bind fun slot _ => ?_
  rcases base with id | other
  · obtain ⟨name, hmem⟩ := hnamed.base
    have hset := setValue?_alike h hmem value slot
    dsimp only
    generalize first.setValue? id value slot = stored at hset ⊢
    generalize second.setValue? id value slot = storedOther at hset ⊢
    cases hset with
    | none =>
      rw [h.get?_eq]
      exact .fails _
    | some hstored => exact .ends hstored
  · exact .fails _

/-! ## Running -/

variable {program : Program}

theorem step_alike (h : Store.SeenAlike table first second)
    (hnamed : ∀ statement ∈ program.statements, statement.action.Named table)
    (id : StatementId) :
    ResultsAlike (Effect.Alike table) (program.step first id) (program.step second id) := by
  unfold step
  refine .same_bind fun statement hstatement => ?_
  have haction := hnamed statement (Array.mem_of_getElem? (demand_eq_ok.mp hstatement))
  obtain ⟨action, next⟩ := statement
  cases action with
  | skip => exact .ends ⟨h, rfl, rfl⟩
  | print access =>
    dsimp only
    rw [read_eq h.vars]
    refine .same_bind fun found _ => .same_bind fun value _ => .ends ⟨h, rfl, rfl⟩
  | assign target left right operator =>
    refine .same_bind fun targetFound htarget => .same_bind fun leftFound hleft => ?_
    -- what is asked for its type or written to is among the accesses of the action
    have haccess : ∀ access, some access ∈ [target, left, right] → access.Named table := by
      intro access hmem
      refine haction.accesses access ?_
      simpa [Action.accesses, or_assoc, eq_comm] using hmem
    rw [assigned_eq h id operator (haccess leftFound (by simp [demand_eq_ok.mp hleft]))
      fun access hright => haccess access (by simp [Option.mem_def.mp hright])]
    refine .same_bind fun value _ => ?_
    refine .bind (write_alike h id (haccess targetFound (by simp [demand_eq_ok.mp htarget])) value)
      fun _ _ hstored => .ends ⟨hstored, rfl, rfl⟩
  | branch left right relation onTrue onFalse =>
    dsimp only
    rw [comparisonHolds_eq h.vars]
    refine .same_bind fun _ _ => .same_bind fun _ _ => .same_bind fun _ _ => .same_bind fun _ _ =>
      .same_bind fun _ _ => .same_bind fun _ _ => .ends ⟨h, rfl, rfl⟩
  | goto target => exact .same_bind fun _ _ => .ends ⟨h, rfl, rfl⟩
  | call function argument =>
    dsimp only
    cases hbuiltin : Builtin.ofName? function with
    | none => exact .fails _
    | some builtin =>
      cases builtin with
      | debug =>
        have hfunction : function = "debug" := by
          unfold Builtin.ofName? at hbuiltin
          split at hbuiltin
          · cases hbuiltin
          · rfl
          · cases hbuiltin
        exact absurd (hfunction ▸ rfl) (haction.debug argument)
      | print =>
        cases argument with
        | none => exact .ends ⟨h, rfl, rfl⟩
        | some access =>
          dsimp only
          rw [read_eq h.vars]
          exact .same_bind fun value _ => .ends ⟨h, rfl, rfl⟩

theorem runFrom_alike (hnamed : ∀ statement ∈ program.statements, statement.action.Named table)
    (limit : Nat) {steps : Nat} {start : Option StatementId} {output : Array String}
    (h : Store.SeenAlike table first second) :
    (program.runFrom limit steps start first output).2 =
      (program.runFrom limit steps start second output).2 := by
  induction steps generalizing start first second output with
  | zero => cases start <;> rfl
  | succ steps ih =>
    cases start with
    | none => rfl
    | some id =>
      have hstep := step_alike h hnamed id
      rw [runFrom, runFrom]
      generalize program.step first id = reached at hstep ⊢
      generalize program.step second id = reachedOther at hstep ⊢
      cases hstep with
      | fails error => rfl
      | @ends effect other heffect =>
        dsimp only
        rw [heffect.next, heffect.output]
        exact ih heffect.store

theorem execute_alike (hnamed : ∀ statement ∈ program.statements, statement.action.Named table)
    (h : Store.SeenAlike table first second) (limit : Nat) :
    (program.execute first limit).2 = (program.execute second limit).2 :=
  congrArg (Except.map Array.toList) (runFrom_alike hnamed limit h)

theorem named_link {statements : Array Statement} (order : List StatementId)
    (hnamed : ∀ statement ∈ statements, statement.action.Named table) :
    ∀ statement ∈ (link statements order).statements, statement.action.Named table := by
  intro statement hstatement
  obtain ⟨id, hid⟩ := Array.mem_iff_getElem?.mp hstatement
  have haction : actionAt? statements id = some statement.action := by
    rw [← actionAt?_chain statements order id]
    exact Option.map_eq_some_iff.mpr ⟨statement, hid, rfl⟩
  obtain ⟨old, hold, heq⟩ := Option.map_eq_some_iff.mp haction
  rw [← heq]
  exact hnamed old (Array.mem_of_getElem? hold)

end Program

end LineGrammar
