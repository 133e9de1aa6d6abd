import LineGrammar.Program.Execution
import Mathlib.Data.List.Nodup

/-!
# The flow of control

Where control can go from a statement is told by its action and its successor. In a linked program
the successor is the next statement of the order.
-/

namespace LineGrammar

/-- The jumps of an action. -/
def Action.targets : Action → List (Option StatementId)
  | .branch _ _ _ onTrue onFalse => [onTrue, onFalse]
  | .goto target => [target]
  | _ => []

/-- Does control simply go on to the successor? -/
def Action.IsPlain (action : Action) : Prop :=
  action.targets = []

/-- Where control can go from a statement. -/
def Statement.exits (statement : Statement) : List (Option StatementId) :=
  match statement.action.targets with
  | [] => [statement.next]
  | targets => targets

/-- The action of a statement. -/
def actionAt? (table : Array Statement) (id : StatementId) : Option Action :=
  table[id]?.map Statement.action

namespace Program

/-! ## Linking -/

theorem getElem?_setNext_self {table : Array Statement} {id : StatementId}
    {next : Option StatementId} :
    (setNext table id next)[id]? = table[id]?.map fun statement => { statement with next } := by
  rw [setNext, Array.getElem?_modify, if_pos rfl]

theorem getElem?_setNext_of_ne {table : Array Statement} {id other : StatementId}
    {next : Option StatementId} (h : id ≠ other) :
    (setNext table id next)[other]? = table[other]? := by
  rw [setNext, Array.getElem?_modify, if_neg h]

theorem getElem?_chain_of_not_mem {order : List StatementId} {id : StatementId} (h : id ∉ order)
    (table : Array Statement) : (chain table order)[id]? = table[id]? := by
  induction order generalizing table with
  | nil => rfl
  | cons first rest ih =>
    have hne : first ≠ id := fun heq => h (heq ▸ List.mem_cons_self)
    have hrest : id ∉ rest := fun hmem => h (List.mem_cons_of_mem _ hmem)
    cases rest with
    | nil => rw [chain, getElem?_setNext_of_ne hne]
    | cons second rest => rw [chain, ih hrest, getElem?_setNext_of_ne hne]

theorem getElem?_chain {front back : List StatementId} {id : StatementId}
    (hnodup : (front ++ id :: back).Nodup) (table : Array Statement) :
    (chain table (front ++ id :: back))[id]? =
      table[id]?.map fun statement => { statement with next := back.head? } := by
  induction front generalizing table with
  | nil =>
    obtain ⟨hid, -⟩ := List.nodup_cons.mp hnodup
    cases back with
    | nil => exact getElem?_setNext_self
    | cons second rest =>
      rw [List.nil_append, chain, getElem?_chain_of_not_mem hid, getElem?_setNext_self]
      rfl
  | cons first front ih =>
    obtain ⟨hfirst, hrest⟩ := List.nodup_cons.mp hnodup
    have hne : first ≠ id := fun heq => hfirst (by simp [heq])
    obtain ⟨second, rest, hsecond⟩ : ∃ second rest, front ++ id :: back = second :: rest := by
      cases front with
      | nil => exact ⟨id, back, rfl⟩
      | cons second front => exact ⟨second, front ++ id :: back, rfl⟩
    rw [List.cons_append, hsecond, chain, ← hsecond, ih hrest, getElem?_setNext_of_ne hne]

theorem actionAt?_setNext (table : Array Statement) (id other : StatementId)
    (next : Option StatementId) :
    actionAt? (setNext table id next) other = actionAt? table other := by
  unfold actionAt?
  by_cases h : id = other
  · subst h
    rw [getElem?_setNext_self, Option.map_map]
    rfl
  · rw [getElem?_setNext_of_ne h]

theorem actionAt?_chain (table : Array Statement) (order : List StatementId) (id : StatementId) :
    actionAt? (chain table order) id = actionAt? table id := by
  induction order generalizing table with
  | nil => rfl
  | cons first rest ih =>
    cases rest with
    | nil => exact actionAt?_setNext table first id none
    | cons second rest => rw [chain, ih, actionAt?_setNext]

theorem getElem?_link {table : Array Statement} {front back : List StatementId} {id : StatementId}
    {action : Action} (hnodup : (front ++ id :: back).Nodup)
    (haction : actionAt? table id = some action) :
    (link table (front ++ id :: back)).statements[id]? = some ⟨action, back.head?⟩ := by
  obtain ⟨statement, hstatement, rfl⟩ := Option.map_eq_some_iff.mp haction
  rw [link, getElem?_chain hnodup, hstatement]
  rfl

/-! ## Steps -/

theorem demand_eq_ok {α : Type} {statement : StatementId} {defect : Defect} {part : Option α}
    {value : α} : demand statement defect part = .ok value ↔ part = some value := by
  cases part with
  | none => simp [demand]
  | some part => simp [demand]

theorem bind_eq_ok {α β : Type} {first : Except ExecutionError α}
    {next : α → Except ExecutionError β} {result : β} :
    (first >>= next) = .ok result ↔ ∃ value, first = .ok value ∧ next value = .ok result := by
  cases first with
  | error error =>
    constructor
    · rintro ⟨⟩
    · rintro ⟨value, ⟨⟩, -⟩
  | ok value =>
    constructor
    · intro h
      exact ⟨value, rfl, h⟩
    · rintro ⟨other, ⟨⟩, h⟩
      exact h

/-- Control goes only where the statement allows it to go, and the store stays as it is or is
written at one access. -/
theorem step_eq_ok {program : Program} {store : Store} {id : StatementId} {effect : Effect}
    (h : program.step store id = .ok effect) :
    ∃ statement, program.statements[id]? = some statement ∧ effect.next ∈ statement.exits ∧
      (effect.store = store ∨ ∃ access value, write store id access value = .ok effect.store) := by
  obtain ⟨statement, hstatement, hrun⟩ := bind_eq_ok.mp h
  refine ⟨statement, demand_eq_ok.mp hstatement, ?_⟩
  unfold Statement.exits
  cases haction : statement.action with
  | skip =>
    rw [haction] at hrun
    obtain rfl := Except.ok.inj hrun
    exact ⟨.head _, .inl rfl⟩
  | print access =>
    rw [haction] at hrun
    obtain ⟨found, -, hrun⟩ := bind_eq_ok.mp hrun
    obtain ⟨value, -, hrun⟩ := bind_eq_ok.mp hrun
    obtain rfl := Except.ok.inj hrun
    exact ⟨.head _, .inl rfl⟩
  | assign target left right operator =>
    rw [haction] at hrun
    obtain ⟨target, -, hrun⟩ := bind_eq_ok.mp hrun
    obtain ⟨left, -, hrun⟩ := bind_eq_ok.mp hrun
    obtain ⟨value, -, hrun⟩ := bind_eq_ok.mp hrun
    obtain ⟨written, hwrite, hrun⟩ := bind_eq_ok.mp hrun
    obtain rfl := Except.ok.inj hrun
    exact ⟨.head _, .inr ⟨target, value, hwrite⟩⟩
  | branch left right relation onTrue onFalse =>
    rw [haction] at hrun
    obtain ⟨left, -, hrun⟩ := bind_eq_ok.mp hrun
    obtain ⟨right, -, hrun⟩ := bind_eq_ok.mp hrun
    obtain ⟨relation, -, hrun⟩ := bind_eq_ok.mp hrun
    obtain ⟨whenTrue, htrue, hrun⟩ := bind_eq_ok.mp hrun
    obtain ⟨whenFalse, hfalse, hrun⟩ := bind_eq_ok.mp hrun
    obtain ⟨holds, -, hrun⟩ := bind_eq_ok.mp hrun
    obtain rfl := Except.ok.inj hrun
    obtain rfl := demand_eq_ok.mp htrue
    obtain rfl := demand_eq_ok.mp hfalse
    exact ⟨by cases holds <;> simp [Action.targets], .inl rfl⟩
  | goto target =>
    rw [haction] at hrun
    obtain ⟨found, hfound, hrun⟩ := bind_eq_ok.mp hrun
    obtain rfl := Except.ok.inj hrun
    obtain rfl := demand_eq_ok.mp hfound
    exact ⟨.head _, .inl rfl⟩
  | call function argument =>
    rw [haction] at hrun
    dsimp only at hrun
    split at hrun
    · simp at hrun
    · obtain rfl := Except.ok.inj hrun
      exact ⟨.head _, .inl rfl⟩
    · split at hrun
      · obtain rfl := Except.ok.inj hrun
        exact ⟨.head _, .inl rfl⟩
      · obtain ⟨value, -, hrun⟩ := bind_eq_ok.mp hrun
        obtain rfl := Except.ok.inj hrun
        exact ⟨.head _, .inl rfl⟩

theorem next_mem_exits {program : Program} {store : Store} {id : StatementId} {effect : Effect}
    (h : program.step store id = .ok effect) :
    ∃ statement, program.statements[id]? = some statement ∧ effect.next ∈ statement.exits := by
  obtain ⟨statement, hstatement, hexit, -⟩ := step_eq_ok h
  exact ⟨statement, hstatement, hexit⟩

theorem step_branch {program : Program} {store : Store} {id : StatementId} {left right : Access}
    {relation : Relation} {onTrue onFalse : StatementId} {next : Option StatementId} {holds : Bool}
    (hstatement : program.statements[id]? =
      some ⟨.branch (some left) (some right) (some relation) (some onTrue) (some onFalse), next⟩)
    (hholds : comparisonHolds store id left right relation = .ok holds) :
    program.step store id =
      .ok { store, next := some (if holds then onTrue else onFalse) } := by
  unfold step
  rw [hstatement]
  show (comparisonHolds store id left right relation >>= _) = _
  rw [hholds]
  rfl

end Program

end LineGrammar
