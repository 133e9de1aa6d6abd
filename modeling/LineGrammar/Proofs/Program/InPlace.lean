import LineGrammar.Proofs.Program.Limit

/-!
# Running in place

A store need not be copied for each statement: the same statements can work on one store that is
changed where it stands. Storing a value then makes the array longer first and sets the slot
afterwards, and an error breaks the work off and leaves everything as it is at that moment.

A statement that fails has not touched the store by then (`InPlace.performs_step`), since a value is
converted before the array grows. So work in place comes to the same as `Program.execute`, and a run
that fails leaves the store to which the statements before the failing one have led
(`Program.failed_has_no_effect`).
-/

namespace LineGrammar

namespace Program

/-- What a run works on. -/
structure Workspace where
  store : Store
  /-- The lines that have been printed. -/
  output : Array String := #[]

/-- Work that is done in place. If an error breaks it off, the workspace stays as it is then. -/
abbrev InPlace := ExceptT ExecutionError (StateM Workspace)

namespace InPlace

variable {α β : Type}

/-- Does the work: its result, and the workspace that it leaves. -/
def run (action : InPlace α) (work : Workspace) : Except ExecutionError α × Workspace :=
  StateT.run (ExceptT.run action) work

/-- Looks something up in the store. -/
def inspect (look : Store → Except ExecutionError α) : InPlace α := do
  match look (← get).store with
  | .ok value => return value
  | .error error => throw error

def change (update : Store → Store) : InPlace Unit :=
  modify fun work => { work with store := update work.store }

def printLines (lines : List String) : InPlace Unit :=
  modify fun work => { work with output := work.output ++ lines }

/-- Makes the array of a variable long enough for a slot. -/
def growTo (id : VariableId) (filler : Value) (index : Nat) : InPlace Unit :=
  change fun store =>
    { store with
      vars := store.vars.modify id fun var =>
        if var.values.size ≤ index then
          { var with values := var.values ++ Array.replicate (index + 1 - var.values.size) filler }
        else var }

def setSlot (id : VariableId) (index : Nat) (value : Value) : InPlace Unit :=
  change fun store =>
    { store with
      vars := store.vars.modify id fun var =>
        { var with values := var.values.setIfInBounds index value } }

/-- Stores a value as one of the type of the variable, and tells whether that can be done. -/
def setValue (id : VariableId) (value : Value) (index : Nat) : InPlace Bool := do
  let store := (← get).store
  match store.get? id with
  | none => return false
  | some var =>
    let lowest := store.lowestType var.type
    match value.convert? lowest with
    | none => return false
    | some converted =>
      growTo id (Value.defaultOf lowest) index
      setSlot id index converted
      return true

def write (statement : StatementId) (access : Access) (value : Value) : InPlace Unit := do
  let index ← inspect fun store => indexOf store statement access.index
  match access.base with
  | .constant _ =>
    throw (.corrupt statement
      (if access.index.isSome then .indexedConstant else .assignmentToConstant))
  | .variable id =>
    if ← setValue id value index then return ()
    else
      let found := (← get).store.get? id
      throw (.assignmentRejected ((found.map Variable.name).getD "") value)

def step (program : Program) (id : StatementId) : InPlace (Option StatementId) := do
  let statement ← inspect fun _ => demand id .danglingStatement program.statements[id]?
  match statement.action with
  | .skip => return statement.next
  | .print access =>
    let access ← inspect fun _ => demand id .printWithoutOperand access
    let value ← inspect fun store => read store id access
    printLines [value.display]
    return statement.next
  | .assign target left right operator =>
    let target ← inspect fun _ => demand id .assignmentWithoutTarget target
    let left ← inspect fun _ => demand id .assignmentWithoutOperand left
    let value ← inspect fun store => assigned store id left right operator
    write id target value
    return statement.next
  | .branch left right relation onTrue onFalse =>
    let left ← inspect fun _ => demand id .branchWithoutComparison left
    let right ← inspect fun _ => demand id .branchWithoutComparison right
    let relation ← inspect fun _ => demand id .branchWithoutComparison relation
    let onTrue ← inspect fun _ => demand id .branchWithoutTarget onTrue
    let onFalse ← inspect fun _ => demand id .branchWithoutTarget onFalse
    let holds ← inspect fun store => comparisonHolds store id left right relation
    return some (if holds then onTrue else onFalse)
  | .goto target =>
    let target ← inspect fun _ => demand id .gotoWithoutTarget target
    return some target
  | .call function argument =>
    match Builtin.ofName? function with
    | none => throw (.undefinedFunction function)
    | some .debug =>
      printLines (← get).store.describe
      return statement.next
    | some .print =>
      match argument with
      | none =>
        printLines [""]
        return statement.next
      | some access =>
        let value ← inspect fun store => read store id access
        printLines [value.display]
        return statement.next

/-- Runs at most `steps` more statements of a run that is limited to `limit`. -/
def runFrom (program : Program) (limit : Nat) : Nat → Option StatementId → InPlace Unit
  | _, none => return ()
  | 0, some _ => throw (.stepLimitExceeded limit)
  | steps + 1, some id => do
    let next ← step program id
    runFrom program limit steps next

/-! ## What is left behind -/

section

variable {work : Workspace}

theorem run_bind (action : InPlace α) (next : α → InPlace β) :
    (action >>= next).run work =
      match action.run work with
      | (.ok value, between) => (next value).run between
      | (.error error, between) => (.error error, between) := by
  unfold run
  rw [ExceptT.run_bind, StateT.run_bind]
  generalize StateT.run (ExceptT.run action) work = done
  obtain ⟨value | error, between⟩ := done <;> rfl

theorem run_get_bind (next : Workspace → InPlace α) :
    ((get : InPlace Workspace) >>= next).run work = (next work).run work :=
  rfl

theorem run_inspect_bind (look : Store → Except ExecutionError α) (next : α → InPlace β) :
    (inspect look >>= next).run work =
      match look work.store with
      | .ok value => (next value).run work
      | .error error => (.error error, work) := by
  have hlook : (inspect look).run work = (look work.store, work) := by
    show (match look work.store with
      | .ok value => (pure value : InPlace α)
      | .error error => throw error).run work = _
    cases look work.store <;> rfl
  rw [run_bind, hlook]
  cases look work.store <;> rfl

theorem run_growTo_setSlot (id : VariableId) (filler value : Value) (index : Nat) :
    (growTo id filler index >>= fun _ => setSlot id index value).run work =
      (.ok (), { work with store := { work.store with
        vars := work.store.vars.modify id fun var =>
          { var with values := Store.setSlot var.values filler index value } } }) := by
  have hvars : ∀ vars : Array Variable,
      ((vars.modify id fun var =>
          if var.values.size ≤ index then
            { var with
              values := var.values ++ Array.replicate (index + 1 - var.values.size) filler }
          else var).modify id fun var =>
          { var with values := var.values.setIfInBounds index value }) =
        vars.modify id fun var =>
          { var with values := Store.setSlot var.values filler index value } := by
    intro vars
    apply Array.ext_getElem?
    intro other
    rw [Array.getElem?_modify, Array.getElem?_modify, Array.getElem?_modify]
    by_cases hother : id = other
    · rw [if_pos hother, if_pos hother, if_pos hother, Option.map_map]
      congr 1
      funext var
      show ({ (if _ then _ else _ : Variable) with values := _ } : Variable) = _
      unfold Store.setSlot
      by_cases hsize : var.values.size ≤ index
      · simp only [if_pos hsize]
      · have hfull : index + 1 - var.values.size = 0 := by omega
        simp only [if_neg hsize, hfull, Array.replicate_zero, Array.append_empty]
    · rw [if_neg hother, if_neg hother, if_neg hother]
  rw [← hvars work.store.vars]
  rfl

theorem run_setValue (id : VariableId) (value : Value) (index : Nat) :
    (setValue id value index).run work =
      match work.store.setValue? id value index with
      | some store => (.ok true, { work with store })
      | none => (.ok false, work) := by
  unfold setValue Store.setValue?
  rw [run_get_bind]
  dsimp only
  cases work.store.get? id with
  | none => rfl
  | some var =>
    dsimp only
    generalize work.store.lowestType var.type = lowest
    cases value.convert? lowest with
    | none => rfl
    | some converted =>
      dsimp only [Option.map_some]
      rw [← bind_assoc, run_bind, run_growTo_setSlot]
      rfl

theorem run_write (statement : StatementId) (access : Access) (value : Value) :
    (write statement access value).run work =
      match Program.write work.store statement access value with
      | .ok store => (.ok (), { work with store })
      | .error error => (.error error, work) := by
  obtain ⟨base, place⟩ := access
  unfold write Program.write
  rw [run_inspect_bind]
  cases indexOf work.store statement place with
  | error error => rfl
  | ok index =>
    obtain id | constant := base
    · show (setValue id value index >>= fun stored => if stored then _ else _).run work =
        match (match work.store.setValue? id value index with
          | some store => (.ok store : Except ExecutionError Store)
          | none => _) with
        | .ok store => _
        | .error error => _
      rw [run_bind, run_setValue]
      cases work.store.setValue? id value index <;> rfl
    · rfl

/-- The work does in place what the computation tells, and nothing if that is an error. -/
def Performs (work : Workspace) (action : InPlace (Option StatementId))
    (result : Except ExecutionError Effect) : Prop :=
  action.run work =
    match result with
    | .ok effect => (.ok effect.next, ⟨effect.store, work.output ++ effect.output⟩)
    | .error error => (.error error, work)

theorem Performs.inspect_bind {look : Store → Except ExecutionError α}
    {next : α → InPlace (Option StatementId)} {rest : α → Except ExecutionError Effect}
    (h : ∀ value, Performs work (next value) (rest value)) :
    Performs work (inspect look >>= next) (look work.store >>= rest) := by
  unfold Performs
  rw [run_inspect_bind]
  cases look work.store with
  | error error => rfl
  | ok value => exact h value

theorem performs_step (program : Program) (work : Workspace) (id : StatementId) :
    Performs work (step program id) (program.step work.store id) := by
  unfold step Program.step
  refine .inspect_bind fun statement => ?_
  cases statement.action with
  | skip => rfl
  | print access =>
    refine .inspect_bind fun access => ?_
    refine .inspect_bind fun value => ?_
    rfl
  | assign target left right operator =>
    refine .inspect_bind fun target => ?_
    refine .inspect_bind fun left => ?_
    refine .inspect_bind fun value => ?_
    unfold Performs
    rw [run_bind, run_write]
    cases Program.write work.store id target value <;> rfl
  | branch left right relation onTrue onFalse =>
    refine .inspect_bind fun left => ?_
    refine .inspect_bind fun right => ?_
    refine .inspect_bind fun relation => ?_
    refine .inspect_bind fun onTrue => ?_
    refine .inspect_bind fun onFalse => ?_
    refine .inspect_bind fun holds => ?_
    rfl
  | goto target =>
    refine .inspect_bind fun target => ?_
    rfl
  | call function argument =>
    dsimp only
    cases Builtin.ofName? function with
    | none => rfl
    | some builtin =>
      cases builtin with
      | debug => rfl
      | print =>
        cases argument with
        | none => rfl
        | some access =>
          refine .inspect_bind fun value => ?_
          rfl

/-- A run in place fails or ends like the other one, and leaves the same store. -/
theorem run_runFrom (program : Program) (limit steps : Nat) (place : Option StatementId)
    (work : Workspace) :
    ∃ output, (runFrom program limit steps place).run work =
        ((program.runFrom limit steps place work.store work.output).2.map fun _ => (),
          ⟨(program.runFrom limit steps place work.store work.output).1, output⟩) ∧
      ∀ lines, (program.runFrom limit steps place work.store work.output).2 = .ok lines →
        output = lines := by
  induction steps generalizing place work with
  | zero =>
    cases place with
    | none => exact ⟨work.output, rfl, fun lines hlines => Except.ok.inj hlines⟩
    | some id =>
      refine ⟨work.output, rfl, fun lines hlines => ?_⟩
      cases hlines
  | succ steps ih =>
    cases place with
    | none => exact ⟨work.output, rfl, fun lines hlines => Except.ok.inj hlines⟩
    | some id =>
      have hstep := performs_step program work id
      unfold Performs at hstep
      unfold runFrom Program.runFrom
      rw [run_bind, hstep]
      cases program.step work.store id with
      | error error =>
        refine ⟨work.output, rfl, fun lines hlines => ?_⟩
        cases hlines
      | ok effect => exact ih effect.next ⟨effect.store, work.output ++ effect.output⟩

end

end InPlace

/-- Runs a program in place on a store: the store that is left, and the lines that have been printed
or the error. -/
def executeInPlace (program : Program) (store : Store) (limit : Nat) :
    Store × Except ExecutionError (List String) :=
  let (result, work) := (InPlace.runFrom program limit limit program.entry).run { store }
  (work.store, result.map fun _ => work.output.toList)

theorem executeInPlace_eq (program : Program) (store : Store) (limit : Nat) :
    program.executeInPlace store limit = program.execute store limit := by
  obtain ⟨output, hrun, houtput⟩ := InPlace.run_runFrom program limit limit program.entry { store }
  unfold executeInPlace execute
  rw [hrun]
  generalize program.runFrom limit limit program.entry store #[] = reached at houtput ⊢
  obtain ⟨after, error | lines⟩ := reached
  · rfl
  · rw [houtput lines rfl]
    rfl

theorem exists_comes_of_error {program : Program} {store after : Store} {limit : Nat}
    {error : ExecutionError} (h : program.execute store limit = (after, .error error)) :
    ∃ count id, program.Comes count program.entry store (some id) after ∧
      (count < limit ∧ program.step after id = .error error ∨
        count = limit ∧ error = .stepLimitExceeded limit) := by
  have hends := ends_execute program store limit
  rw [h] at hends
  cases hends with
  | failed hcount hcomes hfails => exact ⟨_, _, hcomes, .inl ⟨hcount, hfails⟩⟩
  | cut hcomes => exact ⟨_, _, hcomes, .inr ⟨rfl, rfl⟩⟩

/-- **A statement that fails has no effect.** Run in place, where a store is changed step by step and
an error leaves it as it is, a statement fails exactly if it fails by itself, and nothing is changed
then. Whole runs in place come to the same as other ones, and what a run that fails leaves is the
store to which the statements before the failing one have led. -/
theorem failed_has_no_effect (program : Program) :
    (∀ work id error after, (InPlace.step program id).run work = (.error error, after) ↔
        program.step work.store id = .error error ∧ after = work) ∧
      (∀ store limit, program.executeInPlace store limit = program.execute store limit) ∧
      ∀ store limit error after, program.executeInPlace store limit = (after, .error error) →
        ∃ count id, program.Comes count program.entry store (some id) after ∧
          (count < limit ∧ program.step after id = .error error ∨
            count = limit ∧ error = .stepLimitExceeded limit) := by
  refine ⟨fun work id error after => ?_, program.executeInPlace_eq, ?_⟩
  · have hstep := InPlace.performs_step program work id
    unfold InPlace.Performs at hstep
    rw [hstep]
    cases program.step work.store id with
    | ok effect => simp
    | error found => simp [eq_comm]
  · intro store limit error after h
    rw [executeInPlace_eq] at h
    exact exists_comes_of_error h

/-- Seven goes to the third element of an array, and then a text that is no number to the tenth. -/
def numberThenText : Program :=
  ⟨#[⟨.assign (some ⟨.variable 0, some (.constant (.int 2))⟩) (some (.ofConstant (.int 7))) none none,
      some 1⟩,
    ⟨.assign (some ⟨.variable 0, some (.constant (.int 9))⟩) (some (.ofConstant (.text ""))) none
      none, none⟩],
    some 0⟩

/-- An array of whole numbers with these elements. -/
def wholeNumbers (values : List Value) : Store :=
  { vars := #[⟨"x", intType, values.toArray, false⟩], names := [("x", 0)], scope := ⟨["x"], []⟩ }

theorem failed_has_no_effect_numberThenText :
    numberThenText.executeInPlace (wholeNumbers [.int 0]) 5 =
        (wholeNumbers [.int 0, .int 0, .int 7], .error (.assignmentRejected "x" (.text ""))) ∧
      ∃ count id, numberThenText.Comes count numberThenText.entry (wholeNumbers [.int 0]) (some id)
        (wholeNumbers [.int 0, .int 0, .int 7]) := by
  have hfirst : numberThenText.step (wholeNumbers [.int 0]) 0 =
      .ok ⟨wholeNumbers [.int 0, .int 0, .int 7], [], some 1⟩ := rfl
  have hlast : numberThenText.step (wholeNumbers [.int 0, .int 0, .int 7]) 1 =
      .error (.assignmentRejected "x" (.text "")) := rfl
  have hcomes : numberThenText.Comes 1 numberThenText.entry (wholeNumbers [.int 0]) (some 1)
      (wholeNumbers [.int 0, .int 0, .int 7]) := .step hfirst (.refl _ _)
  have hrun : numberThenText.executeInPlace (wholeNumbers [.int 0]) 5 =
      (wholeNumbers [.int 0, .int 0, .int 7], .error (.assignmentRejected "x" (.text ""))) := by
    rw [executeInPlace_eq]
    exact execute_of_failed hcomes hlast (by decide)
  obtain ⟨count, id, hreached, -⟩ := (failed_has_no_effect numberThenText).2.2 _ _ _ _ hrun
  exact ⟨hrun, count, id, hreached⟩

end Program

end LineGrammar
