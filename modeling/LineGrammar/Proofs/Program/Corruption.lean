import LineGrammar.Proofs.Program.Breakdown
import LineGrammar.Proofs.Program.Closure

/-!
# Corrupt statements

A statement that cannot be run at all is corrupt. In a program that asks for nothing that is missing
there is one way left for it to be so: it reads an element of a constant
(`Program.step_isCorrupt_iff`). Trees become such statements, since nothing checks that what is
indexed is a variable; where it always is, a program that a tree becomes is never corrupt
(`Program.isCorrupt_execute_iff`).
-/

namespace LineGrammar

def Access.IndexesConstant (access : Access) : Prop :=
  ∃ value index, access = { base := .constant value, index := some index }

/-- What running the action reads, in this order. -/
def Action.reads : Action → List Access
  | .skip | .goto _ => []
  | .print access => access.toList
  | .assign _ left right operator =>
    left.toList ++ if operator.isSome then right.toList else []
  | .branch left right _ _ _ => left.toList ++ right.toList
  | .call function argument =>
    if Builtin.ofName? function = some .print then argument.toList else []

theorem Action.reads_subset_accesses (action : Action) : action.reads ⊆ action.accesses := by
  intro access hmem
  cases action with
  | skip | goto => exact hmem
  | print => exact hmem
  | branch => exact hmem
  | assign target left right operator =>
    simp only [reads, accesses, List.mem_append] at hmem ⊢
    rcases hmem with hleft | hright
    · exact .inl (.inr hleft)
    · split at hright
      · exact .inr hright
      · cases hright
  | call function argument =>
    simp only [reads, accesses] at hmem ⊢
    split at hmem
    · exact hmem
    · cases hmem

/-- If the node is an array, then what is indexed is a variable. -/
def Tree.IndexesVariable (array : String) (node : Tree) : Prop :=
  node.symbol = array → ∀ before order base after,
    Assembly.Makes (Assembly.expressionAt array 0 node.children) before (order, some base) after →
      base.variableId?.isSome

namespace Program

/-- A statement has been found to be corrupt. -/
def IsCorrupt {α : Type} (result : Except ExecutionError α) : Prop :=
  ∃ id defect, result = .error (.corrupt id defect)

/-- One of the accesses means an element of a constant, with an index that is one, and those before
it can be read. -/
def ReadsConstant (store : Store) (id : StatementId) (accesses : List Access) : Prop :=
  ∃ front access back, accesses = front ++ access :: back ∧
    (∀ other ∈ front, ∃ value, read store id other = .ok value) ∧ access.IndexesConstant ∧
      ∃ index, indexOf store id access.index = .ok index

/-- Running the statement reads an element of a constant. -/
def ReadsConstantAt (program : Program) (store : Store) (id : StatementId) : Prop :=
  ∃ statement, program.statements[id]? = some statement ∧
    ReadsConstant store id statement.action.reads

/-- The run comes, before it has used up its statements, to one that reads an element of a
constant. -/
def ComesToConstant (program : Program) (steps : Nat) (place : Option StatementId)
    (store : Store) : Prop :=
  ∃ count, count < steps ∧ ∃ id after,
    program.Comes count place store (some id) after ∧ program.ReadsConstantAt after id

section

variable {α β : Type}

theorem not_isCorrupt_ok (value : α) : ¬IsCorrupt (.ok value : Except ExecutionError α) := by
  rintro ⟨id, defect, ⟨⟩⟩

theorem isCorrupt_bind {first : Except ExecutionError α} {next : α → Except ExecutionError β} :
    IsCorrupt (first >>= next) ↔
      IsCorrupt first ∨ ∃ value, first = .ok value ∧ IsCorrupt (next value) := by
  cases first with
  | error error =>
    refine ⟨fun ⟨id, defect, h⟩ => .inl ⟨id, defect, ?_⟩, ?_⟩
    · rw [Except.error.inj h]
    · rintro (⟨id, defect, h⟩ | ⟨value, ⟨⟩, -⟩)
      exact ⟨id, defect, by rw [Except.error.inj h]; rfl⟩
  | ok value =>
    refine ⟨fun h => .inr ⟨value, rfl, h⟩, ?_⟩
    rintro (h | ⟨other, ⟨⟩, h⟩)
    · exact absurd h (not_isCorrupt_ok value)
    · exact h

theorem isCorrupt_bind_left {first : Except ExecutionError α} {next : α → Except ExecutionError β}
    (hnext : ∀ value, ¬IsCorrupt (next value)) : IsCorrupt (first >>= next) ↔ IsCorrupt first := by
  rw [isCorrupt_bind]
  exact or_iff_left fun ⟨value, _, h⟩ => hnext value h

end

/-! ## Values -/

theorem not_isCorrupt_apply (operator : ArithmeticOp) (textual : Bool) (left right : Value) :
    ¬IsCorrupt (operator.apply textual left right) := by
  have htext : ¬IsCorrupt (operator.applyText left right) := by
    cases operator <;> rintro ⟨id, defect, ⟨⟩⟩
  have hwhole : ∀ operator n, ¬IsCorrupt (ArithmeticOp.wholeResult operator n) := by
    intro operator n
    unfold ArithmeticOp.wholeResult
    split <;> rintro ⟨id, defect, ⟨⟩⟩
  unfold ArithmeticOp.apply
  split
  · exact htext
  · split
    · cases operator with
      | add | sub | mul => exact hwhole _ _
      | div =>
        change ¬IsCorrupt (ArithmeticOp.divideWhole _ _)
        unfold ArithmeticOp.divideWhole
        split_ifs
        · rintro ⟨id, defect, ⟨⟩⟩
        · rintro ⟨id, defect, ⟨⟩⟩
        · exact hwhole _ _
        · rintro ⟨id, defect, ⟨⟩⟩
    · split
      · unfold ArithmeticOp.applyReal
        split
        · rintro ⟨id, defect, ⟨⟩⟩
        · rintro ⟨id, defect, ⟨⟩⟩
        · rintro ⟨id, defect, ⟨⟩⟩
        · split <;> rintro ⟨id, defect, ⟨⟩⟩
      · exact htext

/-! ## Accesses -/

section

variable {store : Store} {id : StatementId} {access : Access} {rest : List Access}

theorem not_isCorrupt_readSlot {var : VariableId} (hvar : var < store.vars.size) (index : Nat) :
    ¬IsCorrupt (readSlot store id var index) := by
  unfold readSlot
  rw [Store.get?, Array.getElem?_eq_getElem hvar]
  dsimp only
  split <;> rintro ⟨id, defect, ⟨⟩⟩

theorem not_isCorrupt_indexOf {index : Option Operand}
    (h : ∀ operand, index = some operand → operand.Within store.vars.size) :
    ¬IsCorrupt (indexOf store id index) := by
  cases index with
  | none => exact not_isCorrupt_ok 0
  | some operand =>
    have hoperand : ¬IsCorrupt (readOperand store id operand) := by
      rcases operand with var | value
      · exact not_isCorrupt_readSlot (h _ rfl) 0
      · exact not_isCorrupt_ok value
    refine mt (isCorrupt_bind_left fun value => ?_).mp hoperand
    split <;> rintro ⟨id, defect, ⟨⟩⟩

/-- Reading finds a statement corrupt exactly at an element of a constant. -/
theorem isCorrupt_read (h : access.Within store.vars.size) :
    IsCorrupt (read store id access) ↔
      access.IndexesConstant ∧ ∃ index, indexOf store id access.index = .ok index := by
  have hindex := @not_isCorrupt_indexOf store id _ h.index
  obtain ⟨base, index⟩ := access
  rw [read, isCorrupt_bind, or_iff_right hindex]
  dsimp only at hindex ⊢
  rcases base with var | value
  · refine iff_of_false ?_ ?_
    · rintro ⟨slot, -, hslot⟩
      exact not_isCorrupt_readSlot h.base slot hslot
    · rintro ⟨⟨value, operand, ⟨⟩⟩, -⟩
  · cases index with
    | none =>
      refine iff_of_false ?_ ?_
      · rintro ⟨slot, -, hslot⟩
        exact not_isCorrupt_ok value hslot
      · rintro ⟨⟨value, operand, ⟨⟩⟩, -⟩
    | some operand =>
      constructor
      · rintro ⟨slot, hslot, -⟩
        exact ⟨⟨value, operand, rfl⟩, slot, hslot⟩
      · rintro ⟨-, slot, hslot⟩
        exact ⟨slot, hslot, id, .indexedConstant, rfl⟩

theorem not_readsConstant_nil : ¬ReadsConstant store id [] := by
  rintro ⟨front, access, back, heq, -⟩
  simp at heq

theorem readsConstant_cons (h : access.Within store.vars.size) :
    ReadsConstant store id (access :: rest) ↔ IsCorrupt (read store id access) ∨
      ∃ value, read store id access = .ok value ∧ ReadsConstant store id rest := by
  rw [isCorrupt_read h]
  constructor
  · rintro ⟨front, other, back, heq, hfront, hconstant⟩
    cases front with
    | nil =>
      obtain ⟨rfl, -⟩ := List.cons.inj heq
      exact .inl hconstant
    | cons first front =>
      obtain ⟨rfl, hrest⟩ := List.cons.inj heq
      obtain ⟨value, hvalue⟩ := hfront _ (.head _)
      exact .inr ⟨value, hvalue, front, other, back, hrest,
        fun before hbefore => hfront before (.tail _ hbefore), hconstant⟩
  · rintro (hconstant | ⟨value, hvalue, front, other, back, rfl, hfront, hconstant⟩)
    · exact ⟨[], access, rest, rfl, fun _ hmem => absurd hmem List.not_mem_nil, hconstant⟩
    · exact ⟨access :: front, other, back, rfl,
        List.forall_mem_cons.mpr ⟨⟨value, hvalue⟩, hfront⟩, hconstant⟩

theorem isCorrupt_read_bind {α : Type} {next : Value → Except ExecutionError α}
    (h : access.Within store.vars.size)
    (hnext : ∀ value, IsCorrupt (next value) ↔ ReadsConstant store id rest) :
    IsCorrupt (read store id access >>= next) ↔ ReadsConstant store id (access :: rest) := by
  rw [isCorrupt_bind, readsConstant_cons h]
  simp only [hnext]

theorem isCorrupt_read_single (h : access.Within store.vars.size) :
    IsCorrupt (read store id access) ↔ ReadsConstant store id [access] := by
  rw [readsConstant_cons h]
  exact (or_iff_left fun ⟨_, _, hrest⟩ => not_readsConstant_nil hrest).symm

theorem isCorrupt_read_last {α : Type} {next : Value → Except ExecutionError α}
    (h : access.Within store.vars.size) (hnext : ∀ value, ¬IsCorrupt (next value)) :
    IsCorrupt (read store id access >>= next) ↔ ReadsConstant store id [access] :=
  (isCorrupt_bind_left hnext).trans (isCorrupt_read_single h)

theorem not_isCorrupt_write (h : access.Within store.vars.size) (hvar : access.variableId?.isSome)
    (value : Value) : ¬IsCorrupt (write store id access value) := by
  obtain ⟨base, index⟩ := access
  rcases base with var | constant
  · rw [write, isCorrupt_bind, or_iff_right (not_isCorrupt_indexOf h.index)]
    rintro ⟨slot, -, hslot⟩
    dsimp only at hslot
    split at hslot
    · exact not_isCorrupt_ok _ hslot
    · obtain ⟨_, _, ⟨⟩⟩ := hslot
  · cases hvar

theorem size_vars_write {value : Value} {after : Store}
    (h : write store id access value = .ok after) : after.vars.size = store.vars.size := by
  obtain ⟨slot, -, hslot⟩ := bind_eq_ok.mp h
  split at hslot
  · cases hslot
  · split at hslot
    · next hset =>
      obtain rfl := Except.ok.inj hslot
      exact (Store.size_vars_eq_of_shape (Store.shape_setValue? hset)).symm
    · cases hslot

end

/-! ## Statements -/

variable {program : Program} {store after : Store} {id : StatementId}

theorem SelfContained.mono (h : program.SelfContained store)
    (hsize : store.vars.size ≤ after.vars.size) : program.SelfContained after where
  entry := h.entry
  next := h.next
  targets := h.targets
  complete := h.complete
  within statement hstatement access haccess :=
    Assembly.kept_within.mono hsize (h.within statement hstatement access haccess)

theorem isCorrupt_assigned {left : Access} {right : Option Access}
    {operator : Option ArithmeticOp} (hleft : left.Within store.vars.size)
    (hright : ∀ access ∈ right, access.Within store.vars.size)
    (hcomplete : operator.isSome → right.isSome) :
    IsCorrupt (assigned store id left right operator) ↔
      ReadsConstant store id (left :: if operator.isSome then right.toList else []) := by
  unfold assigned
  cases operator with
  | none => exact isCorrupt_read_single hleft
  | some operator =>
    obtain ⟨second, rfl⟩ := Option.isSome_iff_exists.mp (hcomplete rfl)
    refine isCorrupt_read_bind hleft fun leftValue => ?_
    exact isCorrupt_read_last (hright second rfl) fun rightValue => not_isCorrupt_apply _ _ _ _

theorem isCorrupt_comparisonHolds {left right : Access} {relation : Relation}
    (hleft : left.Within store.vars.size) (hright : right.Within store.vars.size) :
    IsCorrupt (comparisonHolds store id left right relation) ↔
      ReadsConstant store id [left, right] := by
  refine isCorrupt_read_bind hleft fun leftValue => isCorrupt_read_last hright fun rightValue => ?_
  split <;> rintro ⟨id, defect, ⟨⟩⟩

/-- **Where nothing is missing, a statement is corrupt exactly if it reads an element of a
constant.** -/
theorem step_isCorrupt_iff (h : program.SelfContained store)
    (hid : id < program.statements.size) :
    IsCorrupt (program.step store id) ↔ program.ReadsConstantAt store id := by
  have hfound : program.statements[id]? = some program.statements[id] :=
    Array.getElem?_eq_getElem hid
  generalize program.statements[id] = statement at hfound
  have hmem := Array.mem_of_getElem? hfound
  have hcomplete := h.complete statement hmem
  have hwithin := h.within statement hmem
  have htargets := h.targets statement hmem
  have hat : program.ReadsConstantAt store id ↔
      ReadsConstant store id statement.action.reads := by
    unfold ReadsConstantAt
    simp [hfound]
  rw [hat]
  unfold step
  rw [hfound]
  obtain ⟨action, next⟩ := statement
  cases action with
  | skip => exact iff_of_false (not_isCorrupt_ok _) not_readsConstant_nil
  | print access =>
    obtain ⟨access, rfl⟩ := Option.isSome_iff_exists.mp hcomplete
    exact isCorrupt_read_last (hwithin access (.head _)) fun value => not_isCorrupt_ok _
  | assign target left right operator =>
    obtain ⟨htarget, hleft, hright⟩ := hcomplete
    obtain ⟨left, rfl⟩ := Option.isSome_iff_exists.mp hleft
    cases target with
    | none => cases htarget
    | some target =>
      have hrights : ∀ access ∈ right, access.Within store.vars.size := fun access haccess =>
        hwithin access (by simp [Action.accesses, Option.mem_def.mp haccess])
      have hassigned := @isCorrupt_assigned store id _ _ _
        (hwithin left (by simp [Action.accesses])) hrights hright
      show IsCorrupt (assigned store id left right operator >>= _) ↔ _
      refine Iff.trans (isCorrupt_bind_left fun value => ?_) hassigned
      have hwrite := @not_isCorrupt_write store id _
        (hwithin target (by simp [Action.accesses])) htarget value
      exact mt (isCorrupt_bind_left fun _ => not_isCorrupt_ok _).mp hwrite
  | branch left right relation onTrue onFalse =>
    obtain ⟨hleft, hright, hrelation⟩ := hcomplete
    obtain ⟨left, rfl⟩ := Option.isSome_iff_exists.mp hleft
    obtain ⟨right, rfl⟩ := Option.isSome_iff_exists.mp hright
    obtain ⟨relation, rfl⟩ := Option.isSome_iff_exists.mp hrelation
    obtain ⟨onTrue, rfl, -⟩ := htargets onTrue (by simp [Action.targets])
    obtain ⟨onFalse, rfl, -⟩ := htargets onFalse (by simp [Action.targets])
    show IsCorrupt (comparisonHolds store id left right relation >>= _) ↔ _
    refine Iff.trans (isCorrupt_bind_left fun _ => not_isCorrupt_ok _) ?_
    exact isCorrupt_comparisonHolds (hwithin left (by simp [Action.accesses]))
      (hwithin right (by simp [Action.accesses]))
  | goto target =>
    obtain ⟨target, rfl, -⟩ := htargets target (.head _)
    exact iff_of_false (not_isCorrupt_ok _) not_readsConstant_nil
  | call function argument =>
    dsimp only [Action.reads, demand, bind, Except.bind]
    cases hfunction : Builtin.ofName? function with
    | none =>
      refine iff_of_false ?_ not_readsConstant_nil
      rintro ⟨_, _, ⟨⟩⟩
    | some builtin =>
      cases builtin with
      | debug => exact iff_of_false (not_isCorrupt_ok _) not_readsConstant_nil
      | print =>
        cases argument with
        | none => exact iff_of_false (not_isCorrupt_ok _) not_readsConstant_nil
        | some access =>
          exact isCorrupt_read_last (hwithin access (.head _)) fun value => not_isCorrupt_ok _

/-! ## Runs -/

theorem size_vars_step {effect : Effect} (h : program.step store id = .ok effect) :
    effect.store.vars.size = store.vars.size := by
  obtain ⟨-, -, -, hsame | ⟨access, value, hwrite⟩⟩ := step_eq_ok h
  · rw [hsame]
  · exact size_vars_write hwrite

theorem SelfContained.next_lt (h : program.SelfContained store) {effect : Effect}
    (hstep : program.step store id = .ok effect) :
    ∀ next ∈ effect.next, next < program.statements.size := by
  obtain ⟨statement, hstatement, hexit⟩ := next_mem_exits hstep
  have hmem := Array.mem_of_getElem? hstatement
  intro next hnext
  rw [Option.mem_def.mp hnext] at hexit
  unfold Statement.exits at hexit
  split at hexit
  · exact h.next statement hmem next (List.mem_singleton.mp hexit).symm
  · obtain ⟨target, heq, hlt⟩ := h.targets statement hmem _ hexit
    obtain rfl := Option.some.inj heq
    exact hlt

theorem isCorrupt_runFrom {limit steps : Nat} {place : Option StatementId}
    {output : Array String} (h : program.SelfContained store)
    (hplace : ∀ id ∈ place, id < program.statements.size) :
    IsCorrupt (program.runFrom limit steps place store output).2 ↔
      program.ComesToConstant steps place store := by
  induction steps generalizing place store output with
  | zero =>
    refine iff_of_false ?_ fun ⟨count, hcount, _⟩ => absurd hcount (Nat.not_lt_zero count)
    cases place <;> rintro ⟨_, _, ⟨⟩⟩
  | succ steps ih =>
    cases place with
    | none =>
      refine iff_of_false (not_isCorrupt_ok _) ?_
      rintro ⟨count, -, id, after, hcomes, -⟩
      cases hcomes
    | some id =>
      rw [ComesToConstant, exists_comes_succ, ← step_isCorrupt_iff h (hplace id rfl), runFrom]
      cases hstep : program.step store id with
      | error error => simp [IsCorrupt]
      | ok effect =>
        have hlater : program.SelfContained effect.store :=
          h.mono (Nat.le_of_eq (size_vars_step hstep).symm)
        dsimp only
        rw [ih hlater (h.next_lt hstep)]
        simp [IsCorrupt, ComesToConstant]

/-! ## Trees -/

section

open Assembly

theorem kept_not_indexesConstant : Kept fun _ access => ¬access.IndexesConstant where
  mono _ h := h
  ofVariable _ := by rintro ⟨value, index, ⟨⟩⟩
  ofConstant _ _ := by rintro ⟨value, index, ⟨⟩⟩

theorem indexes_of_indexesVariable {array : String} {node : Tree}
    (h : node.IndexesVariable array) :
    Indexes (fun _ access => ¬access.IndexesConstant) array node := by
  intro hsymbol before order base after hmakes count operand _ _
  have hvariable := h hsymbol before order base after hmakes
  rintro ⟨value, index, heq⟩
  have hbase : base.base = .constant value := congrArg Access.base heq
  simp [Access.variableId?, hbase] at hvariable

theorem indexesVariable_of_word {array symbol name : String} {token : Token} {node : Tree}
    {line : Nat} {rest : List Tree}
    (hchildren : node.children = .leaf symbol (some token) line :: rest)
    (hword : token.lexeme = .word name) : node.IndexesVariable array := by
  intro _ before order base after hmakes
  rw [hchildren, expressionAt, Tree.leaf, expression] at hmakes
  obtain ⟨access, between, hleaf, hpure⟩ := makes_bind.mp hmakes
  obtain ⟨heq, -⟩ := makes_pure.mp hpure
  obtain rfl : some base = access := congrArg Prod.snd heq
  simp only [Option.map_some, hword, leafAccess] at hleaf
  rcases makes_ite.mp hleaf with ⟨-, hname⟩ | ⟨-, hnone⟩
  · obtain ⟨id, last, -, hsome⟩ := makes_bind.mp hname
    obtain ⟨hbase, -⟩ := makes_pure.mp hsome
    obtain rfl := Option.some.inj hbase
    rfl
  · obtain ⟨hbase, -⟩ := makes_pure.mp hnone
    cases hbase

end

/-- **A program that a tree becomes is corrupt exactly if its run comes to an element of a
constant**, and never if every array in the tree is a variable. -/
theorem isCorrupt_execute_iff {names : StatementNames} {tree : Tree} {store made : Store}
    {program : Program} (hstore : store.Reachable)
    (h : ofTree names tree store = (.ok program, made)) :
    (∀ limit, IsCorrupt (program.execute made limit).2 ↔
      program.ComesToConstant limit program.entry made) ∧
    (tree.Everywhere (Tree.IndexesVariable names.array) →
      ∀ limit, ¬IsCorrupt (program.execute made limit).2) := by
  have hself := selfContained_of_ofTree hstore h
  have hexecute : ∀ limit, IsCorrupt (program.execute made limit).2 ↔
      program.ComesToConstant limit program.entry made := by
    intro limit
    have hentry : ∀ id ∈ program.entry, id < program.statements.size := by
      obtain ⟨first, hfirst, hlt⟩ := hself.entry
      intro id hid
      obtain rfl := Option.some.inj (hfirst.symm.trans hid)
      exact hlt
    have hrun := @isCorrupt_runFrom program made limit limit program.entry #[] hself hentry
    rw [← hrun]
    show IsCorrupt (Except.map _ (program.runFrom limit limit program.entry made #[]).2) ↔ _
    cases (program.runFrom limit limit program.entry made #[]).2 <;> simp [Except.map, IsCorrupt]
  refine ⟨hexecute, fun htree limit hcorrupt => ?_⟩
  obtain ⟨count, -, id, after, -, statement, hstatement, hreads⟩ := (hexecute limit).mp hcorrupt
  obtain ⟨front, access, back, heq, -, hconstant, -⟩ := hreads
  have hfurnished := furnished_of_ofTree kept_not_indexesConstant
    (htree.mono fun _ => indexes_of_indexesVariable) hstore h statement
    (Array.mem_of_getElem? hstatement)
  refine hfurnished.known access (statement.action.reads_subset_accesses ?_) hconstant
  rw [heq]
  exact List.mem_append_right _ List.mem_cons_self

/-- The statement that prints the first element of what a token stands for. -/
def printElement (symbol : String) (lexeme : Lexeme) : Tree :=
  let node (symbol : String) (children : List Tree) : Tree :=
    ⟨symbol, none, .complete, true, 1, children⟩
  let leaf (symbol : String) (lexeme : Lexeme) : Tree := .leaf symbol (some ⟨lexeme, ⟨1, 0⟩⟩) 1
  node "print_stmt" [leaf "print" (.word "print"),
    node "array" [leaf symbol lexeme, leaf "[" (.mark "["), leaf "NUM" (.integer 0),
      leaf "]" (.mark "]")]]

/-- An element of a variable can be printed. -/
theorem isCorrupt_execute_iff_variable :
    ∃ program made, Store.Reachable {} ∧
      ofTree {} (printElement "ID" (.word "x")) {} = (.ok program, made) ∧
        ∀ limit, ¬IsCorrupt (program.execute made limit).2 := by
  have hok : (ofTree {} (printElement "ID" (.word "x")) {}).1.isOk = true := by decide +kernel
  have hleaf : ∀ symbol lexeme, symbol ≠ "array" →
      (Tree.leaf symbol (some ⟨lexeme, ⟨1, 0⟩⟩) 1).Everywhere (Tree.IndexesVariable "array") :=
    fun symbol lexeme hsymbol =>
      .intro (fun heq => absurd heq hsymbol) fun _ hmem => absurd hmem List.not_mem_nil
  have htree : (printElement "ID" (.word "x")).Everywhere (Tree.IndexesVariable "array") := by
    refine .intro (fun heq => absurd heq (by decide)) fun child hchild => ?_
    rcases List.mem_pair.mp hchild with rfl | rfl
    · exact hleaf _ _ (by decide)
    · refine .intro (indexesVariable_of_word rfl rfl) fun other hother => ?_
      simp only [List.mem_cons, List.not_mem_nil, or_false] at hother
      rcases hother with rfl | rfl | rfl | rfl <;> exact hleaf _ _ (by decide)
  rcases h : ofTree {} (printElement "ID" (.word "x")) {} with ⟨error | program, made⟩
  · rw [h] at hok
    exact absurd hok Bool.false_ne_true
  · exact ⟨program, made, .refl, rfl, (isCorrupt_execute_iff .refl h).2 htree⟩

/-- An element of the number three becomes a program too, and that is corrupt. -/
theorem isCorrupt_constant :
    ∃ program made, ofTree {} (printElement "NUM" (.integer 3)) {} = (.ok program, made) ∧
      (program.execute made 1).2 = .error (.corrupt 0 .indexedConstant) := by
  have hrun : ((ofTree {} (printElement "NUM" (.integer 3)) {}).1.toOption.map fun program =>
      (program.execute (ofTree {} (printElement "NUM" (.integer 3)) {}).2 1).2) =
        some (.error (.corrupt 0 .indexedConstant)) := by decide +kernel
  rcases h : ofTree {} (printElement "NUM" (.integer 3)) {} with ⟨error | program, made⟩
  · rw [h] at hrun
    cases hrun
  · rw [h] at hrun
    exact ⟨program, made, rfl, Option.some.inj hrun⟩

end Program

end LineGrammar
