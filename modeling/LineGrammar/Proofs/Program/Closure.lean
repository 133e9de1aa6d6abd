import LineGrammar.Proofs.Program.Furnishing
import LineGrammar.Proofs.Program.Guards

/-!
# Closed programs

In a program that a tree becomes nothing is missing that running it asks for, and nothing leads out
of it: neither a jump, nor a successor, nor a variable. Its successors string all of its statements
together, each of them once (`Program.closed_of_ofTree`).
-/

namespace LineGrammar

/-- If it is a variable, the operand is among the first so many. -/
def Operand.Within (count : Nat) : Operand → Prop
  | .variable id => id < count
  | .constant _ => True

/-- The access uses only variables that are among the first so many. -/
structure Access.Within (count : Nat) (access : Access) : Prop where
  base : access.base.Within count
  index : ∀ operand, access.index = some operand → operand.Within count

theorem Operand.Within.mono {count more : Nat} (hmore : count ≤ more) {operand : Operand}
    (h : operand.Within count) : operand.Within more := by
  rcases operand with id | value
  · exact Nat.lt_of_lt_of_le h hmore
  · trivial

namespace Assembly

theorem kept_within : Kept Access.Within where
  mono hmore h := ⟨h.base.mono hmore, fun operand hoperand => (h.index operand hoperand).mono hmore⟩
  ofVariable hlt := ⟨hlt, fun _ hnone => by cases hnone⟩
  ofConstant _ _ := ⟨trivial, fun _ hnone => by cases hnone⟩

theorem indexes_within (array : String) (node : Tree) : Indexes Access.Within array node := by
  intro _ _ _ _ _ _ count operand hbase hoperand
  refine ⟨hbase.base, ?_⟩
  rintro _ ⟨⟩
  exact hoperand.base

end Assembly

namespace Program

/-- From this place the successors lead through these statements, and end. -/
inductive Follows (program : Program) : Option StatementId → List StatementId → Prop
  | stop : Follows program none []
  | go {id : StatementId} {statement : Statement} {rest : List StatementId}
    (hstatement : program.statements[id]? = some statement)
    (hrest : Follows program statement.next rest) : Follows program (some id) (id :: rest)

/-- Nothing that running the program on the store asks for is missing. -/
structure SelfContained (program : Program) (store : Store) : Prop where
  entry : ∃ id, program.entry = some id ∧ id < program.statements.size
  next : ∀ statement ∈ program.statements, ∀ id, statement.next = some id →
    id < program.statements.size
  targets : ∀ statement ∈ program.statements, ∀ target ∈ statement.action.targets,
    ∃ id, target = some id ∧ id < program.statements.size
  complete : ∀ statement ∈ program.statements, statement.action.Complete
  within : ∀ statement ∈ program.statements, ∀ access ∈ statement.action.accesses,
    access.Within store.vars.size

/-- Besides, the successors lead from the entry to each statement exactly once. -/
structure Closed (program : Program) (store : Store) : Prop
    extends SelfContained program store where
  follows : ∃ order, program.Follows program.entry order ∧
    order.Perm (List.range program.statements.size)

theorem size_chain (table : Array Statement) (order : List StatementId) :
    (chain table order).size = table.size := by
  have hset : ∀ (table : Array Statement) id next, (setNext table id next).size = table.size :=
    fun _ _ _ => Array.size_modify
  induction order generalizing table with
  | nil => rfl
  | cons id rest ih =>
    cases rest with
    | nil => exact hset table id none
    | cons next rest => rw [chain, ih, hset]

theorem follows_link {table : Array Statement} {order : List StatementId} (hnodup : order.Nodup)
    (hwithin : ∀ id ∈ order, id < table.size) :
    (link table order).Follows (link table order).entry order := by
  suffices h : ∀ front back, order = front ++ back →
      (link table order).Follows back.head? back from h [] order rfl
  intro front back heq
  induction back generalizing front with
  | nil => exact .stop
  | cons id back ih =>
    subst heq
    have hid : id < table.size := hwithin id (by simp)
    have haction : actionAt? table id = some table[id].action := by
      rw [actionAt?, Array.getElem?_eq_getElem hid]
      rfl
    refine .go (getElem?_link hnodup haction) (ih (front ++ [id]) (by simp))

/-- An order of different statements that is as long as there are statements has all of them. -/
theorem perm_range {order : List StatementId} {size : Nat} (hnodup : order.Nodup)
    (hwithin : ∀ id ∈ order, id < size) (hlength : size = order.length) :
    order.Perm (List.range size) := by
  refine (List.subperm_of_subset hnodup fun id hid => ?_).perm_of_length_le ?_
  · exact List.mem_range.mpr (hwithin id hid)
  · rw [List.length_range]
    exact Nat.le_of_eq hlength

theorem mem_statements_link {table : Array Statement} {order : List StatementId}
    {statement : Statement} (hperm : order.Perm (List.range table.size))
    (h : statement ∈ (link table order).statements) :
    ∃ id front back, order = front ++ id :: back ∧ statement.next = back.head? ∧
      actionAt? table id = some statement.action := by
  obtain ⟨id, hid⟩ := Array.mem_iff_getElem?.mp h
  have hlt : id < table.size := by
    have hsize := (Array.getElem?_eq_some_iff.mp hid).1
    rwa [link, size_chain] at hsize
  obtain ⟨front, back, heq⟩ := List.append_of_mem
    (hperm.mem_iff.mpr (List.mem_range.mpr hlt))
  have haction : actionAt? table id = some statement.action := by
    rw [← actionAt?_chain table order id]
    exact congrArg (Option.map Statement.action) hid
  have hlinked := getElem?_link (heq ▸ hperm.nodup_iff.mpr List.nodup_range) haction
  rw [← heq] at hlinked
  refine ⟨id, front, back, heq, ?_, haction⟩
  exact congrArg Statement.next (Option.some.inj (hid.symm.trans hlinked))

section

open Assembly

variable {names : StatementNames} {tree : Tree} {store made : Store} {program : Program}

/-- A program that a tree becomes links the statements that have been emitted, in an order of all of
them. -/
theorem exists_link (h : ofTree names tree store = (.ok program, made)) :
    ∃ block after, Makes (blockOf names tree) { store } block after ∧ made = after.store ∧
      program = link after.statements block.order := by
  unfold ofTree at h
  rcases hmakes : (blockOf names tree).run.run { store } with ⟨error | block, after⟩
  · rw [hmakes] at h
    simp [Except.map] at h
  · rw [hmakes] at h
    obtain ⟨hprogram, hstore⟩ := Prod.mk.inj h
    exact ⟨block, after, hmakes, hstore.symm, (Except.ok.inj hprogram).symm⟩

theorem equipped_of_makes {known : Nat → Access → Prop} (hkept : Kept known)
    (htree : tree.Everywhere (Indexes known names.array)) (hstore : store.Reachable) {block : Block}
    {after : Assembly} (hmakes : Makes (blockOf names tree) { store } block after) :
    Equipped known after ∧ block.order.Perm (List.range after.statements.size) := by
  have hempty : Equipped known { store } :=
    ⟨hstore.sound, fun _ hmem => absurd hmem (Array.not_mem_empty _)⟩
  obtain ⟨hequipped, -, emitted, hsize, hemitted⟩ :=
    Furnishes.blockOf hkept htree _ _ _ hempty (Nat.le_refl _) hmakes
  have hoccupies := (places_blockOf hmakes).1.occupies
  refine ⟨hequipped, perm_range hoccupies.nodup (fun id hid => (hoccupies.within id hid).2) ?_⟩
  rw [hsize, hemitted]
  exact Nat.zero_add _

theorem furnished_of_ofTree {known : Nat → Access → Prop} (hkept : Kept known)
    (htree : tree.Everywhere (Indexes known names.array)) (hstore : store.Reachable)
    (h : ofTree names tree store = (.ok program, made)) :
    ∀ statement ∈ program.statements, statement.action.Furnished (known made.vars.size) := by
  obtain ⟨block, after, hmakes, rfl, rfl⟩ := exists_link h
  obtain ⟨hequipped, hperm⟩ := equipped_of_makes hkept htree hstore hmakes
  intro statement hstatement
  obtain ⟨id, -, -, -, -, haction⟩ := mem_statements_link hperm hstatement
  obtain ⟨found, hfound, heq⟩ := Option.map_eq_some_iff.mp haction
  exact heq ▸ hequipped.furnished found (Array.mem_of_getElem? hfound)

theorem selfContained_of_ofTree (hstore : store.Reachable)
    (h : ofTree names tree store = (.ok program, made)) : program.SelfContained made := by
  have htree := Tree.Everywhere.of_forall (indexes_within names.array) tree
  have hfurnished := furnished_of_ofTree kept_within htree hstore h
  obtain ⟨block, after, hmakes, rfl, rfl⟩ := exists_link h
  obtain ⟨hplaces, hne⟩ := places_blockOf hmakes
  obtain ⟨-, hperm⟩ := equipped_of_makes kept_within htree hstore hmakes
  have hwithin : ∀ id ∈ block.order, id < (link after.statements block.order).statements.size := by
    intro id hid
    rw [link, size_chain]
    exact (hplaces.occupies.within id hid).2
  constructor
  · obtain ⟨id, rest, heq⟩ := List.exists_cons_of_ne_nil hne
    exact ⟨id, congrArg List.head? heq, hwithin id (heq ▸ List.mem_cons_self)⟩
  · intro statement hstatement id hnext
    obtain ⟨_, front, back, heq, hsame, -⟩ := mem_statements_link hperm hstatement
    refine hwithin id (heq ▸ List.mem_append_right _ (.tail _ ?_))
    exact List.mem_of_head? (hsame.symm.trans hnext)
  · intro statement hstatement target htarget
    obtain ⟨id, front, back, heq, -, haction⟩ := mem_statements_link hperm hstatement
    obtain ⟨action, hfound, hleads⟩ := hplaces.laid.leads id (heq ▸ by simp)
    obtain rfl := Option.some.inj (hfound.symm.trans haction)
    obtain ⟨other, hother, rfl⟩ := hleads target htarget
    exact ⟨other, rfl, hwithin other hother⟩
  · exact fun statement hstatement => (hfurnished statement hstatement).complete
  · exact fun statement hstatement => (hfurnished statement hstatement).known

/-- **In a program that a tree becomes everything is there and linked**, whatever the tree, the
store and the names of statements. -/
theorem closed_of_ofTree (hstore : store.Reachable)
    (h : ofTree names tree store = (.ok program, made)) : program.Closed made := by
  refine ⟨selfContained_of_ofTree hstore h, ?_⟩
  obtain ⟨block, after, hmakes, rfl, rfl⟩ := exists_link h
  have htree := Tree.Everywhere.of_forall (indexes_within names.array) tree
  obtain ⟨-, hperm⟩ := equipped_of_makes kept_within htree hstore hmakes
  have hoccupies := (places_blockOf hmakes).1.occupies
  refine ⟨block.order, ?_, ?_⟩
  · exact follows_link hoccupies.nodup fun id hid => (hoccupies.within id hid).2
  · rw [link, size_chain]
    exact hperm

end

/-- A loop that tests last around a loop that tests first around a conditional. -/
def nestedLoops : Tree :=
  let node (symbol : String) (children : List Tree) : Tree :=
    ⟨symbol, none, .incomplete, false, 1, children⟩
  let leaf (symbol : String) (lexeme : Lexeme) : Tree := .leaf symbol (some ⟨lexeme, ⟨1, 0⟩⟩) 1
  let condition : Tree :=
    node "condition" [leaf "ID" (.word "x"), leaf "<" (.mark "<"), leaf "INT" (.integer 2)]
  node "repeat_stmt" [node "body" [node "while_stmt" [condition, node "body" [closedConditional]]],
    condition]

theorem closed_of_ofTree_nestedLoops :
    ∃ program made, Store.Reachable {} ∧ ofTree {} nestedLoops {} = (.ok program, made) ∧
      program.Closed made := by
  have hok : (ofTree {} nestedLoops {}).1.isOk = true := by decide +kernel
  rcases h : ofTree {} nestedLoops {} with ⟨error | program, made⟩
  · rw [h] at hok
    exact absurd hok Bool.false_ne_true
  · exact ⟨program, made, .refl, rfl, closed_of_ofTree .refl h⟩

end Program

end LineGrammar
