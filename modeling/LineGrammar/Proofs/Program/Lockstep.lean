import LineGrammar.Program.OfTree
import LineGrammar.Proofs.Declaration.Blocks
import LineGrammar.Proofs.Program.Assembling
import LineGrammar.Proofs.Store.Veiling

/-!
# Assembling with fewer names

Assembling looks a name up only where a statement uses it. So on two stores of which one has
forgotten some names, a tree that uses none of these becomes the same statements, or fails alike.
The variables of the statements all have names in both stores.
-/

namespace LineGrammar

open Assembly Store

/-- The variables that have names. -/
abbrev NameTable := List (String × VariableId)

/-- If it is a variable, the operand has a name. -/
def Operand.Named (table : NameTable) : Operand → Prop
  | .variable id => ∃ name, (name, id) ∈ table
  | .constant _ => True

structure Access.Named (table : NameTable) (access : Access) : Prop where
  base : access.base.Named table
  index : ∀ operand, access.index = some operand → operand.Named table

def Action.accesses : Action → List Access
  | skip => []
  | print access => access.toList
  | assign target left right _ => target.toList ++ left.toList ++ right.toList
  | branch left right _ _ _ => left.toList ++ right.toList
  | goto _ => []
  | call _ argument => argument.toList

/-- The action reads and writes variables that have names, and does not print all variables. -/
structure Action.Named (table : NameTable) (action : Action) : Prop where
  accesses : ∀ access ∈ action.accesses, access.Named table
  debug : ∀ argument, action ≠ .call "debug" argument

/-- Both sides of the comparison are in variables that have names. -/
structure Assembly.Comparison.Named (table : NameTable) (test : Comparison) : Prop where
  left : test.left.Named table
  right : test.right.Named table

/-- None of the names is that of an identifier in the tree. -/
def Tree.Avoids (gone : List String) (tree : Tree) : Prop :=
  ∀ leaf ∈ tree.leaves, leaf.symbol = "ID" → ∀ name,
    leaf.token.map Token.lexeme = some (.word name) → name ∉ gone

namespace Assembly

/-- The same statements have been assembled on stores of which the first has forgotten names. -/
structure Alike (gone : List String) (first second : Assembly) : Prop where
  store : Veils gone first.store second.store
  statements : first.statements = second.statements
  named : ∀ statement ∈ first.statements, statement.action.Named first.store.names

/-- Two ends of assembling: the same error, or the same result, of which something is known. -/
inductive EndAlike {α : Type} (gone : List String) (table : NameTable)
    (known : NameTable → α → Prop) :
    Except CompileError α × Assembly → Except CompileError α × Assembly → Prop
  | fails {error : CompileError} {first second : Assembly} :
    EndAlike gone table known (.error error, first) (.error error, second)
  | ends {value : α} {first second : Assembly} (h : Alike gone first second)
    (htable : table ⊆ first.store.names) (hknown : known first.store.names value) :
    EndAlike gone table known (.ok value, first) (.ok value, second)

/-- Where at least these variables have names, assembling goes on alike. -/
def Lockstep {α : Type} (gone : List String) (table : NameTable) (known : NameTable → α → Prop)
    (assembling : Assembling α) : Prop :=
  ∀ first second, Alike gone first second → table ⊆ first.store.names →
    EndAlike gone table known (assembling.run.run first) (assembling.run.run second)

end Assembly

section

variable {table more : NameTable}

theorem Operand.Named.mono {operand : Operand} (h : operand.Named table) (hmore : table ⊆ more) :
    operand.Named more := by
  rcases operand with id | value
  · obtain ⟨name, hmem⟩ := h
    exact ⟨name, hmore hmem⟩
  · trivial

theorem Access.Named.mono {access : Access} (h : access.Named table) (hmore : table ⊆ more) :
    access.Named more :=
  ⟨h.base.mono hmore, fun operand hoperand => (h.index operand hoperand).mono hmore⟩

theorem Action.Named.mono {action : Action} (h : action.Named table) (hmore : table ⊆ more) :
    action.Named more :=
  ⟨fun access haccess => (h.accesses access haccess).mono hmore, h.debug⟩

end

theorem Tree.leavesOfAll_eq (trees : List Tree) : leavesOfAll trees = trees.flatMap leaves := by
  induction trees with
  | nil => rfl
  | cons tree trees ih => rw [leavesOfAll, ih, List.flatMap_cons]

theorem Tree.Avoids.child {tree : Tree} {gone : List String} (h : tree.Avoids gone) :
    ∀ child ∈ tree.children, child.Avoids gone := by
  obtain ⟨symbol, token, completion, closed, line, children⟩ := tree
  intro child (hchild : child ∈ children) leaf hleaf
  refine h leaf ?_
  rw [leaves, if_neg (by simp [List.ne_nil_of_mem hchild]), leavesOfAll_eq]
  exact List.mem_flatMap.mpr ⟨child, hchild, hleaf⟩

theorem Assembly.Comparison.Named.mono {table more : NameTable} {test : Comparison}
    (h : test.Named table) (hmore : table ⊆ more) : test.Named more :=
  ⟨h.left.mono hmore, h.right.mono hmore⟩

theorem Assembly.EndAlike.weaken {α : Type} {gone : List String} {table more : NameTable}
    {known : NameTable → α → Prop} {first second : Except CompileError α × Assembly}
    (h : EndAlike gone more known first second) (hmore : table ⊆ more) :
    EndAlike gone table known first second := by
  cases h with
  | fails => exact .fails
  | ends h htable hknown => exact .ends h (List.Subset.trans hmore htable) hknown

namespace Assembly.Lockstep

variable {α β : Type} {gone : List String} {table : NameTable} {known : NameTable → α → Prop}
  {knownNext : NameTable → β → Prop}

theorem pure {value : α} (h : ∀ more, table ⊆ more → known more value) :
    Lockstep gone table known (Pure.pure value) :=
  fun _ _ halike htable => .ends halike htable (h _ htable)

theorem throw (error : CompileError) :
    Lockstep gone table known (MonadExcept.throw error : Assembling α) :=
  fun _ _ _ _ => .fails

theorem bind {assembling : Assembling α} {next : α → Assembling β}
    (h : Lockstep gone table known assembling)
    (hnext : ∀ value more, table ⊆ more → known more value →
      Lockstep gone more knownNext (next value)) :
    Lockstep gone table knownNext (assembling >>= next) := by
  intro first second halike htable
  rw [run_run_bind, run_run_bind]
  have hends := h first second halike htable
  generalize assembling.run.run first = reached at hends ⊢
  generalize assembling.run.run second = reachedOther at hends ⊢
  cases hends with
  | fails => exact .fails
  | @ends value between other hbetween hmore hknown =>
    have hlast := hnext value _ hmore hknown between other hbetween (List.Subset.refl _)
    exact hlast.weaken hmore

theorem ite {condition : Prop} [Decidable condition] {first second : Assembling α}
    (hfirst : condition → Lockstep gone table known first)
    (hsecond : ¬condition → Lockstep gone table known second) :
    Lockstep gone table known (if condition then first else second) := by
  split_ifs with h
  · exact hfirst h
  · exact hsecond h

theorem ite_throw {condition : Prop} [Decidable condition] {error : CompileError}
    {next : β → Assembling α} {rest : Assembling α} (h : Lockstep gone table known rest) :
    Lockstep gone table known
      (if condition then MonadExcept.throw error >>= next else rest) :=
  .ite (fun _ _ _ _ _ => .fails) fun _ => h

theorem get_bind {next : Assembly → Assembling α}
    (h : ∀ first second, Alike gone first second → table ⊆ first.store.names →
      EndAlike gone table known ((next first).run.run first) ((next second).run.run second)) :
    Lockstep gone table known (get >>= next) :=
  h

theorem require_bind {node : Tree} {part : StatementPart} {value : Option α}
    {next : α → Assembling β}
    (h : ∀ found, value = some found → Lockstep gone table knownNext (next found)) :
    Lockstep gone table knownNext (Assembly.require node part value >>= next) := by
  cases value with
  | none => exact fun _ _ _ _ => .fails
  | some value => exact h value rfl

/-! ## Emitting -/

theorem emit {action : Action} (h : action.Named table) :
    Lockstep gone table (fun _ _ => True) (Assembly.emit action) := by
  intro first second halike htable
  have hid : first.statements.size = second.statements.size := by rw [halike.statements]
  have hrun : ∀ assembly : Assembly, (Assembly.emit action).run.run assembly =
      (.ok assembly.statements.size,
        { assembly with statements := assembly.statements.push { action } }) := fun _ => rfl
  rw [hrun, hrun, ← hid]
  refine .ends ⟨halike.store, ?_, fun statement hstatement => ?_⟩ htable trivial
  · rw [halike.statements]
  · rcases Array.mem_push.mp hstatement with hold | rfl
    · exact halike.named statement hold
    · exact h.mono htable

theorem setAction {id : StatementId} {action : Action} (h : action.Named table) :
    Lockstep gone table (fun _ _ => True) (Assembly.setAction id action) := by
  intro first second halike htable
  have hrun : ∀ assembly : Assembly, (Assembly.setAction id action).run.run assembly =
      (.ok (), assembly.setAt id action) := fun _ => rfl
  rw [hrun, hrun]
  refine .ends ⟨halike.store, ?_, fun statement hstatement => ?_⟩ htable trivial
  · rw [setAt, setAt, halike.statements]
  · obtain ⟨index, hindex⟩ := Array.mem_iff_getElem?.mp hstatement
    have hget : (first.statements.modify id _)[index]? = some statement := hindex
    rw [Array.getElem?_modify] at hget
    split_ifs at hget
    · obtain ⟨old, -, rfl⟩ := Option.map_eq_some_iff.mp hget
      exact h.mono htable
    · exact halike.named statement (Array.mem_of_getElem? hget)

/-! ## Variables -/

theorem of_store {act : Store → Store × VariableId}
    (hact : ∀ inner outer, Veils gone inner outer → (act inner).2 = (act outer).2 ∧
      Veils gone (act inner).1 (act outer).1)
    (hnames : ∀ store, store.names ⊆ (act store).1.names)
    (hid : ∀ store, ∃ name, (name, (act store).2) ∈ (act store).1.names) :
    Lockstep gone table (fun more id => ∃ name, (name, id) ∈ more)
      (do
        let assembly ← get
        let (store, id) := act assembly.store
        set { assembly with store }
        return id) := by
  intro first second halike htable
  obtain ⟨heq, hstore⟩ := hact _ _ halike.store
  have hrun : ∀ assembly : Assembly, (do
      let assembly ← get
      let (store, id) := act assembly.store
      set { assembly with store }
      return id : Assembling VariableId).run.run assembly =
        (.ok (act assembly.store).2, { assembly with store := (act assembly.store).1 }) :=
    fun _ => rfl
  rw [hrun, hrun, ← heq]
  refine .ends ⟨hstore, halike.statements, fun statement hstatement => ?_⟩ ?_ (hid _)
  · exact (halike.named statement hstatement).mono (hnames _)
  · exact List.Subset.trans htable (hnames _)

theorem variableNamed {name : String} (hname : name ∉ gone) :
    Lockstep gone table (fun more id => ∃ name, (name, id) ∈ more)
      (Assembly.variableNamed name) := by
  unfold Assembly.variableNamed
  refine of_store (fun inner outer h => h.ensureVariable hname) (fun store => ?_) fun store =>
    ⟨name, mem_names_of_idOf? (idOf?_ensureVariable store name)⟩
  unfold ensureVariable
  split
  · exact List.Subset.refl _
  · exact List.subset_cons_self _ _

theorem temporary :
    Lockstep gone table (fun more id => ∃ name, (name, id) ∈ more) Assembly.temporary :=
  of_store (fun _ _ h => h.addTemporary) (fun _ => List.subset_cons_self _ _)
    fun _ => ⟨_, List.mem_cons_self⟩

/-! ## Expressions -/

theorem named_ofVariable {id : VariableId} (h : ∃ name, (name, id) ∈ table) :
    (Access.ofVariable id).Named table :=
  ⟨h, fun _ hindex => absurd hindex (by simp [Access.ofVariable])⟩

theorem named_ofConstant (table : NameTable) (value : Value) :
    (Access.ofConstant value).Named table :=
  ⟨trivial, fun _ hindex => absurd hindex (by simp [Access.ofConstant])⟩

theorem toTemporary {left : Access} {second : Option (ArithmeticOp × Access)}
    (hleft : left.Named table) (hsecond : ∀ right ∈ second, right.2.Named table) :
    Lockstep gone table (fun more result => result.2.Named more)
      (Assembly.toTemporary left second) := by
  unfold Assembly.toTemporary
  refine .bind .temporary fun id more hmore hid => ?_
  have haccess := named_ofVariable hid
  have haction : Action.Named more (.assign (some (.ofVariable id)) (some left)
      (second.map (·.2)) (second.map (·.1))) := by
    refine ⟨fun access hmem => ?_, fun argument => by simp⟩
    simp only [Action.accesses, List.mem_append, Option.mem_toList, Option.some_inj] at hmem
    rcases hmem with (rfl | rfl) | hright
    · exact haccess
    · exact hleft.mono hmore
    · obtain ⟨right, hsome, rfl⟩ := Option.map_eq_some_iff.mp hright
      exact (hsecond right hsome).mono hmore
  exact .bind (.emit haction) fun _ _ hlater _ => .pure fun _ hlast =>
    haccess.mono (List.Subset.trans hlater hlast)

theorem leafAccess {symbol : String} {lexeme : Option Lexeme}
    (h : symbol = "ID" → ∀ name, lexeme = some (.word name) → name ∉ gone) :
    Lockstep gone table (fun more access => ∀ found ∈ access, found.Named more)
      (Assembly.leafAccess symbol lexeme) := by
  unfold Assembly.leafAccess
  split
  · next name =>
    refine .ite (fun hsymbol => ?_) fun _ => .pure fun _ _ _ hnone => by cases hnone
    refine .bind (.variableNamed (h hsymbol name rfl)) fun id more _ hid => .pure ?_
    rintro last hlast _ ⟨⟩
    exact (named_ofVariable hid).mono hlast
  · exact .pure fun more _ found hfound => by cases hfound; exact named_ofConstant more _
  · exact .pure fun more _ found hfound => by cases hfound; exact named_ofConstant more _
  · exact .pure fun more _ found hfound => by cases hfound; exact named_ofConstant more _
  · exact .pure fun _ _ _ hnone => by cases hnone

theorem applyAll {first : Access} {others : List (ArithmeticOp × Access)}
    (hfirst : first.Named table) (hothers : ∀ other ∈ others, other.2.Named table) :
    Lockstep gone table (fun more result => result.2.Named more)
      (Assembly.applyAll first others) := by
  induction others generalizing first table with
  | nil =>
    unfold Assembly.applyAll
    exact .pure fun _ hmore => hfirst.mono hmore
  | cons second rest ih =>
    unfold Assembly.applyAll
    refine .bind (.toTemporary hfirst fun right hright => ?_) fun result more hmore hresult => ?_
    · cases hright
      exact hothers second (.head _)
    · refine .bind (ih hresult fun other hother => (hothers other (.tail _ hother)).mono hmore) ?_
      exact fun last later _ hlast => .pure fun _ hend => hlast.mono hend

theorem ofRow {line : Nat} {row : Row} (h : ∀ operand ∈ row.operands, operand.Named table) :
    Lockstep gone table (fun more result => ∀ access ∈ result.2, access.Named more)
      (Assembly.ofRow line row) := by
  unfold Assembly.ofRow
  split
  · refine .ite (fun _ => .pure fun _ _ _ hnone => by cases hnone) fun _ => .throw _
  · next first others hoperands =>
    rw [hoperands] at h
    refine .ite_throw (.bind (.applyAll (h first (.head _)) fun other hother => ?_) ?_)
    · exact h _ (.tail _ (List.of_mem_zip hother).2)
    · intro result more _ hresult
      exact .pure fun last hlast access haccess => by cases haccess; exact hresult.mono hlast

theorem indexOperand {index : Access} (h : index.Named table) :
    Lockstep gone table (fun more result => result.2.Named more)
      (Assembly.indexOperand index) := by
  unfold Assembly.indexOperand
  refine .ite (fun _ => ?_) fun _ => .pure fun _ hmore => h.base.mono hmore
  refine .bind (.toTemporary h fun _ hnone => by cases hnone) fun result more _ hresult => ?_
  exact .pure fun _ hlast => hresult.base.mono hlast

mutual

theorem expression {array : String} : ∀ {tree : Tree} {table : NameTable}, tree.Avoids gone →
    Lockstep gone table (fun more result => ∀ access ∈ result.2, access.Named more)
      (Assembly.expression array tree)
  | ⟨symbol, token, completion, closed, line, children⟩, table, h => by
    have hchildren := h.child
    unfold Assembly.expression
    refine .ite (fun hleaf => ?_) fun _ => .ite (fun _ => ?_) fun _ => ?_
    · have hself : ⟨symbol, token, completion, closed, line, children⟩ ∈
          Tree.leaves ⟨symbol, token, completion, closed, line, children⟩ := by
        rw [Tree.leaves, if_pos hleaf]
        exact List.mem_singleton_self _
      exact .bind (.leafAccess (h _ hself)) fun access more _ hknown =>
        .pure fun last hlast found hfound => (hknown found hfound).mono hlast
    · refine .bind (expressionAt fun tree htree => hchildren tree (List.mem_of_getElem? htree))
        fun base more hmore hbase => .require_bind fun name hname => .ite_throw ?_
      refine .bind (expressionAt fun tree htree => hchildren tree (List.mem_of_getElem? htree))
        fun index later hlater hindex => .require_bind fun access haccess => ?_
      refine .bind (.indexOperand (hindex access haccess)) fun copy last hlast hcopy => .pure ?_
      rintro final hfinal _ ⟨⟩
      refine ⟨((hbase name hname).base.mono hlater).mono (List.Subset.trans hlast hfinal), ?_⟩
      rintro _ ⟨⟩
      exact hcopy.mono hfinal
    · exact .bind (rowOf hchildren) fun row more _ hrow => .ofRow hrow

theorem expressionAt {array : String} : ∀ {position : Nat} {trees : List Tree}
    {table : NameTable}, (∀ tree, trees[position]? = some tree → tree.Avoids gone) →
    Lockstep gone table (fun more result => ∀ access ∈ result.2, access.Named more)
      (Assembly.expressionAt array position trees)
  | _, [], table, _ => by
    unfold Assembly.expressionAt
    exact .pure fun _ _ _ hnone => by cases hnone
  | 0, tree :: trees, table, h => by
    unfold Assembly.expressionAt
    exact expression (h tree rfl)
  | position + 1, tree :: trees, table, h => by
    unfold Assembly.expressionAt
    exact expressionAt h

theorem rowOf {array : String} : ∀ {trees : List Tree} {table : NameTable},
    (∀ tree ∈ trees, tree.Avoids gone) →
    Lockstep gone table (fun more row => ∀ operand ∈ row.operands, operand.Named more)
      (Assembly.rowOf array trees)
  | [], table, _ => by
    unfold Assembly.rowOf
    exact .pure fun _ _ _ hmem => absurd hmem List.not_mem_nil
  | tree :: trees, table, h => by
    have hrest : ∀ other ∈ trees, other.Avoids gone := fun other hother => h other (.tail _ hother)
    unfold Assembly.rowOf
    split
    · exact .bind (rowOf hrest) fun row more _ hrow => .pure fun last hlast operand hoperand =>
        (hrow operand hoperand).mono hlast
    · refine .bind (expression (h tree (.head _))) fun result more _ hresult =>
        .bind (rowOf hrest) fun row later hlater hrow => .pure fun last hlast operand hoperand => ?_
      rcases List.mem_append.mp hoperand with hfirst | hothers
      · exact (hresult operand (Option.mem_toList.mp hfirst)).mono (List.Subset.trans hlater hlast)
      · exact (hrow operand hothers).mono hlast

end

/-! ## Statements -/

variable {names : StatementNames} {node : Tree}

theorem rowValue {array : String} {line : Nat} {trees : List Tree}
    (h : ∀ tree ∈ trees, tree.Avoids gone) :
    Lockstep gone table (fun more result => ∀ access ∈ result.2, access.Named more)
      (Assembly.rowValue array line trees) := by
  unfold Assembly.rowValue
  exact .bind (rowOf h) fun row more _ hrow => .ofRow hrow

theorem assignment (h : ∀ child ∈ node.children, child.Avoids gone) :
    Lockstep gone table (fun _ _ => True) (Assembly.assignment names node) := by
  unfold Assembly.assignment
  refine .require_bind fun operator _ => .ite_throw ?_
  refine .bind (expressionAt fun tree htree => h tree (List.mem_of_getElem? htree))
    fun target more _ htarget => .require_bind fun access haccess => .ite_throw ?_
  refine .bind (rowValue fun tree htree => h tree (List.mem_of_mem_drop htree))
    fun value later hlater hvalue => .require_bind fun found hfound => ?_
  refine .bind (.emit ⟨fun other hother => ?_, fun argument => by simp⟩)
    fun _ _ _ _ => .pure fun _ _ => trivial
  simp only [Action.accesses, List.mem_append, Option.mem_toList, Option.some_inj] at hother
  rcases hother with (rfl | rfl) | hnone
  · exact (htarget access haccess).mono hlater
  · exact hvalue found hfound
  · cases hnone

theorem output (h : ∀ child ∈ node.children, child.Avoids gone) :
    Lockstep gone table (fun _ _ => True) (Assembly.output names node) := by
  unfold Assembly.output
  refine .bind (expressionAt fun tree htree => h tree (List.mem_of_getElem? htree))
    fun value more _ hvalue => .require_bind fun access haccess => ?_
  refine .bind (.emit ⟨fun other hother => ?_, fun argument => by simp⟩)
    fun _ _ _ _ => .pure fun _ _ => trivial
  simp only [Action.accesses, Option.mem_toList, Option.some_inj] at hother
  subst hother
  exact hvalue access haccess

theorem call (h : ∀ child ∈ node.children.tail, child.Avoids gone)
    (hdebug : node.spelled ≠ "debug") :
    Lockstep gone table (fun _ _ => True) (Assembly.call names node) := by
  unfold Assembly.call
  refine .require_bind fun function hfunction => ?_
  have htext : function.text ≠ "debug" := by
    rw [Tree.spelled, hfunction] at hdebug
    exact hdebug
  refine .bind (expressionAt fun tree htree => h tree ?_) fun argument more _ hargument => ?_
  · have htail : node.children.tail[1]? = some tree := List.getElem?_tail.trans htree
    exact List.mem_of_getElem? htail
  refine .bind (.emit ⟨fun other hother => ?_, fun argument hcall => ?_⟩)
    fun _ _ _ _ => .pure fun _ _ => trivial
  · exact hargument other (Option.mem_toList.mp hother)
  · exact htext (Action.call.inj hcall).1

theorem comparison
    (h : ∀ condition, Tree.findBelow names.condition 2 [node] = some condition →
      ∀ child ∈ condition.children, child.Avoids gone) :
    Lockstep gone table (fun more test => test.Named more) (Assembly.comparison names node) := by
  unfold Assembly.comparison
  refine .require_bind fun condition hcondition => .require_bind fun relation _ => ?_
  have hchildren := h condition hcondition
  refine .ite_throw (.ite_throw ?_)
  refine .bind (expressionAt fun tree htree => hchildren tree (List.mem_of_getElem? htree))
    fun left leftMore _ hleft => .require_bind fun leftAccess hleftAccess => ?_
  refine .bind (expressionAt fun tree htree => hchildren tree (List.mem_of_getElem? htree))
    fun right rightMore hrightMore hright => .require_bind fun rightAccess hrightAccess => ?_
  refine .bind (.toTemporary ((hleft leftAccess hleftAccess).mono hrightMore)
    fun _ hnone => by cases hnone) fun leftCopy more hmore hleftCopy => ?_
  refine .bind (.toTemporary ((hright rightAccess hrightAccess).mono hmore)
    fun _ hnone => by cases hnone) fun rightCopy later hlater hrightCopy => ?_
  exact .pure fun last hlast =>
    ⟨hleftCopy.mono (List.Subset.trans hlater hlast), hrightCopy.mono hlast⟩

theorem copies {order : Order} :
    Lockstep gone table (fun _ _ => True) (Assembly.copies order) := by
  induction order generalizing table with
  | nil =>
    unfold Assembly.copies
    exact .pure fun _ _ => trivial
  | cons id order ih =>
    unfold Assembly.copies
    refine .get_bind fun first second halike htable => ?_
    rw [← halike.statements]
    cases hstatement : first.statements[id]? with
    | none => exact ih first second halike htable
    | some statement =>
      have hnamed := halike.named statement (Array.mem_of_getElem? hstatement)
      have hrest : Lockstep gone first.store.names (fun _ _ => True) (do
          let copy ← Assembly.emit statement.action
          return copy :: (← Assembly.copies order)) :=
        .bind (.emit hnamed) fun _ _ _ _ => .bind ih fun _ _ _ _ => .pure fun _ _ => trivial
      exact (hrest first second halike (List.Subset.refl _)).weaken htable

/-! ## Blocks -/

theorem named_branch {test : Comparison} (h : test.Named table)
    (onTrue onFalse : Option StatementId) : (test.branch onTrue onFalse).Named table := by
  refine ⟨fun access hmem => ?_, fun argument => by simp [Comparison.branch]⟩
  simp only [Comparison.branch, Action.accesses, List.mem_append, Option.mem_toList,
    Option.some_inj] at hmem
  rcases hmem with rfl | rfl
  · exact h.left
  · exact h.right

theorem named_skip (table : NameTable) : Action.Named table .skip :=
  ⟨fun _ hmem => absurd hmem List.not_mem_nil, fun _ => by simp⟩

theorem named_goto (table : NameTable) (target : Option StatementId) :
    Action.Named table (.goto target) :=
  ⟨fun _ hmem => absurd hmem List.not_mem_nil, fun _ => by simp⟩

/-- What a tree becomes wherever it stands. -/
abbrev Blocks (gone : List String) (names : StatementNames) (tree : Tree) : Prop :=
  ∀ table, Lockstep gone table (fun _ _ => True) (Assembly.blockOf names tree)

theorem blockOfAll {trees : List Tree} (h : ∀ tree ∈ trees, Blocks gone names tree) :
    Lockstep gone table (fun _ _ => True) (Assembly.blockOfAll names trees) := by
  induction trees generalizing table with
  | nil =>
    unfold Assembly.blockOfAll
    exact .pure fun _ _ => trivial
  | cons tree trees ih =>
    unfold Assembly.blockOfAll
    exact .bind (h tree (.head _) _) fun _ _ _ _ =>
      .bind (ih fun other hother => h other (.tail _ hother)) fun _ _ _ _ =>
        .pure fun _ _ => trivial

theorem blockOfFirst {symbol : String} {trees : List Tree}
    (h : ∀ tree ∈ trees, Blocks gone names tree) :
    Lockstep gone table (fun _ _ => True) (Assembly.blockOfFirst names symbol trees) := by
  induction trees with
  | nil =>
    unfold Assembly.blockOfFirst
    exact .pure fun _ _ => trivial
  | cons tree trees ih =>
    unfold Assembly.blockOfFirst
    exact .ite (fun _ => .bind (h tree (.head _) _) fun _ _ _ _ => .pure fun _ _ => trivial)
      fun _ => ih fun other hother => h other (.tail _ hother)

/-- No statement that stands for the node itself uses one of the names. -/
structure Suits (gone : List String) (names : StatementNames) (node : Tree) : Prop where
  line : node.symbol = names.assign ∨ node.symbol = names.print →
    ∀ child ∈ node.children, child.Avoids gone
  call : node.symbol = names.call →
    (∀ child ∈ node.children.tail, child.Avoids gone) ∧ node.spelled ≠ "debug"
  condition : node.symbol ∈ [names.conditional, names.whileLoop, names.repeatLoop] →
    ∀ condition, Tree.findBelow names.condition 2 [node] = some condition →
      ∀ child ∈ condition.children, child.Avoids gone

theorem blockOf (h : Suits gone names node)
    (hchildren : ∀ child ∈ node.children, Blocks gone names child) : Blocks gone names node := by
  intro table
  obtain ⟨symbol, token, completion, closed, line, children⟩ := node
  unfold Assembly.blockOf
  refine .ite (fun hassign => ?_) fun _ => .ite (fun hconditional => ?_) fun _ =>
    .ite (fun hwhile => ?_) fun _ => .ite (fun hrepeat => ?_) fun _ =>
    .ite (fun hprint => ?_) fun _ => .ite (fun hcall => ?_) fun _ => ?_
  · exact .bind (.assignment (h.line (.inl hassign))) fun _ _ _ _ => .pure fun _ _ => trivial
  · -- a conditional, perhaps with another branch
    refine .bind (.comparison (h.condition (by simp [hconditional]))) fun test _ _ htest => ?_
    refine .bind (.emit (named_branch htest _ _)) fun branch _ hbranch _ => ?_
    refine .bind (.blockOfFirst hchildren) fun found _ hbody _ => .require_bind fun body _ => ?_
    replace htest := (htest.mono hbranch).mono hbody
    refine .ite (fun _ => ?_) fun _ => ?_
    · refine .bind (.emit (named_goto _ _)) fun skip _ hskip _ => ?_
      refine .bind (.blockOfFirst hchildren) fun other _ hother _ => ?_
      refine .bind (.emit (named_skip _)) fun exit _ hexit _ => ?_
      refine .bind (.setAction (named_goto _ _)) fun _ _ hset _ => ?_
      replace htest := (((htest.mono hskip).mono hother).mono hexit).mono hset
      exact .bind (.setAction (named_branch htest _ _)) fun _ _ _ _ => .pure fun _ _ => trivial
    · exact .bind (.setAction (named_branch htest _ _)) fun _ _ _ _ => .pure fun _ _ => trivial
  · -- a loop that tests first
    refine .bind (.comparison (h.condition (by simp [hwhile]))) fun test _ _ htest => ?_
    refine .bind (.emit (named_branch htest _ _)) fun branch _ hbranch _ => ?_
    refine .bind (.blockOfFirst hchildren) fun found _ hbody _ => .require_bind fun body _ =>
      .require_bind fun closing _ => ?_
    refine .bind .copies fun evaluation _ hcopies _ => ?_
    refine .bind (.emit (named_goto _ _)) fun back _ hback _ => ?_
    replace htest := (((htest.mono hbranch).mono hbody).mono hcopies).mono hback
    exact .bind (.setAction (named_branch htest _ _)) fun _ _ _ _ => .pure fun _ _ => trivial
  · -- a loop that tests last
    refine .bind (.emit (named_skip _)) fun start _ _ _ => ?_
    refine .bind (.blockOfFirst hchildren) fun found _ _ _ => .require_bind fun body _ => ?_
    refine .bind (.comparison (h.condition (by simp [hrepeat]))) fun test _ _ htest => ?_
    refine .bind (.emit (named_branch htest _ _)) fun branch _ hbranch _ => ?_
    refine .bind (.emit (named_skip _)) fun exit _ hexit _ => ?_
    replace htest := (htest.mono hbranch).mono hexit
    exact .bind (.setAction (named_branch htest _ _)) fun _ _ _ _ => .pure fun _ _ => trivial
  · exact .bind (.output (h.line (.inr hprint))) fun _ _ _ _ => .pure fun _ _ => trivial
  · exact .bind (.call (h.call hcall).1 (h.call hcall).2) fun _ _ _ _ => .pure fun _ _ => trivial
  · exact .bind (.emit (named_skip _)) fun _ _ _ _ => .bind (.blockOfAll hchildren) fun _ _ _ _ =>
      .pure fun _ _ => trivial

end Assembly.Lockstep

end LineGrammar
