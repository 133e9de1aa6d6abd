import LineGrammar.Proofs.Program.Layout
import LineGrammar.Proofs.Program.Lockstep
import LineGrammar.Proofs.Tree.Everywhere

/-!
# Furnished statements

Whatever assembling emits has all parts that running it asks for, apart from where it jumps to, and
uses only accesses of which something is known: for one, that their variables have been made. An
order has as many statements as have been emitted for it. `Furnishes` says so of a step of
assembling, and `Furnishes.blockOf` of whole trees.
-/

namespace LineGrammar

/-- All parts that running the action asks for are there, apart from where it jumps to. -/
def Action.Complete : Action → Prop
  | .skip | .goto _ | .call _ _ => True
  | .print access => access.isSome
  | .assign target left right operator =>
    (target.bind Access.variableId?).isSome ∧ left.isSome ∧ (operator.isSome → right.isSome)
  | .branch left right relation _ _ => left.isSome ∧ right.isSome ∧ relation.isSome

/-- The action is complete, and something is known of its accesses. -/
structure Action.Furnished (known : Access → Prop) (action : Action) : Prop where
  complete : action.Complete
  known : ∀ access ∈ action.accesses, known access

theorem Action.Furnished.mono {known more : Access → Prop} {action : Action}
    (h : action.Furnished known) (hmore : ∀ access, known access → more access) :
    action.Furnished more :=
  ⟨h.complete, fun access haccess => hmore access (h.known access haccess)⟩

theorem Tree.Everywhere.of_findBelow {property : Tree → Prop} {symbol : String} {depth : Nat}
    {level : List Tree} {found : Tree} (h : ∀ tree ∈ level, tree.Everywhere property)
    (hfind : Tree.findBelow symbol depth level = some found) : found.Everywhere property := by
  induction depth generalizing level with
  | zero => cases hfind
  | succ depth ih =>
    have hnext : ∀ tree ∈ level.flatMap Tree.children, tree.Everywhere property := by
      intro tree htree
      obtain ⟨parent, hparent, hchild⟩ := List.mem_flatMap.mp htree
      exact (h parent hparent).child tree hchild
    simp only [Tree.findBelow, Option.orElse_eq_orElse, Option.orElse_eq_or,
      Option.or_eq_some_iff] at hfind
    rcases hfind with hhere | ⟨-, hbelow⟩
    · exact hnext found (List.mem_of_find?_eq_some hhere)
    · exact ih hnext hbelow

namespace Assembly

/-- What is known of accesses, by the number of variables, stays so, and is known of variables that
there are and of constants. -/
structure Kept (known : Nat → Access → Prop) : Prop where
  mono : ∀ {count more access}, count ≤ more → known count access → known more access
  ofVariable : ∀ {count id}, id < count → known count (.ofVariable id)
  ofConstant : ∀ count value, known count (.ofConstant value)

/-- If the node is an array, its elements are known as far as the array and the index are. -/
def Indexes (known : Nat → Access → Prop) (array : String) (node : Tree) : Prop :=
  node.symbol = array → ∀ before order base after,
    Makes (expressionAt array 0 node.children) before (order, some base) after →
      ∀ count operand, known count base → known count { base := operand } →
        known count { base := base.base, index := some operand }

/-- The names mean variables that there are, and the statements are furnished. -/
structure Equipped (known : Nat → Access → Prop) (assembly : Assembly) : Prop where
  sound : assembly.store.Sound
  furnished : ∀ statement ∈ assembly.statements,
    statement.action.Furnished (known assembly.store.vars.size)

/-- Where there are at least so many variables, assembling leaves all statements furnished if it
succeeds, and the result is known from the number of variables and that of emitted statements. -/
def Furnishes {α : Type} (known : Nat → Access → Prop) (count : Nat)
    (result : Nat → Nat → α → Prop) (assembling : Assembling α) : Prop :=
  ∀ before value after, Equipped known before → count ≤ before.store.vars.size →
    Makes assembling before value after →
      Equipped known after ∧ before.store.vars.size ≤ after.store.vars.size ∧
        ∃ emitted, after.statements.size = before.statements.size + emitted ∧
          result after.store.vars.size emitted value

/-- As many statements have been emitted as the order has, and the access is known. -/
structure Yields (known : Nat → Access → Prop) (count emitted : Nat)
    (result : Order × Option Access) : Prop where
  emitted_eq : emitted = result.1.length
  known : ∀ access ∈ result.2, known count access

namespace Furnishes

variable {α β : Type} {known : Nat → Access → Prop} {count : Nat} {first : Nat → Nat → α → Prop}
  {result : Nat → Nat → β → Prop}

theorem pure {value : α} (h : ∀ more, count ≤ more → first more 0 value) :
    Furnishes known count first (Pure.pure value) := by
  intro before found after hstart hcount hmakes
  obtain ⟨rfl, rfl⟩ := makes_pure.mp hmakes
  exact ⟨hstart, Nat.le_refl _, 0, rfl, h _ hcount⟩

theorem throw (error : CompileError) :
    Furnishes known count first (MonadExcept.throw error : Assembling α) :=
  fun _ _ _ _ _ hmakes => absurd hmakes not_makes_throw

theorem bind {assembling : Assembling α} {next : α → Assembling β}
    (h : Furnishes known count first assembling)
    (hnext : ∀ value more emitted, count ≤ more → first more emitted value →
      Furnishes known more (fun last others => result last (emitted + others)) (next value)) :
    Furnishes known count result (assembling >>= next) := by
  intro before value after hstart hcount hmakes
  obtain ⟨found, between, hfirst, hrest⟩ := makes_bind.mp hmakes
  obtain ⟨hbetween, hle, emitted, hsize, hfound⟩ := h before found between hstart hcount hfirst
  obtain ⟨hafter, hlater, others, hothers, hvalue⟩ :=
    hnext found _ emitted (Nat.le_trans hcount hle) hfound between value after hbetween
      (Nat.le_refl _) hrest
  exact ⟨hafter, Nat.le_trans hle hlater, emitted + others, by omega, hvalue⟩

theorem ite {condition : Prop} [Decidable condition] {yes no : Assembling α}
    (hyes : condition → Furnishes known count first yes)
    (hno : ¬condition → Furnishes known count first no) :
    Furnishes known count first (if condition then yes else no) := by
  split_ifs with h
  · exact hyes h
  · exact hno h

theorem ite_throw {condition : Prop} [Decidable condition] {error : CompileError}
    {next : α → Assembling β} {rest : Assembling β} (h : Furnishes known count result rest) :
    Furnishes known count result
      (if condition then MonadExcept.throw error >>= next else rest) :=
  fun before value after hstart hcount hmakes =>
    h before value after hstart hcount (makes_ite_throw.mp hmakes).2

theorem require_bind {node : Tree} {part : StatementPart} {value : Option α}
    {next : α → Assembling β}
    (h : ∀ found, value = some found → Furnishes known count result (next found)) :
    Furnishes known count result (Assembly.require node part value >>= next) := by
  intro before last after hstart hcount hmakes
  obtain ⟨found, hvalue, hnext⟩ := makes_require_bind.mp hmakes
  exact h found hvalue before last after hstart hcount hnext

theorem later {more : Nat} {assembling : Assembling α} (h : Furnishes known count first assembling)
    (hmore : count ≤ more) : Furnishes known more first assembling :=
  fun before value after hstart hcount => h before value after hstart (Nat.le_trans hmore hcount)

theorem made {assembling : Assembling α} (h : Furnishes known count first assembling) :
    Furnishes known count (fun more emitted value => first more emitted value ∧
      ∃ before after, Makes assembling before value after) assembling := by
  intro before value after hstart hcount hmakes
  obtain ⟨hafter, hle, emitted, hsize, hvalue⟩ := h before value after hstart hcount hmakes
  exact ⟨hafter, hle, emitted, hsize, hvalue, before, after, hmakes⟩

section

variable (hkept : Kept known)
include hkept

/-! ## Emitting -/

theorem emit {action : Action} (h : action.Furnished (known count)) :
    Furnishes known count (fun _ emitted _ => emitted = 1) (Assembly.emit action) := by
  intro before id after hstart hcount hmakes
  obtain ⟨rfl, rfl⟩ := makes_emit.mp hmakes
  refine ⟨⟨hstart.sound, fun statement hstatement => ?_⟩, Nat.le_refl _, 1, Array.size_push _, rfl⟩
  rcases Array.mem_push.mp hstatement with hold | rfl
  · exact hstart.furnished statement hold
  · exact h.mono fun _ => hkept.mono hcount

theorem setAction {id : StatementId} {action : Action} (h : action.Furnished (known count)) :
    Furnishes known count (fun _ emitted _ => emitted = 0) (Assembly.setAction id action) := by
  intro before value after hstart hcount hmakes
  obtain rfl := makes_setAction.mp hmakes
  refine ⟨⟨hstart.sound, fun statement hstatement => ?_⟩, Nat.le_refl _, 0, Array.size_modify, rfl⟩
  obtain ⟨index, hindex⟩ := Array.mem_iff_getElem?.mp hstatement
  have hget : (before.statements.modify id _)[index]? = some statement := hindex
  rw [Array.getElem?_modify] at hget
  split_ifs at hget
  · obtain ⟨old, -, rfl⟩ := Option.map_eq_some_iff.mp hget
    exact h.mono fun _ => hkept.mono hcount
  · exact hstart.furnished statement (Array.mem_of_getElem? hget)

/-! ## Variables -/

theorem equipped_store {before : Assembly} {store : Store} (hstart : Equipped known before)
    (hsound : store.Sound) (hle : before.store.vars.size ≤ store.vars.size) :
    Equipped known { before with store } :=
  ⟨hsound, fun statement hstatement =>
    (hstart.furnished statement hstatement).mono fun _ => hkept.mono hle⟩

theorem variableNamed {name : String} :
    Furnishes known count (fun more emitted id => emitted = 0 ∧ id < more)
      (Assembly.variableNamed name) := by
  intro before id after hstart hcount hmakes
  obtain ⟨rfl, rfl⟩ := makes_variableNamed.mp hmakes
  have hsound := hstart.sound.change (.ensureVariable before.store name)
  have hle : before.store.vars.size ≤ (before.store.ensureVariable name).1.vars.size := by
    unfold Store.ensureVariable
    split
    · exact Nat.le_refl _
    · rw [Store.size_vars_insertUntyped]
      exact Nat.le_succ _
  exact ⟨equipped_store hkept hstart hsound hle, hle, 0, rfl, rfl,
    hsound.id_lt (Store.idOf?_ensureVariable before.store name)⟩

theorem toTemporary {left : Access} {second : Option (ArithmeticOp × Access)}
    (hleft : known count left) (hsecond : ∀ right ∈ second, known count right.2) :
    Furnishes known count (fun more emitted made => emitted = 1 ∧ known more made.2 ∧
      ∃ id < more, made.2 = .ofVariable id) (Assembly.toTemporary left second) := by
  rintro before ⟨id, access⟩ after hstart hcount hmakes
  obtain ⟨rfl, rfl, rfl⟩ := makes_toTemporary.mp hmakes
  have hsize := Store.size_vars_addTemporary before.store
  have hlt : before.store.vars.size < before.store.addTemporary.1.vars.size := by omega
  have hstored := equipped_store hkept hstart (hstart.sound.change (.addTemporary before.store))
    (Nat.le_of_lt hlt)
  refine ⟨⟨hstored.sound, fun statement hstatement => ?_⟩, Nat.le_of_lt hlt, 1,
    Array.size_push _, rfl, hkept.ofVariable hlt, _, hlt, rfl⟩
  rcases Array.mem_push.mp hstatement with hold | rfl
  · exact hstored.furnished statement hold
  · have hmono : ∀ {other}, known count other →
        known before.store.addTemporary.1.vars.size other :=
      hkept.mono (Nat.le_trans hcount (Nat.le_of_lt hlt))
    refine ⟨⟨rfl, rfl, fun hoperator => by simpa using hoperator⟩, fun other hother => ?_⟩
    simp only [Action.accesses, List.mem_append, Option.mem_toList, Option.some_inj] at hother
    rcases hother with (rfl | rfl) | hright
    · exact hkept.ofVariable hlt
    · exact hmono hleft
    · obtain ⟨right, hsome, rfl⟩ := Option.map_eq_some_iff.mp hright
      exact hmono (hsecond right hsome)

/-! ## Expressions -/

theorem leafAccess {symbol : String} {lexeme : Option Lexeme} :
    Furnishes known count (fun more emitted access => emitted = 0 ∧
      ∀ found ∈ access, known more found) (Assembly.leafAccess symbol lexeme) := by
  unfold Assembly.leafAccess
  split
  · refine .ite (fun _ => ?_) fun _ => .pure fun _ _ => ⟨rfl, fun _ hnone => by cases hnone⟩
    refine .bind (.variableNamed hkept) fun id more emitted _ ⟨hemitted, hid⟩ => .pure ?_
    refine fun last hlast => ⟨hemitted, ?_⟩
    rintro _ ⟨⟩
    exact hkept.ofVariable (Nat.lt_of_lt_of_le hid hlast)
  · exact .pure fun more _ => ⟨rfl, fun _ hfound => by cases hfound; exact hkept.ofConstant more _⟩
  · exact .pure fun more _ => ⟨rfl, fun _ hfound => by cases hfound; exact hkept.ofConstant more _⟩
  · exact .pure fun more _ => ⟨rfl, fun _ hfound => by cases hfound; exact hkept.ofConstant more _⟩
  · exact .pure fun _ _ => ⟨rfl, fun _ hnone => by cases hnone⟩

theorem applyAll {left : Access} {others : List (ArithmeticOp × Access)}
    (hleft : known count left) (hothers : ∀ other ∈ others, known count other.2) :
    Furnishes known count (fun more emitted made => emitted = made.1.length ∧ known more made.2)
      (Assembly.applyAll left others) := by
  induction others generalizing left count with
  | nil =>
    unfold Assembly.applyAll
    exact .pure fun _ hmore => ⟨rfl, hkept.mono hmore hleft⟩
  | cons second rest ih =>
    unfold Assembly.applyAll
    refine .bind (.toTemporary hkept hleft fun right hright => ?_) ?_
    · cases hright
      exact hothers second (.head _)
    · rintro made more emitted hmore ⟨hemitted, hmade, -⟩
      refine .bind (ih hmade fun other hother =>
        hkept.mono hmore (hothers other (.tail _ hother))) ?_
      rintro last later count - ⟨hcount, hlast⟩
      refine .pure fun final hfinal => ⟨?_, hkept.mono hfinal hlast⟩
      rw [hemitted, hcount, List.length_cons, Nat.add_zero, Nat.add_comm]

theorem ofRow {line : Nat} {row : Row} (h : ∀ operand ∈ row.operands, known count operand) :
    Furnishes known count (fun more emitted => Yields known more (row.order.length + emitted))
      (Assembly.ofRow line row) := by
  unfold Assembly.ofRow
  split
  · exact .ite (fun _ => .pure fun _ _ => ⟨rfl, fun _ hnone => by cases hnone⟩) fun _ => .throw _
  · next left others hoperands =>
    rw [hoperands] at h
    refine .ite_throw (.bind (.applyAll hkept (h left (.head _)) fun other hother => ?_) ?_)
    · exact h _ (.tail _ (List.of_mem_zip hother).2)
    · rintro made more emitted - ⟨rfl, hmade⟩
      refine .pure fun last hlast => ⟨by simp, ?_⟩
      rintro _ ⟨⟩
      exact hkept.mono hlast hmade

theorem indexOperand {index : Access} (h : known count index) :
    Furnishes known count (fun more emitted made => emitted = made.1.length ∧
      known more { base := made.2 }) (Assembly.indexOperand index) := by
  unfold Assembly.indexOperand
  refine .ite (fun _ => ?_) fun hnone => .pure fun _ hmore => ⟨rfl, ?_⟩
  · refine .bind (.toTemporary hkept h fun _ hnone => by cases hnone) ?_
    rintro ⟨id, _⟩ more emitted - ⟨rfl, hmade, _, _, rfl⟩
    exact .pure fun _ hlast => ⟨rfl, hkept.mono hlast hmade⟩
  · obtain ⟨base, operand⟩ := index
    obtain rfl : operand = none := by simpa using hnone
    exact hkept.mono hmore h

end

mutual

theorem expression (hkept : Kept known) {array : String} : ∀ {tree : Tree} {count : Nat},
    tree.Everywhere (Indexes known array) →
      Furnishes known count (Yields known) (Assembly.expression array tree)
  | ⟨symbol, token, completion, closed, line, children⟩, count, h => by
    have hchildren := h.child
    unfold Assembly.expression
    refine .ite (fun _ => ?_) fun _ => .ite (fun hsymbol => ?_) fun _ => ?_
    · refine .bind (.leafAccess hkept) ?_
      rintro access more emitted - ⟨rfl, hknown⟩
      exact .pure fun last hlast =>
        ⟨rfl, fun found hfound => hkept.mono hlast (hknown found hfound)⟩
    · refine .bind (expressionAt hkept fun tree htree =>
        hchildren tree (List.mem_of_getElem? htree)).made ?_
      rintro ⟨baseOrder, base⟩ more emitted - ⟨⟨rfl, hbase⟩, before, after, hmakes⟩
      refine .require_bind fun name hname => .ite_throw ?_
      refine .bind (expressionAt hkept fun tree htree =>
        hchildren tree (List.mem_of_getElem? htree)) ?_
      rintro ⟨indexOrder, index⟩ later emitted hlater ⟨rfl, hindex⟩
      refine .require_bind fun access haccess =>
        .bind (.indexOperand hkept (hindex access haccess)) ?_
      rintro ⟨copyOrder, operand⟩ last emitted hlast ⟨rfl, hoperand⟩
      refine .pure fun final hfinal => ⟨by simp, ?_⟩
      rintro _ ⟨⟩
      have hlate := Nat.le_trans hlater (Nat.le_trans hlast hfinal)
      obtain rfl : base = some name := hname
      exact h.here hsymbol before baseOrder name after hmakes final operand
        (hkept.mono hlate (hbase name rfl)) (hkept.mono hfinal hoperand)
    · refine .bind (rowOf hkept hchildren) ?_
      rintro row more emitted - ⟨rfl, hrow⟩
      exact .ofRow hkept hrow

theorem expressionAt (hkept : Kept known) {array : String} :
    ∀ {position : Nat} {trees : List Tree} {count : Nat},
    (∀ tree, trees[position]? = some tree → tree.Everywhere (Indexes known array)) →
      Furnishes known count (Yields known) (Assembly.expressionAt array position trees)
  | _, [], count, _ => by
    unfold Assembly.expressionAt
    exact .pure fun _ _ => ⟨rfl, fun _ hnone => by cases hnone⟩
  | 0, tree :: trees, count, h => by
    unfold Assembly.expressionAt
    exact expression hkept (h tree rfl)
  | position + 1, tree :: trees, count, h => by
    unfold Assembly.expressionAt
    exact expressionAt hkept h

theorem rowOf (hkept : Kept known) {array : String} : ∀ {trees : List Tree} {count : Nat},
    (∀ tree ∈ trees, tree.Everywhere (Indexes known array)) →
      Furnishes known count (fun more emitted row => emitted = row.order.length ∧
        ∀ operand ∈ row.operands, known more operand) (Assembly.rowOf array trees)
  | [], count, _ => by
    unfold Assembly.rowOf
    exact .pure fun _ _ => ⟨rfl, fun _ hmem => absurd hmem List.not_mem_nil⟩
  | tree :: trees, count, h => by
    have hrest : ∀ other ∈ trees, other.Everywhere (Indexes known array) :=
      fun other hother => h other (.tail _ hother)
    unfold Assembly.rowOf
    split
    · refine .bind (rowOf hkept hrest) ?_
      rintro row more emitted - ⟨rfl, hrow⟩
      exact .pure fun last hlast => ⟨rfl, fun operand hoperand =>
        hkept.mono hlast (hrow operand hoperand)⟩
    · refine .bind (expression hkept (h tree (.head _))) ?_
      rintro ⟨order, access⟩ more emitted - ⟨rfl, haccess⟩
      refine .bind (rowOf hkept hrest) ?_
      rintro row later emitted hlater ⟨rfl, hrow⟩
      refine .pure fun last hlast => ⟨by simp, fun operand hoperand => ?_⟩
      rcases List.mem_append.mp hoperand with hfirst | hothers
      · exact hkept.mono (Nat.le_trans hlater hlast)
          (haccess operand (Option.mem_toList.mp hfirst))
      · exact hkept.mono hlast (hrow operand hothers)

end

/-! ## Statements -/

section

variable (hkept : Kept known) {names : StatementNames} {node : Tree}
include hkept

theorem rowValue {array : String} {line : Nat} {trees : List Tree}
    (h : ∀ tree ∈ trees, tree.Everywhere (Indexes known array)) :
    Furnishes known count (Yields known) (Assembly.rowValue array line trees) := by
  unfold Assembly.rowValue
  refine .bind (rowOf hkept h) ?_
  rintro row more emitted - ⟨rfl, hrow⟩
  exact .ofRow hkept hrow

theorem assignment (h : ∀ child ∈ node.children, child.Everywhere (Indexes known names.array)) :
    Furnishes known count (fun _ emitted order => emitted = order.length)
      (Assembly.assignment names node) := by
  unfold Assembly.assignment
  refine .require_bind fun operator _ => .ite_throw ?_
  refine .bind (expressionAt hkept fun tree htree => h tree (List.mem_of_getElem? htree)) ?_
  rintro ⟨targetOrder, target⟩ more emitted - ⟨rfl, htarget⟩
  refine .require_bind fun access haccess => ?_
  -- the check that the target is a variable is part of what is known of it
  by_cases hvariable : access.variableId?.isNone = true
  · rw [if_pos hvariable]
    exact fun before value after _ _ hmakes => by
      obtain ⟨_, _, hthrow, -⟩ := makes_bind.mp hmakes
      exact absurd hthrow not_makes_throw
  rw [if_neg hvariable]
  refine .bind (rowValue hkept fun tree htree => h tree (List.mem_of_mem_drop htree)) ?_
  rintro ⟨valueOrder, value⟩ later emitted hlater ⟨rfl, hvalue⟩
  refine .require_bind fun found hfound => .bind (.emit hkept ⟨⟨?_, rfl, ?_⟩, ?_⟩) ?_
  · exact Option.isSome_iff_ne_none.mpr fun hnone => hvariable (by simpa using hnone)
  · simp
  · intro other hother
    simp only [Action.accesses, List.mem_append, Option.mem_toList, Option.some_inj] at hother
    rcases hother with (rfl | rfl) | hnone
    · exact hkept.mono hlater (htarget access haccess)
    · exact hvalue found hfound
    · cases hnone
  · rintro id last emitted - rfl
    exact .pure fun _ _ => by simp

theorem output (h : ∀ child ∈ node.children, child.Everywhere (Indexes known names.array)) :
    Furnishes known count (fun _ emitted order => emitted = order.length)
      (Assembly.output names node) := by
  unfold Assembly.output
  refine .bind (expressionAt hkept fun tree htree => h tree (List.mem_of_getElem? htree)) ?_
  rintro ⟨order, value⟩ more emitted - ⟨rfl, hvalue⟩
  refine .require_bind fun access haccess => .bind (.emit hkept ⟨rfl, fun other hother => ?_⟩) ?_
  · simp only [Action.accesses, Option.mem_toList, Option.some_inj] at hother
    subst hother
    exact hvalue access haccess
  · rintro id last emitted - rfl
    exact .pure fun _ _ => by simp

theorem call (h : ∀ child ∈ node.children, child.Everywhere (Indexes known names.array)) :
    Furnishes known count (fun _ emitted order => emitted = order.length)
      (Assembly.call names node) := by
  unfold Assembly.call
  refine .require_bind fun function _ => ?_
  refine .bind (expressionAt hkept fun tree htree => h tree (List.mem_of_getElem? htree)) ?_
  rintro ⟨order, argument⟩ more emitted - ⟨rfl, hargument⟩
  refine .bind (.emit hkept ⟨trivial, fun other hother => ?_⟩) ?_
  · exact hargument other (Option.mem_toList.mp hother)
  · rintro id last emitted - rfl
    exact .pure fun _ _ => by simp

theorem comparison (h : node.Everywhere (Indexes known names.array)) :
    Furnishes known count (fun more emitted test => emitted = test.order.length ∧
      known more test.left ∧ known more test.right) (Assembly.comparison names node) := by
  unfold Assembly.comparison
  refine .require_bind fun condition hcondition => .require_bind fun relation _ => ?_
  have hfound : condition.Everywhere (Indexes known names.array) :=
    .of_findBelow (fun tree htree => List.mem_singleton.mp htree ▸ h) hcondition
  have hchildren := hfound.child
  refine .ite_throw (.ite_throw ?_)
  refine .bind (expressionAt hkept fun tree htree => hchildren tree (List.mem_of_getElem? htree)) ?_
  rintro ⟨leftOrder, left⟩ second emitted - ⟨rfl, hleft⟩
  refine .require_bind fun leftAccess hleftAccess => ?_
  refine .bind (expressionAt hkept fun tree htree => hchildren tree (List.mem_of_getElem? htree)) ?_
  rintro ⟨rightOrder, right⟩ third emitted hthird ⟨rfl, hright⟩
  refine .require_bind fun rightAccess hrightAccess => ?_
  refine .bind (.toTemporary hkept (hkept.mono hthird (hleft leftAccess hleftAccess))
    fun _ hnone => by cases hnone) ?_
  rintro ⟨leftId, leftSide⟩ fourth emitted hfourth ⟨rfl, hleftSide, -⟩
  refine .bind (.toTemporary hkept (hkept.mono hfourth (hright rightAccess hrightAccess))
    fun _ hnone => by cases hnone) ?_
  rintro ⟨rightId, rightSide⟩ fifth emitted hfifth ⟨rfl, hrightSide, -⟩
  refine .pure fun last hlast => ⟨?_, ?_, ?_⟩
  · simp
  · exact hkept.mono (Nat.le_trans hfifth hlast) hleftSide
  · exact hkept.mono hlast hrightSide

theorem copies {order : Order} :
    Furnishes known count (fun _ emitted copies => emitted = copies.length)
      (Assembly.copies order) := by
  induction order with
  | nil =>
    unfold Assembly.copies
    exact .pure fun _ _ => rfl
  | cons id order ih =>
    intro before value after hstart hcount hmakes
    unfold Assembly.copies at hmakes
    obtain ⟨assembly, start, hget, hcopy⟩ := makes_bind.mp hmakes
    obtain ⟨rfl, rfl⟩ := makes_get.mp hget
    cases hstatement : before.statements[id]? with
    | none =>
      rw [hstatement] at hcopy
      exact ih before value after hstart hcount hcopy
    | some statement =>
      rw [hstatement] at hcopy
      have hfurnished := hstart.furnished statement (Array.mem_of_getElem? hstatement)
      have hrest : Furnishes known before.store.vars.size
          (fun _ emitted copies => emitted = copies.length) (do
            let copy ← Assembly.emit statement.action
            return copy :: (← Assembly.copies order)) := by
        refine .bind (.emit hkept hfurnished) ?_
        rintro copy more emitted hmore rfl
        refine .bind (ih.later (Nat.le_trans hcount hmore)) ?_
        rintro others later emitted - rfl
        exact .pure fun _ _ => by simp [Nat.add_comm]
      exact hrest before value after hstart (Nat.le_refl _) hcopy

end

/-! ## Blocks -/

theorem furnished_branch {known : Access → Prop} {test : Comparison} (hleft : known test.left)
    (hright : known test.right) (onTrue onFalse : Option StatementId) :
    (test.branch onTrue onFalse).Furnished known := by
  refine ⟨⟨rfl, rfl, rfl⟩, fun access hmem => ?_⟩
  simp only [Comparison.branch, Action.accesses, List.mem_append, Option.mem_toList,
    Option.some_inj] at hmem
  rcases hmem with rfl | rfl
  · exact hleft
  · exact hright

theorem furnished_skip (known : Access → Prop) : Action.Furnished known .skip :=
  ⟨trivial, fun _ hmem => absurd hmem List.not_mem_nil⟩

theorem furnished_goto (known : Access → Prop) (target : Option StatementId) :
    Action.Furnished known (.goto target) :=
  ⟨trivial, fun _ hmem => absurd hmem List.not_mem_nil⟩

theorem branch_bind (hkept : Kept known) {names : StatementNames} {node : Tree}
    (h : node.Everywhere (Indexes known names.array)) {onTrue onFalse : Option StatementId}
    {next : Comparison → StatementId → Assembling β}
    (hnext : ∀ test branch more,
      (∀ later, more ≤ later → ∀ onTrue onFalse,
        (test.branch onTrue onFalse).Furnished (known later)) →
      Furnishes known more (fun last others => result last (test.order.length + (1 + others)))
        (next test branch)) :
    Furnishes known count result (do
      let test ← Assembly.comparison names node
      let branch ← Assembly.emit (test.branch onTrue onFalse)
      next test branch) := by
  refine .bind (.comparison hkept h) ?_
  rintro test more emitted - ⟨rfl, hleft, hright⟩
  refine .bind (.emit hkept (furnished_branch hleft hright _ _)) ?_
  rintro branch last emitted hlast rfl
  refine hnext test branch last fun later hlater onTrue onFalse => ?_
  have hmore := Nat.le_trans hlast hlater
  exact furnished_branch (hkept.mono hmore hleft) (hkept.mono hmore hright) onTrue onFalse

theorem body_bind {node : Tree} {part : StatementPart} {assembling : Assembling (Option Block)}
    {next : Block → Assembling β}
    (h : Furnishes known count (fun _ emitted found =>
      emitted = (found.getD .empty).order.length) assembling)
    (hnext : ∀ body more, count ≤ more → Furnishes known more
      (fun last others => result last (body.order.length + others)) (next body)) :
    Furnishes known count result
      (assembling >>= fun found => Assembly.require node part found >>= next) := by
  refine .bind h ?_
  rintro found more emitted hmore rfl
  refine .require_bind fun body hbody => ?_
  rw [hbody]
  exact hnext body more hmore

mutual

theorem blockOf (hkept : Kept known) {names : StatementNames} : ∀ {tree : Tree} {count : Nat},
    tree.Everywhere (Indexes known names.array) →
      Furnishes known count (fun _ emitted block => emitted = block.order.length)
        (Assembly.blockOf names tree)
  | ⟨symbol, token, completion, closed, line, children⟩, count, h => by
    have hchildren := h.child
    unfold Assembly.blockOf
    refine .ite (fun _ => ?_) fun _ => .ite (fun _ => ?_) fun _ => .ite (fun _ => ?_) fun _ =>
      .ite (fun _ => ?_) fun _ => .ite (fun _ => ?_) fun _ => .ite (fun _ => ?_) fun _ => ?_
    · exact .bind (.assignment hkept hchildren) fun _ _ _ _ hemitted => .pure fun _ _ => hemitted
    · -- a conditional, with another branch or without
      refine .branch_bind hkept h fun test branch first hbranch => ?_
      refine .body_bind (blockOfFirst hkept hchildren) fun body second hsecond => ?_
      refine .ite (fun _ => ?_) fun _ => ?_
      · refine .bind (.emit hkept (furnished_goto _ _)) ?_
        rintro skip third emitted hthird rfl
        refine .bind (blockOfFirst hkept hchildren) ?_
        rintro other fourth emitted hfourth rfl
        refine .bind (.emit hkept (furnished_skip _)) ?_
        rintro exit fifth emitted hfifth rfl
        refine .bind (.setAction hkept (furnished_goto _ _)) ?_
        rintro - sixth emitted hsixth rfl
        have hlater := Nat.le_trans hfourth (Nat.le_trans hfifth hsixth)
        refine .bind (.setAction hkept (hbranch _ ?_ _ _)) ?_
        · exact Nat.le_trans hsecond (Nat.le_trans hthird hlater)
        · rintro - last emitted - rfl
          exact .pure fun _ _ => by
            simp only [Block.order, List.length_append, List.length_cons, List.length_nil]
            omega
      · refine .bind (.setAction hkept (hbranch _ hsecond _ _)) ?_
        rintro - last emitted - rfl
        exact .pure fun _ _ => by
          simp only [Block.order, List.length_append, List.length_cons, List.length_nil]
          omega
    · -- a loop that tests first
      refine .branch_bind hkept h fun test branch first hbranch => ?_
      refine .body_bind (blockOfFirst hkept hchildren) fun body second hsecond =>
        .require_bind fun closing _ => ?_
      refine .bind (.copies hkept) ?_
      rintro evaluation third emitted hthird rfl
      refine .bind (.emit hkept (furnished_goto _ _)) ?_
      rintro back fourth emitted hfourth rfl
      have hlater := Nat.le_trans hsecond (Nat.le_trans hthird hfourth)
      refine .bind (.setAction hkept (hbranch _ hlater _ _)) ?_
      rintro - last emitted - rfl
      refine .pure fun _ _ => ?_
      have hround := (Block.perm_round body.order evaluation back).length_eq
      simp only [Block.order, List.length_append, List.length_cons, List.length_nil] at hround ⊢
      omega
    · -- a loop that tests last
      refine .bind (.emit hkept (furnished_skip _)) ?_
      rintro start first emitted - rfl
      refine .body_bind (blockOfFirst hkept hchildren) fun body second _ => ?_
      refine .branch_bind hkept h fun test branch third hbranch => ?_
      refine .bind (.emit hkept (furnished_skip _)) ?_
      rintro exit fourth emitted hfourth rfl
      refine .bind (.setAction hkept (hbranch _ hfourth _ _)) ?_
      rintro - last emitted - rfl
      exact .pure fun _ _ => by
        simp only [Block.order, List.length_append, List.length_cons, List.length_nil]
        omega
    · exact .bind (.output hkept hchildren) fun _ _ _ _ hemitted => .pure fun _ _ => hemitted
    · exact .bind (.call hkept hchildren) fun _ _ _ _ hemitted => .pure fun _ _ => hemitted
    · refine .bind (.emit hkept (furnished_skip _)) ?_
      rintro id second emitted - rfl
      refine .bind (blockOfAll hkept hchildren) ?_
      rintro rest last emitted - rfl
      exact .pure fun _ _ => by
        simp only [Block.order, List.length_append, List.length_cons, List.length_nil]
        omega

theorem blockOfAll (hkept : Kept known) {names : StatementNames} :
    ∀ {trees : List Tree} {count : Nat},
      (∀ tree ∈ trees, tree.Everywhere (Indexes known names.array)) →
        Furnishes known count (fun _ emitted block => emitted = block.order.length)
          (Assembly.blockOfAll names trees)
  | [], count, _ => by
    unfold Assembly.blockOfAll
    exact .pure fun _ _ => rfl
  | tree :: trees, count, h => by
    unfold Assembly.blockOfAll
    refine .bind (blockOf hkept (h tree (.head _))) ?_
    rintro block more emitted - rfl
    refine .bind (blockOfAll hkept fun other hother => h other (.tail _ hother)) ?_
    rintro rest last emitted - rfl
    exact .pure fun _ _ => by simp [Block.order]

theorem blockOfFirst (hkept : Kept known) {names : StatementNames} {symbol : String} :
    ∀ {trees : List Tree} {count : Nat},
      (∀ tree ∈ trees, tree.Everywhere (Indexes known names.array)) →
        Furnishes known count
          (fun _ emitted found => emitted = (found.getD .empty).order.length)
          (Assembly.blockOfFirst names symbol trees)
  | [], count, _ => by
    unfold Assembly.blockOfFirst
    exact .pure fun _ _ => rfl
  | tree :: trees, count, h => by
    unfold Assembly.blockOfFirst
    refine .ite (fun _ => ?_) fun _ =>
      blockOfFirst hkept fun other hother => h other (.tail _ hother)
    exact .bind (blockOf hkept (h tree (.head _))) fun _ _ _ _ hemitted => .pure fun _ _ => hemitted

end

end Furnishes

end Assembly

end LineGrammar
