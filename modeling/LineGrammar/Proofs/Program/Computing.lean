import LineGrammar.Proofs.Program.Assembling
import LineGrammar.Proofs.Source.OfTree
import LineGrammar.Proofs.Store.Running

/-!
# Computing expressions

The actions of an expression print nothing and change nothing but temporary variables. After them an
access `Holds` the value of the expression, and goes on to hold it while later ones are computed.
When they fail, the expression has no value.
-/

namespace LineGrammar

open Source Assembly

/-- The actions fail, or end in such a store without any output. -/
def Silently (store : Store) (actions : List Action) (fails : Prop) (ends : Store → Prop) : Prop :=
  (Action.performAll store actions = none ∧ fails) ∨
    ∃ after, Action.performAll store actions = some (after, []) ∧ ends after

namespace Silently

variable {store : Store} {actions more : List Action} {fails fails' : Prop}
  {ends between : Store → Prop}

theorem nil (h : ends store) : Silently store [] fails ends :=
  .inr ⟨store, rfl, h⟩

theorem imp {ends' : Store → Prop} (h : Silently store actions fails ends) (hfails : fails → fails')
    (hends : ∀ after, ends after → ends' after) : Silently store actions fails' ends' := by
  rcases h with ⟨hnone, h⟩ | ⟨after, hsome, h⟩
  · exact .inl ⟨hnone, hfails h⟩
  · exact .inr ⟨after, hsome, hends after h⟩

theorem append (h : Silently store actions fails between)
    (hnext : ∀ after, between after → Silently after more fails ends) :
    Silently store (actions ++ more) fails ends := by
  rcases h with ⟨hnone, h⟩ | ⟨after, hsome, h⟩
  · exact .inl ⟨Action.performAll_append_of_none hnone more, h⟩
  · rcases hnext after h with ⟨hnone, hfails⟩ | ⟨last, hlast, hends⟩
    · refine .inl ⟨?_, hfails⟩
      rw [Action.performAll_append_of_some hsome, hnone]
      rfl
    · refine .inr ⟨last, ?_, hends⟩
      rw [Action.performAll_append_of_some hsome, hlast]
      rfl

end Silently

/-! ## Accesses and expressions -/

/-- The access is to what the expression means. If that is a variable or an element of one, its
place is the same too. -/
structure Fits (store : Store) (access : Access) (expression : Expression) : Prop where
  value : access.value? store = expression.value? store.memory
  text : Program.isText store access = expression.isText store.memory
  place : ∀ name index, expression = .ofName name index → IsProgramName name ∧
    ∃ id, access.base = .variable id ∧ store.idOf? name = some id ∧
      Operand.slot? store access.index = slot? store.memory index

theorem Fits.of_place {store : Store} {access : Access} {name : String} {id : VariableId}
    {index : Option Expression} (hsound : store.Sound) (hname : IsProgramName name)
    (hbase : access.base = .variable id) (hid : store.idOf? name = some id)
    (hslot : Operand.slot? store access.index = slot? store.memory index) :
    Fits store access (.ofName name index) := by
  obtain ⟨var, hvar⟩ : ∃ var, store.get? id = some var :=
    ⟨_, Array.getElem?_eq_getElem (hsound.id_lt hid)⟩
  have hcell := Store.memory_eq hname hid hvar
  constructor
  · rw [Program.value?_of_base hbase, hslot, Expression.value?_ofName, hcell, hvar]
    rfl
  · have hget : access.variableId?.bind store.get? = some var := by
      unfold Access.variableId?
      rw [hbase]
      exact hvar
    have hstring : store.lowestType var.type = stringType ↔
        store.basicType var.type = some stringType :=
      (Store.basicType_eq_some (by simp)).symm
    rw [Expression.isText_ofName, hcell, Program.isText, hget]
    show (store.lowestType var.type == stringType) = (store.basicType var.type == some stringType)
    rw [Bool.eq_iff_iff, beq_iff_eq, beq_iff_eq, hstring]
  · intro other otherIndex heq
    obtain ⟨rfl, rfl⟩ := Expression.ofName_inj.mp heq
    exact ⟨hname, id, hbase, hid, hslot⟩

theorem Fits.write? {store : Store} {access : Access} {name : String} {index : Option Expression}
    (hsound : store.Sound) (h : Fits store access (.ofName name index)) (value : Value) :
    (access.write? store value).map Store.memory =
        ((slot? store.memory index).bind fun slot =>
          (store.memory name).write? slot value).map (store.memory.set name) ∧
      ∀ after, access.write? store value = some after → store.shape = after.shape := by
  obtain ⟨hname, id, hbase, hid, hslot⟩ := h.place name index rfl
  obtain ⟨var, hvar⟩ : ∃ var, store.get? id = some var :=
    ⟨_, Array.getElem?_eq_getElem (hsound.id_lt hid)⟩
  have hcell := Store.memory_eq hname hid hvar
  rw [Program.write?_of_base hbase, hslot, hcell]
  cases slot? store.memory index with
  | none => exact ⟨rfl, by simp⟩
  | some slot =>
    rw [Option.bind_some, Option.bind_some, Store.setValue?_eq hvar, Option.map_map]
    refine ⟨?_, fun after hafter => ?_⟩
    · unfold Cell.write?
      rw [Option.map_map, Option.map_map]
      congr 1
      funext converted
      exact Store.memory_withValues hsound hname hid hvar _
    · obtain ⟨cell, -, rfl⟩ := Option.map_eq_some_iff.mp hafter
      exact (Store.shape_withValues _ _ _).symm

/-- As long as variables below the number are kept, the access is to the value. -/
def HoldsValue (bound : Nat) (store : Store) (access : Access) (value : Option Value) : Prop :=
  ∀ after, Store.SameBelow bound store after → access.value? after = value

/-- As long as variables below the number are kept, the access fits the expression. -/
def Holds (bound : Nat) (store : Store) (access : Access) (expression : Expression) : Prop :=
  ∀ after, Store.SameBelow bound store after → Fits after access expression

namespace Holds

variable {bound higher : Nat} {store after : Store} {access : Access} {expression : Expression}

theorem fits (h : Holds bound store access expression) : Fits store access expression :=
  h store (.refl bound store)

theorem later (h : Holds bound store access expression) (hsame : Store.SameBelow bound store after)
    (hle : bound ≤ higher) : Holds higher after access expression :=
  fun last hlast => h last (hsame.trans (hlast.mono hle))

theorem holdsValue (h : Holds bound store access expression) :
    HoldsValue bound store access (expression.value? store.memory) := by
  intro after hsame
  rw [(h after hsame).value, hsame.memory]

end Holds

/-! ## Into temporary variables -/

theorem silently_assign {store : Store} {id : VariableId} (hspare : store.Spare id) (left : Access)
    (right : Option Access) (operator : Option ArithmeticOp) :
    Silently store [.assign (some (.ofVariable id)) (some left) right operator]
      (assigned? store left right operator = none) fun after =>
        Store.SameBelow id store after ∧
          HoldsValue (id + 1) after (.ofVariable id) (assigned? store left right operator) := by
  cases hvalue : assigned? store left right operator with
  | none =>
    refine .inl ⟨Action.performAll_cons_of_none ?_ [], rfl⟩
    show (assigned? store left right operator).bind _ = none
    rw [hvalue]
    rfl
  | some value =>
    obtain ⟨after, hwrite, hsame, hread⟩ := hspare.exists_write? value
    have heffect :
        (Action.assign (some (.ofVariable id)) (some left) right operator).effect? store =
        some (after, []) := by
      show (assigned? store left right operator).bind _ = _
      rw [hvalue]
      show ((Access.ofVariable id).write? store value).bind _ = _
      rw [hwrite]
      rfl
    refine .inr ⟨after, ?_, hsame, fun last hlast => ?_⟩
    · rw [Action.performAll_cons_of_some heffect]
      rfl
    · rw [Program.value?_of_base rfl] at hread ⊢
      rw [hlast.get id (Nat.lt_succ_self id)]
      exact hread

/-- Statements with these actions have been emitted, and only variables have been made. -/
structure Gains (before after : Assembly) (order : Order) (actions : List Action) : Prop where
  emits : Emits before order actions after
  sound : after.store.Sound
  grows : Store.Grows before.store after.store

namespace Gains

variable {before between after : Assembly} {order others : Order} {actions more : List Action}

theorem nil (h : before.store.Sound) : Gains before before [] [] :=
  ⟨.nil rfl, h, .refl _⟩

theorem append (h : Gains before between order actions)
    (hnext : Gains between after others more) :
    Gains before after (order ++ others) (actions ++ more) :=
  ⟨h.emits.append hnext.emits, hnext.sound, h.grows.trans hnext.grows⟩

theorem size_le (h : Gains before after order actions) :
    before.store.vars.size ≤ after.store.vars.size :=
  h.grows.size_le

end Gains

theorem exists_toTemporary {before : Assembly} (h : before.store.Sound) (left : Access)
    (second : Option (ArithmeticOp × Access)) :
    ∃ id after, Makes (toTemporary left second) before
        (id, .ofVariable before.store.vars.size) after ∧
      Gains before after [id] [.assign (some (.ofVariable before.store.vars.size)) (some left)
        (second.map (·.2)) (second.map (·.1))] ∧
      after.store.vars.size = before.store.vars.size + 1 ∧
      after.store.Spare before.store.vars.size := by
  refine ⟨_, _, makes_toTemporary.mpr ⟨rfl, rfl, rfl⟩, ⟨⟨?_, rfl⟩, Store.sound_addTemporary h,
    Store.grows_addTemporary _⟩, Store.size_vars_addTemporary _, Store.spare_addTemporary h⟩
  simp

theorem Holds.operation {bound : Nat} {store next : Store} {id : VariableId} {left right : Access}
    {first second : Expression} (operator : ArithmeticOp) (hspare : store.Spare id)
    (hleft : Holds bound store left first) (hright : Holds bound store right second)
    (hsame : Store.SameBelow id store next)
    (hvalue : HoldsValue (id + 1) next (.ofVariable id)
      (assigned? store left (some right) (some operator))) :
    Holds (id + 1) next (.ofVariable id) (.operation operator first second) := by
  intro last hlast
  have hmemory : last.memory = store.memory := hlast.memory.trans hsame.memory
  constructor
  · rw [hvalue last hlast, Program.assigned?_operator, hleft.fits.value, hright.fits.value,
      hleft.fits.text, hright.fits.text, hmemory]
    rfl
  · exact (hspare.of_shape (hsame.shape.trans hlast.shape)).isText_eq
  · intro name index heq
    cases index <;> cases heq

/-- Operands, as the accesses of one side and the expressions of the other. -/
abbrev HoldsAll (bound : Nat) (store : Store) (rest : List (ArithmeticOp × Access))
    (others : List (ArithmeticOp × Expression)) : Prop :=
  List.Forall₂ (fun operand other => operand.1 = other.1 ∧ Holds bound store operand.2 other.2)
    rest others

theorem exists_applyAll (rest : List (ArithmeticOp × Access)) {before : Assembly}
    (hsound : before.store.Sound) (first : Access) :
    ∃ order access after actions, Makes (applyAll first rest) before (order, access) after ∧
      Gains before after order actions ∧
      ∀ store : Store, store.Hosts after.store → ∀ expression others,
        Holds before.store.vars.size store first expression →
        HoldsAll before.store.vars.size store rest others →
        Silently store actions ((expression.applyAll others).value? store.memory = none)
          fun result => Store.SameBelow before.store.vars.size store result ∧
            Holds after.store.vars.size result access (expression.applyAll others) := by
  induction rest generalizing before first with
  | nil =>
    refine ⟨[], first, before, [], makes_pure.mpr ⟨rfl, rfl⟩, .nil hsound, ?_⟩
    intro store hhosts expression others hfirst hothers
    cases hothers
    exact .nil ⟨.refl _ _, hfirst⟩
  | cons second rest ih =>
    obtain ⟨operator, right⟩ := second
    obtain ⟨id, between, hmakes, hgains, hsize, hspare⟩ :=
      exists_toTemporary hsound first (some (operator, right))
    obtain ⟨order, access, after, actions, happly, hgainsRest, hruns⟩ :=
      ih hgains.sound (.ofVariable before.store.vars.size)
    refine ⟨[id] ++ order, access, after, _, ?_, hgains.append hgainsRest, ?_⟩
    · exact makes_bind.mpr
        ⟨_, _, hmakes, makes_bind.mpr ⟨_, _, happly, makes_pure.mpr ⟨rfl, rfl⟩⟩⟩
    intro store hhosts expression others hfirst hothers
    cases hothers with
    | @cons _ other _ others hsecond hothers =>
      obtain ⟨_, expressionRight⟩ := other
      obtain ⟨rfl, hright⟩ : operator = _ ∧ Holds _ store right expressionRight := hsecond
      have hspareNow := (hhosts.of_grows hgainsRest.grows).spare _ hspare
      have hassign := silently_assign hspareNow first (some right) (some operator)
      refine (hassign.imp (fun hnone => ?_) fun _ h => h).append fun next hnext => ?_
      · refine Expression.value?_applyAll_of_none ?_ others
        rw [← hnone, Program.assigned?_operator, hfirst.fits.value, hright.fits.value,
          hfirst.fits.text, hright.fits.text]
        rfl
      · obtain ⟨hsame, hvalue⟩ := hnext
        have hnextFirst := Holds.operation operator hspareNow hfirst hright hsame hvalue
        have hnextOthers : HoldsAll between.store.vars.size next rest others :=
          hothers.imp fun operand other h => ⟨h.1, h.2.later hsame (by omega)⟩
        rw [← hsize] at hnextFirst
        refine (hruns next (hhosts.of_shape hsame.shape) _ others hnextFirst hnextOthers).imp
          (fun hnone => ?_) fun last hlast => ⟨hsame.trans (hlast.1.mono (by omega)), hlast.2⟩
        rw [hsame.memory] at hnone
        exact hnone

/-! ## Rows -/

/-- Assembling makes an access that holds the expression when its actions have been performed. -/
def Computes (assembling : Assembling (Order × Option Access)) (expression : Expression) : Prop :=
  ∀ before : Assembly, before.store.Sound → ∃ order access after actions,
    Makes assembling before (order, some access) after ∧ Gains before after order actions ∧
      ∀ store : Store, store.Hosts after.store →
        Silently store actions (expression.value? store.memory = none) fun result =>
          Store.SameBelow before.store.vars.size store result ∧
            Holds after.store.vars.size result access expression

/-- The node stands for nothing in an expression. -/
def Tree.IsSilent (tree : Tree) : Prop :=
  ∀ before, Makes (Assembly.expression "array" tree) before ([], none) before

/-- What nodes in a row stand for: operands, operators, or nothing. -/
inductive Parts : List Tree → List Expression → List ArithmeticOp → Prop
  | nil : Parts [] [] []
  | operand {tree : Tree} {trees : List Tree} {expression : Expression}
      {expressions : List Expression} {operators : List ArithmeticOp}
      (hnot : tree.arithmeticOp? = none)
      (hcomputes : Computes (Assembly.expression "array" tree) expression)
      (hrest : Parts trees expressions operators) :
      Parts (tree :: trees) (expression :: expressions) operators
  | operator {tree : Tree} {trees : List Tree} {expressions : List Expression}
      {operator : ArithmeticOp} {operators : List ArithmeticOp}
      (hoperator : tree.arithmeticOp? = some operator)
      (hrest : Parts trees expressions operators) :
      Parts (tree :: trees) expressions (operator :: operators)
  | silent {tree : Tree} {trees : List Tree} {expressions : List Expression}
      {operators : List ArithmeticOp} (hnot : tree.arithmeticOp? = none) (hsilent : tree.IsSilent)
      (hrest : Parts trees expressions operators) : Parts (tree :: trees) expressions operators

/-- The operands of a row are held all at once. -/
theorem exists_rowOf {trees : List Tree} {expressions : List Expression}
    {operators : List ArithmeticOp} (h : Parts trees expressions operators) {before : Assembly}
    (hsound : before.store.Sound) :
    ∃ row after actions, Makes (rowOf "array" trees) before row after ∧
      row.operators = operators ∧ row.operands.length = expressions.length ∧
      Gains before after row.order actions ∧
      ∀ store : Store, store.Hosts after.store →
        Silently store actions (∃ expression ∈ expressions, expression.value? store.memory = none)
          fun result => Store.SameBelow before.store.vars.size store result ∧
            List.Forall₂ (Holds after.store.vars.size result) row.operands expressions := by
  induction h generalizing before with
  | nil =>
    refine ⟨{}, before, [], ?_, rfl, rfl, .nil hsound, fun store hhosts => ?_⟩
    · unfold rowOf
      exact makes_pure.mpr ⟨rfl, rfl⟩
    · exact .nil ⟨.refl _ _, .nil⟩
  | @operand tree trees expression expressions operators hnot hcomputes hrest ih =>
    obtain ⟨order, access, between, actions, hmakes, hgains, hruns⟩ := hcomputes before hsound
    obtain ⟨row, after, more, hrow, hoperators, hcount, hgainsRest, hrunsRest⟩ := ih hgains.sound
    refine ⟨{ row with order := order ++ row.order, operands := access :: row.operands }, after,
      actions ++ more, ?_, hoperators, congrArg Nat.succ hcount, hgains.append hgainsRest,
      fun store hhosts => ?_⟩
    · unfold rowOf
      rw [hnot]
      exact makes_bind.mpr
        ⟨_, _, hmakes, makes_bind.mpr ⟨_, _, hrow, makes_pure.mpr ⟨rfl, rfl⟩⟩⟩
    have hle := hgains.size_le
    have hleRest := hgainsRest.size_le
    refine ((hruns store (hhosts.of_grows hgainsRest.grows)).imp
      (fun hnone => ⟨expression, .head _, hnone⟩) fun _ h => h).append fun next hnext => ?_
    obtain ⟨hsame, hholds⟩ := hnext
    refine (hrunsRest next (hhosts.of_shape hsame.shape)).imp (fun hnone => ?_) fun last hlast => ?_
    · obtain ⟨other, hother, hnone⟩ := hnone
      rw [hsame.memory] at hnone
      exact ⟨other, .tail _ hother, hnone⟩
    · exact ⟨hsame.trans (hlast.1.mono hle), .cons (hholds.later hlast.1 hleRest) hlast.2⟩
  | @operator tree trees expressions operator operators hoperator hrest ih =>
    obtain ⟨row, after, actions, hrow, hoperators, hcount, hgains, hruns⟩ := ih hsound
    refine ⟨{ row with operators := operator :: row.operators }, after, actions, ?_,
      by rw [hoperators], hcount, hgains, hruns⟩
    unfold rowOf
    rw [hoperator]
    exact makes_bind.mpr ⟨_, _, hrow, makes_pure.mpr ⟨rfl, rfl⟩⟩
  | @silent tree trees expressions operators hnot hsilent hrest ih =>
    obtain ⟨row, after, actions, hrow, hoperators, hcount, hgains, hruns⟩ := ih hsound
    refine ⟨row, after, actions, ?_, hoperators, hcount, hgains, hruns⟩
    unfold rowOf
    rw [hnot]
    exact makes_bind.mpr
      ⟨_, _, hsilent before, makes_bind.mpr ⟨_, _, hrow, makes_pure.mpr ⟨rfl, rfl⟩⟩⟩

theorem holdsAll_zip {bound : Nat} {store : Store} {operands : List Access}
    {expressions : List Expression} (h : List.Forall₂ (Holds bound store) operands expressions)
    (operators : List ArithmeticOp) :
    HoldsAll bound store (operators.zip operands) (operators.zip expressions) := by
  induction h generalizing operators with
  | nil =>
    rw [List.zip_nil_right, List.zip_nil_right]
    exact .nil
  | cons hfirst hrest ih =>
    cases operators with
    | nil => exact .nil
    | cons operator operators => exact .cons ⟨rfl, hfirst⟩ (ih operators)

theorem value?_row_of_none {memory : Memory} {first expression : Expression}
    {others : List Expression} {operators : List ArithmeticOp}
    (hlength : others.length = operators.length) (hmem : expression ∈ first :: others)
    (h : expression.value? memory = none) :
    (first.applyAll (operators.zip others)).value? memory = none := by
  rcases List.mem_cons.mp hmem with rfl | hother
  · exact Expression.value?_applyAll_of_none h _
  · have hzip : expression ∈ (operators.zip others).map Prod.snd := by
      rwa [List.map_snd_zip (Nat.le_of_eq hlength)]
    obtain ⟨⟨operator, _⟩, hpair, rfl⟩ := List.mem_map.mp hzip
    exact Expression.value?_applyAll_of_mem hpair h

theorem computes_rowValue {trees : List Tree} {first : Expression} {others : List Expression}
    {operators : List ArithmeticOp} (h : Parts trees (first :: others) operators)
    (hlength : others.length = operators.length) (line : Nat) :
    Computes (rowValue "array" line trees) (first.applyAll (operators.zip others)) := by
  intro before hsound
  obtain ⟨row, between, actions, hrow, hoperators, hcount, hgains, hruns⟩ := exists_rowOf h hsound
  obtain ⟨order, operands, rowOperators⟩ := row
  obtain rfl : rowOperators = operators := hoperators
  obtain ⟨firstAccess, otherAccesses, rfl⟩ := List.exists_cons_of_length_eq_add_one hcount
  have hcount : otherAccesses.length = rowOperators.length :=
    (Nat.succ.inj hcount).trans hlength
  obtain ⟨applied, access, after, more, happly, hgainsRest, hrunsRest⟩ :=
    exists_applyAll (rowOperators.zip otherAccesses) hgains.sound firstAccess
  refine ⟨order ++ applied, access, after, actions ++ more, ?_, hgains.append hgainsRest,
    fun store hhosts => ?_⟩
  · refine makes_bind.mpr ⟨_, _, hrow, makes_ite_throw.mpr ⟨not_not.mpr hcount, ?_⟩⟩
    exact makes_bind.mpr ⟨_, _, happly, makes_pure.mpr ⟨rfl, rfl⟩⟩
  refine ((hruns store (hhosts.of_grows hgainsRest.grows)).imp (fun hnone => ?_)
    fun _ h => h).append fun next hnext => ?_
  · obtain ⟨expression, hmem, hnone⟩ := hnone
    exact value?_row_of_none hlength hmem hnone
  obtain ⟨hsame, hholds⟩ := hnext
  cases hholds with
  | cons hfirst hothers =>
    refine (hrunsRest next (hhosts.of_shape hsame.shape) first _ hfirst
      (holdsAll_zip hothers rowOperators)).imp (fun hnone => ?_) fun last hlast => ?_
    · rw [hsame.memory] at hnone
      exact hnone
    · exact ⟨hsame.trans (hlast.1.mono hgains.size_le), hlast.2⟩

/-! ## Variables, constants and elements -/

structure Tree.Names (tree : Tree) (name : String) : Prop where
  isProgramName : IsProgramName name
  makes : ∀ before : Assembly, before.store.Sound → ∃ id after,
    Makes (Assembly.expression "array" tree) before ([], some (.ofVariable id)) after ∧
      Gains before after [] [] ∧ after.store.idOf? name = some id

theorem Store.Hosts.fits {store made : Store} (h : store.Hosts made) (access : Access)
    (index : Option Expression) {name : String} {id : VariableId} (hname : IsProgramName name)
    (hid : made.idOf? name = some id) (hbase : access.base = .variable id)
    (hslot : Operand.slot? store access.index = slot? store.memory index) :
    Fits store access (.ofName name index) :=
  .of_place h.sound hname hbase (h.idOf name hname id hid) hslot

/-- Assembling makes an access to a variable or an element of one, the index of which is computed
by the actions. -/
def Targets (assembling : Assembling (Order × Option Access)) (name : String)
    (index : Option Expression) : Prop :=
  ∀ before : Assembly, before.store.Sound → ∃ order access after actions,
    Makes assembling before (order, some access) after ∧ access.variableId?.isSome ∧
      Gains before after order actions ∧
      ∀ store : Store, store.Hosts after.store →
        Silently store actions (slot? store.memory index = none) fun result =>
          Store.SameBelow before.store.vars.size store result ∧
            Holds after.store.vars.size result access (.ofName name index)

theorem Targets.computes {assembling : Assembling (Order × Option Access)} {name : String}
    {index : Option Expression} (h : Targets assembling name index) :
    Computes assembling (.ofName name index) := by
  intro before hsound
  obtain ⟨order, access, after, actions, hmakes, -, hgains, hruns⟩ := h before hsound
  refine ⟨order, access, after, actions, hmakes, hgains, fun store hhosts => ?_⟩
  refine (hruns store hhosts).imp (fun hnone => ?_) fun _ h => h
  rw [Expression.value?_ofName, hnone]
  rfl

theorem targets_variable {tree : Tree} {name : String} (h : tree.Names name) :
    Targets (Assembly.expression "array" tree) name none := by
  intro before hsound
  obtain ⟨id, after, hmakes, hgains, hid⟩ := h.makes before hsound
  refine ⟨[], _, after, [], hmakes, rfl, hgains, fun store hhosts => .nil ⟨.refl _ _, ?_⟩⟩
  intro last hlast
  exact (hhosts.of_shape hlast.shape).fits (.ofVariable id) none h.isProgramName hid rfl rfl

theorem computes_constant {assembling : Assembling (Order × Option Access)} {value : Value}
    (h : ∀ before, Makes assembling before ([], some (.ofConstant value)) before) :
    Computes assembling (.constant value) := by
  intro before hsound
  refine ⟨[], _, before, [], h before, .nil hsound, fun store hhosts => .nil ⟨.refl _ _, ?_⟩⟩
  intro last hlast
  refine ⟨rfl, rfl, fun name index heq => ?_⟩
  cases index <;> cases heq

/-- An index becomes an operand that keeps the value of the index. -/
theorem exists_indexOperand {before : Assembly} (hsound : before.store.Sound) (index : Access) :
    ∃ order operand after actions, Makes (indexOperand index) before (order, operand) after ∧
      Gains before after order actions ∧
      ∀ store : Store, store.Hosts after.store → ∀ expression,
        Holds before.store.vars.size store index expression →
        Silently store actions (expression.value? store.memory = none) fun result =>
          Store.SameBelow before.store.vars.size store result ∧
            ∀ last, Store.SameBelow after.store.vars.size result last →
              operand.value? last = expression.value? store.memory := by
  by_cases hindexed : index.index.isSome
  · obtain ⟨id, after, hmakes, hgains, hsize, hspare⟩ := exists_toTemporary hsound index none
    refine ⟨[id], .variable before.store.vars.size, after, _, ?_, hgains,
      fun store hhosts expression hholds => ?_⟩
    · unfold indexOperand
      rw [if_pos hindexed]
      exact makes_bind.mpr ⟨_, _, hmakes, makes_pure.mpr ⟨rfl, rfl⟩⟩
    have hvalue : assigned? store index none none = expression.value? store.memory :=
      hholds.fits.value
    refine (silently_assign (hhosts.spare _ hspare) index none none).imp
      (fun hnone => hvalue ▸ hnone) fun result hresult => ⟨hresult.1, fun last hlast => ?_⟩
    rw [← hvalue, ← hresult.2 last (hsize ▸ hlast)]
    exact (@Program.value?_of_index last (.ofVariable _) rfl).symm
  · have hnone : index.index = none := Option.not_isSome_iff_eq_none.mp hindexed
    refine ⟨[], index.base, before, [], ?_, .nil hsound, fun store hhosts expression hholds => ?_⟩
    · unfold indexOperand
      rw [if_neg hindexed]
      exact makes_pure.mpr ⟨rfl, rfl⟩
    refine .nil ⟨.refl _ _, fun last hlast => ?_⟩
    rw [← Program.value?_of_index hnone]
    exact hholds.holdsValue last hlast

/-- An element of an array is accessed with its index computed before. -/
theorem targets_element {array index first second : Tree} {name : String}
    {expression : Expression} (harray : array.Names name)
    (hindex : Computes (Assembly.expression "array" index) expression) (token : Option Token)
    (completion : Completion) (closed : Bool) (line : Nat) :
    Targets (Assembly.expression "array"
      ⟨"array", token, completion, closed, line, [array, first, index, second]⟩)
      name (some expression) := by
  intro before hsound
  obtain ⟨id, named, hnamed, hgainsName, hid⟩ := harray.makes before hsound
  obtain ⟨order, access, computed, actions, hmakes, hgainsIndex, hruns⟩ :=
    hindex named hgainsName.sound
  obtain ⟨copies, operand, after, more, hcopies, hgainsCopy, hrunsCopy⟩ :=
    exists_indexOperand hgainsIndex.sound access
  have hgains := (hgainsName.append hgainsIndex).append hgainsCopy
  refine ⟨_, ⟨.variable id, some operand⟩, after, _, ?_, rfl, hgains, fun store hhosts => ?_⟩
  · unfold Assembly.expression
    refine makes_ite.mpr (.inr ⟨by simp, makes_ite.mpr (.inl ⟨rfl, ?_⟩)⟩)
    refine makes_bind.mpr ⟨_, _, hnamed, makes_require_bind.mpr ⟨_, rfl, ?_⟩⟩
    refine makes_ite_throw.mpr ⟨by simp, makes_bind.mpr ⟨_, _, hmakes, ?_⟩⟩
    exact makes_require_bind.mpr
      ⟨_, rfl, makes_bind.mpr ⟨_, _, hcopies, makes_pure.mpr ⟨rfl, rfl⟩⟩⟩
  have hslot : ∀ memory, slot? memory (some expression) =
      (expression.value? memory).bind Value.toIndex? := fun _ => rfl
  have hindexHosts := hhosts.of_grows hgainsCopy.grows
  refine ((hruns store hindexHosts).imp (fun hnone => by rw [hslot, hnone]; rfl)
    fun _ h => h).append fun next hnext => ?_
  obtain ⟨hsame, hholds⟩ := hnext
  refine (hrunsCopy next (hhosts.of_shape hsame.shape) expression hholds).imp (fun hnone => ?_)
    fun result hresult => ?_
  · rw [hslot, ← hsame.memory, hnone]
    rfl
  obtain ⟨hcopied, hoperand⟩ := hresult
  have hbelow := (hsame.mono hgainsName.size_le).trans
    (hcopied.mono (Nat.le_trans hgainsName.size_le hgainsIndex.size_le))
  refine ⟨hbelow, fun last hlast => ?_⟩
  have hlastHosts := hindexHosts.of_shape ((hbelow.shape).trans hlast.shape)
  refine (hlastHosts.of_grows hgainsIndex.grows).fits ⟨.variable id, some operand⟩
    (some expression) harray.isProgramName hid rfl ?_
  have hmemory : last.memory = next.memory := by
    rw [hlast.memory, hcopied.memory]
  rw [Operand.slot?, Program.toOption_indexOf_some, hoperand last hlast, hslot, hmemory]

end LineGrammar
