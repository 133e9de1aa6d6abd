import LineGrammar.Program.OfTree
import LineGrammar.Proofs.Program.Assembling
import LineGrammar.Proofs.Store.Making

/-!
# How blocks lie in the statements

`Occupies` says where the statements of an order are: behind all that were emitted before, which stay
as they are. `Block.Laid` says which actions the statements of a block have in the end, when all
branches have been set. Whatever a node becomes is laid out like this.
-/

namespace LineGrammar.Assembly

/-- The statements of the order have been emitted, and those before are as they were. -/
structure Occupies (before : Assembly) (order : Order) (after : Assembly) : Prop where
  size_le : before.statements.size ≤ after.statements.size
  keeps : ∀ id < before.statements.size, after.statements[id]? = before.statements[id]?
  within : ∀ id : Nat, id ∈ order → before.statements.size ≤ id ∧ id < after.statements.size
  nodup : order.Nodup

namespace Occupies

variable {before between after : Assembly} {order others : Order}

theorem nil (assembly : Assembly) : Occupies assembly [] assembly :=
  ⟨Nat.le_refl _, fun _ _ => rfl, by simp, List.nodup_nil⟩

theorem append (hfirst : Occupies before order between) (hnext : Occupies between others after) :
    Occupies before (order ++ others) after where
  size_le := Nat.le_trans hfirst.size_le hnext.size_le
  keeps id hid := by
    rw [hnext.keeps id (by have := hfirst.size_le; omega), hfirst.keeps id hid]
  within id hid := by
    have hsizes := hfirst.size_le
    have hlater := hnext.size_le
    rcases List.mem_append.mp hid with h | h
    · have := hfirst.within id h
      omega
    · have := hnext.within id h
      omega
  nodup := by
    refine List.nodup_append.mpr ⟨hfirst.nodup, hnext.nodup, fun id hid other hother => ?_⟩
    have := hfirst.within id hid
    have := hnext.within other hother
    exact Nat.ne_of_lt (by omega)

theorem perm (h : Occupies before order after) (hperm : others.Perm order) :
    Occupies before others after where
  size_le := h.size_le
  keeps := h.keeps
  within id hid := h.within id (hperm.mem_iff.mp hid)
  nodup := hperm.nodup_iff.mpr h.nodup

theorem of_emitsPlain (h : EmitsPlain before order after) : Occupies before order after := by
  obtain ⟨actions, hemits, -⟩ := h
  have hsize : after.statements.size = before.statements.size + actions.length := by
    rw [hemits.statements]
    simp
  refine ⟨by omega, fun id hid => ?_, fun id hid => ?_, ?_⟩
  · rw [hemits.statements, Array.getElem?_append_left hid]
  · rw [hemits.order, List.mem_range'_1] at hid
    omega
  · rw [hemits.order]
    exact List.nodup_range'

theorem of_emit {action : Action} {id : StatementId} (h : Makes (emit action) before id after) :
    Occupies before [id] after := by
  obtain ⟨rfl, rfl⟩ := makes_emit.mp h
  refine ⟨by simp, fun id hid => ?_, fun id hid => ?_, List.nodup_singleton _⟩
  · rw [Array.getElem?_push_lt hid, Array.getElem?_eq_getElem hid]
  · obtain rfl := List.mem_singleton.mp hid
    simp

theorem setAt (h : Occupies before order after) {id : StatementId}
    (hid : before.statements.size ≤ id) (action : Action) :
    Occupies before order (after.setAt id action) where
  size_le := by
    rw [Assembly.setAt, Array.size_modify]
    exact h.size_le
  keeps other hother := by
    rw [Assembly.setAt, Array.getElem?_modify, if_neg (by omega), h.keeps other hother]
  within other hother := by
    rw [Assembly.setAt, Array.size_modify]
    exact h.within other hother
  nodup := h.nodup

end Occupies

/-! ## Actions -/

section

variable {before after : Assembly}

theorem actionAt?_setAt_self {id : Nat} (hid : id < before.statements.size)
    (action : Action) : actionAt? (before.setAt id action).statements id = some action := by
  rw [actionAt?, setAt, Array.getElem?_modify, if_pos rfl, Array.getElem?_eq_getElem hid]
  rfl

theorem actionAt?_setAt_of_ne {id other : StatementId} (h : other ≠ id) (action : Action) :
    actionAt? (before.setAt id action).statements other = actionAt? before.statements other := by
  rw [actionAt?, setAt, Array.getElem?_modify, if_neg h.symm, actionAt?]

theorem actionAt?_emit {action : Action} {id : StatementId}
    (h : Makes (emit action) before id after) :
    actionAt? after.statements id = some action := by
  obtain ⟨rfl, rfl⟩ := makes_emit.mp h
  simp [actionAt?]

theorem Occupies.actionAt? {order : Order} (h : Occupies before order after) {id : StatementId}
    (hid : id < before.statements.size) :
    actionAt? after.statements id = actionAt? before.statements id := by
  rw [LineGrammar.actionAt?, h.keeps id hid, LineGrammar.actionAt?]

/-- The statements of the order, but for those that were changed afterwards, have in the table the
actions that they were emitted with. -/
def AgreesOutside (changed : List StatementId) (table : Array Statement) (order : Order)
    (emitted : Assembly) : Prop :=
  ∀ id ∈ order, id ∉ changed → LineGrammar.actionAt? table id = actionAt? emitted.statements id

theorem AgreesOutside.of_setAt {changed : List StatementId} {table : Array Statement}
    {order : Order} {id : StatementId} {action : Action}
    (h : AgreesOutside changed table order (after.setAt id action)) :
    AgreesOutside (id :: changed) table order after := by
  intro other hother hchanged
  rw [List.mem_cons, not_or] at hchanged
  rw [h other hother hchanged.2, actionAt?_setAt_of_ne hchanged.1]

theorem AgreesOutside.part {changed : List StatementId} {table : Array Statement}
    {order part later : Order} {emitted : Assembly}
    (h : AgreesOutside changed table order emitted) (hpart : Occupies before part after)
    (hlater : Occupies after later emitted) (hsubset : part ⊆ order)
    (hchanged : ∀ id : Nat, id ∈ changed →
      id < before.statements.size ∨ after.statements.size ≤ id) :
    ∀ id ∈ part, LineGrammar.actionAt? table id = actionAt? after.statements id := by
  intro id hid
  obtain ⟨hfrom, hto⟩ := hpart.within id hid
  have hkept : id ∉ changed := fun hmem => by
    have := hchanged id hmem
    omega
  rw [h id (hsubset hid) hkept, hlater.actionAt? hto]

end

/-- No statement of the order jumps. -/
def LineLaid (table : Array Statement) (order : Order) : Prop :=
  ∀ id ∈ order, ∃ action, actionAt? table id = some action ∧ action.IsPlain

theorem LineLaid.of_emitsPlain {before after : Assembly} {order : Order}
    (h : EmitsPlain before order after) : LineLaid after.statements order := by
  obtain ⟨actions, hemits, hplain⟩ := h
  intro (id : Nat) hid
  rw [hemits.order, List.mem_range'_1] at hid
  obtain ⟨offset, rfl⟩ : ∃ offset, id = before.statements.size + offset :=
    ⟨id - before.statements.size, by omega⟩
  have hoffset : offset < actions.length := by omega
  refine ⟨actions[offset], ?_, hplain _ (List.getElem_mem hoffset)⟩
  rw [actionAt?, hemits.statements, Array.getElem?_append_right (by omega)]
  simp [hoffset]

theorem LineLaid.congr {table other : Array Statement} {order : Order}
    (h : LineLaid table order) (hsame : ∀ id ∈ order, actionAt? other id = actionAt? table id) :
    LineLaid other order := by
  intro id hid
  obtain ⟨action, haction, hplain⟩ := h id hid
  exact ⟨action, by rw [hsame id hid, haction], hplain⟩

/-! ## Blocks -/

theorem Block.perm_round (body evaluation : Order) (back : StatementId) :
    (round body evaluation back).Perm (body ++ (evaluation ++ [back])) := by
  have hbody : body.dropLast ++ body.getLast?.toList = body := by
    cases hlast : body.getLast? with
    | none =>
      obtain rfl := List.getLast?_eq_none_iff.mp hlast
      rfl
    | some last => exact List.dropLast_append_getLast? last hlast
  unfold round
  rw [List.append_assoc body.dropLast, List.append_assoc]
  refine (List.perm_append_comm.append_left body.dropLast).trans ?_
  rw [← List.append_assoc, hbody]

/-- Both sides of the comparison have a variable of their own. -/
def Comparison.Apart (test : Comparison) : Prop :=
  ∃ left right, test.left = .ofVariable left ∧ test.right = .ofVariable right ∧ left ≠ right

/-- The statements of a block have the actions that they are to have. -/
def Block.Laid (table : Array Statement) : Block → Prop
  | .line order => LineLaid table order
  | .append first rest => first.Laid table ∧ rest.Laid table
  | .conditional test branch body =>
    test.Apart ∧ LineLaid table test.order ∧
      actionAt? table branch = some (test.branch body.order.head? body.order.getLast?) ∧
      body.order ≠ [] ∧ body.Laid table
  | .choice test branch body skip other exit =>
    test.Apart ∧ LineLaid table test.order ∧
      actionAt? table branch = some (test.branch body.order.head? other.order.head?) ∧
      actionAt? table skip = some (.goto (some exit)) ∧ actionAt? table exit = some .skip ∧
      body.order ≠ [] ∧ body.Laid table ∧ other.order ≠ [] ∧ other.Laid table
  | .whileLoop test branch body evaluation back =>
    test.Apart ∧ LineLaid table test.order ∧
      actionAt? table branch =
        some (test.branch (round body.order evaluation back).head? body.order.getLast?) ∧
      LineLaid table evaluation ∧ actionAt? table back = some (.goto (some branch)) ∧
      body.order ≠ [] ∧ body.Laid table
  | .repeatLoop start body test branch exit =>
    test.Apart ∧ actionAt? table start = some .skip ∧ LineLaid table test.order ∧
      actionAt? table branch = some (test.branch (some exit) (some start)) ∧
      actionAt? table exit = some .skip ∧ body.order ≠ [] ∧ body.Laid table

theorem Block.Laid.congr {table other : Array Statement} {block : Block} (h : block.Laid table)
    (hsame : ∀ id ∈ block.order, actionAt? other id = actionAt? table id) : block.Laid other := by
  induction block with
  | line order => exact LineLaid.congr h hsame
  | append first rest ihFirst ihRest =>
    exact ⟨ihFirst h.1 fun id hid => hsame id (List.mem_append_left _ hid),
      ihRest h.2 fun id hid => hsame id (List.mem_append_right _ hid)⟩
  | conditional test branch body ih =>
    obtain ⟨hapart, htest, hbranch, hne, hbody⟩ := h
    refine ⟨hapart, htest.congr fun id hid => hsame id ?_, ?_, hne,
      ih hbody fun id hid => hsame id ?_⟩
    · simp [order, hid]
    · rw [hsame branch (by simp [order]), hbranch]
    · simp [order, hid]
  | choice test branch body skip other exit ihBody ihOther =>
    obtain ⟨hapart, htest, hbranch, hskip, hexit, hne, hbody, hneOther, hother⟩ := h
    refine ⟨hapart, htest.congr fun id hid => hsame id ?_, ?_, ?_, ?_, hne,
      ihBody hbody fun id hid => hsame id ?_, hneOther,
      ihOther hother fun id hid => hsame id ?_⟩
    · simp [order, hid]
    · rw [hsame branch (by simp [order]), hbranch]
    · rw [hsame skip (by simp [order]), hskip]
    · rw [hsame exit (by simp [order]), hexit]
    · simp [order, hid]
    · simp [order, hid]
  | whileLoop test branch body evaluation back ih =>
    obtain ⟨hapart, htest, hbranch, heval, hback, hne, hbody⟩ := h
    refine ⟨hapart, htest.congr fun id hid => hsame id ?_, ?_,
      heval.congr fun id hid => hsame id ?_, ?_, hne, ih hbody fun id hid => hsame id ?_⟩
    · simp [order, hid]
    · rw [hsame branch (by simp [order]), hbranch]
    · simp [order, round, hid]
    · rw [hsame back (by simp [order, round]), hback]
    · rw [order, List.mem_append]
      exact .inr ((perm_round body.order evaluation back).mem_iff.mpr (by simp [hid]))
  | repeatLoop start body test branch exit ih =>
    obtain ⟨hapart, hstart, htest, hbranch, hexit, hne, hbody⟩ := h
    refine ⟨hapart, ?_, htest.congr fun id hid => hsame id ?_, ?_, ?_, hne,
      ih hbody fun id hid => hsame id ?_⟩
    · rw [hsame start (by simp [order]), hstart]
    · simp [order, hid]
    · rw [hsame branch (by simp [order]), hbranch]
    · rw [hsame exit (by simp [order]), hexit]
    · simp [order, hid]

/-! ## What nodes become -/

section

variable {names : StatementNames} {node : Tree} {before after : Assembly} {order : Order}

theorem emitsPlain_assignment (h : Makes (assignment names node) before order after) :
    EmitsPlain before order after := by
  unfold assignment at h
  obtain ⟨operator, -, hrest⟩ := makes_require_bind.mp h
  obtain ⟨-, hrest⟩ := makes_ite_throw.mp hrest
  obtain ⟨⟨targetOrder, target⟩, between, htarget, hrest⟩ := makes_bind.mp hrest
  obtain ⟨access, -, hrest⟩ := makes_require_bind.mp hrest
  obtain ⟨-, hrest⟩ := makes_ite_throw.mp hrest
  obtain ⟨⟨valueOrder, value⟩, next, hvalue, hrest⟩ := makes_bind.mp hrest
  obtain ⟨found, -, hrest⟩ := makes_require_bind.mp hrest
  obtain ⟨id, last, hemit, hpure⟩ := makes_bind.mp hrest
  obtain ⟨rfl, rfl⟩ := makes_pure.mp hpure
  obtain ⟨row, between, hrow, hof⟩ := makes_bind.mp hvalue
  have hvalue := emitsPlain_ofRow (emitsPlain_rowOf hrow) hof
  exact ((emitsPlain_expressionAt htarget).append hvalue).append
    (.emit hemit rfl)

theorem emitsPlain_output (h : Makes (output names node) before order after) :
    EmitsPlain before order after := by
  unfold output at h
  obtain ⟨⟨others, access⟩, between, hexpression, hrest⟩ := makes_bind.mp h
  obtain ⟨found, -, hrest⟩ := makes_require_bind.mp hrest
  obtain ⟨id, last, hemit, hpure⟩ := makes_bind.mp hrest
  obtain ⟨rfl, rfl⟩ := makes_pure.mp hpure
  exact (emitsPlain_expressionAt hexpression).append (.emit hemit rfl)

theorem emitsPlain_call (h : Makes (call names node) before order after) :
    EmitsPlain before order after := by
  unfold call at h
  obtain ⟨function, -, hrest⟩ := makes_require_bind.mp h
  obtain ⟨⟨others, argument⟩, between, hexpression, hrest⟩ := makes_bind.mp hrest
  obtain ⟨id, last, hemit, hpure⟩ := makes_bind.mp hrest
  obtain ⟨rfl, rfl⟩ := makes_pure.mp hpure
  exact (emitsPlain_expressionAt hexpression).append (.emit hemit rfl)

theorem order_ne_nil_of_assignment (h : Makes (assignment names node) before order after) :
    order ≠ [] := by
  unfold assignment at h
  obtain ⟨operator, -, hrest⟩ := makes_require_bind.mp h
  obtain ⟨-, hrest⟩ := makes_ite_throw.mp hrest
  obtain ⟨target, between, -, hrest⟩ := makes_bind.mp hrest
  obtain ⟨access, -, hrest⟩ := makes_require_bind.mp hrest
  obtain ⟨-, hrest⟩ := makes_ite_throw.mp hrest
  obtain ⟨value, next, -, hrest⟩ := makes_bind.mp hrest
  obtain ⟨found, -, hrest⟩ := makes_require_bind.mp hrest
  obtain ⟨id, last, -, hpure⟩ := makes_bind.mp hrest
  obtain ⟨rfl, -⟩ := makes_pure.mp hpure
  simp

theorem order_ne_nil_of_output (h : Makes (output names node) before order after) :
    order ≠ [] := by
  unfold output at h
  obtain ⟨value, between, -, hrest⟩ := makes_bind.mp h
  obtain ⟨found, -, hrest⟩ := makes_require_bind.mp hrest
  obtain ⟨id, last, -, hpure⟩ := makes_bind.mp hrest
  obtain ⟨rfl, -⟩ := makes_pure.mp hpure
  simp

theorem order_ne_nil_of_call (h : Makes (call names node) before order after) : order ≠ [] := by
  unfold call at h
  obtain ⟨function, -, hrest⟩ := makes_require_bind.mp h
  obtain ⟨value, between, -, hrest⟩ := makes_bind.mp hrest
  obtain ⟨id, last, -, hpure⟩ := makes_bind.mp hrest
  obtain ⟨rfl, -⟩ := makes_pure.mp hpure
  simp

theorem emitsPlain_comparison {test : Comparison}
    (h : Makes (comparison names node) before test after) :
    EmitsPlain before test.order after ∧ test.Apart := by
  unfold comparison at h
  obtain ⟨condition, -, hrest⟩ := makes_require_bind.mp h
  obtain ⟨⟨index, relation⟩, -, hrest⟩ := makes_require_bind.mp hrest
  obtain ⟨-, hrest⟩ := makes_ite_throw.mp hrest
  obtain ⟨-, hrest⟩ := makes_ite_throw.mp hrest
  obtain ⟨⟨leftOrder, left⟩, second, hleft, hrest⟩ := makes_bind.mp hrest
  obtain ⟨leftAccess, -, hrest⟩ := makes_require_bind.mp hrest
  obtain ⟨⟨rightOrder, right⟩, third, hright, hrest⟩ := makes_bind.mp hrest
  obtain ⟨rightAccess, -, hrest⟩ := makes_require_bind.mp hrest
  obtain ⟨⟨leftId, leftSide⟩, fourth, hleftSide, hrest⟩ := makes_bind.mp hrest
  obtain ⟨⟨rightId, rightSide⟩, fifth, hrightSide, hpure⟩ := makes_bind.mp hrest
  obtain ⟨rfl, rfl⟩ := makes_pure.mp hpure
  constructor
  · exact ((emitsPlain_expressionAt hleft).append (emitsPlain_expressionAt hright)).append
      ((emitsPlain_toTemporary hleftSide).append (emitsPlain_toTemporary hrightSide))
  · obtain ⟨-, rfl, rfl⟩ := makes_toTemporary.mp hleftSide
    obtain ⟨-, rfl, -⟩ := makes_toTemporary.mp hrightSide
    refine ⟨_, _, rfl, rfl, ?_⟩
    rw [third.store.size_vars_addTemporary]
    exact Nat.ne_of_lt (Nat.lt_succ_self _)

theorem emits_copies {originals : Order} {actions : List Action}
    (hactions : originals.map (actionAt? before.statements) = actions.map some)
    (h : Makes (copies originals) before order after) : Emits before order actions after := by
  induction originals generalizing before order actions with
  | nil =>
    obtain rfl : actions = [] := by simpa using hactions.symm
    unfold copies at h
    obtain ⟨rfl, rfl⟩ := makes_pure.mp h
    exact .nil rfl
  | cons id originals ih =>
    obtain ⟨action, rest, rfl⟩ : ∃ action rest, actions = action :: rest := by
      cases actions with
      | nil => simp at hactions
      | cons action rest => exact ⟨action, rest, rfl⟩
    obtain ⟨hid, hrest⟩ := List.cons.inj hactions
    obtain ⟨statement, hstatement, rfl⟩ := Option.map_eq_some_iff.mp hid
    unfold copies at h
    obtain ⟨assembly, start, hget, hcopy⟩ := makes_bind.mp h
    obtain ⟨rfl, rfl⟩ := makes_get.mp hget
    rw [hstatement] at hcopy
    obtain ⟨copy, between, hemit, hcopies⟩ := makes_bind.mp hcopy
    obtain ⟨others, last, hothers, hpure⟩ := makes_bind.mp hcopies
    obtain ⟨rfl, rfl⟩ := makes_pure.mp hpure
    refine (Emits.emit hemit).append (ih ?_ hothers)
    rw [← hrest]
    refine List.map_congr_left fun other hother => ?_
    have hfound : actionAt? before.statements other ∈ rest.map some := by
      rw [← hrest]
      exact List.mem_map_of_mem hother
    obtain ⟨action, -, haction⟩ := List.mem_map.mp hfound
    obtain ⟨found, hstatement, -⟩ := Option.map_eq_some_iff.mp haction.symm
    exact (Occupies.of_emit hemit).actionAt? (Array.getElem?_eq_some_iff.mp hstatement).1

theorem emitsPlain_copies {originals : Order} (hplain : LineLaid before.statements originals)
    (h : Makes (copies originals) before order after) : EmitsPlain before order after := by
  have hactions : ∃ actions : List Action,
      originals.map (actionAt? before.statements) = actions.map some ∧
      ∀ action ∈ actions, action.IsPlain := by
    clear h
    induction originals with
    | nil => exact ⟨[], rfl, by simp⟩
    | cons id originals ih =>
      obtain ⟨actions, hactions, hall⟩ := ih fun other hother => hplain other (.tail _ hother)
      obtain ⟨action, haction, hone⟩ := hplain id (.head _)
      refine ⟨action :: actions, by rw [List.map_cons, List.map_cons, haction, hactions], ?_⟩
      exact List.forall_mem_cons.mpr ⟨hone, hall⟩
  obtain ⟨actions, hactions, hall⟩ := hactions
  exact ⟨actions, emits_copies hactions h, hall⟩

end

/-- A block has been emitted, and lies in the statements as it should. -/
structure Places (before : Assembly) (block : Block) (after : Assembly) : Prop where
  occupies : Occupies before block.order after
  laid : block.Laid after.statements

namespace Places

variable {before first second third fourth fifth last : Assembly} {test : Comparison}
  {branch start skip exit back : StatementId} {body other : Block} {action : Action}

theorem line {order : Order} (h : EmitsPlain before order last) :
    Places before (.line order) last :=
  ⟨.of_emitsPlain h, .of_emitsPlain h⟩

theorem append (hbody : Places before body first) (hother : Places first other last) :
    Places before (.append body other) last where
  occupies := hbody.occupies.append hother.occupies
  laid := by
    refine ⟨hbody.laid.congr fun id hid => ?_, hother.laid⟩
    exact hother.occupies.actionAt? (hbody.occupies.within id hid).2

theorem conditional (htest : EmitsPlain before test.order first) (hapart : test.Apart)
    (hbranch : Makes (emit action) first branch second) (hbody : Places second body third)
    (hne : body.order ≠ []) :
    Places before (.conditional test branch body)
      (third.setAt branch (test.branch body.order.head? body.order.getLast?)) := by
  have htests := Occupies.of_emitsPlain htest
  have hbranches := Occupies.of_emit hbranch
  obtain ⟨hfrom, hto⟩ := hbranches.within branch (.head _)
  have hafter := hbody.occupies.size_le
  have hbefore := htests.size_le
  constructor
  · exact ((htests.append hbranches).append hbody.occupies).setAt (by omega) _
  · refine ⟨hapart, (LineLaid.of_emitsPlain htest).congr fun id hid => ?_, ?_, hne,
      hbody.laid.congr fun id hid => ?_⟩
    · have hid := (htests.within id hid).2
      rw [actionAt?_setAt_of_ne (Nat.ne_of_lt (by omega)),
        (hbranches.append hbody.occupies).actionAt? hid]
    · exact actionAt?_setAt_self (by omega) _
    · have hid := (hbody.occupies.within id hid).1
      exact actionAt?_setAt_of_ne (Nat.ne_of_gt (by omega)) _

theorem choice {more : Action} (htest : EmitsPlain before test.order first) (hapart : test.Apart)
    (hbranch : Makes (emit action) first branch second) (hbody : Places second body third)
    (hne : body.order ≠ []) (hskip : Makes (emit more) third skip fourth)
    (hother : Places fourth other fifth) (hneOther : other.order ≠ [])
    (hexit : Makes (emit .skip) fifth exit last) :
    Places before (.choice test branch body skip other exit)
      ((last.setAt skip (.goto (some exit))).setAt branch
        (test.branch body.order.head? other.order.head?)) := by
  have htests := Occupies.of_emitsPlain htest
  have hbranches := Occupies.of_emit hbranch
  have hskips := Occupies.of_emit hskip
  have hexits := Occupies.of_emit hexit
  obtain ⟨hbranchFrom, hbranchTo⟩ := hbranches.within branch (.head _)
  obtain ⟨hskipFrom, hskipTo⟩ := hskips.within skip (.head _)
  obtain ⟨hexitFrom, hexitTo⟩ := hexits.within exit (.head _)
  have hbefore := htests.size_le
  have hbodies := hbody.occupies.size_le
  have hothers := hother.occupies.size_le
  have hlater := (hskips.append hother.occupies).append hexits
  have hset : ∀ id : Nat, id ≠ skip → id ≠ branch →
      actionAt? ((last.setAt skip (.goto (some exit))).setAt branch
        (test.branch body.order.head? other.order.head?)).statements id =
        actionAt? last.statements id := fun id hneSkip hneBranch => by
    rw [actionAt?_setAt_of_ne hneBranch, actionAt?_setAt_of_ne hneSkip]
  constructor
  · exact (((((htests.append hbranches).append hbody.occupies).append hskips).append
      hother.occupies).append hexits |>.setAt (by omega) _).setAt (by omega) _
  · refine ⟨hapart, (LineLaid.of_emitsPlain htest).congr fun id hid => ?_, ?_, ?_, ?_, hne,
      hbody.laid.congr fun id hid => ?_, hneOther, hother.laid.congr fun id hid => ?_⟩
    · have hid := (htests.within id hid).2
      rw [hset id (Nat.ne_of_lt (by omega)) (Nat.ne_of_lt (by omega)),
        ((hbranches.append hbody.occupies).append hlater).actionAt? hid]
    · refine actionAt?_setAt_self ?_ _
      rw [setAt, Array.size_modify]
      omega
    · rw [actionAt?_setAt_of_ne (Nat.ne_of_gt (by omega))]
      exact actionAt?_setAt_self (by omega) _
    · rw [hset exit (Nat.ne_of_gt (by omega)) (Nat.ne_of_gt (by omega)), actionAt?_emit hexit]
    · have hid := hbody.occupies.within id hid
      rw [hset id (Nat.ne_of_lt (by omega)) (Nat.ne_of_gt (by omega)), hlater.actionAt? hid.2]
    · have hid := hother.occupies.within id hid
      rw [hset id (Nat.ne_of_gt (by omega)) (Nat.ne_of_gt (by omega)), hexits.actionAt? hid.2]

theorem whileLoop {evaluation : Order} (htest : EmitsPlain before test.order first)
    (hapart : test.Apart) (hbranch : Makes (emit action) first branch second)
    (hbody : Places second body third) (hne : body.order ≠ [])
    (hevaluation : EmitsPlain third evaluation fourth)
    (hback : Makes (emit (.goto (some branch))) fourth back fifth) :
    Places before (.whileLoop test branch body evaluation back)
      (fifth.setAt branch
        (test.branch (Block.round body.order evaluation back).head? body.order.getLast?)) := by
  have htests := Occupies.of_emitsPlain htest
  have hbranches := Occupies.of_emit hbranch
  have hevaluations := Occupies.of_emitsPlain hevaluation
  have hbacks := Occupies.of_emit hback
  obtain ⟨hbranchFrom, hbranchTo⟩ := hbranches.within branch (.head _)
  obtain ⟨hbackFrom, hbackTo⟩ := hbacks.within back (.head _)
  have hbefore := htests.size_le
  have hbodies := hbody.occupies.size_le
  have hcopies := hevaluations.size_le
  have hlater := hevaluations.append hbacks
  constructor
  · refine (((htests.append hbranches).append (hbody.occupies.append hlater)).perm ?_).setAt
      (by omega) _
    exact (Block.perm_round body.order evaluation back).append_left _
  · refine ⟨hapart, (LineLaid.of_emitsPlain htest).congr fun id hid => ?_, ?_,
      (LineLaid.of_emitsPlain hevaluation).congr fun id hid => ?_, ?_, hne,
      hbody.laid.congr fun id hid => ?_⟩
    · have hid := (htests.within id hid).2
      rw [actionAt?_setAt_of_ne (Nat.ne_of_lt (by omega)),
        (hbranches.append (hbody.occupies.append hlater)).actionAt? hid]
    · exact actionAt?_setAt_self (by omega) _
    · have hid := hevaluations.within id hid
      rw [actionAt?_setAt_of_ne (Nat.ne_of_gt (by omega)), hbacks.actionAt? hid.2]
    · rw [actionAt?_setAt_of_ne (Nat.ne_of_gt (by omega)), actionAt?_emit hback]
    · have hid := hbody.occupies.within id hid
      rw [actionAt?_setAt_of_ne (Nat.ne_of_gt (by omega)), hlater.actionAt? hid.2]

theorem repeatLoop (hstart : Makes (emit .skip) before start first)
    (hbody : Places first body second) (hne : body.order ≠ [])
    (htest : EmitsPlain second test.order third) (hapart : test.Apart)
    (hbranch : Makes (emit action) third branch fourth)
    (hexit : Makes (emit .skip) fourth exit last) :
    Places before (.repeatLoop start body test branch exit)
      (last.setAt branch (test.branch (some exit) (some start))) := by
  have hstarts := Occupies.of_emit hstart
  have htests := Occupies.of_emitsPlain htest
  have hbranches := Occupies.of_emit hbranch
  have hexits := Occupies.of_emit hexit
  obtain ⟨hstartFrom, hstartTo⟩ := hstarts.within start (.head _)
  obtain ⟨hbranchFrom, hbranchTo⟩ := hbranches.within branch (.head _)
  obtain ⟨hexitFrom, hexitTo⟩ := hexits.within exit (.head _)
  have hbodies := hbody.occupies.size_le
  have hlines := htests.size_le
  have hlater := htests.append (hbranches.append hexits)
  constructor
  · exact (((hstarts.append hbody.occupies).append htests).append
      (hbranches.append hexits)).setAt (by omega) _
  · refine ⟨hapart, ?_, (LineLaid.of_emitsPlain htest).congr fun id hid => ?_, ?_, ?_, hne,
      hbody.laid.congr fun id hid => ?_⟩
    · rw [actionAt?_setAt_of_ne (Nat.ne_of_lt (by omega)),
        (hbody.occupies.append hlater).actionAt? hstartTo, actionAt?_emit hstart]
    · have hid := (htests.within id hid).2
      rw [actionAt?_setAt_of_ne (Nat.ne_of_lt (by omega)),
        (hbranches.append hexits).actionAt? hid]
    · exact actionAt?_setAt_self (by omega) _
    · rw [actionAt?_setAt_of_ne (Nat.ne_of_gt (by omega)), actionAt?_emit hexit]
    · have hid := (hbody.occupies.within id hid).2
      rw [actionAt?_setAt_of_ne (Nat.ne_of_lt (by omega)), hlater.actionAt? hid]

end Places

theorem isSome_of_blockOfFirst {names : StatementNames} {symbol : String} {trees : List Tree}
    {before after : Assembly} {found : Option Block}
    (h : Makes (blockOfFirst names symbol trees) before found after)
    (hany : trees.any (·.symbol == symbol) = true) : found.isSome := by
  induction trees with
  | nil => simp at hany
  | cons tree trees ih =>
    unfold blockOfFirst at h
    rcases makes_ite.mp h with ⟨-, hthis⟩ | ⟨hne, hlater⟩
    · obtain ⟨block, last, -, hpure⟩ := makes_bind.mp hthis
      obtain ⟨rfl, -⟩ := makes_pure.mp hpure
      rfl
    · refine ih hlater ?_
      simpa [hne] using hany

mutual

/-- Whatever a node becomes is laid out as it should be, and is not without statements. -/
theorem places_blockOf {names : StatementNames} :
    ∀ {tree : Tree} {before after : Assembly} {block : Block},
      Makes (blockOf names tree) before block after →
        Places before block after ∧ block.order ≠ []
  | ⟨symbol, token, completion, closed, line, children⟩, before, after, block, h => by
    unfold blockOf at h
    rcases makes_ite.mp h with ⟨-, hassign⟩ | ⟨-, h⟩
    · obtain ⟨order, last, hmakes, hpure⟩ := makes_bind.mp hassign
      obtain ⟨rfl, rfl⟩ := makes_pure.mp hpure
      exact ⟨.line (emitsPlain_assignment hmakes), order_ne_nil_of_assignment hmakes⟩
    rcases makes_ite.mp h with ⟨-, hconditional⟩ | ⟨-, h⟩
    · obtain ⟨test, first, htest, hrest⟩ := makes_bind.mp hconditional
      obtain ⟨branch, second, hbranch, hrest⟩ := makes_bind.mp hrest
      obtain ⟨found, third, hfirst, hrest⟩ := makes_bind.mp hrest
      obtain ⟨body, rfl, hbehind⟩ := makes_require_bind.mp hrest
      obtain ⟨hplain, hapart⟩ := emitsPlain_comparison htest
      obtain ⟨hbody, hne⟩ := places_blockOfFirst hfirst
      rcases makes_ite.mp hbehind with ⟨hany, hchoice⟩ | ⟨-, hwithout⟩
      · obtain ⟨skip, fourth, hskip, hrest⟩ := makes_bind.mp hchoice
        obtain ⟨other, fifth, hother, hrest⟩ := makes_bind.mp hrest
        obtain ⟨exit, last, hexit, hrest⟩ := makes_bind.mp hrest
        obtain ⟨_, between, hset, hrest⟩ := makes_bind.mp hrest
        obtain ⟨_, final, hagain, hpure⟩ := makes_bind.mp hrest
        obtain rfl := makes_setAction.mp hset
        obtain rfl := makes_setAction.mp hagain
        obtain ⟨rfl, rfl⟩ := makes_pure.mp hpure
        obtain ⟨block, rfl⟩ := Option.isSome_iff_exists.mp (isSome_of_blockOfFirst hother hany)
        obtain ⟨hothers, hneOther⟩ := places_blockOfFirst hother
        refine ⟨.choice hplain hapart hbranch hbody (hne body rfl) hskip hothers
          (hneOther block rfl) hexit, ?_⟩
        simp [Block.order]
      · obtain ⟨_, final, hset, hpure⟩ := makes_bind.mp hwithout
        obtain rfl := makes_setAction.mp hset
        obtain ⟨rfl, rfl⟩ := makes_pure.mp hpure
        refine ⟨.conditional hplain hapart hbranch hbody (hne body rfl), ?_⟩
        simp [Block.order]
    rcases makes_ite.mp h with ⟨-, hwhile⟩ | ⟨-, h⟩
    · obtain ⟨test, first, htest, hrest⟩ := makes_bind.mp hwhile
      obtain ⟨branch, second, hbranch, hrest⟩ := makes_bind.mp hrest
      obtain ⟨found, third, hfirst, hrest⟩ := makes_bind.mp hrest
      obtain ⟨body, rfl, hbehind⟩ := makes_require_bind.mp hrest
      obtain ⟨closing, hclosing, hrest⟩ := makes_require_bind.mp hbehind
      obtain ⟨evaluation, fourth, hcopies, hrest⟩ := makes_bind.mp hrest
      obtain ⟨back, last, hback, hrest⟩ := makes_bind.mp hrest
      obtain ⟨_, final, hset, hpure⟩ := makes_bind.mp hrest
      obtain rfl := makes_setAction.mp hset
      obtain ⟨rfl, rfl⟩ := makes_pure.mp hpure
      obtain ⟨hplain, hapart⟩ := emitsPlain_comparison htest
      obtain ⟨hbody, hne⟩ := places_blockOfFirst hfirst
      have htests := Occupies.of_emitsPlain hplain
      have hevaluation : EmitsPlain third evaluation fourth := by
        refine emitsPlain_copies ((LineLaid.of_emitsPlain hplain).congr fun id hid => ?_) hcopies
        exact ((Occupies.of_emit hbranch).append hbody.occupies).actionAt? (htests.within id hid).2
      rw [← hclosing]
      refine ⟨.whileLoop hplain hapart hbranch hbody (hne body rfl) hevaluation hback, ?_⟩
      simp [Block.order]
    rcases makes_ite.mp h with ⟨-, hrepeat⟩ | ⟨-, h⟩
    · obtain ⟨start, first, hstart, hrest⟩ := makes_bind.mp hrepeat
      obtain ⟨found, second, hfirst, hrest⟩ := makes_bind.mp hrest
      obtain ⟨body, rfl, hbehind⟩ := makes_require_bind.mp hrest
      obtain ⟨test, third, htest, hrest⟩ := makes_bind.mp hbehind
      obtain ⟨branch, fourth, hbranch, hrest⟩ := makes_bind.mp hrest
      obtain ⟨exit, last, hexit, hrest⟩ := makes_bind.mp hrest
      obtain ⟨_, final, hset, hpure⟩ := makes_bind.mp hrest
      obtain rfl := makes_setAction.mp hset
      obtain ⟨rfl, rfl⟩ := makes_pure.mp hpure
      obtain ⟨hplain, hapart⟩ := emitsPlain_comparison htest
      obtain ⟨hbody, hne⟩ := places_blockOfFirst hfirst
      refine ⟨.repeatLoop hstart hbody (hne body rfl) hplain hapart hbranch hexit, ?_⟩
      simp [Block.order]
    rcases makes_ite.mp h with ⟨-, hprint⟩ | ⟨-, h⟩
    · obtain ⟨order, last, hmakes, hpure⟩ := makes_bind.mp hprint
      obtain ⟨rfl, rfl⟩ := makes_pure.mp hpure
      exact ⟨.line (emitsPlain_output hmakes), order_ne_nil_of_output hmakes⟩
    rcases makes_ite.mp h with ⟨-, hcall⟩ | ⟨-, h⟩
    · obtain ⟨order, last, hmakes, hpure⟩ := makes_bind.mp hcall
      obtain ⟨rfl, rfl⟩ := makes_pure.mp hpure
      exact ⟨.line (emitsPlain_call hmakes), order_ne_nil_of_call hmakes⟩
    · obtain ⟨id, first, hemit, hrest⟩ := makes_bind.mp h
      obtain ⟨rest, last, hall, hpure⟩ := makes_bind.mp hrest
      obtain ⟨rfl, rfl⟩ := makes_pure.mp hpure
      exact ⟨.append (.line (.emit hemit rfl)) (places_blockOfAll hall), by simp [Block.order]⟩

theorem places_blockOfAll {names : StatementNames} :
    ∀ {trees : List Tree} {before after : Assembly} {block : Block},
      Makes (blockOfAll names trees) before block after → Places before block after
  | [], before, after, block, h => by
    unfold blockOfAll at h
    obtain ⟨rfl, rfl⟩ := makes_pure.mp h
    exact .line (.nil rfl)
  | tree :: trees, before, after, block, h => by
    unfold blockOfAll at h
    obtain ⟨first, between, htree, hrest⟩ := makes_bind.mp h
    obtain ⟨rest, last, htrees, hpure⟩ := makes_bind.mp hrest
    obtain ⟨rfl, rfl⟩ := makes_pure.mp hpure
    exact (places_blockOf htree).1.append (places_blockOfAll htrees)

theorem places_blockOfFirst {names : StatementNames} {symbol : String} :
    ∀ {trees : List Tree} {before after : Assembly} {found : Option Block},
      Makes (blockOfFirst names symbol trees) before found after →
        Places before (found.getD .empty) after ∧ ∀ block ∈ found, block.order ≠ []
  | [], before, after, found, h => by
    unfold blockOfFirst at h
    obtain ⟨rfl, rfl⟩ := makes_pure.mp h
    exact ⟨.line (.nil rfl), by simp⟩
  | tree :: trees, before, after, found, h => by
    unfold blockOfFirst at h
    rcases makes_ite.mp h with ⟨-, hthis⟩ | ⟨-, hlater⟩
    · obtain ⟨block, last, htree, hpure⟩ := makes_bind.mp hthis
      obtain ⟨rfl, rfl⟩ := makes_pure.mp hpure
      obtain ⟨hplaces, hne⟩ := places_blockOf htree
      exact ⟨hplaces, by simpa using hne⟩
    · exact places_blockOfFirst hlater

end

end LineGrammar.Assembly
