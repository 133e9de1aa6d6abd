import LineGrammar.Proofs.Program.Layout

/-!
# Guarded bodies

The branch of a conditional without another branch, and that of a loop that tests first, guard a
body: it is to be passed by as a whole when the comparison fails, and a loop is to run it to its end
before it tests again. The last statement of the body serves as the place behind it, to which the
branch leads past the body, and in a loop it stands behind the jump back. So the body is guarded as a
whole exactly if that statement does nothing and, in a loop, is not the place behind another
statement of the body too.
-/

namespace LineGrammar

/-- Control comes from here to a statement outside of the region, or to the end, by statements that
do nothing and by jumps. -/
inductive Program.Leaves (program : Program) (region : List StatementId) :
    Option StatementId → Prop where
  | out {next : Option StatementId} (h : ∀ id ∈ next, id ∉ region) : Leaves program region next
  | skip {id : StatementId} {next : Option StatementId}
      (hstatement : program.statements[id]? = some ⟨.skip, next⟩)
      (hrest : Leaves program region next) : Leaves program region (some id)
  | goto {id : StatementId} {target next : Option StatementId}
      (hstatement : program.statements[id]? = some ⟨.goto target, next⟩)
      (hrest : Leaves program region target) : Leaves program region (some id)

namespace Assembly

/-- A branch with the body that it guards. -/
structure Guard where
  test : Comparison
  branch : StatementId
  body : Order
  /-- What a loop does behind its body: it computes the condition again and goes back. -/
  again : Option Order

/-- All statements of the conditional or of the loop. -/
def Guard.order (guard : Guard) : Order :=
  guard.test.order ++ [guard.branch] ++ guard.body ++ guard.again.getD []

/-- The guards in a block. -/
def Block.guards : Block → List Guard
  | .line _ => []
  | .append first rest => first.guards ++ rest.guards
  | .conditional test branch body => ⟨test, branch, body.order, none⟩ :: body.guards
  | .choice _ _ body _ other _ => body.guards ++ other.guards
  | .whileLoop test branch body evaluation back =>
    ⟨test, branch, body.order, some (evaluation ++ [back])⟩ :: body.guards
  | .repeatLoop _ body _ _ _ => body.guards

namespace Guard

def holds (guard : Guard) (store : Store) : Except ExecutionError Bool :=
  Program.comparisonHolds store guard.branch guard.test.left guard.test.right guard.test.relation

/-- Whenever the comparison fails, control leaves the statement, and no statement of the body prints,
assigns, calls or branches on the way. -/
def PassesBy (guard : Guard) (program : Program) : Prop :=
  ∀ store, guard.holds store = .ok false →
    ∃ next, program.step store guard.branch = .ok { store, next } ∧
      program.Leaves guard.order next

/-- Whenever the comparison holds, control goes through the statements of the body, apart from some
at its end that do nothing, and from the last of them to what the loop does behind its body. -/
def RunsThrough (guard : Guard) (program : Program) (again : Order) : Prop :=
  ∃ work idle, guard.body = work ++ idle ∧
    (∀ id ∈ idle, actionAt? program.statements id = some .skip) ∧
    (∀ store, guard.holds store = .ok true →
      program.step store guard.branch = .ok { store, next := (work ++ again).head? }) ∧
    ∀ id ∈ work, ∀ statement, program.statements[id]? = some statement →
      ∀ next ∈ statement.exits,
        (∃ other ∈ work, next = some other) ∨ (work.getLast? = some id ∧ next = again.head?)

/-- The body is guarded as a whole. -/
def Whole (guard : Guard) (program : Program) : Prop :=
  guard.PassesBy program ∧ ∀ again ∈ guard.again, guard.RunsThrough program again

/-- The last statement of the body does nothing, and in a loop no statement of the body leads to it
by a jump. -/
def EndsIdle (guard : Guard) (program : Program) : Prop :=
  ∃ last ∈ guard.body.getLast?, actionAt? program.statements last = some .skip ∧
    (guard.again.isSome → ∀ id ∈ guard.body, ∀ action,
      actionAt? program.statements id = some action → some last ∉ action.targets)

end Guard

/-! ## Jumps stay in their block -/

theorem exists_head?_eq_some {order : Order} (h : order ≠ []) :
    ∃ id ∈ order, order.head? = some id := by
  obtain ⟨id, rest, rfl⟩ := List.exists_cons_of_ne_nil h
  exact ⟨id, List.mem_cons_self, rfl⟩

theorem exists_getLast?_eq_some {order : Order} (h : order ≠ []) :
    ∃ id ∈ order, order.getLast? = some id :=
  ⟨order.getLast h, List.getLast_mem h, List.getLast?_eq_some_getLast h⟩

/-- The statements of one order lead, if they jump, to statements of another one. -/
def Leads (table : Array Statement) (order others : Order) : Prop :=
  ∀ id ∈ order, ∃ action, actionAt? table id = some action ∧
    ∀ target ∈ action.targets, ∃ other ∈ others, target = some other

namespace Leads

variable {table : Array Statement} {order more others : Order}

theorem of_line (h : LineLaid table order) (others : Order) : Leads table order others := by
  intro id hid
  obtain ⟨action, haction, hplain⟩ := h id hid
  refine ⟨action, haction, fun target htarget => ?_⟩
  rw [hplain] at htarget
  exact absurd htarget List.not_mem_nil

theorem single {id : StatementId} {action : Action} (haction : actionAt? table id = some action)
    (htargets : ∀ target ∈ action.targets, ∃ other ∈ others, target = some other) :
    Leads table [id] others := by
  intro other hother
  obtain rfl := List.mem_singleton.mp hother
  exact ⟨action, haction, htargets⟩

theorem append (h : Leads table order others) (hmore : Leads table more others) :
    Leads table (order ++ more) others := by
  intro id hid
  rcases List.mem_append.mp hid with hmem | hmem
  · exact h id hmem
  · exact hmore id hmem

theorem mono (h : Leads table order others) (hsubset : ∀ id ∈ others, id ∈ more) :
    Leads table order more := by
  intro id hid
  obtain ⟨action, haction, htargets⟩ := h id hid
  refine ⟨action, haction, fun target htarget => ?_⟩
  obtain ⟨other, hother, heq⟩ := htargets target htarget
  exact ⟨other, hsubset other hother, heq⟩

theorem branch {test : Comparison} {id onTrue onFalse : StatementId}
    (haction : actionAt? table id = some (test.branch (some onTrue) (some onFalse)))
    (htrue : onTrue ∈ others) (hfalse : onFalse ∈ others) : Leads table [id] others := by
  refine single haction fun target htarget => ?_
  have htargets : target = some onTrue ∨ target = some onFalse := by
    simpa [Comparison.branch, Action.targets] using htarget
  rcases htargets with rfl | rfl
  · exact ⟨onTrue, htrue, rfl⟩
  · exact ⟨onFalse, hfalse, rfl⟩

end Leads

theorem Block.Laid.leads {table : Array Statement} {block : Block} (h : block.Laid table) :
    Leads table block.order block.order := by
  induction block with
  | line order => exact .of_line h order
  | append first rest ihFirst ihRest =>
    refine ((ihFirst h.1).mono fun id hid => ?_).append ((ihRest h.2).mono fun id hid => ?_)
    · exact List.mem_append_left _ hid
    · exact List.mem_append_right _ hid
  | conditional test branch body ih =>
    obtain ⟨-, htest, hbranch, hne, hbody⟩ := h
    obtain ⟨first, hfirst, hhead⟩ := exists_head?_eq_some hne
    obtain ⟨last, hlast, hend⟩ := exists_getLast?_eq_some hne
    rw [hhead, hend] at hbranch
    have hsubset : ∀ id ∈ body.order, id ∈ (conditional test branch body).order := fun id hid =>
      List.mem_append_right _ hid
    exact ((Leads.of_line htest _).append
      (.branch hbranch (hsubset first hfirst) (hsubset last hlast))).append
      ((ih hbody).mono hsubset)
  | choice test branch body skip other exit ihBody ihOther =>
    obtain ⟨-, htest, hbranch, hskip, hexit, hne, hbody, hneOther, hother⟩ := h
    obtain ⟨first, hfirst, hhead⟩ := exists_head?_eq_some hne
    obtain ⟨second, hsecond, hheadOther⟩ := exists_head?_eq_some hneOther
    rw [hhead, hheadOther] at hbranch
    have hsubset : ∀ id ∈ body.order, id ∈ (choice test branch body skip other exit).order :=
      fun id hid => by simp [order, hid]
    have hsubsetOther : ∀ id ∈ other.order,
        id ∈ (choice test branch body skip other exit).order := fun id hid => by simp [order, hid]
    have hskips : Leads table [skip] (choice test branch body skip other exit).order :=
      .single hskip fun target htarget =>
        ⟨exit, by simp [order], List.mem_singleton.mp htarget⟩
    have hexits : Leads table [exit] (choice test branch body skip other exit).order :=
      .single hexit fun target htarget => absurd htarget List.not_mem_nil
    exact (((((Leads.of_line htest _).append
      (.branch hbranch (hsubset first hfirst) (hsubsetOther second hsecond))).append
      ((ihBody hbody).mono hsubset)).append hskips).append
      ((ihOther hother).mono hsubsetOther)).append hexits
  | whileLoop test branch body evaluation back ih =>
    obtain ⟨-, htest, hbranch, heval, hback, hne, hbody⟩ := h
    have hround : ∀ id, id ∈ round body.order evaluation back ↔
        id ∈ body.order ++ (evaluation ++ [back]) := fun id =>
      (perm_round body.order evaluation back).mem_iff
    obtain ⟨first, hfirst, hhead⟩ := exists_head?_eq_some
      (show round body.order evaluation back ≠ [] by simp [round])
    obtain ⟨last, hlast, hend⟩ := exists_getLast?_eq_some hne
    rw [hhead, hend] at hbranch
    have hsubset : ∀ id ∈ round body.order evaluation back,
        id ∈ (whileLoop test branch body evaluation back).order := fun id hid =>
      List.mem_append_right _ hid
    have hbodies : ∀ id ∈ body.order, id ∈ (whileLoop test branch body evaluation back).order :=
      fun id hid => hsubset id ((hround id).mpr (List.mem_append_left _ hid))
    have hbacks : Leads table [back] (whileLoop test branch body evaluation back).order :=
      .single hback fun target htarget =>
        ⟨branch, by simp [order], List.mem_singleton.mp htarget⟩
    have hparts := ((ih hbody).mono hbodies).append ((Leads.of_line heval _).append hbacks)
    refine ((Leads.of_line htest _).append
      (.branch hbranch (hsubset first hfirst) (hbodies last hlast))).append ?_
    exact fun id hid => hparts id ((hround id).mp hid)
  | repeatLoop start body test branch exit ih =>
    obtain ⟨-, hstart, htest, hbranch, hexit, hne, hbody⟩ := h
    have hsubset : ∀ id ∈ body.order, id ∈ (repeatLoop start body test branch exit).order :=
      fun id hid => by simp [order, hid]
    have hstarts : Leads table [start] (repeatLoop start body test branch exit).order :=
      .single hstart fun target htarget => absurd htarget List.not_mem_nil
    have hexits : Leads table [exit] (repeatLoop start body test branch exit).order :=
      .single hexit fun target htarget => absurd htarget List.not_mem_nil
    exact ((hstarts.append ((ih hbody).mono hsubset)).append (.of_line htest _)).append
      ((Leads.branch hbranch (by simp [order]) (by simp [order])).append hexits)

theorem Block.Laid.isPlain_last {table : Array Statement} {block : Block} (h : block.Laid table)
    {last : StatementId} (hlast : block.order.getLast? = some last) :
    ∃ action, actionAt? table last = some action ∧ action.IsPlain := by
  induction block with
  | line order => exact h last (List.mem_of_getLast? hlast)
  | append first rest ihFirst ihRest =>
    rw [order, List.getLast?_append] at hlast
    cases hrest : rest.order.getLast? with
    | none =>
      rw [hrest] at hlast
      exact ihFirst h.1 hlast
    | some found =>
      rw [hrest] at hlast
      obtain rfl := Option.some.inj hlast
      exact ihRest h.2 hrest
  | conditional test branch body ih =>
    obtain ⟨-, -, -, hne, hbody⟩ := h
    obtain ⟨found, -, hend⟩ := exists_getLast?_eq_some hne
    rw [order, List.getLast?_append, hend] at hlast
    obtain rfl := Option.some.inj hlast
    exact ih hbody hend
  | choice test branch body skip other exit ihBody ihOther =>
    obtain ⟨-, -, -, -, hexit, -⟩ := h
    rw [order, List.getLast?_append] at hlast
    obtain rfl := Option.some.inj hlast
    exact ⟨.skip, hexit, rfl⟩
  | whileLoop test branch body evaluation back ih =>
    obtain ⟨-, -, -, -, -, hne, hbody⟩ := h
    obtain ⟨found, -, hend⟩ := exists_getLast?_eq_some hne
    rw [order, round, hend, List.getLast?_append, List.getLast?_append] at hlast
    obtain rfl := Option.some.inj hlast
    exact ih hbody hend
  | repeatLoop start body test branch exit ih =>
    obtain ⟨-, -, -, -, hexit, -⟩ := h
    rw [order, List.getLast?_append] at hlast
    obtain rfl := Option.some.inj hlast
    exact ⟨.skip, hexit, rfl⟩

/-! ## Where guards stand -/

/-- A part of an order, and behind it a single statement that may have been moved away from it. -/
def Stretches (order part : Order) (last : StatementId) : Prop :=
  ∃ front between back, order = front ++ part ++ between ++ last :: back

namespace Stretches

variable {order part : Order} {last : StatementId}

theorem within (h : Stretches order part last) (before after : Order) :
    Stretches (before ++ order ++ after) part last := by
  obtain ⟨front, between, back, rfl⟩ := h
  exact ⟨before ++ front, between, back ++ after, by simp⟩

/-- Where the last statement of an order is moved to the end of a round, it stays behind the rest. -/
theorem round (h : Stretches order part last) (evaluation : Order) (back : StatementId) :
    Stretches (Block.round order evaluation back) part last := by
  obtain ⟨front, between, rest, rfl⟩ := h
  unfold Block.round
  rcases List.eq_nil_or_concat rest with rfl | ⟨others, final, rfl⟩
  · refine ⟨front, between ++ evaluation ++ [back], [], ?_⟩
    rw [List.dropLast_concat, List.getLast?_concat]
    simp
  · refine ⟨front, between, others ++ evaluation ++ [back] ++ [final], ?_⟩
    rw [List.concat_eq_append, ← List.cons_append, ← List.append_assoc, List.dropLast_concat,
      List.getLast?_concat]
    simp

end Stretches

/-- How a guard lies in the order of a program. -/
structure Guard.Stands (guard : Guard) (table : Array Statement) (order work : Order)
    (last : StatementId) : Prop where
  body : guard.body = work ++ [last]
  apart : guard.test.Apart
  branch : actionAt? table guard.branch =
    some (guard.test.branch (work ++ guard.again.getD [] ++ [last]).head? (some last))
  plain : ∃ action, actionAt? table last = some action ∧ action.IsPlain
  leads : Leads table guard.body guard.body
  again_ne : ∀ again ∈ guard.again, again ≠ []
  stretches : Stretches order
    (guard.test.order ++ [guard.branch] ++ work ++ guard.again.getD []) last

theorem Guard.Stands.weaken {guard : Guard} {table : Array Statement} {order other work : Order}
    {last : StatementId} (h : guard.Stands table order work last)
    (hstretches : ∀ part, Stretches order part last → Stretches other part last) :
    guard.Stands table other work last :=
  { h with stretches := hstretches _ h.stretches }

theorem exists_stands {table : Array Statement} {block : Block} (h : block.Laid table)
    {guard : Guard} (hguard : guard ∈ block.guards) :
    ∃ work last, guard.Stands table block.order work last := by
  induction block with
  | line order => exact absurd hguard List.not_mem_nil
  | append first rest ihFirst ihRest =>
    rcases List.mem_append.mp hguard with hmem | hmem
    · obtain ⟨work, last, hstands⟩ := ihFirst h.1 hmem
      exact ⟨work, last, hstands.weaken fun part hpart => hpart.within [] rest.order⟩
    · obtain ⟨work, last, hstands⟩ := ihRest h.2 hmem
      refine ⟨work, last, hstands.weaken fun part hpart => ?_⟩
      rw [Block.order, ← List.append_nil (first.order ++ rest.order)]
      exact hpart.within first.order []
  | conditional test branch body ih =>
    obtain ⟨hapart, -, hbranch, hne, hbody⟩ := h
    rcases List.mem_cons.mp hguard with rfl | hmem
    · obtain ⟨last, -, hend⟩ := exists_getLast?_eq_some hne
      have hsplit := (List.dropLast_append_getLast? last hend).symm
      refine ⟨body.order.dropLast, last, hsplit, hapart, ?_, hbody.isPlain_last hend, hbody.leads,
        by simp, [], [], [], ?_⟩
      · rw [hbranch, hend, Option.getD_none, List.append_nil, ← hsplit]
      · rw [Block.order]
        simp [← hsplit]
    · obtain ⟨work, last, hstands⟩ := ih hbody hmem
      refine ⟨work, last, hstands.weaken fun part hpart => ?_⟩
      rw [Block.order, ← List.append_nil (test.order ++ [branch] ++ body.order)]
      exact hpart.within _ []
  | choice test branch body skip other exit ihBody ihOther =>
    obtain ⟨-, -, -, -, -, -, hbody, -, hother⟩ := h
    rcases List.mem_append.mp hguard with hmem | hmem
    · obtain ⟨work, last, hstands⟩ := ihBody hbody hmem
      refine ⟨work, last, hstands.weaken fun part hpart => ?_⟩
      have hwithin := hpart.within (test.order ++ [branch]) ([skip] ++ other.order ++ [exit])
      simpa only [Block.order, List.append_assoc] using hwithin
    · obtain ⟨work, last, hstands⟩ := ihOther hother hmem
      exact ⟨work, last, hstands.weaken fun part hpart => hpart.within _ [exit]⟩
  | whileLoop test branch body evaluation back ih =>
    obtain ⟨hapart, -, hbranch, -, -, hne, hbody⟩ := h
    obtain ⟨last, -, hend⟩ := exists_getLast?_eq_some hne
    rcases List.mem_cons.mp hguard with rfl | hmem
    · have hsplit := (List.dropLast_append_getLast? last hend).symm
      have hround : Block.round body.order evaluation back =
          body.order.dropLast ++ (evaluation ++ [back]) ++ [last] := by
        rw [Block.round, hend]
        simp
      refine ⟨body.order.dropLast, last, hsplit, hapart, ?_, hbody.isPlain_last hend, hbody.leads,
        by simp, [], [], [], ?_⟩
      · rw [hbranch, hend, hround]
        rfl
      · rw [Block.order, hround]
        simp
    · obtain ⟨work, found, hstands⟩ := ih hbody hmem
      refine ⟨work, found, hstands.weaken fun part hpart => ?_⟩
      rw [Block.order, ← List.append_nil (test.order ++ [branch] ++ _)]
      exact (hpart.round evaluation back).within _ []
  | repeatLoop start body test branch exit ih =>
    obtain ⟨-, -, -, -, -, -, hbody⟩ := h
    obtain ⟨work, last, hstands⟩ := ih hbody hguard
    refine ⟨work, last, hstands.weaken fun part hpart => ?_⟩
    have hwithin := hpart.within [start] (test.order ++ [branch, exit])
    simpa only [Block.order, List.append_assoc] using hwithin

/-! ## Comparisons that come out either way -/

/-- A store in which two variables have these values. -/
def storeOf (left right : VariableId) (first second : Value) : Store :=
  { vars := (Array.range (max left right + 1)).map fun id =>
      ⟨"", "", #[if id = left then first else second], false⟩ }

theorem readSlot_storeOf {left right id : VariableId} (hid : id ≤ max left right)
    (first second : Value) (statement : StatementId) :
    Program.readSlot (storeOf left right first second) statement id 0 =
      .ok (if id = left then first else second) := by
  have hvar : (storeOf left right first second).get? id =
      some ⟨"", "", #[if id = left then first else second], false⟩ := by
    rw [Store.get?, storeOf, Array.getElem?_map, Array.getElem?_range]
    rw [if_pos (Nat.lt_succ_of_le hid)]
    rfl
  unfold Program.readSlot
  rw [hvar]
  rfl

theorem exists_holds_eq (relation : Relation) (wanted : Bool) :
    ∃ left right : Value, ∃ ordering, left.compare? right = some ordering ∧
      relation.holds ordering = wanted := by
  have hless : (Value.int 0).compare? (.int 1) = some .lt := by decide
  have hequal : (Value.int 0).compare? (.int 0) = some .eq := by decide
  have hgreater : (Value.int 1).compare? (.int 0) = some .gt := by decide
  cases relation <;> cases wanted
  case greater.false | greaterEqual.false => exact ⟨_, _, .lt, hless, rfl⟩
  case greater.true | greaterEqual.true => exact ⟨_, _, .gt, hgreater, rfl⟩
  case less.true | lessEqual.true => exact ⟨_, _, .lt, hless, rfl⟩
  case less.false | lessEqual.false => exact ⟨_, _, .gt, hgreater, rfl⟩
  case equal.true => exact ⟨_, _, .eq, hequal, rfl⟩
  case equal.false => exact ⟨_, _, .lt, hless, rfl⟩
  case notEqual.true => exact ⟨_, _, .lt, hless, rfl⟩
  case notEqual.false => exact ⟨_, _, .eq, hequal, rfl⟩

namespace Guard

theorem exists_holds {guard : Guard} (h : guard.test.Apart) (wanted : Bool) :
    ∃ store, guard.holds store = .ok wanted := by
  obtain ⟨left, right, hleft, hright, hne⟩ := h
  obtain ⟨first, second, ordering, hcompare, hholds⟩ := exists_holds_eq guard.test.relation wanted
  refine ⟨storeOf left right first second, ?_⟩
  have hfirst : Program.read (storeOf left right first second) guard.branch guard.test.left =
      .ok first := by
    rw [hleft]
    show Program.readSlot _ _ left 0 = _
    rw [readSlot_storeOf (Nat.le_max_left left right), if_pos rfl]
  have hsecond : Program.read (storeOf left right first second) guard.branch guard.test.right =
      .ok second := by
    rw [hright]
    show Program.readSlot _ _ right 0 = _
    rw [readSlot_storeOf (Nat.le_max_right left right), if_neg hne.symm]
  refine Program.bind_eq_ok.mpr ⟨first, hfirst, Program.bind_eq_ok.mpr ⟨second, hsecond, ?_⟩⟩
  rw [hcompare, ← hholds]

/-! ## The exact condition -/

namespace Stands

variable {guard : Guard} {table : Array Statement} {order work : Order} {last : StatementId}

theorem step_branch (h : guard.Stands table order work last) (hnodup : order.Nodup) {store : Store}
    {wanted : Bool} (hholds : guard.holds store = .ok wanted) :
    (Program.link table order).step store guard.branch =
      .ok { store, next := if wanted then (work ++ guard.again.getD [] ++ [last]).head?
        else some last } := by
  obtain ⟨front, between, back, rfl⟩ := h.stretches
  have hsplit : front ++ (guard.test.order ++ [guard.branch] ++ work ++ guard.again.getD []) ++
      between ++ last :: back = (front ++ guard.test.order) ++ guard.branch ::
        (work ++ guard.again.getD [] ++ between ++ last :: back) := by
    simp
  rw [hsplit] at hnodup ⊢
  obtain ⟨first, -, hhead⟩ := exists_head?_eq_some
    (show work ++ guard.again.getD [] ++ [last] ≠ [] by simp)
  have hstatement := Program.getElem?_link hnodup h.branch
  rw [hhead] at hstatement ⊢
  rw [Program.step_branch hstatement hholds]
  cases wanted <;> rfl

theorem exists_getElem?_last (h : guard.Stands table order work last) (hnodup : order.Nodup) :
    ∃ action next, actionAt? table last = some action ∧ action.IsPlain ∧
      (Program.link table order).statements[last]? = some ⟨action, next⟩ ∧
      ∀ id ∈ next, id ∉ guard.order ∧ id ∉ guard.again.getD [] := by
  obtain ⟨action, haction, hplain⟩ := h.plain
  obtain ⟨front, between, back, rfl⟩ := h.stretches
  refine ⟨action, back.head?, haction, hplain, Program.getElem?_link hnodup haction, ?_⟩
  intro id hid
  have hback : id ∈ back := List.mem_of_mem_head? hid
  have hbehind := (List.nodup_append.mp hnodup).2
  have hlast : id ≠ last := fun heq =>
    (List.nodup_cons.mp hbehind.1).1 (heq ▸ hback)
  have hother : ∀ other ∈ front ++ (guard.test.order ++ [guard.branch] ++ work ++
      guard.again.getD []) ++ between, other ≠ id := fun other hother =>
    hbehind.2 other hother id (List.mem_cons_of_mem _ hback)
  have hagain : id ∉ guard.again.getD [] := fun hmem => hother id (by simp [hmem]) rfl
  refine ⟨fun hmem => ?_, hagain⟩
  rw [Guard.order, h.body] at hmem
  simp only [List.mem_append, List.mem_singleton] at hmem
  rcases hmem with ((hmem | hmem) | hmem | hmem) | hmem
  · exact hother id (by simp [hmem]) rfl
  · exact hother id (by simp [hmem]) rfl
  · exact hother id (by simp [hmem]) rfl
  · exact hlast hmem
  · exact hagain hmem

theorem last_mem_order (h : guard.Stands table order work last) : last ∈ guard.order := by
  rw [Guard.order, h.body]
  simp

theorem passesBy_iff (h : guard.Stands table order work last) (hnodup : order.Nodup) :
    guard.PassesBy (Program.link table order) ↔ actionAt? table last = some .skip := by
  obtain ⟨action, next, haction, hplain, hstatement, hout⟩ := h.exists_getElem?_last hnodup
  constructor
  · intro hpasses
    obtain ⟨store, hfails⟩ := guard.exists_holds h.apart false
    obtain ⟨target, hstep, hleaves⟩ := hpasses store hfails
    rw [h.step_branch hnodup hfails] at hstep
    obtain rfl : some last = target := congrArg Program.Effect.next (Except.ok.inj hstep)
    cases hleaves with
    | out hnot => exact absurd h.last_mem_order (hnot last rfl)
    | skip hskip hrest =>
      rw [hstatement] at hskip
      obtain ⟨rfl, -⟩ := Statement.mk.inj (Option.some.inj hskip)
      exact haction
    | goto hgoto hrest =>
      rw [hstatement] at hgoto
      obtain ⟨rfl, -⟩ := Statement.mk.inj (Option.some.inj hgoto)
      exact absurd hplain (by simp [Action.IsPlain, Action.targets])
  · intro hskip store hfails
    refine ⟨some last, h.step_branch hnodup hfails, ?_⟩
    obtain rfl := Option.some.inj (haction.symm.trans hskip)
    exact .skip hstatement (.out fun id hid => (hout id hid).1)

theorem exits_of_isPlain {statement : Statement} (h : statement.action.IsPlain) :
    statement.exits = [statement.next] := by
  unfold Statement.exits
  rw [h]

theorem exits_of_mem_targets {statement : Statement} {target : Option StatementId}
    (h : target ∈ statement.action.targets) : target ∈ statement.exits := by
  unfold Statement.exits
  split
  · next hnone =>
    rw [hnone] at h
    exact absurd h List.not_mem_nil
  · exact h

theorem last_not_mem (h : guard.Stands table order work last) (hnodup : order.Nodup) :
    last ∉ work ∧ last ∉ guard.again.getD [] := by
  obtain ⟨front, between, back, rfl⟩ := h.stretches
  have hother := (List.nodup_append.mp hnodup).2.2
  constructor
  · exact fun hmem => hother last (by simp [hmem]) last List.mem_cons_self rfl
  · exact fun hmem => hother last (by simp [hmem]) last List.mem_cons_self rfl

theorem idle_of_runsThrough (h : guard.Stands table order work last) (hnodup : order.Nodup)
    {again : Order} (hagain : guard.again = some again)
    (hruns : guard.RunsThrough (Program.link table order) again) :
    ∀ id ∈ guard.body, ∀ action, actionAt? table id = some action →
      some last ∉ action.targets := by
  obtain ⟨done, idle, hsplit, hidle, -, hflow⟩ := hruns
  obtain ⟨action, next, haction, hplain, hstatement, hout⟩ := h.exists_getElem?_last hnodup
  obtain ⟨hwork, hbehind⟩ := h.last_not_mem hnodup
  rw [hagain, Option.getD_some] at hbehind hout
  obtain ⟨first, hfirst, hhead⟩ := exists_head?_eq_some (h.again_ne again hagain)
  have hparts : work ++ [last] = done ++ idle := by rw [← h.body, hsplit]
  -- control would leave the body behind the last statement, and not to the next round
  have hnotDone : last ∉ done := by
    intro hmem
    have hexit : next ∈ (⟨action, next⟩ : Statement).exits := by
      rw [exits_of_isPlain hplain]
      exact .head _
    rcases hflow last hmem _ hstatement next hexit with ⟨other, hother, rfl⟩ | ⟨-, rfl⟩
    · refine (hout other rfl).1 ?_
      rw [Guard.order, hsplit]
      simp [hother]
    · exact (hout first hhead).2 hfirst
  intro id hid found hfound htarget
  rw [hsplit] at hid
  rcases List.mem_append.mp hid with hmem | hmem
  · have hlinked : actionAt? (Program.link table order).statements id = some found := by
      rw [Program.link, Program.actionAt?_chain, hfound]
    obtain ⟨statement, hat, rfl⟩ := Option.map_eq_some_iff.mp hlinked
    rcases hflow id hmem statement hat (some last) (exits_of_mem_targets htarget) with
      ⟨other, hother, heq⟩ | ⟨-, heq⟩
    · obtain rfl := Option.some.inj heq
      exact hnotDone hother
    · rw [hhead] at heq
      obtain rfl := Option.some.inj heq
      exact hbehind hfirst
  · have hskip := hidle id hmem
    rw [Program.link, Program.actionAt?_chain, hfound] at hskip
    obtain rfl := Option.some.inj hskip
    exact absurd htarget List.not_mem_nil

theorem runsThrough_of_idle (h : guard.Stands table order work last) (hnodup : order.Nodup)
    {again : Order} (hagain : guard.again = some again)
    (hskip : actionAt? table last = some .skip)
    (hidle : ∀ id ∈ guard.body, ∀ action, actionAt? table id = some action →
      some last ∉ action.targets) :
    guard.RunsThrough (Program.link table order) again := by
  obtain ⟨first, rest, rfl⟩ := List.exists_cons_of_ne_nil (h.again_ne again hagain)
  refine ⟨work, [last], h.body, fun id hid => ?_, fun store hholds => ?_, fun id hid => ?_⟩
  · obtain rfl := List.mem_singleton.mp hid
    rw [Program.link, Program.actionAt?_chain, hskip]
  · rw [h.step_branch hnodup hholds, hagain]
    cases work <;> rfl
  · intro statement hstatement next hnext
    have hbody : id ∈ guard.body := by
      rw [h.body]
      exact List.mem_append_left _ hid
    obtain ⟨action, haction, htargets⟩ := h.leads id hbody
    obtain ⟨before, after, hsplit⟩ := List.append_of_mem hid
    obtain ⟨front, between, back, horder⟩ := h.stretches
    have hposition : order = (front ++ guard.test.order ++ [guard.branch] ++ before) ++ id ::
        (after ++ first :: rest ++ between ++ last :: back) := by
      rw [horder, hagain, hsplit]
      simp
    rw [hposition] at hnodup hstatement
    rw [Program.getElem?_link hnodup haction] at hstatement
    obtain rfl := Option.some.inj hstatement
    by_cases hplain : action.IsPlain
    · -- control goes on to the next statement of the body, or behind the body
      rw [exits_of_isPlain hplain, List.mem_singleton] at hnext
      subst hnext
      cases after with
      | nil => exact .inr ⟨by rw [hsplit, List.getLast?_concat], rfl⟩
      | cons other after => exact .inl ⟨other, by simp [hsplit], rfl⟩
    · have htarget : next ∈ action.targets := by
        unfold Statement.exits at hnext
        split at hnext
        · next hnone => exact absurd hnone hplain
        · exact hnext
      obtain ⟨other, hother, rfl⟩ := htargets next htarget
      rw [h.body, List.mem_append, List.mem_singleton] at hother
      rcases hother with hmem | rfl
      · exact .inl ⟨other, hmem, rfl⟩
      · exact absurd htarget (hidle id hbody action haction)

/-- The body is guarded as a whole exactly if its last statement does nothing, and is nothing but the
end of the body. -/
theorem whole_iff (h : guard.Stands table order work last) (hnodup : order.Nodup) :
    guard.Whole (Program.link table order) ↔ guard.EndsIdle (Program.link table order) := by
  have hactions : ∀ id, actionAt? (Program.link table order).statements id = actionAt? table id :=
    Program.actionAt?_chain table order
  have hend : guard.body.getLast? = some last := by rw [h.body, List.getLast?_concat]
  constructor
  · rintro ⟨hpasses, hruns⟩
    refine ⟨last, hend, ?_, fun hloop id hid action haction => ?_⟩
    · rw [hactions, (h.passesBy_iff hnodup).mp hpasses]
    · obtain ⟨again, hagain⟩ := Option.isSome_iff_exists.mp hloop
      rw [hactions] at haction
      exact h.idle_of_runsThrough hnodup hagain (hruns again hagain) id hid action haction
  · rintro ⟨other, hother, hskip, hidle⟩
    obtain rfl : last = other := Option.some.inj (hend.symm.trans hother)
    rw [hactions] at hskip
    refine ⟨(h.passesBy_iff hnodup).mpr hskip, fun again hagain => ?_⟩
    refine h.runsThrough_of_idle hnodup hagain hskip fun id hid action haction => ?_
    exact hidle (by simp [Option.mem_def.mp hagain]) id hid action (by rw [hactions, haction])

end Stands

end Guard

end Assembly

namespace Program

open Assembly

/-- **When bodies are guarded as a whole.** In every program that a tree becomes, a branch without
another branch guards its body as a whole exactly if the last statement of the body does nothing and
is, in a loop, not the place behind another statement of the body. -/
theorem whole_iff_endsIdle {names : StatementNames} {tree : Tree} {store after : Store}
    {program : Program} (h : ofTree names tree store = (.ok program, after)) :
    ∃ block assembly, (blockOf names tree).run.run { store } = (.ok block, assembly) ∧
      program = link assembly.statements block.order ∧
      ∀ guard ∈ block.guards, guard.Whole program ↔ guard.EndsIdle program := by
  unfold ofTree at h
  rcases hmakes : (blockOf names tree).run.run { store } with ⟨error | block, assembly⟩
  · rw [hmakes] at h
    simp [Except.map] at h
  · rw [hmakes] at h
    obtain rfl : link assembly.statements block.order = program :=
      Except.ok.inj (congrArg Prod.fst h)
    obtain ⟨hplaces, -⟩ := places_blockOf hmakes
    refine ⟨block, assembly, rfl, rfl, fun guard hguard => ?_⟩
    obtain ⟨work, last, hstands⟩ := exists_stands hplaces.laid hguard
    exact hstands.whole_iff hplaces.occupies.nodup

/-- The conditional `if (1 > 2) { print 1`, and what follows it in the body. -/
def conditionalWith (rest : List Tree) : Tree :=
  let node (symbol : String) (children : List Tree) : Tree :=
    ⟨symbol, none, .incomplete, false, 1, children⟩
  let leaf (symbol : String) (lexeme : Lexeme) : Tree := .leaf symbol (some ⟨lexeme, ⟨1, 0⟩⟩) 1
  node "if_stmt" [leaf "if" (.word "if"),
    node "condition" [leaf "INT" (.integer 1), leaf ">" (.mark ">"), leaf "INT" (.integer 2)],
    node "body" ([leaf "\x7b" (.mark "\x7b"),
      node "print_stmt" [leaf "print" (.word "print"), leaf "INT" (.integer 1)]] ++ rest)]

/-- The body with its closing brace. -/
def closedConditional : Tree :=
  conditionalWith [.leaf "\x7d" (some ⟨.mark "\x7d", ⟨1, 0⟩⟩) 1]

theorem whole_iff_endsIdle_closed :
    ∃ program after, ofTree {} closedConditional {} = (.ok program, after) ∧
      ∃ block assembly, (blockOf {} closedConditional).run.run { store := {} } =
          (.ok block, assembly) ∧
        program = link assembly.statements block.order ∧
        ∀ guard ∈ block.guards, guard.Whole program ↔ guard.EndsIdle program := by
  have hok : (ofTree {} closedConditional {}).1.isOk = true := by decide +kernel
  rcases h : ofTree {} closedConditional {} with ⟨error | program, after⟩
  · rw [h] at hok
    exact absurd hok Bool.false_ne_true
  · exact ⟨program, after, rfl, whole_iff_endsIdle h⟩

/-- As long as the closing brace has not come, the output itself is where the branch leads past the
body, and it is made although the comparison fails. -/
theorem not_passesBy_unclosed :
    ∃ program after block assembly, ofTree {} (conditionalWith []) {} = (.ok program, after) ∧
      (blockOf {} (conditionalWith [])).run.run { store := {} } = (.ok block, assembly) ∧
      (∃ guard ∈ block.guards, ¬guard.PassesBy program) ∧
      (program.execute after 10).2 = .ok ["1"] := by
  have hguards : ((blockOf {} (conditionalWith [])).run.run { store := {} }).1.toOption.map
      Block.guards = some [⟨⟨[0, 1], .ofVariable 0, .greater, .ofVariable 1⟩, 2, [3, 4, 5],
        none⟩] := rfl
  have hprint : actionAt? ((blockOf {} (conditionalWith [])).run.run
      { store := {} }).2.statements 5 = some (.print (some (.ofConstant (.int 1)))) := by decide +kernel
  have hrun : ((ofTree {} (conditionalWith []) {}).1.toOption.map fun program =>
      (program.execute (ofTree {} (conditionalWith []) {}).2 10).2) = some (.ok ["1"]) := by decide +kernel
  unfold ofTree at hrun ⊢
  rcases h : (blockOf {} (conditionalWith [])).run.run { store := {} } with
    ⟨error | block, assembly⟩
  · rw [h] at hguards
    simp [Except.toOption] at hguards
  · rw [h] at hguards hprint hrun
    have hlist : block.guards = [⟨⟨[0, 1], .ofVariable 0, .greater, .ofVariable 1⟩, 2, [3, 4, 5],
      none⟩] := Option.some.inj hguards
    refine ⟨_, _, block, assembly, rfl, rfl, ⟨_, hlist ▸ List.mem_singleton_self _, ?_⟩,
      Option.some.inj hrun⟩
    obtain ⟨hplaces, -⟩ := places_blockOf h
    obtain ⟨work, last, hstands⟩ := exists_stands hplaces.laid
      (hlist ▸ List.mem_singleton_self _)
    rw [hstands.passesBy_iff hplaces.occupies.nodup]
    have hlast : last = 5 := by
      have hbody := congrArg List.getLast? hstands.body
      rw [List.getLast?_concat] at hbody
      exact (Option.some.inj hbody).symm
    rw [hlast]
    intro hskip
    exact absurd (hprint.symm.trans hskip) (by simp)

end Program

end LineGrammar
