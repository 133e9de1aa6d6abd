import LineGrammar.Proofs.Program.Layout
import LineGrammar.Proofs.Program.Lines

/-!
# Simulating commands

A stretch of the order of a program `Carries` a command if a run that comes to its beginning goes as
the command does: it is cut off by the limit, or it fails and so does the command, or it comes to the
end of the stretch with the memory and the lines that the command ends with. Each construct carries
what it stands for if its parts carry theirs.
-/

namespace LineGrammar

open Source Assembly Program

/-! ## The course of a run -/

/-- How a run with so many steps left goes on from a store. What it settles is told by the outcomes
of a command; `exit` is where the command is left. -/
def Course (program : Program) (limit : Nat) (exit : Option StatementId) (store : Store)
    (settles : Outcome → Prop) (steps : Nat) (output : Array String)
    (result : Store × Except ExecutionError (Array String)) : Prop :=
  (∃ last, result = (last, .error (.stepLimitExceeded limit))) ∨
  (settles .fails ∧ ∃ last error, result = (last, .error error)) ∨
  ∃ after lines rest, settles (.ends after.memory lines) ∧ store.shape = after.shape ∧
    rest ≤ steps ∧ result = program.runFrom limit rest exit after (output ++ lines)

namespace Course

variable {program : Program} {limit steps : Nat} {exit mid next : Option StatementId}
  {store : Store} {settles settles' : Outcome → Prop} {output : Array String}
  {result : Store × Except ExecutionError (Array String)} {id : StatementId}

theorem imp (h : Course program limit exit store settles steps output result)
    (hsettles : ∀ outcome, settles outcome → settles' outcome) :
    Course program limit exit store settles' steps output result := by
  rcases h with hcut | ⟨hfails, herror⟩ | ⟨after, lines, rest, hends, h⟩
  · exact .inl hcut
  · exact .inr (.inl ⟨hsettles _ hfails, herror⟩)
  · exact .inr (.inr ⟨after, lines, rest, hsettles _ hends, h⟩)

theorem arrived (h : settles (.ends store.memory [])) :
    Course program limit exit store settles steps output
      (program.runFrom limit steps exit store output) := by
  refine .inr (.inr ⟨store, [], steps, h, rfl, Nat.le_refl _, ?_⟩)
  rw [Array.appendList_nil]

theorem arrived_behind {lines : List String} (h : settles (.ends store.memory lines)) :
    Course program limit exit store (fun outcome => settles (outcome.after lines)) steps output
      (program.runFrom limit steps exit store output) := by
  refine .arrived ?_
  show settles (.ends store.memory (lines ++ []))
  rw [List.append_nil]
  exact h

theorem behind {after : Store} {lines : List String} {rest : Nat}
    (hshape : store.shape = after.shape) (hrest : rest ≤ steps)
    (h : Course program limit exit after (fun outcome => settles (outcome.after lines)) rest
      (output ++ lines) result) :
    Course program limit exit store settles steps output result := by
  rcases h with hcut | ⟨hfails, herror⟩ | ⟨last, more, left, hends, hlast, hleft, rfl⟩
  · exact .inl hcut
  · exact .inr (.inl ⟨hfails, herror⟩)
  · refine .inr (.inr ⟨last, lines ++ more, left, hends, hshape.trans hlast, by omega, ?_⟩)
    have happend : output ++ lines ++ more = output ++ (lines ++ more) := Array.ext' (by simp)
    rw [happend]

theorem andThen (h : Course program limit mid store settles steps output result)
    (hfails : settles .fails → settles' .fails)
    (hnext : ∀ after lines, settles (.ends after.memory lines) → store.shape = after.shape →
      ∀ rest ≤ steps, Course program limit exit after
        (fun outcome => settles' (outcome.after lines)) rest (output ++ lines)
        (program.runFrom limit rest mid after (output ++ lines))) :
    Course program limit exit store settles' steps output result := by
  rcases h with hcut | ⟨hsettles, herror⟩ | ⟨after, lines, rest, hends, hshape, hrest, rfl⟩
  · exact .inl hcut
  · exact .inr (.inl ⟨hfails hsettles, herror⟩)
  · exact (hnext after lines hends hshape rest hrest).behind hshape hrest

theorem step (hstep : program.step store id = .ok { store, next })
    (hnext : ∀ rest < steps, Course program limit exit store settles rest output
      (program.runFrom limit rest next store output)) :
    Course program limit exit store settles steps output
      (program.runFrom limit steps (some id) store output) := by
  cases steps with
  | zero => exact .inl ⟨store, rfl⟩
  | succ steps =>
    have hrun : program.runFrom limit (steps + 1) (some id) store output =
        program.runFrom limit steps next store output := by
      rw [runFrom, hstep]
      dsimp only
      rw [Array.appendList_nil]
    rw [hrun]
    rcases hnext steps (Nat.lt_succ_self _) with
      hcut | hfails | ⟨after, lines, rest, hends, hshape, hrest, heq⟩
    · exact .inl hcut
    · exact .inr (.inl hfails)
    · exact .inr (.inr ⟨after, lines, rest, hends, hshape, by omega, heq⟩)

theorem error {error : ExecutionError} (hstep : program.step store id = .error error)
    (h : settles .fails) :
    Course program limit exit store settles steps output
      (program.runFrom limit steps (some id) store output) := by
  cases steps with
  | zero => exact .inl ⟨store, rfl⟩
  | succ steps =>
    refine .inr (.inl ⟨h, store, error, ?_⟩)
    rw [runFrom, hstep]

end Course

/-! ## Rows -/

/-- The statements of the order have these actions. -/
def RowAt (table : Array Statement) (order : Order) (actions : List Action) : Prop :=
  order.map (actionAt? table) = actions.map some

theorem RowAt.congr {table other : Array Statement} {order : Order} {actions : List Action}
    (h : RowAt table order actions)
    (hsame : ∀ id ∈ order, actionAt? other id = actionAt? table id) :
    RowAt other order actions :=
  (List.map_congr_left hsame).trans h

theorem RowAt.of_emits {before after : Assembly} {order : Order} {actions : List Action}
    (h : Emits before order actions after) : RowAt after.statements order actions := by
  unfold RowAt
  rw [h.order]
  apply List.ext_getElem?
  intro index
  rw [List.getElem?_map, List.getElem?_map]
  by_cases hindex : index < actions.length
  · rw [List.getElem?_range' hindex, Option.map_some, actionAt?, h.statements,
      Array.getElem?_append_right (by omega)]
    simp [hindex]
  · rw [List.getElem?_eq_none (by simpa using hindex),
      List.getElem?_eq_none (by simpa using hindex)]
    rfl

theorem RowAt.isPlain {table : Array Statement} {order : Order} {actions : List Action}
    (h : RowAt table order actions) (hline : LineLaid table order) :
    ∀ action ∈ actions, action.IsPlain := by
  intro action haction
  have hmem : some action ∈ order.map (actionAt? table) := by
    rw [show order.map (actionAt? table) = actions.map some from h]
    exact List.mem_map_of_mem haction
  obtain ⟨id, hid, heq⟩ := List.mem_map.mp hmem
  obtain ⟨other, hother, hplain⟩ := hline id hid
  obtain rfl := Option.some.inj (heq.symm.trans hother)
  exact hplain

theorem runFrom_row {table : Array Statement} {whole front back order : Order}
    {actions : List Action} (hrow : RowAt table order actions)
    (hplain : ∀ action ∈ actions, action.IsPlain) (hwhole : whole = front ++ (order ++ back))
    (hnodup : whole.Nodup) (limit steps : Nat) (store : Store) (output : Array String) :
    (∃ last, (link table whole).runFrom limit steps (order ++ back).head? store output =
        (last, .error (.stepLimitExceeded limit))) ∨
    (Action.performAll store actions = none ∧ ∃ last error,
      (link table whole).runFrom limit steps (order ++ back).head? store output =
        (last, .error error)) ∨
    ∃ after lines rest, Action.performAll store actions = some (after, lines) ∧ rest ≤ steps ∧
      (link table whole).runFrom limit steps (order ++ back).head? store output =
        (link table whole).runFrom limit rest back.head? after (output ++ lines) := by
  induction order generalizing front actions steps store output with
  | nil =>
    obtain rfl : actions = [] := by simpa [RowAt] using hrow.symm
    exact .inr (.inr ⟨store, [], steps, rfl, Nat.le_refl _, by rw [Array.appendList_nil]; rfl⟩)
  | cons id order ih =>
    obtain ⟨action, rest, rfl⟩ : ∃ action rest, actions = action :: rest := by
      cases actions with
      | nil => simp [RowAt] at hrow
      | cons action rest => exact ⟨action, rest, rfl⟩
    obtain ⟨haction, hrest⟩ := List.cons.inj hrow
    have hstatement : (link table whole).statements[id]? =
        some ⟨action, (order ++ back).head?⟩ := by
      rw [hwhole] at hnodup ⊢
      exact getElem?_link hnodup haction
    have hstep : ((link table whole).step store id).toOption = _ :=
      toOption_step hstatement (hplain action (.head _))
    have hhead : (id :: order ++ back).head? = some id := rfl
    rw [hhead]
    cases steps with
    | zero => exact .inl ⟨store, rfl⟩
    | succ steps =>
      rw [runFrom]
      cases hresult : (link table whole).step store id with
      | error error =>
        rw [hresult] at hstep
        refine .inr (.inl ⟨Action.performAll_cons_of_none ?_ rest, store, error, rfl⟩)
        exact (Option.map_eq_none_iff.mp hstep.symm)
      | ok effect =>
        rw [hresult] at hstep
        obtain ⟨⟨next, lines⟩, heffect, heq⟩ := Option.map_eq_some_iff.mp hstep.symm
        obtain rfl := heq
        have hwholeNext : whole = (front ++ [id]) ++ (order ++ back) := by
          rw [hwhole]
          simp
        have hperform := Action.performAll_cons_of_some heffect rest
        rcases ih hrest (fun action hmem => hplain action (.tail _ hmem)) hwholeNext steps next
            (output ++ lines) with hcut | ⟨hnone, herror⟩ | ⟨after, more, left, hsome, hleft, hrun⟩
        · exact .inl hcut
        · rw [hnone] at hperform
          exact .inr (.inl ⟨hperform, herror⟩)
        · rw [hsome] at hperform
          refine .inr (.inr ⟨after, lines ++ more, left, hperform, by omega, ?_⟩)
          have happend : output ++ lines ++ more = output ++ (lines ++ more) :=
            Array.ext' (by simp)
          rw [← happend]
          exact hrun

theorem Course.of_row {table : Array Statement} {whole front back order : Order}
    {actions : List Action} {limit steps : Nat} {exit : Option StatementId} {store : Store}
    {settles : Outcome → Prop} {output : Array String} (hrow : RowAt table order actions)
    (hplain : ∀ action ∈ actions, action.IsPlain) (hwhole : whole = front ++ (order ++ back))
    (hnodup : whole.Nodup) (hfails : Action.performAll store actions = none → settles .fails)
    (hnext : ∀ after lines, Action.performAll store actions = some (after, lines) →
      store.shape = after.shape ∧ ∀ rest ≤ steps, Course (link table whole) limit exit after
        (fun outcome => settles (outcome.after lines)) rest (output ++ lines)
        ((link table whole).runFrom limit rest back.head? after (output ++ lines))) :
    Course (link table whole) limit exit store settles steps output
      ((link table whole).runFrom limit steps (order ++ back).head? store output) := by
  rcases runFrom_row hrow hplain hwhole hnodup limit steps store output with
    hcut | ⟨hnone, herror⟩ | ⟨after, lines, rest, hsome, hrest, hrun⟩
  · exact .inl hcut
  · exact .inr (.inl ⟨hfails hnone, herror⟩)
  · obtain ⟨hshape, hcourse⟩ := hnext after lines hsome
    rw [hrun]
    exact (hcourse rest hrest).behind hshape hrest

theorem Course.of_silently {table : Array Statement} {whole front back order : Order}
    {actions : List Action} {limit steps : Nat} {exit : Option StatementId} {store : Store}
    {settles : Outcome → Prop} {output : Array String} {fails : Prop} {ends : Store → Prop}
    (hrow : RowAt table order actions) (hplain : ∀ action ∈ actions, action.IsPlain)
    (hwhole : whole = front ++ (order ++ back)) (hnodup : whole.Nodup)
    (hsilently : Silently store actions fails ends) (hfails : fails → settles .fails)
    (hnext : ∀ after, ends after → store.shape = after.shape ∧ ∀ rest ≤ steps,
      Course (link table whole) limit exit after settles rest output
        ((link table whole).runFrom limit rest back.head? after output)) :
    Course (link table whole) limit exit store settles steps output
      ((link table whole).runFrom limit steps (order ++ back).head? store output) := by
  refine .of_row hrow hplain hwhole hnodup (fun hnone => ?_) fun after lines hsome => ?_
  · rcases hsilently with ⟨-, h⟩ | ⟨after, hsome, -⟩
    · exact hfails h
    · rw [hnone] at hsome
      exact absurd hsome (by simp)
  · rcases hsilently with ⟨hnone, -⟩ | ⟨last, hlast, hends⟩
    · rw [hnone] at hsome
      exact absurd hsome (by simp)
    · obtain ⟨rfl, rfl⟩ := Prod.mk.inj (Option.some.inj (hlast.symm.trans hsome))
      obtain ⟨hshape, hcourse⟩ := hnext last hends
      refine ⟨hshape, fun rest hrest => ?_⟩
      rw [Array.appendList_nil]
      refine (hcourse rest hrest).imp fun outcome h => ?_
      rw [Outcome.after_nil]
      exact h

/-! ## Branches -/

/-- Both sides are in their variables, so that a branch goes by whether the condition holds. -/
def Ready (test : Comparison) (condition : Condition) (store : Store) : Prop :=
  ∀ statement, (comparisonHolds store statement test.left test.right test.relation).toOption =
    condition.holds? store.memory

theorem Course.of_branch {program : Program} {limit steps : Nat} {exit next : Option StatementId}
    {store : Store} {settles : Outcome → Prop} {output : Array String} {test : Comparison}
    {condition : Condition} {branch onTrue onFalse : StatementId}
    (hstatement : program.statements[branch]? =
      some ⟨test.branch (some onTrue) (some onFalse), next⟩)
    (hready : Ready test condition store)
    (hfails : condition.holds? store.memory = none → settles .fails)
    (hnext : ∀ holds, condition.holds? store.memory = some holds → ∀ rest < steps,
      Course program limit exit store settles rest output
        (program.runFrom limit rest (some (if holds then onTrue else onFalse)) store output)) :
    Course program limit exit store settles steps output
      (program.runFrom limit steps (some branch) store output) := by
  cases hcomparison : comparisonHolds store branch test.left test.right test.relation with
  | error error =>
    have hholds := hready branch
    rw [hcomparison] at hholds
    have hstep : program.step store branch = .error error := by
      unfold Program.step
      rw [hstatement]
      show (comparisonHolds store branch test.left test.right test.relation >>= _) = _
      rw [hcomparison]
      rfl
    exact .error hstep (hfails hholds.symm)
  | ok holds =>
    have hholds := hready branch
    rw [hcomparison] at hholds
    exact .step (step_branch hstatement hcomparison) (hnext holds hholds.symm)

theorem statement_link {table : Array Statement} {whole front back : Order} {id : StatementId}
    {action : Action} (hwhole : whole = front ++ id :: back) (hnodup : whole.Nodup)
    (haction : actionAt? table id = some action) :
    (link table whole).statements[id]? = some ⟨action, back.head?⟩ := by
  rw [hwhole] at hnodup ⊢
  exact getElem?_link hnodup haction

theorem step_skip {program : Program} {id : StatementId} {next : Option StatementId}
    (h : program.statements[id]? = some ⟨.skip, next⟩) (store : Store) :
    program.step store id = .ok { store, next } := by
  unfold Program.step
  rw [h]
  rfl

theorem step_goto {program : Program} {id target : StatementId} {next : Option StatementId}
    (h : program.statements[id]? = some ⟨.goto (some target), next⟩) (store : Store) :
    program.step store id = .ok { store, next := some target } := by
  unfold Program.step
  rw [h]
  rfl

/-! ## Constructs -/

/-- A run that comes to the beginning of the order goes as the command does, and leaves it behind
the end of the order. -/
def Carries (made : Store) (table : Array Statement) (order : Order) (command : Command) : Prop :=
  ∀ whole front back : Order, whole = front ++ (order ++ back) → whole.Nodup →
    ∀ store : Store, store.Hosts made → ∀ limit steps output,
      Course (link table whole) limit back.head? store (command.Settles store.memory) steps output
        ((link table whole).runFrom limit steps (order ++ back).head? store output)

/-- The test of a condition: the statements that compute it, and what they do. -/
structure Tests (made : Store) (table : Array Statement) (test : Comparison)
    (condition : Condition) : Prop where
  exists_actions : ∃ actions, RowAt table test.order actions ∧
    (∀ action ∈ actions, action.IsPlain) ∧ Compares made actions test condition

theorem Tests.course {made : Store} {table : Array Statement} {test : Comparison}
    {condition : Condition} (h : Tests made table test condition) {whole front back : Order}
    {limit steps : Nat} {exit : Option StatementId} {store : Store} {settles : Outcome → Prop}
    {output : Array String} (hwhole : whole = front ++ (test.order ++ back))
    (hnodup : whole.Nodup) (hhosts : store.Hosts made)
    (hfails : condition.holds? store.memory = none → settles .fails)
    (hnext : ∀ after, store.shape = after.shape → after.memory = store.memory →
      Ready test condition after → ∀ rest ≤ steps,
        Course (link table whole) limit exit after settles rest output
          ((link table whole).runFrom limit rest back.head? after output)) :
    Course (link table whole) limit exit store settles steps output
      ((link table whole).runFrom limit steps (test.order ++ back).head? store output) := by
  obtain ⟨actions, hrow, hplain, hcompares⟩ := h.exists_actions
  refine .of_silently hrow hplain hwhole hnodup (hcompares store hhosts) hfails
    fun after hafter => ?_
  obtain ⟨hshape, hmemory, hready⟩ := hafter
  refine ⟨hshape, hnext after hshape hmemory fun statement => ?_⟩
  rw [hready statement, hmemory]

theorem Tests.course_branch {made : Store} {table : Array Statement} {test : Comparison}
    {condition : Condition} (h : Tests made table test condition) {whole front back : Order}
    {branch onTrue onFalse : StatementId} {limit steps : Nat} {exit : Option StatementId}
    {store : Store} {settles : Outcome → Prop} {output : Array String}
    (hwhole : whole = front ++ (test.order ++ (branch :: back))) (hnodup : whole.Nodup)
    (hbranch : actionAt? table branch = some (test.branch (some onTrue) (some onFalse)))
    (hhosts : store.Hosts made) (hfails : condition.holds? store.memory = none → settles .fails)
    (hnext : ∀ holds after, condition.holds? store.memory = some holds →
      store.shape = after.shape → after.memory = store.memory → ∀ rest ≤ steps,
        Course (link table whole) limit exit after settles rest output
          ((link table whole).runFrom limit rest (some (if holds then onTrue else onFalse)) after
            output)) :
    Course (link table whole) limit exit store settles steps output
      ((link table whole).runFrom limit steps (test.order ++ (branch :: back)).head? store
        output) := by
  have hstatement : (link table whole).statements[branch]? =
      some ⟨test.branch (some onTrue) (some onFalse), back.head?⟩ :=
    statement_link (by rw [hwhole, List.append_assoc]) hnodup hbranch
  refine h.course hwhole hnodup hhosts hfails fun after hshape hmemory hready rest hrest => ?_
  refine .of_branch hstatement hready (hmemory ▸ hfails) fun holds hholds left hleft => ?_
  exact hnext holds after (hmemory ▸ hholds) hshape hmemory left (by omega)

namespace Carries

variable {made : Store} {table : Array Statement} {order first second : Order}
  {command before after : Command}

theorem congr (h : Carries made table order before)
    (hsettles : ∀ memory outcome, before.Settles memory outcome → after.Settles memory outcome) :
    Carries made table order after := by
  intro whole front back hwhole hnodup store hhosts limit steps output
  exact (h whole front back hwhole hnodup store hhosts limit steps output).imp (hsettles _)

theorem row {actions : List Action} (hrow : RowAt table order actions)
    (hplain : ∀ action ∈ actions, action.IsPlain) (h : Performs made actions command) :
    Carries made table order command := by
  intro whole front back hwhole hnodup store hhosts limit steps output
  refine .of_row hrow hplain hwhole hnodup (fun hnone => ?_) fun last lines hsome => ?_
  · rcases h store hhosts with ⟨-, hsettles⟩ | ⟨last, lines, hsome, -⟩
    · exact hsettles
    · rw [hnone] at hsome
      exact absurd hsome (by simp)
  · rcases h store hhosts with ⟨hnone, -⟩ | ⟨other, more, hother, hshape, hsettles⟩
    · rw [hnone] at hsome
      exact absurd hsome (by simp)
    · obtain ⟨rfl, rfl⟩ := Prod.mk.inj (Option.some.inj (hother.symm.trans hsome))
      exact ⟨hshape, fun rest hrest => .arrived_behind hsettles⟩

theorem skip {id : StatementId} (h : actionAt? table id = some .skip) :
    Carries made table [id] .skip := by
  intro whole front back hwhole hnodup store hhosts limit steps output
  exact .step (step_skip (statement_link hwhole hnodup h) store)
    fun rest hrest => .arrived (.skip _)

theorem nil : Carries made table [] .skip := by
  intro whole front back hwhole hnodup store hhosts limit steps output
  exact .arrived (.skip _)

theorem append (hfirst : Carries made table first before)
    (hsecond : Carries made table second after) :
    Carries made table (first ++ second) (.sequence before after) := by
  intro whole front back hwhole hnodup store hhosts limit steps output
  have hfirstWhole : whole = front ++ (first ++ (second ++ back)) := by
    rw [hwhole, List.append_assoc]
  have hsecondWhole : whole = (front ++ first) ++ (second ++ back) := by
    rw [hfirstWhole, List.append_assoc]
  rw [List.append_assoc]
  refine (hfirst whole front _ hfirstWhole hnodup store hhosts limit steps output).andThen
    Command.Settles.sequence_fails fun next lines hends hshape rest hrest => ?_
  exact (hsecond whole _ back hsecondWhole hnodup next (hhosts.of_shape hshape) limit rest _).imp
    fun outcome houtcome => hends.sequence houtcome

theorem conditional {test : Comparison} {condition : Condition} {branch close : StatementId}
    {inner : Order} (htest : Tests made table test condition)
    (hbranch : actionAt? table branch =
      some (test.branch (inner ++ [close]).head? (inner ++ [close]).getLast?))
    (hclose : actionAt? table close = some .skip)
    (hbody : Carries made table (inner ++ [close]) command) :
    Carries made table (test.order ++ [branch] ++ (inner ++ [close]))
      (.conditional condition command) := by
  intro whole front back hwhole hnodup store hhosts limit steps output
  obtain ⟨onTrue, htrue⟩ : ∃ onTrue, (inner ++ [close]).head? = some onTrue := by
    cases inner <;> simp
  rw [htrue, List.getLast?_concat] at hbranch
  have hwholeTest : whole =
      front ++ (test.order ++ (branch :: (inner ++ [close] ++ back))) := by
    rw [hwhole]
    simp
  have hwholeBody : whole =
      (front ++ test.order ++ [branch]) ++ (inner ++ [close] ++ back) := by
    rw [hwhole]
    simp
  have hcloseAt : (link table whole).statements[close]? = some ⟨.skip, back.head?⟩ :=
    statement_link (show whole = (front ++ test.order ++ [branch] ++ inner) ++ close :: back by
      rw [hwhole]; simp) hnodup hclose
  have hentry : (test.order ++ [branch] ++ (inner ++ [close]) ++ back).head? =
      (test.order ++ (branch :: (inner ++ [close] ++ back))).head? := by
    simp
  rw [hentry]
  refine htest.course_branch hwholeTest hnodup hbranch hhosts .conditional_fails
    fun holds next hholds hshape hmemory rest hrest => ?_
  cases holds with
  | true =>
    have hstart : (inner ++ [close] ++ back).head? = some onTrue := by
      rw [List.head?_append, htrue]
      rfl
    rw [if_pos rfl, ← hstart]
    refine (hbody whole _ back hwholeBody hnodup next (hhosts.of_shape hshape) limit rest _).imp
      fun outcome houtcome => ?_
    exact .conditional_true hholds (hmemory ▸ houtcome)
  | false =>
    refine .step (step_skip hcloseAt next) fun left hleft => .arrived ?_
    rw [hmemory]
    exact .conditional_false hholds

theorem choice {test : Comparison} {condition : Condition} {branch skip exit : StatementId}
    {body other : Order} (htest : Tests made table test condition)
    (hbranch : actionAt? table branch = some (test.branch body.head? other.head?))
    (hskip : actionAt? table skip = some (.goto (some exit)))
    (hexit : actionAt? table exit = some .skip) (hbodyNe : body ≠ []) (hotherNe : other ≠ [])
    (hbody : Carries made table body before) (hother : Carries made table other after) :
    Carries made table (test.order ++ [branch] ++ body ++ [skip] ++ other ++ [exit])
      (.choice condition before after) := by
  intro whole front back hwhole hnodup store hhosts limit steps output
  obtain ⟨onTrue, bodyRest, rfl⟩ := List.exists_cons_of_ne_nil hbodyNe
  obtain ⟨onFalse, otherRest, rfl⟩ := List.exists_cons_of_ne_nil hotherNe
  have hwholeTest : whole = front ++ (test.order ++ (branch ::
      ((onTrue :: bodyRest) ++ [skip] ++ (onFalse :: otherRest) ++ [exit] ++ back))) := by
    rw [hwhole]
    simp
  have hwholeBody : whole = (front ++ test.order ++ [branch]) ++
      ((onTrue :: bodyRest) ++ (skip :: ((onFalse :: otherRest) ++ [exit] ++ back))) := by
    rw [hwhole]
    simp
  have hwholeOther : whole = (front ++ test.order ++ [branch] ++ (onTrue :: bodyRest) ++ [skip]) ++
      ((onFalse :: otherRest) ++ (exit :: back)) := by
    rw [hwhole]
    simp
  have hskipAt := statement_link (show whole = (front ++ test.order ++ [branch] ++
    (onTrue :: bodyRest)) ++ skip :: ((onFalse :: otherRest) ++ [exit] ++ back) by
      rw [hwhole]; simp) hnodup hskip
  have hexitAt := statement_link (show whole = (front ++ test.order ++ [branch] ++
    (onTrue :: bodyRest) ++ [skip] ++ (onFalse :: otherRest)) ++ exit :: back by
      rw [hwhole]; simp) hnodup hexit
  have hentry : (test.order ++ [branch] ++ (onTrue :: bodyRest) ++ [skip] ++
      (onFalse :: otherRest) ++ [exit] ++ back).head? = (test.order ++ (branch ::
      ((onTrue :: bodyRest) ++ [skip] ++ (onFalse :: otherRest) ++ [exit] ++ back))).head? := by
    simp
  rw [hentry]
  refine htest.course_branch hwholeTest hnodup hbranch hhosts .choice_fails
    fun holds next hholds hshape hmemory rest hrest => ?_
  have hnextHosts := hhosts.of_shape hshape
  cases holds with
  | true =>
    rw [if_pos rfl]
    refine (hbody whole _ _ hwholeBody hnodup next hnextHosts limit rest output).andThen
      (fun hfails => .choice_true hholds (hmemory ▸ hfails))
      fun last lines hends hlast left hleft => ?_
    exact .step (step_goto hskipAt last) fun left hleft =>
      .step (step_skip hexitAt last) fun left hleft =>
        .arrived_behind (.choice_true hholds (hmemory ▸ hends))
  | false =>
    rw [if_neg Bool.false_ne_true]
    refine (hother whole _ _ hwholeOther hnodup next hnextHosts limit rest output).andThen
      (fun hfails => .choice_false hholds (hmemory ▸ hfails))
      fun last lines hends hlast left hleft => ?_
    exact .step (step_skip hexitAt last) fun left hleft =>
      .arrived_behind (.choice_false hholds (hmemory ▸ hends))

/-- The rounds of a loop that tests first. The induction is on the steps that are left: each round
takes at least the branch. -/
theorem rounds_whileLoop {test : Comparison} {condition : Condition}
    {branch close loopBack onTrue : StatementId} {inner evaluation whole front back : Order}
    (hevaluation : Tests made table { test with order := evaluation } condition)
    (hbranch : actionAt? table branch = some (test.branch (some onTrue) (some close)))
    (hloopBack : actionAt? table loopBack = some (.goto (some branch)))
    (hclose : actionAt? table close = some .skip) (hbody : Carries made table inner command)
    (hwhole : whole = (front ++ [branch]) ++ (inner ++ (evaluation ++ (loopBack :: close :: back))))
    (hstart : (inner ++ (evaluation ++ (loopBack :: close :: back))).head? = some onTrue)
    (hnodup : whole.Nodup) (limit steps : Nat) :
    ∀ store : Store, store.Hosts made → Ready test condition store → ∀ output,
      Course (link table whole) limit back.head? store
        (Command.WhileSettles condition command store.memory) steps output
        ((link table whole).runFrom limit steps (some branch) store output) := by
  have hbranchAt := statement_link (show whole = front ++ branch :: (inner ++ (evaluation ++
    (loopBack :: close :: back))) by rw [hwhole]; simp) hnodup hbranch
  have hloopBackAt := statement_link (show whole = (front ++ [branch] ++ inner ++ evaluation) ++
    loopBack :: close :: back by rw [hwhole]; simp) hnodup hloopBack
  have hcloseAt := statement_link (show whole = (front ++ [branch] ++ inner ++ evaluation ++
    [loopBack]) ++ close :: back by rw [hwhole]; simp) hnodup hclose
  have hwholeEvaluation : whole = (front ++ [branch] ++ inner) ++
      (evaluation ++ (loopBack :: close :: back)) := by
    rw [hwhole]
    simp
  induction steps using Nat.strongRecOn with
  | ind steps ih =>
    intro store hhosts hready output
    refine .of_branch hbranchAt hready .fails fun holds hholds rest hrest => ?_
    cases holds with
    | false =>
      exact .step (step_skip hcloseAt store) fun left hleft => .arrived (.ends hholds)
    | true =>
      rw [if_pos rfl, ← hstart]
      refine (hbody whole _ _ hwhole hnodup store hhosts limit rest output).andThen
        (.body_fails hholds) fun next lines hends hshape left hleft => ?_
      have hnextHosts := hhosts.of_shape hshape
      refine hevaluation.course hwholeEvaluation hnodup hnextHosts
        (fun hnone => .round hholds hends (.fails hnone)) ?_
      intro last hlast hmemory hlastReady more hmore
      refine .step (step_goto hloopBackAt last) fun few hfew => ?_
      refine (ih few (by omega) last (hnextHosts.of_shape hlast) hlastReady _).imp
        fun outcome houtcome => ?_
      exact .round hholds hends (hmemory ▸ houtcome)

/-- A loop that tests first. The last statement of its body stands behind the jump back. -/
theorem whileLoop {test : Comparison} {condition : Condition}
    {branch close loopBack : StatementId} {inner evaluation : Order}
    (htest : Tests made table test condition)
    (hevaluation : Tests made table { test with order := evaluation } condition)
    (hbranch : actionAt? table branch = some (test.branch
      (inner ++ evaluation ++ [loopBack] ++ [close]).head? (some close)))
    (hloopBack : actionAt? table loopBack = some (.goto (some branch)))
    (hclose : actionAt? table close = some .skip) (hbody : Carries made table inner command) :
    Carries made table
      (test.order ++ [branch] ++ (inner ++ evaluation ++ [loopBack] ++ [close]))
      (.whileLoop condition command) := by
  intro whole front back hwhole hnodup store hhosts limit steps output
  obtain ⟨onTrue, htrue⟩ : ∃ onTrue,
      (inner ++ evaluation ++ [loopBack] ++ [close]).head? = some onTrue := by
    cases inner <;> cases evaluation <;> simp
  rw [htrue] at hbranch
  have hstart : (inner ++ (evaluation ++ (loopBack :: close :: back))).head? = some onTrue := by
    rw [← htrue]
    cases inner <;> cases evaluation <;> simp
  have hwholeTest : whole = front ++ (test.order ++
      (branch :: (inner ++ (evaluation ++ (loopBack :: close :: back))))) := by
    rw [hwhole]
    simp
  have hwholeRounds : whole = ((front ++ test.order) ++ [branch]) ++
      (inner ++ (evaluation ++ (loopBack :: close :: back))) := by
    rw [hwhole]
    simp
  have hentry : (test.order ++ [branch] ++ (inner ++ evaluation ++ [loopBack] ++ [close]) ++
      back).head? = (test.order ++
        (branch :: (inner ++ (evaluation ++ (loopBack :: close :: back))))).head? := by
    simp
  rw [hentry]
  refine htest.course hwholeTest hnodup hhosts
    (fun hnone => (Command.WhileSettles.fails hnone).settles)
    fun next hshape hmemory hready rest hrest => ?_
  refine (rounds_whileLoop hevaluation hbranch hloopBack hclose hbody hwholeRounds hstart hnodup
    limit rest next (hhosts.of_shape hshape) hready output).imp fun outcome houtcome => ?_
  exact (hmemory ▸ houtcome).settles

theorem rounds_repeatLoop {test : Comparison} {condition : Condition}
    {start branch exit : StatementId} {body whole front back : Order}
    (htest : Tests made table test condition) (hstart : actionAt? table start = some .skip)
    (hbranch : actionAt? table branch = some (test.branch (some exit) (some start)))
    (hexit : actionAt? table exit = some .skip) (hbody : Carries made table body command)
    (hwhole : whole = (front ++ [start]) ++ (body ++ (test.order ++ (branch :: exit :: back))))
    (hnodup : whole.Nodup) (limit steps : Nat) :
    ∀ store : Store, store.Hosts made → ∀ output,
      Course (link table whole) limit back.head? store
        (Command.RepeatSettles command condition store.memory) steps output
        ((link table whole).runFrom limit steps (some start) store output) := by
  have hstartAt := statement_link (show whole = front ++ start :: (body ++ (test.order ++
    (branch :: exit :: back))) by rw [hwhole]; simp) hnodup hstart
  have hexitAt := statement_link (show whole = (front ++ [start] ++ body ++ test.order ++
    [branch]) ++ exit :: back by rw [hwhole]; simp) hnodup hexit
  have hwholeTest : whole = (front ++ [start] ++ body) ++
      (test.order ++ (branch :: exit :: back)) := by
    rw [hwhole]
    simp
  induction steps using Nat.strongRecOn with
  | ind steps ih =>
    intro store hhosts output
    refine .step (step_skip hstartAt store) fun rest hrest => ?_
    refine (hbody whole _ _ hwhole hnodup store hhosts limit rest output).andThen .body_fails
      fun next lines hends hshape left hleft => ?_
    have hnextHosts := hhosts.of_shape hshape
    refine htest.course_branch hwholeTest hnodup hbranch hnextHosts (.fails hends)
      fun holds last hholds hlast hmemory more hmore => ?_
    cases holds with
    | true =>
      rw [if_pos rfl]
      refine .step (step_skip hexitAt last) fun few hfew => .arrived_behind ?_
      rw [hmemory]
      exact .ends hends hholds
    | false =>
      rw [if_neg Bool.false_ne_true]
      refine (ih more (by omega) last (hnextHosts.of_shape hlast) _).imp fun outcome houtcome => ?_
      exact .round hends hholds (hmemory ▸ houtcome)

theorem repeatLoop {test : Comparison} {condition : Condition}
    {start branch exit : StatementId} {body : Order} (htest : Tests made table test condition)
    (hstart : actionAt? table start = some .skip)
    (hbranch : actionAt? table branch = some (test.branch (some exit) (some start)))
    (hexit : actionAt? table exit = some .skip) (hbody : Carries made table body command) :
    Carries made table ([start] ++ body ++ test.order ++ [branch, exit])
      (.repeatLoop command condition) := by
  intro whole front back hwhole hnodup store hhosts limit steps output
  have hwholeRounds : whole = (front ++ [start]) ++
      (body ++ (test.order ++ (branch :: exit :: back))) := by
    rw [hwhole]
    simp
  refine (rounds_repeatLoop htest hstart hbranch hexit hbody hwholeRounds hnodup limit steps store
    hhosts output).imp fun outcome houtcome => houtcome.settles

end Carries

end LineGrammar
