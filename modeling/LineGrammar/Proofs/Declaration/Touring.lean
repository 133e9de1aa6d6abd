import LineGrammar.Proofs.Tree.Preorder
import Mathlib.Tactic.SplitIfs

/-!
# A walk in one go

A walk that stops at loops and is resumed until it ends does what a single walk through the tree
does: it visits all nodes that are not below a declaration, each before those below it and from left
to right, and then converts all values. That both visit the same nodes and fail at the same one is
told by walks that note the paths of the nodes. So walks are taken here with any way of visiting
nodes; declaring is one of them.
-/

namespace LineGrammar

def Settings.declares (settings : Settings) (node : Tree) : Bool :=
  node.symbol == settings.statements.typeDeclaration ||
    node.symbol == settings.statements.variableDeclaration

def Settings.loops (settings : Settings) (node : Tree) : Bool :=
  settings.statements.isLoop node.symbol

/-- The nodes that are not below a declaration. -/
def Settings.visible (settings : Settings) (tree : Tree) : List (Path × Tree) :=
  tree.nodes.filter fun node => !tree.hasAbove settings.declares node.1

/-- The loops that are not below another loop or a declaration. -/
def Settings.outerLoops (settings : Settings) (tree : Tree) : List (Path × Tree) :=
  tree.nodes.filter fun node => settings.loops node.2 &&
    !tree.hasAbove (fun above => settings.loops above || settings.declares above) node.1

/-- A way to visit the nodes of a tree: what it does to a state, and what is done at the end. -/
structure Touring (σ : Type) where
  settings : Settings
  visit : Path → Tree → σ → Except DeclarationError Unit × σ
  finish : σ → Except DeclarationError Unit × σ

namespace Touring

variable {σ : Type}

/-- Declaring what the nodes declare, and converting the values. -/
def declaring (settings : Settings) : Touring Store where
  settings := settings
  visit _ node store :=
    let (result, store) := (Declaration.visit settings node).run.run store
    (result.map fun _ => (), store)
  finish store :=
    let (verified, consistent) := store.verifyTypes
    (if consistent then .ok () else .error .inconsistentTypes, verified)

/-- Also notes the paths of the nodes that are visited. -/
def noting (touring : Touring σ) : Touring (σ × List Path) where
  settings := touring.settings
  visit path node state :=
    let (result, after) := touring.visit path node state.1
    (result, after, state.2 ++ [path])
  finish state :=
    let (result, after) := touring.finish state.1
    (result, after, state.2)

/-! ## The single walk -/

/-- Visits nodes one after the other, up to one that fails. -/
def visitList (touring : Touring σ) : List (Path × Tree) → σ → Except DeclarationError Unit × σ
  | [], state => (.ok (), state)
  | (path, node) :: nodes, state =>
    match touring.visit path node state with
    | (.error error, after) => (.error error, after)
    | (.ok (), after) => touring.visitList nodes after

/-- Visits nodes one after the other and finishes. -/
def tour (touring : Touring σ) (nodes : List (Path × Tree)) (state : σ) :
    Except DeclarationError Unit × σ :=
  match touring.visitList nodes state with
  | (.error error, after) => (.error error, after)
  | (.ok (), after) => touring.finish after

/-- The nodes that are visited: all up to one that fails. -/
def visited (touring : Touring σ) : List (Path × Tree) → σ → List (Path × Tree)
  | [], _ => []
  | (path, node) :: nodes, state =>
    (path, node) ::
      match touring.visit path node state with
      | (.error _, _) => []
      | (.ok (), after) => touring.visited nodes after

/-! ## The walk that stops at loops -/

mutual

/-- Visits the nodes of the tree at a path, loops included. -/
def visitAll (touring : Touring σ) (path : Path) : Tree → σ → Except DeclarationError Unit × σ
  | tree@⟨_, _, _, _, _, children⟩, state =>
    match touring.visit path tree state with
    | (.error error, after) => (.error error, after)
    | (.ok (), after) =>
      if touring.settings.declares tree then (.ok (), after)
      else touring.visitEach path 0 children after

def visitEach (touring : Touring σ) (path : Path) (index : Nat) :
    List Tree → σ → Except DeclarationError Unit × σ
  | [], state => (.ok (), state)
  | tree :: trees, state =>
    match touring.visitAll (path ++ [index]) tree state with
    | (.error error, after) => (.error error, after)
    | (.ok (), after) => touring.visitEach path (index + 1) trees after

end

def visitAt (touring : Touring σ) (tree : Tree) (path : Path) (state : σ) :
    Except DeclarationError Unit × σ :=
  match tree.nodeAt? path with
  | none => (.error .staleTree, state)
  | some node => touring.visitAll path node state

/-- What is left when a walk comes to a loop, to the end or to an error. -/
structure Stop (σ : Type) where
  state : σ
  stack : List Path
  result : Except DeclarationError (Option Path)

/-- Visits the nodes at the paths of a stack and below, up to a loop. -/
def advance (touring : Touring σ) (tree : Tree) (state : σ) : List Path → Stop σ
  | [] => ⟨state, [], .ok none⟩
  | path :: stack =>
    match _node : tree.nodeAt? path with
    | none => ⟨state, stack, .error .staleTree⟩
    | some node =>
      if touring.settings.loops node then ⟨state, stack, .ok (some path)⟩
      else
        match touring.visit path node state with
        | (.error error, after) => ⟨after, stack, .error error⟩
        | (.ok (), after) =>
          touring.advance tree after
            ((if touring.settings.declares node then [] else Tree.childPaths path node) ++ stack)
termination_by stack => tree.sizeAtAll stack
decreasing_by
  have := Tree.sizeAtAll_childPaths_lt _node
  split <;> simp only [Tree.sizeAtAll_append, Tree.sizeAtAll, List.nil_append] <;> omega

theorem advance_cons {touring : Touring σ} {tree node : Tree} {path : Path}
    (h : tree.nodeAt? path = some node) (state : σ) (stack : List Path) :
    touring.advance tree state (path :: stack) =
      if touring.settings.loops node then ⟨state, stack, .ok (some path)⟩
      else
        match touring.visit path node state with
        | (.error error, after) => ⟨after, stack, .error error⟩
        | (.ok (), after) =>
          touring.advance tree after
            ((if touring.settings.declares node then [] else Tree.childPaths path node) ++
              stack) := by
  rw [advance]
  split
  · simp_all
  · next found hfound =>
    obtain rfl : found = node := Option.some.inj (hfound.symm.trans h)
    rfl

/-- Goes on to the next loop, or to the end. -/
def walkOn (touring : Touring σ) (tree : Tree) (state : σ) (stack : List Path) :
    DeclarationWalk × σ × Except DeclarationError WalkStatus :=
  match touring.advance tree state stack with
  | ⟨after, stack, .error error⟩ => ({ stack }, after, .error error)
  | ⟨after, stack, .ok (some loop)⟩ => ({ stack, pending := some loop }, after, .ok .suspended)
  | ⟨after, stack, .ok none⟩ =>
    let (result, finished) := touring.finish after
    ({ stack, done := true }, finished, result.map fun _ => .done)

/-- Visits the loop that the walk stopped at, and goes on. -/
def resume (touring : Touring σ) (tree : Tree) (state : σ) (walk : DeclarationWalk) :
    DeclarationWalk × σ × Except DeclarationError WalkStatus :=
  if walk.done then (walk, state, .ok .done)
  else
    match walk.pending with
    | none => touring.walkOn tree state walk.stack
    | some loop =>
      match touring.visitAt tree loop state with
      | (.error error, after) => ({ stack := walk.stack }, after, .error error)
      | (.ok (), after) => touring.walkOn tree after walk.stack

/-- A walk, resumed until it is done or fails, stops so often and ends in this way. -/
inductive Runs (touring : Touring σ) (tree : Tree) :
    σ → DeclarationWalk → Nat → Except DeclarationError Unit × σ → Prop
  | fails {state after : σ} {walk left : DeclarationWalk} {error : DeclarationError}
    (h : touring.resume tree state walk = (left, after, .error error)) :
    Runs touring tree state walk 0 (.error error, after)
  | done {state after : σ} {walk left : DeclarationWalk}
    (h : touring.resume tree state walk = (left, after, .ok .done)) :
    Runs touring tree state walk 0 (.ok (), after)
  | suspended {state after : σ} {walk left : DeclarationWalk} {stops : Nat}
    {result : Except DeclarationError Unit × σ}
    (h : touring.resume tree state walk = (left, after, .ok .suspended))
    (hrest : Runs touring tree after left stops result) :
    Runs touring tree state walk (stops + 1) result

theorem Runs.unique {touring : Touring σ} {tree : Tree} {state : σ} {walk : DeclarationWalk}
    {stops stops' : Nat} {result result' : Except DeclarationError Unit × σ}
    (h : touring.Runs tree state walk stops result)
    (h' : touring.Runs tree state walk stops' result') : stops = stops' ∧ result = result' := by
  induction h generalizing stops' result' with
  | fails h => cases h' <;> simp_all
  | done h => cases h' <;> simp_all
  | suspended h hrest ih =>
    cases h' with
    | fails h' => simp_all
    | done h' => simp_all
    | suspended h' hrest' =>
      obtain ⟨rfl, heq⟩ := Prod.mk.inj (h.symm.trans h')
      obtain ⟨rfl, -⟩ := Prod.mk.inj heq
      obtain ⟨rfl, rfl⟩ := ih hrest'
      exact ⟨rfl, rfl⟩

/-! ## The nodes that it visits -/

section

variable (touring : Touring σ) (tree : Tree)

theorem visitList_append (nodes more : List (Path × Tree)) (state : σ) :
    touring.visitList (nodes ++ more) state =
      match touring.visitList nodes state with
      | (.error error, after) => (.error error, after)
      | (.ok (), after) => touring.visitList more after := by
  induction nodes generalizing state with
  | nil => rfl
  | cons found nodes ih =>
    obtain ⟨path, node⟩ := found
    rw [List.cons_append, visitList, visitList]
    rcases touring.visit path node state with ⟨error | ⟨⟩, after⟩
    · rfl
    · exact ih after

mutual

/-- Visiting a tree with its loops is visiting what is reached in it. -/
theorem visitAll_eq : ∀ (tree : Tree) (path : Path) (state : σ),
    touring.visitAll path tree state =
      touring.visitList ((tree.reached touring.settings.declares).map (Tree.under path)) state
  | ⟨symbol, token, completion, closed, line, children⟩, path, state => by
    have hroot (node : Tree) : Tree.under path ([], node) = (path, node) := by simp [Tree.under]
    rw [visitAll, Tree.reached, List.map_cons, hroot, visitList]
    rcases touring.visit path _ state with ⟨error | ⟨⟩, after⟩
    · rfl
    · dsimp only
      split
      · rfl
      · exact visitEach_eq children path 0 after

theorem visitEach_eq : ∀ (trees : List Tree) (path : Path) (index : Nat) (state : σ),
    touring.visitEach path index trees state =
      touring.visitList
        ((Tree.reachedEach touring.settings.declares index trees).map (Tree.under path)) state
  | [], _, _, _ => rfl
  | tree :: trees, path, index, state => by
    rw [visitEach, Tree.reachedEach, List.map_append, Tree.under_atChild, visitList_append,
      visitAll_eq tree]
    rcases touring.visitList _ state with ⟨error | ⟨⟩, after⟩
    · rfl
    · exact visitEach_eq trees path (index + 1) after

end

/-- What is reached from the paths of a stack without going below declarations. -/
def ahead (stack : List Path) : List (Path × Tree) :=
  tree.reachedAtAll touring.settings.declares stack

/-- How many loops are reached without going below loops or declarations. -/
def loopsAhead (stack : List Path) : Nat :=
  (tree.reachedAtAll (fun node => touring.settings.loops node || touring.settings.declares node)
    stack).countP fun found => touring.settings.loops found.2

/-- All paths of the stack are in the tree. -/
def Standing (stack : List Path) : Prop :=
  ∀ path ∈ stack, ∃ node, tree.nodeAt? path = some node

variable {touring tree}

theorem standing_childPaths {path : Path} {node : Tree} (h : tree.nodeAt? path = some node) :
    Standing tree (Tree.childPaths path node) := by
  intro child hchild
  obtain ⟨index, hindex, rfl⟩ := List.mem_map.mp hchild
  rw [Tree.nodeAt?_concat h]
  exact ⟨_, List.getElem?_eq_getElem (List.mem_range.mp hindex)⟩

theorem visitAt_eq {path : Path} (h : Standing tree [path]) (state : σ) :
    touring.visitAt tree path state = touring.visitList (touring.ahead tree [path]) state := by
  obtain ⟨node, hnode⟩ := h path List.mem_cons_self
  rw [visitAt, hnode, ahead, Tree.reachedAtAll_cons, Tree.reachedAt_of_nodeAt? hnode,
    Tree.reachedAtAll_nil, List.append_nil]
  exact visitAll_eq touring node path state

/-- Where the walk stops, the nodes ahead of it are those that are still to be visited. -/
def Stop.Leaves (touring : Touring σ) (tree : Tree) (state : σ) (stack : List Path) :
    Stop σ → Prop
  | ⟨after, _, .error error⟩ =>
    touring.visitList (touring.ahead tree stack) state = (.error error, after)
  | ⟨after, _, .ok none⟩ =>
    touring.visitList (touring.ahead tree stack) state = (.ok (), after) ∧
      touring.loopsAhead tree stack = 0
  | ⟨after, rest, .ok (some loop)⟩ =>
    Standing tree (loop :: rest) ∧
      touring.visitList (touring.ahead tree stack) state =
        touring.visitList (touring.ahead tree (loop :: rest)) after ∧
      touring.loopsAhead tree stack = touring.loopsAhead tree rest + 1

theorem Stop.Leaves.visit {state after : σ} {path : Path} {node : Tree} {stack : List Path}
    {stop : Stop σ} (hnode : tree.nodeAt? path = some node)
    (hloop : touring.settings.loops node = false)
    (hvisit : touring.visit path node state = (.ok (), after))
    (h : stop.Leaves touring tree after
      ((if touring.settings.declares node then [] else Tree.childPaths path node) ++ stack)) :
    stop.Leaves touring tree state (path :: stack) := by
  have hahead : touring.visitList (touring.ahead tree (path :: stack)) state =
      touring.visitList (touring.ahead tree
        ((if touring.settings.declares node then [] else Tree.childPaths path node) ++ stack))
        after := by
    rw [ahead, ahead, Tree.reachedAtAll_eq hnode, visitList, hvisit]
  have hloops : touring.loopsAhead tree (path :: stack) = touring.loopsAhead tree
      ((if touring.settings.declares node then [] else Tree.childPaths path node) ++ stack) := by
    rw [loopsAhead, loopsAhead, Tree.reachedAtAll_eq hnode,
      List.countP_cons_of_neg (by simp [hloop])]
    simp only [hloop, Bool.false_or]
  obtain ⟨last, rest, error | _ | loop⟩ := stop
  · exact hahead.trans h
  · exact ⟨hahead.trans h.1, hloops.trans h.2⟩
  · exact ⟨h.1, hahead.trans h.2.1, hloops.trans h.2.2⟩

theorem leaves_advance {state : σ} {stack : List Path} (hstack : Standing tree stack) :
    (touring.advance tree state stack).Leaves touring tree state stack := by
  fun_induction advance touring tree state stack with
  | case1 state => exact ⟨rfl, rfl⟩
  | case2 state path stack hnone =>
    obtain ⟨node, hnode⟩ := hstack path List.mem_cons_self
    simp [hnode] at hnone
  | case3 state path stack node hnode hloop =>
    refine ⟨hstack, rfl, ?_⟩
    rw [loopsAhead, Tree.reachedAtAll_eq hnode, List.countP_cons, if_pos hloop,
      if_pos (by simp [hloop])]
    rfl
  | case4 state path stack node hnode hloop error after hvisit =>
    show touring.visitList _ state = _
    rw [ahead, Tree.reachedAtAll_eq hnode, visitList, hvisit]
  | case5 state path stack node hnode hloop after hvisit ih =>
    refine .visit hnode (Bool.eq_false_iff.mpr hloop) hvisit (ih fun other hother => ?_)
    rcases List.mem_append.mp hother with hother | hother
    · split at hother
      · cases hother
      · exact standing_childPaths hnode other hother
    · exact hstack other (List.mem_cons_of_mem _ hother)

theorem ahead_cons (loop : Path) (stack : List Path) :
    touring.ahead tree (loop :: stack) =
      touring.ahead tree [loop] ++ touring.ahead tree stack := by
  rw [ahead, ahead, ahead, Tree.reachedAtAll_cons, Tree.reachedAtAll_cons, Tree.reachedAtAll_nil,
    List.append_nil]

/-- A walk that goes on with a stack visits the nodes ahead, finishes, and stops at each loop that
is reached without going below loops. The induction is on the number of these. -/
theorem runs_of_walkOn {walk : DeclarationWalk} {state after : σ} {stack : List Path}
    (hstack : Standing tree stack)
    (hwalk : touring.resume tree state walk = touring.walkOn tree after stack) :
    ∃ stops, touring.Runs tree state walk stops (touring.tour (touring.ahead tree stack) after) ∧
      ((touring.tour (touring.ahead tree stack) after).1 = .ok () →
        stops = touring.loopsAhead tree stack) := by
  induction hcount : touring.loopsAhead tree stack using Nat.strongRecOn
    generalizing walk state after stack with
  | ind count ih =>
    have hleaves : (touring.advance tree after stack).Leaves touring tree after stack :=
      leaves_advance hstack
    unfold walkOn at hwalk
    unfold tour
    rcases hadvance : touring.advance tree after stack with ⟨last, rest, error | _ | loop⟩
    · rw [hadvance] at hleaves hwalk
      rw [show touring.visitList _ _ = _ from hleaves]
      exact ⟨0, .fails hwalk, by simp⟩
    · rw [hadvance] at hleaves hwalk
      rw [hleaves.1]
      dsimp only
      rcases hfinish : touring.finish last with ⟨error | ⟨⟩, finished⟩
      · simp only [hfinish] at hwalk
        exact ⟨0, .fails hwalk, by simp⟩
      · simp only [hfinish] at hwalk
        exact ⟨0, .done hwalk, fun _ => hleaves.2.symm.trans hcount⟩
    · rw [hadvance] at hleaves hwalk
      obtain ⟨hstanding, hvisits, hloops⟩ := hleaves
      have hloop : Standing tree [loop] := fun path hpath =>
        hstanding path (List.mem_cons.mpr (.inl (List.mem_singleton.mp hpath)))
      have hrest : Standing tree rest := fun path hpath =>
        hstanding path (List.mem_cons_of_mem _ hpath)
      rw [hvisits, ahead_cons, visitList_append, ← visitAt_eq hloop]
      rcases hvisit : touring.visitAt tree loop last with ⟨error | ⟨⟩, next⟩
      · have hresume : touring.resume tree last { stack := rest, pending := some loop } =
            ({ stack := rest }, next, .error error) := by
          rw [resume, if_neg (by simp)]
          simp only [hvisit]
        exact ⟨1, .suspended hwalk (.fails hresume), by simp⟩
      · have hresume : touring.resume tree last { stack := rest, pending := some loop } =
            touring.walkOn tree next rest := by
          rw [resume, if_neg (by simp)]
          simp only [hvisit]
        obtain ⟨stops, hruns, hstops⟩ := ih _ (by omega) hrest hresume rfl
        exact ⟨stops + 1, .suspended hwalk hruns, fun hok => by rw [hstops hok]; omega⟩

end

theorem visitList_noting (touring : Touring σ) (nodes : List (Path × Tree)) (state : σ)
    (paths : List Path) :
    touring.noting.visitList nodes (state, paths) =
      let (result, after) := touring.visitList nodes state
      (result, after, paths ++ (touring.visited nodes state).map Prod.fst) := by
  induction nodes generalizing state paths with
  | nil => simp [visitList, visited]
  | cons found nodes ih =>
    obtain ⟨path, node⟩ := found
    have hnote : touring.noting.visit path node (state, paths) =
        ((touring.visit path node state).1, (touring.visit path node state).2, paths ++ [path]) :=
      rfl
    rw [visitList, visitList, visited, hnote]
    rcases touring.visit path node state with ⟨error | ⟨⟩, after⟩
    · rfl
    · show touring.noting.visitList nodes (after, paths ++ [path]) = _
      rw [ih]
      simp

theorem tour_noting (touring : Touring σ) (nodes : List (Path × Tree)) (state : σ) :
    touring.noting.tour nodes (state, []) =
      let (result, after) := touring.tour nodes state
      (result, after, (touring.visited nodes state).map Prod.fst) := by
  rw [tour, tour, visitList_noting]
  rcases touring.visitList nodes state with ⟨error | ⟨⟩, after⟩
  · simp
  · simp [noting]

end Touring

/-! ## Declaring -/

theorem run_run_bind {ε σ α β : Type} (first : ExceptT ε (StateM σ) α)
    (next : α → ExceptT ε (StateM σ) β) (state : σ) :
    (first >>= next).run.run state =
      match first.run.run state with
      | (.error error, after) => (.error error, after)
      | (.ok value, after) => (next value).run.run after := by
  rw [ExceptT.run_bind, StateT.run_bind]
  rcases first.run.run state with ⟨error | value, after⟩ <;> rfl

/-- If it succeeds, the computation has this result. -/
def Answers (deciding : Declaring Bool) (value : Bool) : Prop :=
  ∀ store after deeper, deciding.run.run store = (.ok deeper, after) → deeper = value

theorem Answers.pure (value : Bool) : Answers (pure value) value := by
  rintro store after deeper ⟨⟩
  rfl

theorem Answers.bind {α : Type} {first : Declaring α} {next : α → Declaring Bool} {value : Bool}
    (h : ∀ result, Answers (next result) value) : Answers (first >>= next) value := by
  intro store after deeper hrun
  rw [run_run_bind] at hrun
  split at hrun
  · cases hrun
  · exact h _ _ _ _ hrun

theorem Declaration.answers_visit (settings : Settings) (node : Tree) :
    Answers (visit settings node) (!settings.declares node) := by
  unfold visit Settings.declares
  dsimp only
  split_ifs with htype hvariable hstatic
  · rw [beq_iff_eq.mpr htype]
    exact .bind fun _ => .bind fun _ => .pure false
  · rw [beq_iff_eq.mpr hvariable, Bool.or_true]
    exact .bind fun _ => .bind fun _ => .pure false
  all_goals rw [beq_eq_false_iff_ne.mpr htype, beq_eq_false_iff_ne.mpr hvariable]
  · exact .bind fun _ => .pure true
  · exact .pure true

namespace Touring

section

variable (settings : Settings)

theorem visit_declaring {node : Tree} {store after : Store} {result : Except DeclarationError Bool}
    (h : (Declaration.visit settings node).run.run store = (result, after)) (path : Path) :
    (declaring settings).visit path node store = (result.map fun _ => (), after) := by
  have hvisit : (declaring settings).visit path node store =
      (((Declaration.visit settings node).run.run store).1.map fun _ => (),
        ((Declaration.visit settings node).run.run store).2) := rfl
  rw [hvisit, h]

mutual

theorem visitAll_declaring : ∀ (tree : Tree) (path : Path) (store : Store),
    (declaring settings).visitAll path tree store =
      (Declaration.visitAll settings tree).run.run store
  | ⟨symbol, token, completion, closed, line, children⟩, path, store => by
    rw [visitAll, Declaration.visitAll, run_run_bind]
    rcases hvisit : (Declaration.visit settings _).run.run store with ⟨error | deeper, after⟩
    · rw [visit_declaring settings hvisit]
      rfl
    · rw [visit_declaring settings hvisit, Declaration.answers_visit settings _ _ _ _ hvisit]
      show (if settings.declares _ then _ else _) =
        (if !settings.declares _ then _ else _ : Declaring Unit).run.run after
      cases settings.declares _ with
      | true => rfl
      | false => exact visitEach_declaring children path 0 after

theorem visitEach_declaring : ∀ (trees : List Tree) (path : Path) (index : Nat) (store : Store),
    (declaring settings).visitEach path index trees store =
      (Declaration.visitEach settings trees).run.run store
  | [], _, _, _ => rfl
  | tree :: trees, path, index, store => by
    rw [visitEach, Declaration.visitEach, run_run_bind, visitAll_declaring tree]
    rcases (Declaration.visitAll settings tree).run.run store with ⟨error | ⟨⟩, after⟩
    · rfl
    · exact visitEach_declaring trees path (index + 1) after

end

variable (tree : Tree) (store : Store)

theorem visitAt_declaring (path : Path) :
    (declaring settings).visitAt tree path store =
      (DeclarationWalk.declareAt settings tree path).run.run store := by
  unfold visitAt DeclarationWalk.declareAt
  cases tree.nodeAt? path with
  | none => rfl
  | some node => exact visitAll_declaring settings node path store

theorem advance_declaring (stack : List Path) :
    (declaring settings).advance tree store stack =
      let stop := DeclarationWalk.advance settings tree store stack
      ⟨stop.store, stop.stack, stop.result⟩ := by
  fun_induction DeclarationWalk.advance settings tree store stack with
  | case1 => rw [advance]
  | case2 store path stack hnone =>
    rw [advance]
    split
    · rfl
    · next hnode => simp [hnone] at hnode
  | case3 store path stack node hnode hloop =>
    exact (advance_cons hnode store stack).trans (if_pos hloop)
  | case4 store path stack node hnode hloop error after hvisit =>
    rw [advance_cons hnode, visit_declaring settings hvisit]
    exact if_neg hloop
  | case5 store path stack node hnode hloop after hvisit ih =>
    have hdeclares : (declaring settings).settings.declares node = false := by
      simpa [declaring] using (Declaration.answers_visit settings node _ _ _ hvisit).symm
    rw [advance_cons hnode, visit_declaring settings hvisit, hdeclares]
    exact (if_neg hloop).trans ih
  | case6 store path stack node hnode hloop after hvisit ih =>
    have hdeclares : (declaring settings).settings.declares node = true := by
      simpa [declaring] using (Declaration.answers_visit settings node _ _ _ hvisit).symm
    rw [advance_cons hnode, visit_declaring settings hvisit, hdeclares]
    exact (if_neg hloop).trans ih

theorem walkOn_declaring (stack : List Path) :
    (declaring settings).walkOn tree store stack =
      DeclarationWalk.walkOn settings tree store stack := by
  unfold walkOn DeclarationWalk.walkOn
  rw [advance_declaring]
  rcases DeclarationWalk.advance settings tree store stack with ⟨after, rest, error | _ | loop⟩
  · rfl
  · show (_, _, Except.map _ (if after.verifyTypes.2 then _ else _)) =
      (_, _, if after.verifyTypes.2 then _ else _)
    cases after.verifyTypes.2 <;> rfl
  · rfl

theorem resume_declaring (walk : DeclarationWalk) :
    (declaring settings).resume tree store walk = walk.resume settings tree store := by
  unfold resume DeclarationWalk.resume
  split
  · rfl
  · cases walk.pending with
    | none => exact walkOn_declaring settings tree store walk.stack
    | some loop =>
      dsimp only
      rw [← visitAt_declaring]
      rcases (declaring settings).visitAt tree loop store with ⟨error | ⟨⟩, after⟩
      · rfl
      · exact walkOn_declaring settings tree after walk.stack

theorem run_of_runs {walk : DeclarationWalk} {count : Nat}
    {result : Except DeclarationError Unit × Store}
    (h : (declaring settings).Runs tree store walk count result) (stops : Nat) :
    walk.run settings tree stops store = (result.2, result.1.map fun _ => stops + count) := by
  induction h generalizing stops with
  | fails h =>
    rw [resume_declaring] at h
    rw [DeclarationWalk.run]
    split <;> simp_all [Except.map]
  | done h =>
    rw [resume_declaring] at h
    rw [DeclarationWalk.run]
    split <;> simp_all [Except.map]
  | suspended h hrest ih =>
    rw [resume_declaring] at h
    rw [DeclarationWalk.run]
    split
    · simp_all
    · simp_all
    · next hstep =>
      obtain ⟨rfl, hstep⟩ := Prod.mk.inj (hstep.symm.trans h)
      obtain ⟨rfl, -⟩ := Prod.mk.inj hstep
      rw [ih, Nat.add_assoc, Nat.add_comm 1]

end

/-! ## Both walks -/

theorem ahead_root (touring : Touring σ) (tree : Tree) :
    touring.ahead tree [[]] = touring.settings.visible tree := by
  rw [ahead, Tree.reachedAtAll_root]
  exact Tree.reached_eq_filter _ tree

theorem loopsAhead_root (touring : Touring σ) (tree : Tree) :
    touring.loopsAhead tree [[]] = (touring.settings.outerLoops tree).length := by
  rw [loopsAhead, Tree.reachedAtAll_root, Tree.reached_eq_filter, List.countP_filter,
    List.countP_eq_length_filter]
  rfl

theorem standing_root (tree : Tree) : Standing tree [[]] := by
  intro path hpath
  obtain rfl := List.mem_singleton.mp hpath
  exact ⟨tree, by simp [Tree.nodeAt?]⟩

/-- A walk from the root, resumed until it ends, visits the visible nodes once each, and stops at
the outer loops. -/
theorem runs_atRoot (touring : Touring σ) (tree : Tree) (state : σ) :
    ∃ stops, touring.Runs tree state .atRoot stops
        (touring.tour (touring.settings.visible tree) state) ∧
      ((touring.tour (touring.settings.visible tree) state).1 = .ok () →
        stops = (touring.settings.outerLoops tree).length) := by
  rw [← ahead_root, ← loopsAhead_root]
  exact runs_of_walkOn (standing_root tree) rfl

/-- A walk of declarations that stops at loops ends as a single walk does: with the same store, or
with the same error at the same node, and it has stopped once at each outer loop. -/
theorem run_eq_tour (settings : Settings) (tree : Tree) (store : Store) :
    DeclarationWalk.atRoot.run settings tree 0 store =
        (((declaring settings).tour (settings.visible tree) store).2,
          ((declaring settings).tour (settings.visible tree) store).1.map fun _ =>
            (settings.outerLoops tree).length) ∧
      (∀ (walk : DeclarationWalk) (reached : Store),
        (declaring settings).resume tree reached walk = walk.resume settings tree reached) ∧
      ∃ stops, ∀ count result,
        (declaring settings).noting.Runs tree (store, []) .atRoot count result ↔
          count = stops ∧ result =
            (((declaring settings).tour (settings.visible tree) store).1,
              ((declaring settings).tour (settings.visible tree) store).2,
              ((declaring settings).visited (settings.visible tree) store).map Prod.fst) := by
  refine ⟨?_, fun walk reached => resume_declaring settings tree reached walk, ?_⟩
  · obtain ⟨stops, hruns, hstops⟩ := runs_atRoot (declaring settings) tree store
    rw [run_of_runs settings tree store hruns 0, Nat.zero_add]
    show (_, Except.map _ ((declaring settings).tour (settings.visible tree) store).1) = _
    rcases hresult : ((declaring settings).tour (settings.visible tree) store).1 with error | ⟨⟩
    · rfl
    · rw [hstops hresult]
      rfl
  · obtain ⟨stops, hruns, -⟩ := runs_atRoot (declaring settings).noting tree (store, [])
    rw [tour_noting] at hruns
    refine ⟨stops, fun count result => ⟨fun h => h.unique hruns, ?_⟩⟩
    rintro ⟨rfl, rfl⟩
    exact hruns

end Touring

end LineGrammar
