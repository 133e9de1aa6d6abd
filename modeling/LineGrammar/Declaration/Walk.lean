import LineGrammar.Declaration

/-!
# Declaring step by step

A walk through the declarations of a tree stops at each loop that is not inside of another one. When
it is resumed, it first declares what that loop declares, and then goes on to the next loop or to
the end. At the end all values are converted to the types of their variables.

A walk keeps the paths that it still has to look at, and may be resumed with another tree; a path
that is not in that tree is an error. Going on to the children of a node leaves fewer nodes below
the paths, so the walk ends.
-/

namespace LineGrammar

structure DeclarationWalk where
  /-- The nodes still to be looked at, the next one first. -/
  stack : List Path := []
  /-- The loop that the walk stopped at. -/
  pending : Option Path := none
  done : Bool := false
  deriving DecidableEq, Repr

/-- How far a walk has come. -/
inductive WalkStatus where
  | suspended
  | done
  deriving DecidableEq, Repr

namespace Tree

/-- The number of nodes at and below a path, and one for a path that is not in the tree. -/
def sizeAt (tree : Tree) (path : Path) : Nat :=
  match tree.nodeAt? path with
  | some node => node.size
  | none => 1

def sizeAtAll (tree : Tree) : List Path → Nat
  | [] => 0
  | path :: paths => tree.sizeAt path + tree.sizeAtAll paths

def childPaths (path : Path) (node : Tree) : List Path :=
  (List.range node.children.length).map fun index => path ++ [index]

theorem nodeAt?_concat {tree node : Tree} {path : Path} (h : tree.nodeAt? path = some node)
    (index : Nat) : tree.nodeAt? (path ++ [index]) = node.children[index]? := by
  induction path generalizing tree with
  | nil =>
    obtain rfl : tree = node := by simpa [nodeAt?] using h
    simp only [List.nil_append, nodeAt?]
    split <;> simp_all
  | cons first path ih =>
    simp only [nodeAt?, List.cons_append] at h ⊢
    split at h
    · exact ih h
    · simp at h

theorem sizeAtAll_append (tree : Tree) (paths others : List Path) :
    tree.sizeAtAll (paths ++ others) = tree.sizeAtAll paths + tree.sizeAtAll others := by
  induction paths with
  | nil => simp [sizeAtAll]
  | cons path paths ih =>
    simp only [List.cons_append, sizeAtAll, ih]
    omega

theorem sizeAtAll_eq_sizeAll {tree : Tree} {paths : List Path} {trees : List Tree}
    (h : paths.map tree.sizeAt = trees.map size) : tree.sizeAtAll paths = sizeAll trees := by
  induction paths generalizing trees with
  | nil => cases trees <;> simp_all [sizeAtAll, sizeAll]
  | cons path paths ih =>
    cases trees with
    | nil => simp at h
    | cons child trees =>
      simp only [List.map_cons, List.cons.injEq] at h
      simp only [sizeAtAll, sizeAll, h.1, ih h.2]

theorem sizeAtAll_childPaths_lt {tree node : Tree} {path : Path}
    (h : tree.nodeAt? path = some node) :
    tree.sizeAtAll (childPaths path node) < tree.sizeAt path := by
  have hchildren : (childPaths path node).map tree.sizeAt = node.children.map size := by
    apply List.ext_getElem?
    intro index
    by_cases hindex : index < node.children.length
    · simp [childPaths, sizeAt, nodeAt?_concat h, hindex]
    · simp [childPaths, hindex]
  obtain ⟨symbol, token, completion, closed, line, children⟩ := node
  simp only [sizeAtAll_eq_sizeAll hchildren, sizeAt, h, size]
  omega

end Tree

namespace DeclarationWalk

/-- Declares what the node at a path declares, loops below it included. -/
def declareAt (settings : Settings) (tree : Tree) (path : Path) : Declaring Unit :=
  match tree.nodeAt? path with
  | none => throw .staleTree
  | some node => Declaration.visitAll settings node

/-- What a walk over the paths of a stack ends with: the store, what is left of the stack, and the
loop that it stopped at or the error. -/
structure Stop where
  store : Store
  stack : List Path
  result : Except DeclarationError (Option Path)

/-- Looks at the nodes of a stack and what is below them, up to a loop. -/
def advance (settings : Settings) (tree : Tree) (store : Store) : List Path → Stop
  | [] => ⟨store, [], .ok none⟩
  | path :: stack =>
    match _node : tree.nodeAt? path with
    | none => ⟨store, stack, .error .staleTree⟩
    | some node =>
      if settings.statements.isLoop node.symbol then ⟨store, stack, .ok (some path)⟩
      else
        match (Declaration.visit settings node).run.run store with
        | (.error error, store) => ⟨store, stack, .error error⟩
        | (.ok true, store) => advance settings tree store (Tree.childPaths path node ++ stack)
        | (.ok false, store) => advance settings tree store stack
termination_by stack => tree.sizeAtAll stack
decreasing_by
  · have := Tree.sizeAtAll_childPaths_lt _node
    simp only [Tree.sizeAtAll_append, Tree.sizeAtAll]
    omega
  · have := Tree.sizeAtAll_childPaths_lt _node
    simp only [Tree.sizeAtAll]
    omega

/-- The outcome of a step of a walk: the walk and the store after it, and how far it has come. -/
abbrev Outcome := DeclarationWalk × Store × Except DeclarationError WalkStatus

/-- Goes on to the next loop, or to the end and converts all values there. -/
def walkOn (settings : Settings) (tree : Tree) (store : Store) (stack : List Path) : Outcome :=
  match advance settings tree store stack with
  | ⟨store, stack, .error error⟩ => ({ stack }, store, .error error)
  | ⟨store, stack, .ok (some loop)⟩ => ({ stack, pending := some loop }, store, .ok .suspended)
  | ⟨store, stack, .ok none⟩ =>
    let (verified, consistent) := store.verifyTypes
    ({ stack, done := true }, verified,
      if consistent then .ok .done else .error .inconsistentTypes)

/-- Declares the loop that the walk stopped at, and goes on. -/
def resume (settings : Settings) (tree : Tree) (store : Store) (walk : DeclarationWalk) : Outcome :=
  if walk.done then (walk, store, .ok .done)
  else
    match walk.pending with
    | none => walkOn settings tree store walk.stack
    | some loop =>
      match (declareAt settings tree loop).run.run store with
      | (.error error, store) => ({ stack := walk.stack }, store, .error error)
      | (.ok (), store) => walkOn settings tree store walk.stack

def atRoot : DeclarationWalk :=
  { stack := [[]] }

/-- Starts over at the root, wherever the walk has stopped before. -/
def restart (walk : DeclarationWalk) : DeclarationWalk :=
  { walk with stack := [[]], pending := none, done := false }

def start (settings : Settings) (tree : Tree) (store : Store) : Outcome :=
  resume settings tree store atRoot

theorem sizeAtAll_advance_lt {settings : Settings} {tree : Tree} {store : Store}
    {stack : List Path} {loop : Path}
    (h : (advance settings tree store stack).result = .ok (some loop)) :
    tree.sizeAtAll (advance settings tree store stack).stack < tree.sizeAtAll stack := by
  fun_induction advance settings tree store stack with
  | case1 => simp at h
  | case2 => simp at h
  | case3 store path stack node hnode =>
    obtain ⟨symbol, token, completion, closed, line, children⟩ := node
    simp only [Tree.sizeAtAll, Tree.sizeAt, hnode, Tree.size]
    omega
  | case4 => simp at h
  | case5 store path stack node hnode hloop after hvisit ih =>
    have hchildren := Tree.sizeAtAll_childPaths_lt hnode
    have := ih h
    simp only [Tree.sizeAtAll_append, Tree.sizeAtAll] at *
    omega
  | case6 store path stack node hnode hloop after hvisit ih =>
    have hchildren := Tree.sizeAtAll_childPaths_lt hnode
    have := ih h
    simp only [Tree.sizeAtAll] at *
    omega

theorem sizeAtAll_walkOn_lt {settings : Settings} {tree : Tree} {store after : Store}
    {stack : List Path} {walk : DeclarationWalk}
    (h : walkOn settings tree store stack = (walk, after, .ok .suspended)) :
    tree.sizeAtAll walk.stack < tree.sizeAtAll stack := by
  unfold walkOn at h
  split at h
  · simp at h
  · next stopped rest loop hadvance =>
    obtain ⟨rfl, -⟩ := Prod.mk.inj h
    have := @sizeAtAll_advance_lt settings tree store stack loop (by rw [hadvance])
    simpa [hadvance] using this
  · dsimp only at h
    split at h <;> simp at h

theorem sizeAtAll_resume_lt {settings : Settings} {tree : Tree} {store after : Store}
    {walk resumed : DeclarationWalk}
    (h : walk.resume settings tree store = (resumed, after, .ok .suspended)) :
    tree.sizeAtAll resumed.stack < tree.sizeAtAll walk.stack := by
  unfold resume at h
  split at h
  · simp at h
  · split at h
    · exact sizeAtAll_walkOn_lt h
    · split at h
      · simp at h
      · exact sizeAtAll_walkOn_lt h

/-- Goes on with a walk to its end, and counts how often it stops at a loop. -/
def run (settings : Settings) (tree : Tree) (stops : Nat) (store : Store)
    (walk : DeclarationWalk) : Store × Except DeclarationError Nat :=
  match _step : walk.resume settings tree store with
  | (_, store, .error error) => (store, .error error)
  | (_, store, .ok .done) => (store, .ok stops)
  | (resumed, store, .ok .suspended) => resumed.run settings tree (stops + 1) store
termination_by tree.sizeAtAll walk.stack
decreasing_by exact sizeAtAll_resume_lt _step

/-- The walk as it is when it has been gone on with to its end, or has failed. -/
def ended (settings : Settings) (tree : Tree) (store : Store) (walk : DeclarationWalk) :
    DeclarationWalk :=
  match _step : walk.resume settings tree store with
  | (failed, _, .error _) => failed
  | (last, _, .ok .done) => last
  | (resumed, store, .ok .suspended) => resumed.ended settings tree store
termination_by tree.sizeAtAll walk.stack
decreasing_by exact sizeAtAll_resume_lt _step

end DeclarationWalk

end LineGrammar
