import LineGrammar.Proofs.Program.Agreement
import LineGrammar.Proofs.Session.Acting

/-!
# Running from an empty store

To run its program a session declares, compiles and executes its tree. What each of these comes to
depends on the settings and the tree alone (`compiled`, `executed`), whatever store, walk and
program the session has from before (`run_eq_of_same_tree`).
-/

namespace LineGrammar.Session

variable {session first second : Session} {root : Tree}

/-! ## What a tree comes to -/

/-- The program of a tree, and the store when it has been compiled or that has failed. -/
def compiled (settings : Settings) (root : Tree) : Except SessionError Program × Store :=
  match DeclarationWalk.atRoot.run settings root 0 {} with
  | (store, .error error) => (.error (.declaration error), store)
  | (store, .ok _) =>
    let (result, store) := Program.ofTree settings.statements root store
    (result.mapError .compile, store)

/-- The lines that a tree prints, and the store that running it leaves. -/
def executed (settings : Settings) (root : Tree) : Except SessionError (List String) × Store :=
  match compiled settings root with
  | (.error error, store) => (.error error, store)
  | (.ok program, store) =>
    let (store, result) := program.execute store settings.stepLimit
    (result.mapError .execution, store)

/-- The session when its tree has been declared and compiled, or that has failed. A program from
before stays if there is no other. -/
def afterCompile (session : Session) (root : Tree) : Session :=
  { session with
    store := (compiled session.settings root).2
    walk := DeclarationWalk.atRoot.ended session.settings root {}
    program := (compiled session.settings root).1.toOption.or session.program }

/-- The session when its tree has been run. -/
def afterRun (session : Session) (root : Tree) : Session :=
  { session.afterCompile root with store := (executed session.settings root).2 }

/-! ## What a session does -/

theorem run_compile_of_error {error : GrammarError}
    (hgrammar : session.draft.grammar? = .error error) :
    compile.run.run session = (.error (.grammar error), session) := by
  unfold compile
  rw [run_run_bind, run_grammar, hgrammar]
  rfl

theorem run_tree_of_none (hroot : session.parse.root = none) :
    tree.run.run session = (.error .noProgram, session) := by
  unfold tree
  rw [run_get_bind, hroot]
  rfl

theorem run_declare_of_none (hroot : session.parse.root = none) :
    declare.run.run session = (.error .noProgram, session) := by
  unfold declare
  rw [run_run_bind, run_tree_of_none hroot]

theorem run_compile_of_none {grammar : Grammar} (hgrammar : session.draft.grammar? = .ok grammar)
    (hroot : session.parse.root = none) :
    compile.run.run session = (.error .noProgram, session) := by
  unfold compile
  rw [run_run_bind, run_grammar, hgrammar]
  dsimp only [Except.mapError]
  rw [run_run_bind, run_declare_of_none hroot]

theorem run_compile {grammar : Grammar} (hgrammar : session.draft.grammar? = .ok grammar)
    (hroot : session.parse.root = some root) :
    compile.run.run session = ((compiled session.settings root).1, session.afterCompile root) := by
  unfold compile afterCompile compiled
  rw [run_run_bind, run_grammar, hgrammar]
  dsimp only [Except.mapError]
  rw [run_run_bind, run_declare hroot]
  rcases DeclarationWalk.atRoot.run session.settings root 0 {} with ⟨store, error | stops⟩
  · rfl
  dsimp only [Except.mapError]
  rw [run_run_bind, @run_tree
    { session with store, walk := DeclarationWalk.atRoot.ended session.settings root {} } root hroot]
  dsimp only
  rw [run_get_bind, run_set_bind, run_run_bind, run_lift]
  rcases Program.ofTree session.settings.statements root store with ⟨error | program, after⟩ <;> rfl

theorem run_run_of_error {after : Session} {error : SessionError}
    (h : compile.run.run session = (.error error, after)) :
    run.run.run session = (.error error, after) := by
  unfold run
  rw [run_run_bind, h]

theorem run_run {grammar : Grammar} (hgrammar : session.draft.grammar? = .ok grammar)
    (hroot : session.parse.root = some root) :
    run.run.run session = ((executed session.settings root).1, session.afterRun root) := by
  unfold run afterRun executed
  rw [run_run_bind, run_compile hgrammar hroot]
  have hstore : (session.afterCompile root).store = (compiled session.settings root).2 := rfl
  rcases hcompiled : compiled session.settings root with ⟨error | program, store⟩
  · rw [hcompiled] at hstore
    subst hstore
    rfl
  · dsimp only
    rw [run_get_bind, run_set_bind, run_lift, hstore, hcompiled]
    rfl

theorem compile_cases (session : Session) :
    (compile.run.run session).2 = session ∨
      ∃ grammar root, session.draft.grammar? = .ok grammar ∧ session.parse.root = some root ∧
        (compile.run.run session).2 = session.afterCompile root := by
  rcases hgrammar : session.draft.grammar? with error | grammar
  · rw [run_compile_of_error hgrammar]
    exact .inl rfl
  rcases hroot : session.parse.root with - | root
  · rw [run_compile_of_none hgrammar hroot]
    exact .inl rfl
  · rw [run_compile hgrammar hroot]
    exact .inr ⟨grammar, root, rfl, rfl, rfl⟩

theorem run_cases (session : Session) :
    (run.run.run session).2 = session ∨
      ∃ grammar root, session.draft.grammar? = .ok grammar ∧ session.parse.root = some root ∧
        (run.run.run session).2 = session.afterRun root := by
  rcases hgrammar : session.draft.grammar? with error | grammar
  · rw [run_run_of_error (run_compile_of_error hgrammar)]
    exact .inl rfl
  rcases hroot : session.parse.root with - | root
  · rw [run_run_of_error (run_compile_of_none hgrammar hroot)]
    exact .inl rfl
  · rw [run_run hgrammar hroot]
    exact .inr ⟨grammar, root, rfl, rfl, rfl⟩

theorem run_answer (hroot : session.parse.root = some root) :
    (Session.run.run.run session).1 = (do
      let _ ← session.draft.grammar?.mapError SessionError.grammar
      let (store, result) := DeclarationWalk.atRoot.run session.settings root 0 {}
      let _ ← result.mapError SessionError.declaration
      let (result, compiled) := Program.ofTree session.settings.statements root store
      let program ← result.mapError SessionError.compile
      (program.execute compiled session.settings.stepLimit).2.mapError SessionError.execution) := by
  rcases hgrammar : session.draft.grammar? with error | grammar
  · rw [run_run_of_error (run_compile_of_error hgrammar)]
    rfl
  rw [run_run hgrammar hroot]
  unfold executed compiled
  rcases DeclarationWalk.atRoot.run session.settings root 0 {} with ⟨store, error | stops⟩
  · rfl
  dsimp only
  rcases Program.ofTree session.settings.statements root store with ⟨error | program, after⟩ <;> rfl

theorem run_run_run (session : Session) :
    run.run.run (run.run.run session).2 = run.run.run session := by
  rcases hgrammar : session.draft.grammar? with error | grammar
  · have hrun := run_run_of_error (run_compile_of_error hgrammar)
    rw [hrun, hrun]
  rcases hroot : session.parse.root with - | root
  · have hrun := run_run_of_error (run_compile_of_none hgrammar hroot)
    rw [hrun, hrun]
  have hagain : (session.afterRun root).draft.grammar? = .ok grammar := hgrammar
  have hsame : (session.afterRun root).parse.root = some root := hroot
  rw [run_run hgrammar hroot, run_run hagain hsame]
  refine Prod.ext rfl ?_
  unfold afterRun afterCompile
  dsimp only
  rw [← Option.or_assoc, Option.or_self]

/-- A run does not depend on the past: sessions with the same settings, grammar and tree answer
alike, and if they have a grammar and a tree they are left with the same store. Running again
repeats the run. -/
theorem run_eq_of_same_tree (hsettings : first.settings = second.settings)
    (hgrammar : first.draft.grammar? = second.draft.grammar?)
    (hroot : first.parse.root = second.parse.root) :
    (run.run.run first).1 = (run.run.run second).1 ∧
      (first.draft.grammar?.isOk = true → first.parse.root.isSome = true →
        (run.run.run first).2.store = (run.run.run second).2.store) ∧
      run.run.run (run.run.run first).2 = run.run.run first := by
  have halike : (run.run.run first).1 = (run.run.run second).1 ∧
      (first.draft.grammar?.isOk = true → first.parse.root.isSome = true →
        (run.run.run first).2.store = (run.run.run second).2.store) := by
    rcases hfrozen : first.draft.grammar? with error | grammar
    · rw [run_run_of_error (run_compile_of_error hfrozen),
        run_run_of_error (run_compile_of_error (hgrammar.symm.trans hfrozen))]
      exact ⟨rfl, fun hok => absurd hok Bool.false_ne_true⟩
    rcases hread : first.parse.root with - | root
    · rw [run_run_of_error (run_compile_of_none hfrozen hread),
        run_run_of_error
          (run_compile_of_none (hgrammar.symm.trans hfrozen) (hroot.symm.trans hread))]
      exact ⟨rfl, fun _ hsome => absurd hsome Bool.false_ne_true⟩
    rw [run_run hfrozen hread, run_run (hgrammar.symm.trans hfrozen) (hroot.symm.trans hread)]
    unfold afterRun
    rw [hsettings]
    exact ⟨rfl, fun _ _ => rfl⟩
  exact ⟨halike.1, halike.2, run_run_run first⟩

/-- A session in which a program has been read. -/
def ofRoot (root : Tree) : Session :=
  { draft := { grammar := .statements, stage := .finished }, parse := { root := some root } }

/-- A session with the store and the program of another tree, a walk that has stopped halfway, and
tokens that wait. -/
def agedSession : Session :=
  { ofRoot (Program.textSum "T") with
    store := (executed {} (Program.textSum "INTERNAL_0")).2
    program := (compiled {} (Program.textSum "INTERNAL_0")).1.toOption
    walk := { stack := [[0, 1]], pending := some [0] }
    pending := [⟨.mark "=", ⟨7, 0⟩⟩]
    sourceLine := 7 }

theorem run_eq_of_same_tree_agedSession :
    agedSession.program.isSome = true ∧ agedSession.store.vars.isEmpty = false ∧
      (run.run.run (ofRoot (Program.textSum "T"))).1 = (run.run.run agedSession).1 ∧
      (run.run.run (ofRoot (Program.textSum "T"))).2.store = (run.run.run agedSession).2.store ∧
      run.run.run (run.run.run (ofRoot (Program.textSum "T"))).2 =
        run.run.run (ofRoot (Program.textSum "T")) ∧
      (run.run.run (ofRoot (Program.textSum "T"))).1.toOption = some ["31"] := by
  obtain ⟨hanswer, hstore, hagain⟩ :=
    @run_eq_of_same_tree (ofRoot (Program.textSum "T")) agedSession rfl rfl rfl
  exact ⟨by decide +kernel, by decide +kernel, hanswer, hstore rfl rfl, hagain, by decide +kernel⟩

end LineGrammar.Session
