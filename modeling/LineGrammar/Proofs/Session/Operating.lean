import LineGrammar.Proofs.Session.Feeding
import LineGrammar.Proofs.Session.Running
import Mathlib.Computability.Primrec.List
import Mathlib.Data.List.Induction
import Mathlib.Data.List.Permutation

/-!
# Operations of sessions

A session keeps the program that it has compiled until more text is fed. The program is that of the
tree (`Current`) as long as no operation that ends a text feeds tokens to the tree that have waited
since the program was compiled (`current_iff`): such an operation does not drop the program.
-/

namespace LineGrammar.Session

variable {session after : Session}

inductive Operation where
  | feedLine (line : String)
  | feedGrammarLine (line : String)
  | loadGrammar (text : String)
  | feedProgramLine (line : String)
  | loadProgram (text : String)
  | finishProgram
  | declare
  | compile
  | run
  | clearProgram
  | clear
  deriving DecidableEq, Repr

def perform (session : Session) : Operation → Session
  | .feedLine line => ((feedLine line).run.run session).2
  | .feedGrammarLine line => ((feedGrammarLine line).run.run session).2
  | .loadGrammar text => ((loadGrammar text).run.run session).2
  | .feedProgramLine line => ((feedProgramLine line).run.run session).2
  | .loadProgram text => ((loadProgram text).run.run session).2
  | .finishProgram => (finishProgram.run.run session).2
  | .declare => (declare.run.run session).2
  | .compile => (compile.run.run session).2
  | .run => (run.run.run session).2
  | .clearProgram => session.clearProgram
  | .clear => session.clear

def performAll (settings : Settings) (operations : List Operation) : Session :=
  operations.foldl perform (ofSettings settings)

/-- The program that is kept is what compiling comes to. -/
def Current (session : Session) : Prop :=
  ∀ program, session.program = some program → (compile.run.run session).1 = .ok program

/-- Does the operation end a text without feeding a line of it? -/
def Operation.Finishes : Operation → Prop
  | .finishProgram => True
  | .loadProgram text => linesOf text = []
  | _ => False

/-- With the tokens that wait, the tree is no longer compiled to the program that is kept. -/
def Outdates (session : Session) : Prop :=
  ∃ program grammar root, session.program = some program ∧ session.draft.grammar? = .ok grammar ∧
    (session.intake.flush grammar).1.parse.root = some root ∧
      (compiled session.settings root).1 ≠ .ok program

/-! ## What keeps a program current -/

theorem current_of_none (h : session.program = none) : Current session := by
  intro program hprogram
  rw [h] at hprogram
  cases hprogram

theorem current_iff_compiled {program : Program} (hprogram : session.program = some program) :
    Current session ↔ ∃ grammar root, session.draft.grammar? = .ok grammar ∧
      session.parse.root = some root ∧ (compiled session.settings root).1 = .ok program := by
  have hcurrent : Current session ↔ (compile.run.run session).1 = .ok program := by
    unfold Current
    simp [hprogram]
  rw [hcurrent]
  rcases hgrammar : session.draft.grammar? with error | grammar
  · simp [run_compile_of_error hgrammar]
  rcases hroot : session.parse.root with - | root
  · simp [run_compile_of_none hgrammar hroot]
  simp [run_compile hgrammar hroot]

/-- The two sessions keep the same program for the same tree. -/
structure Matches (session after : Session) : Prop where
  settings : after.settings = session.settings
  grammar : ∀ grammar, session.draft.grammar? = .ok grammar → after.draft.grammar? = .ok grammar
  root : after.parse.root = session.parse.root
  program : after.program = session.program

theorem Current.of_matches (h : Current session) (hmatches : Matches session after) :
    Current after := by
  rcases hprogram : session.program with - | program
  · exact current_of_none (hmatches.program.trans hprogram)
  obtain ⟨grammar, root, hgrammar, hroot, hcompiled⟩ := (current_iff_compiled hprogram).mp h
  refine (current_iff_compiled (hmatches.program.trans hprogram)).mpr
    ⟨grammar, root, hmatches.grammar grammar hgrammar, hmatches.root.trans hroot, ?_⟩
  rw [hmatches.settings]
  exact hcompiled

/-! ### Feeding -/

theorem matches_feedWords (session : Session) (words : List String) :
    Matches session { session with draft := (session.draft.feedWords words).1 } where
  settings := rfl
  grammar := by
    intro grammar hgrammar
    have hstage := Draft.stage_of_grammar? hgrammar
    have hhalted : session.draft.isHalted = false := by
      unfold Draft.grammar? at hgrammar
      split_ifs at hgrammar with hhalted
      simpa using hhalted
    obtain ⟨outcome, houtcome, hsame, -⟩ := Draft.feedWords_finished hhalted hstage words
    rw [houtcome]
    exact hsame.trans hgrammar
  root := rfl
  program := rfl

theorem feedProgramLine_cases (line : String) (session : Session) :
    (∃ error, (feedProgramLine line).run.run session =
        (.error error, { session with sourceLine := session.sourceLine + 1 })) ∨
      ((feedProgramLine line).run.run session).2.program = none := by
  rcases hgrammar : session.draft.grammar? with error | grammar
  · exact .inl ⟨_, run_feedProgramLine_of_error hgrammar line⟩
  rcases htokens : tokenize line (session.sourceLine + 1) with error | tokens
  · exact .inl ⟨_, run_feedProgramLine_of_lexError hgrammar htokens⟩
  · rw [run_feedProgramLine hgrammar htokens]
    exact .inr rfl

theorem program_feedProgramLine (h : session.program = none) (line : String) :
    ((feedProgramLine line).run.run session).2.program = none := by
  rcases feedProgramLine_cases line session with ⟨error, hline⟩ | hnone
  · rw [hline]
    exact h
  · exact hnone

theorem Current.of_feedProgramLine (h : Current session) (line : String) :
    Current ((feedProgramLine line).run.run session).2 := by
  rcases feedProgramLine_cases line session with ⟨error, hline⟩ | hnone
  · rw [hline]
    exact h.of_matches ⟨rfl, fun _ hgrammar => hgrammar, rfl, rfl⟩
  · exact current_of_none hnone

theorem program_finishProgram (session : Session) :
    (finishProgram.run.run session).2.program = session.program := by
  rcases hgrammar : session.draft.grammar? with error | grammar
  · rw [run_finishProgram_of_error hgrammar]
  · rw [run_finishProgram hgrammar]
    rfl

theorem program_loadLines (h : session.program = none) (lines : List String) :
    ((loadLines lines).run.run session).2.program = none :=
  loadLines_keeps (fun _ line hnone => program_feedProgramLine hnone line)
    (fun session hnone => (program_finishProgram session).trans hnone) h lines

/-- A text with lines leaves no program, or its first line is refused and changes nothing. -/
theorem Current.of_loadLines_cons (h : Current session) (line : String) (lines : List String) :
    Current ((loadLines (line :: lines)).run.run session).2 := by
  have hcurrent := h.of_feedProgramLine line
  have hcases := feedProgramLine_cases line session
  rw [run_loadLines_cons]
  generalize (feedProgramLine line).run.run session = fed at hcurrent hcases ⊢
  obtain ⟨error | more, next⟩ := fed
  · exact hcurrent
  · obtain ⟨error, herror⟩ | hnone := hcases
    · cases herror
    · exact current_of_none (program_loadLines hnone lines)

theorem isSome_root_feed {parse : Parse} {root : Tree} (hroot : parse.root = some root)
    (grammar : Grammar) (tokens : List Token) :
    ∃ grown, (parse.feed grammar tokens).1.root = some grown := by
  unfold Parse.feed
  split_ifs
  · exact ⟨root, hroot⟩
  split
  · exact ⟨root, hroot⟩
  · dsimp only
    rw [hroot]
    split
    · exact ⟨_, rfl⟩
    · exact ⟨_, rfl⟩

/-- The end of a text leaves the program of the tree, exactly if the tokens that waited do not
outdate it. -/
theorem current_finishProgram_iff (h : Current session) :
    Current (finishProgram.run.run session).2 ↔ ¬Outdates session := by
  rcases hprogram : session.program with - | program
  · have hnone : ¬Outdates session := by
      rintro ⟨program, -, -, hsome, -⟩
      rw [hprogram] at hsome
      cases hsome
    exact iff_of_true (current_of_none ((program_finishProgram session).trans hprogram)) hnone
  obtain ⟨grammar, root, hgrammar, hroot, -⟩ := (current_iff_compiled hprogram).mp h
  obtain ⟨grown, hgrown⟩ := isSome_root_feed hroot grammar session.pending
  have hafter : (finishProgram.run.run session).2 =
      session.withIntake (session.intake.flush grammar).1 := by
    rw [run_finishProgram hgrammar]
  rw [current_iff_compiled ((program_finishProgram session).trans hprogram), hafter]
  constructor
  · rintro ⟨-, left, -, hleft, hcompiled⟩ ⟨kept, frozen, ended, hkept, hfrozen, hended, hne⟩
    obtain rfl := Except.ok.inj (hgrammar.symm.trans hfrozen)
    obtain rfl := Option.some.inj (hleft.symm.trans hended)
    obtain rfl := Option.some.inj (hprogram.symm.trans hkept)
    exact hne hcompiled
  · intro hkeeps
    refine ⟨grammar, grown, hgrammar, hgrown, ?_⟩
    by_contra hne
    exact hkeeps ⟨program, grammar, grown, hprogram, hgrammar, hgrown, hne⟩

/-! ### Running -/

theorem matches_declare (session : Session) :
    Matches session (declare.run.run session).2 := by
  rcases hroot : session.parse.root with - | root
  · rw [run_declare_of_none hroot]
    exact ⟨rfl, fun _ hgrammar => hgrammar, rfl, rfl⟩
  · rw [run_declare hroot]
    exact ⟨rfl, fun _ hgrammar => hgrammar, rfl, rfl⟩

theorem Current.afterCompile {grammar : Grammar} {root : Tree} (h : Current session)
    (hgrammar : session.draft.grammar? = .ok grammar) (hroot : session.parse.root = some root) :
    Current (session.afterCompile root) := by
  rcases hcompiled : (compiled session.settings root).1 with error | program
  · have hprogram : (session.afterCompile root).program = session.program := by
      unfold Session.afterCompile
      rw [hcompiled]
      rfl
    exact h.of_matches ⟨rfl, fun _ hfrozen => hfrozen, rfl, hprogram⟩
  · have hprogram : (session.afterCompile root).program = some program := by
      unfold Session.afterCompile
      rw [hcompiled]
      rfl
    exact (current_iff_compiled hprogram).mpr ⟨grammar, root, hgrammar, hroot, hcompiled⟩

theorem Current.of_compile (h : Current session) : Current (compile.run.run session).2 := by
  rcases compile_cases session with hsame | ⟨grammar, root, hgrammar, hroot, hafter⟩
  · rwa [hsame]
  · rw [hafter]
    exact h.afterCompile hgrammar hroot

theorem Current.of_run (h : Current session) : Current (run.run.run session).2 := by
  rcases run_cases session with hsame | ⟨grammar, root, hgrammar, hroot, hafter⟩
  · rwa [hsame]
  · rw [hafter]
    exact (h.afterCompile hgrammar hroot).of_matches ⟨rfl, fun _ hfrozen => hfrozen, rfl, rfl⟩

/-! ## Operations one after the other -/

theorem matches_feedGrammarLine (session : Session) (line : String) :
    Matches session ((feedGrammarLine line).run.run session).2 := by
  rw [run_feedGrammarLine]
  exact matches_feedWords session _

theorem Current.of_feedLine (h : Current session) (line : String) :
    Current ((feedLine line).run.run session).2 := by
  rcases feedLine_cases line session with hgrammar | hprogram
  · rw [hgrammar]
    exact h.of_matches (matches_feedGrammarLine session line)
  · rw [hprogram]
    exact h.of_feedProgramLine line

/-- An operation keeps the program current, exactly if it does not end a text with tokens that
outdate it. -/
theorem current_perform_iff (h : Current session) (operation : Operation) :
    Current (session.perform operation) ↔ (operation.Finishes → ¬Outdates session) := by
  cases operation with
  | feedLine line => exact iff_of_true (h.of_feedLine line) False.elim
  | feedGrammarLine line =>
    exact iff_of_true (h.of_matches (matches_feedGrammarLine session line)) False.elim
  | loadGrammar text =>
    refine iff_of_true ?_ False.elim
    change Current ((loadGrammar text).run.run session).2
    rw [run_loadGrammar]
    exact h.of_matches (matches_feedWords session _)
  | feedProgramLine line => exact iff_of_true (h.of_feedProgramLine line) False.elim
  | loadProgram text =>
    change Current ((loadProgram text).run.run session).2 ↔ (linesOf text = [] → _)
    rw [loadProgram_eq]
    cases linesOf text with
    | nil =>
      rw [run_loadLines_nil, current_finishProgram_iff h]
      exact ⟨fun hkeeps _ => hkeeps, fun hkeeps => hkeeps rfl⟩
    | cons line lines => exact iff_of_true (h.of_loadLines_cons line lines) (absurd · (by simp))
  | finishProgram =>
    exact (current_finishProgram_iff h).trans
      ⟨fun hkeeps _ => hkeeps, fun hkeeps => hkeeps trivial⟩
  | declare => exact iff_of_true (h.of_matches (matches_declare session)) False.elim
  | compile => exact iff_of_true h.of_compile False.elim
  | run => exact iff_of_true h.of_run False.elim
  | clearProgram | clear => exact iff_of_true (current_of_none rfl) False.elim

theorem performAll_concat (settings : Settings) (operations : List Operation)
    (operation : Operation) :
    performAll settings (operations ++ [operation]) =
      (performAll settings operations).perform operation := by
  unfold performAll
  rw [List.foldl_append]
  rfl

/-- While a session is operated it keeps the program of its tree, exactly if none of the operations
ends a text with tokens that outdate the program. -/
theorem current_iff (settings : Settings) (operations : List Operation) :
    (∀ done, done <+: operations → Current (performAll settings done)) ↔
      ∀ done operation, done ++ [operation] <+: operations → operation.Finishes →
        ¬Outdates (performAll settings done) := by
  constructor
  · intro h done operation hdone
    have hnext := h _ hdone
    rw [performAll_concat] at hnext
    exact (current_perform_iff (h done ((List.prefix_append _ _).trans hdone)) operation).mp hnext
  · intro h done hdone
    induction done using List.reverseRecOn with
    | nil => exact current_of_none rfl
    | append_singleton done operation ih =>
      rw [performAll_concat]
      exact (current_perform_iff (ih ((List.prefix_append _ _).trans hdone)) operation).mpr
        (h done operation hdone)

/-! ## Tokens that outdate a program -/

/-- Lists of `print` with marks between them. -/
def printLists : Grammar :=
  Grammar.withSets {
    nonTerminals := ["list", "print_stmt"]
    terminals := ["print", "NUM", ";", "$", "#"]
    rules := [("list", [["print_stmt", ";", "list", "$"], ["print_stmt", "$"]]),
      ("print_stmt", [["print", "NUM"]])] }

def printListsText : String :=
  "list print_stmt # print NUM ; # list -> print_stmt ; list # list -> print_stmt # " ++
    "print_stmt -> print NUM # ##"

def leftoverPrint : List Operation :=
  [.loadGrammar printListsText, .feedProgramLine "print 1;print 2", .compile, .finishProgram]

/-- The statement `print`, fed in a line. -/
def printTokens (value : Int64) (column : Nat) : List Token :=
  [⟨.word "print", ⟨1, column⟩⟩, ⟨.integer value, ⟨1, column + 6⟩⟩]

def printTree (value : Int64) (column line : Nat) (closed : Bool) : Tree :=
  ⟨"print_stmt", none, .complete, closed, line,
    [.leaf "print" (some ⟨.word "print", ⟨1, column⟩⟩) line,
      .leaf "NUM" (some ⟨.integer value, ⟨1, column + 6⟩⟩) line]⟩

/-- The tree of `print 1;` and what is behind it. -/
def printListTree (rest : List Tree) : Tree :=
  ⟨"list", none, .incomplete, false, 1,
    printTree 1 0 1 true :: .leaf ";" (some ⟨.mark ";", ⟨1, 7⟩⟩) 1 :: rest⟩

def printFirst : Tree :=
  printListTree []

def printBoth : Tree :=
  printListTree [⟨"list", none, .incomplete, false, 2, [printTree 2 8 2 false]⟩]

-- evaluation goes by the equations of `List.lookup`, which come with `Primrec.List`
theorem grammar?_printLists :
    (({} : Draft).feedText printListsText).1.grammar? = .ok printLists := by
  cbv

theorem take_printTokens : Intake.take {} printLists ⟨{}, []⟩
    (printTokens 1 0 ++ ⟨.mark ";", ⟨1, 7⟩⟩ :: printTokens 2 8) =
      (⟨⟨some printFirst, 1⟩, printTokens 2 8⟩, .ok ()) := by
  cbv

theorem flush_printTokens :
    Intake.flush printLists ⟨⟨some printFirst, 1⟩, printTokens 2 8⟩ =
      (⟨⟨some printBoth, 2⟩, []⟩, .ok ()) := by
  cbv

theorem exists_compiled_printFirst : ∃ program, (compiled {} printFirst).1 = .ok program ∧
    (compiled {} printBoth).1 ≠ .ok program := by
  have hok : (compiled {} printFirst).1.isOk = true := by decide +kernel
  have hne : (compiled {} printBoth).1.toOption ≠ (compiled {} printFirst).1.toOption := by
    decide +kernel
  rcases hcompiled : (compiled {} printFirst).1 with error | program
  · rw [hcompiled] at hok
    cases hok
  · refine ⟨program, rfl, fun hsame => hne ?_⟩
    rw [hsame, hcompiled]

/-- The session when the first statement has been read and the second one waits. -/
def withPrints (session : Session) : Session :=
  { session.withIntake ⟨⟨some printFirst, 1⟩, printTokens 2 8⟩ with
    sourceLine := session.sourceLine + 1
    program := none }

theorem not_current_print (hgrammar : session.draft.grammar? = .ok printLists)
    (hsettings : session.settings = {}) (hintake : session.intake = ⟨{}, []⟩)
    (hline : session.sourceLine = 0) :
    ¬Current ([.feedProgramLine "print 1;print 2", .compile, .finishProgram].foldl perform
      session) := by
  have hread : ((feedProgramLine "print 1;print 2").run.run session).2 =
      session.withPrints := by
    have htokens : tokenize "print 1;print 2" (session.sourceLine + 1) =
        .ok (printTokens 1 0 ++ ⟨.mark ";", ⟨1, 7⟩⟩ :: printTokens 2 8) := by
      rw [hline]
      decide +kernel
    rw [run_feedProgramLine hgrammar htokens, hsettings, hintake, take_printTokens]
    rfl
  have hwaits : session.withPrints.draft.grammar? = .ok printLists := hgrammar
  have hroot : session.withPrints.parse.root = some printFirst := rfl
  have hcompile := run_compile hwaits hroot
  have hcurrent : Current (compile.run.run session.withPrints).2 := (current_of_none rfl).of_compile
  change ¬Current (finishProgram.run.run
    (compile.run.run ((feedProgramLine "print 1;print 2").run.run session).2).2).2
  rw [hread, current_finishProgram_iff hcurrent, not_not, hcompile]
  obtain ⟨program, hfirst, hboth⟩ := exists_compiled_printFirst
  rw [← hsettings] at hfirst hboth
  refine ⟨program, printLists, _, ?_, hgrammar, congrArg (·.1.parse.root) flush_printTokens, hboth⟩
  change (compiled session.settings printFirst).1.toOption.or none = some program
  rw [hfirst]
  rfl

/-- The kept program prints one number, and that of the tree prints two. -/
theorem not_current_leftoverPrint : ¬Current (performAll {} leftoverPrint) := by
  have hloaded : perform (ofSettings {}) (.loadGrammar printListsText) =
      { ofSettings {} with draft := (({} : Draft).feedText printListsText).1 } :=
    congrArg Prod.snd (run_loadGrammar _ _)
  unfold performAll leftoverPrint
  rw [List.foldl_cons, hloaded]
  exact not_current_print grammar?_printLists rfl rfl rfl

end LineGrammar.Session
