import LineGrammar.Proofs.Declaration.Moving
import LineGrammar.Proofs.Parse.Moving
import LineGrammar.Proofs.Program.Moving
import LineGrammar.Proofs.Session.Feeding
import LineGrammar.Proofs.Session.Running
import LineGrammar.Proofs.Token.Lines

/-!
# The layout of programs

The lines of a program text matter for the places of its tokens only: the tokens are those of the
whole text, in whatever lines they stand, and are fed to the parse statement by statement. Texts of
the same tokens are loaded alike up to places, and run alike (`Session.loaded_eq_of_same_lexemes`).
-/

namespace LineGrammar

variable (move : Place → Place)

def SessionError.moved : SessionError → SessionError
  | lexical error => lexical (error.moved move)
  | parse error => parse (error.moved move)
  | error => error

/-! ## Without places -/

/-- The place that all tokens are given to compare them without places. -/
def Place.nowhere : Place :=
  ⟨0, 0⟩

def Tree.unplaced (tree : Tree) : Tree :=
  tree.moved fun _ => .nowhere

def SessionError.unplaced (error : SessionError) : SessionError :=
  error.moved fun _ => .nowhere

theorem Token.map_moved_of_lexeme {tokens others : List Token}
    (h : tokens.map Token.lexeme = others.map Token.lexeme) :
    tokens.map (Token.moved fun _ => .nowhere) = others.map (Token.moved fun _ => .nowhere) := by
  have hmoved : Token.moved (fun _ => .nowhere) =
      (fun lexeme => ⟨lexeme, .nowhere⟩) ∘ Token.lexeme := rfl
  rw [hmoved, ← List.map_map, ← List.map_map, h]

/-! ## Taking tokens -/

namespace Intake

variable {settings : Settings} {grammar : Grammar}

def moved (intake : Intake) : Intake :=
  ⟨intake.parse.moved move, intake.waiting.map (Token.moved move)⟩

theorem flush_moved (grammar : Grammar) (intake : Intake) :
    (intake.moved move).flush grammar =
      ((intake.flush grammar).1.moved move,
        (intake.flush grammar).2.mapError (ParseError.moved move)) := by
  have hfeed := Parse.feed_moved move intake.parse grammar intake.waiting
  unfold flush moved
  dsimp only
  rw [hfeed]
  rcases intake.parse.feed grammar intake.waiting with ⟨parse, error | more⟩ <;> rfl

theorem take_moved (settings : Settings) (grammar : Grammar) (intake : Intake)
    (tokens : List Token) :
    (intake.moved move).take settings grammar (tokens.map (Token.moved move)) =
      ((intake.take settings grammar tokens).1.moved move,
        (intake.take settings grammar tokens).2.mapError (ParseError.moved move)) := by
  induction tokens generalizing intake with
  | nil => rfl
  | cons token tokens ih =>
    have hends : settings.endsStatement (token.moved move) = settings.endsStatement token := rfl
    have hnext : (⟨(intake.moved move).parse, (intake.moved move).waiting ++ [token.moved move]⟩ :
        Intake) = moved move ⟨intake.parse, intake.waiting ++ [token]⟩ := by
      unfold moved
      rw [List.map_append]
      rfl
    rw [List.map_cons, take, take, hends, hnext, flush_moved]
    split
    · rcases flush grammar ⟨intake.parse, intake.waiting ++ [token]⟩ with ⟨after, error | ⟨⟩⟩
      · rfl
      · exact ih after
    · exact ih _

/-- Takes all tokens of a text. -/
def load (settings : Settings) (grammar : Grammar) (intake : Intake) (tokens : List Token) :
    Intake × Except ParseError Unit :=
  match intake.take settings grammar tokens with
  | (after, .ok ()) => after.flush grammar
  | (after, .error error) => (after, .error error)

theorem load_moved (settings : Settings) (grammar : Grammar) (intake : Intake)
    (tokens : List Token) :
    (intake.moved move).load settings grammar (tokens.map (Token.moved move)) =
      ((intake.load settings grammar tokens).1.moved move,
        (intake.load settings grammar tokens).2.mapError (ParseError.moved move)) := by
  unfold load
  rw [take_moved]
  rcases intake.take settings grammar tokens with ⟨after, error | ⟨⟩⟩
  · rfl
  · exact flush_moved move grammar after

end Intake

/-! ## Lines -/

namespace Session

variable {session : Session} {grammar : Grammar}

theorem run_loadLines (session : Session) (hgrammar : session.draft.grammar? = .ok grammar)
    {lines : List (List Char)} {tokens : List Token}
    (htokens : Cursor.tokensOfLines (session.sourceLine + 1) lines = .ok tokens) :
    ∃ sourceLine program, (loadLines (lines.map String.ofList)).run.run session =
      ((session.intake.load session.settings grammar tokens).2.mapError .parse,
        { session.withIntake (session.intake.load session.settings grammar tokens).1 with
          sourceLine, program }) := by
  induction lines generalizing session tokens with
  | nil =>
    obtain rfl : [] = tokens := Except.ok.inj htokens
    refine ⟨session.sourceLine, session.program, ?_⟩
    have hload : session.intake.load session.settings grammar [] =
        session.intake.flush grammar := rfl
    rw [List.map_nil, run_loadLines_nil, run_finishProgram hgrammar, hload]
    rcases session.intake.flush grammar with ⟨after, error | ⟨⟩⟩ <;> rfl
  | cons line lines ih =>
    rw [Cursor.tokensOfLines] at htokens
    rcases hfirst : (⟨line, ⟨session.sourceLine + 1, 0⟩⟩ : Cursor).tokens with error | first
    · rw [hfirst] at htokens
      cases htokens
    rcases hothers : Cursor.tokensOfLines (session.sourceLine + 1 + 1) lines with error | others
    · rw [hfirst, hothers] at htokens
      cases htokens
    rw [hfirst, hothers] at htokens
    obtain rfl : first ++ others = tokens := Except.ok.inj htokens
    have hline : tokenize (String.ofList line) (session.sourceLine + 1) = .ok first := by
      unfold tokenize Cursor.ofText
      rwa [String.toList_ofList]
    rw [List.map_cons, run_loadLines_cons, run_feedProgramLine hgrammar hline, Intake.load,
      Intake.take_append]
    rcases htake : session.intake.take session.settings grammar first with ⟨after, error | ⟨⟩⟩
    · exact ⟨_, _, rfl⟩
    · exact ih { session.withIntake after with
        sourceLine := session.sourceLine + 1
        program := none } hgrammar hothers

theorem run_loadProgram (session : Session) (hgrammar : session.draft.grammar? = .ok grammar)
    {text : String} {tokens : List Token}
    (htokens : tokenize text (session.sourceLine + 1) = .ok tokens) :
    ∃ sourceLine program, (loadProgram text).run.run session =
      ((session.intake.load session.settings grammar tokens).2.mapError .parse,
        { session.withIntake (session.intake.load session.settings grammar tokens).1 with
          sourceLine, program }) := by
  unfold tokenize Cursor.ofText at htokens
  rw [Cursor.tokens_eq_tokensOfLines] at htokens
  rw [loadProgram_eq]
  exact run_loadLines session hgrammar htokens

/-! ## Running -/

theorem compiled_moved (settings : Settings) (root : Tree) :
    compiled settings (root.moved move) = compiled settings root := by
  unfold compiled
  simp only [DeclarationWalk.run_moved, Program.ofTree_moved]

theorem executed_moved (settings : Settings) (root : Tree) :
    executed settings (root.moved move) = executed settings root := by
  unfold executed
  rw [compiled_moved]

theorem executed_of_unplaced {settings : Settings} {root other : Tree}
    (h : root.unplaced = other.unplaced) : executed settings root = executed settings other := by
  rw [← executed_moved (fun _ => .nowhere), ← executed_moved (fun _ => .nowhere) settings other]
  exact congrArg (executed settings) h

/-! ## Two layouts -/

/-- A new session with a grammar that has been read. -/
def ofDraft (settings : Settings) (draft : Draft) : Session :=
  { ofSettings settings with draft }

/-- Loads a program text in a new session with a grammar. -/
def loaded (settings : Settings) (draft : Draft) (text : String) :
    Except SessionError Unit × Session :=
  (loadProgram text).run.run (ofDraft settings draft)

/-- Tokens that are the same up to places are loaded alike up to places. -/
theorem load_of_same_lexemes (settings : Settings) (grammar : Grammar) {tokens others : List Token}
    (h : tokens.map Token.lexeme = others.map Token.lexeme) :
    (Intake.load settings grammar ⟨{}, []⟩ tokens).2.mapError (ParseError.moved fun _ => .nowhere) =
        (Intake.load settings grammar ⟨{}, []⟩ others).2.mapError
          (ParseError.moved fun _ => .nowhere) ∧
      (Intake.load settings grammar ⟨{}, []⟩ tokens).1.parse.root.map Tree.unplaced =
        (Intake.load settings grammar ⟨{}, []⟩ others).1.parse.root.map Tree.unplaced := by
  have hfirst := Intake.load_moved (fun _ => .nowhere) settings grammar ⟨{}, []⟩ tokens
  have hsecond := Intake.load_moved (fun _ => .nowhere) settings grammar ⟨{}, []⟩ others
  rw [Token.map_moved_of_lexeme h, hsecond] at hfirst
  obtain ⟨hintake, hresult⟩ := Prod.mk.inj hfirst
  exact ⟨hresult.symm, (congrArg (·.parse.root) hintake).symm⟩

theorem mapError_parse_unplaced (result : Except ParseError Unit) :
    (result.mapError SessionError.parse).mapError SessionError.unplaced =
      (result.mapError (ParseError.moved fun _ => .nowhere)).mapError SessionError.parse := by
  cases result <;> rfl

theorem run_of_unplaced {first second : Session} {other : Grammar}
    (hsettings : first.settings = second.settings) (hfirst : first.draft.grammar? = .ok grammar)
    (hsecond : second.draft.grammar? = .ok other)
    (hroot : first.parse.root.map Tree.unplaced = second.parse.root.map Tree.unplaced) :
    (run.run.run first).1 = (run.run.run second).1 := by
  rcases hread : first.parse.root with - | root <;>
    rcases hother : second.parse.root with - | otherRoot <;> rw [hread, hother] at hroot
  · rw [run_run_of_error (run_compile_of_none hfirst hread),
      run_run_of_error (run_compile_of_none hsecond hother)]
  · cases hroot
  · cases hroot
  · rw [run_run hfirst hread, run_run hsecond hother, hsettings,
      executed_of_unplaced (Option.some.inj hroot)]

/-- Two texts of the same tokens are loaded alike, whatever their lines, blanks and comments are:
the errors and trees are the same up to places, and running comes to the same. -/
theorem loaded_eq_of_same_lexemes {settings : Settings} {draft otherDraft : Draft}
    {grammar : Grammar} (hgrammar : draft.grammar? = .ok grammar)
    (hotherGrammar : otherDraft.grammar? = .ok grammar) {text other : String}
    {tokens others : List Token} (htokens : tokenize text 1 = .ok tokens)
    (hothers : tokenize other 1 = .ok others)
    (hsame : tokens.map Token.lexeme = others.map Token.lexeme) :
    (loaded settings draft text).1.mapError SessionError.unplaced =
        (loaded settings otherDraft other).1.mapError SessionError.unplaced ∧
      (loaded settings draft text).2.parse.root.map Tree.unplaced =
        (loaded settings otherDraft other).2.parse.root.map Tree.unplaced ∧
      (run.run.run (loaded settings draft text).2).1 =
        (run.run.run (loaded settings otherDraft other).2).1 := by
  obtain ⟨hresult, hroot⟩ := load_of_same_lexemes settings grammar hsame
  obtain ⟨line, program, hload⟩ :=
    run_loadProgram (ofDraft settings draft) hgrammar htokens
  obtain ⟨otherLine, otherProgram, hotherLoad⟩ :=
    run_loadProgram (ofDraft settings otherDraft) hotherGrammar hothers
  unfold loaded
  rw [hload, hotherLoad]
  refine ⟨?_, hroot, run_of_unplaced rfl hgrammar hotherGrammar hroot⟩
  rw [mapError_parse_unplaced, mapError_parse_unplaced]
  exact congrArg (Except.mapError SessionError.parse) hresult

/-- The grammar of statements has been read. -/
def statementsDraft : Draft :=
  { grammar := .statements, stage := .finished }

/-- A program in two layouts, the second one with a comment and three lines. -/
def printName : String :=
  "x = 1; print x;"

def printNameInLines : String :=
  "x=1 // one\n;print\r\n x;"

theorem loaded_eq_of_same_lexemes_printName :
    ∃ tokens others, tokenize printName 1 = .ok tokens ∧
      tokenize printNameInLines 1 = .ok others ∧ tokens ≠ others ∧
      tokens.map Token.lexeme = others.map Token.lexeme ∧
      (loaded {} statementsDraft printName).1.mapError SessionError.unplaced =
        (loaded {} statementsDraft printNameInLines).1.mapError SessionError.unplaced ∧
      (loaded {} statementsDraft printName).2.parse.root.map Tree.unplaced =
        (loaded {} statementsDraft printNameInLines).2.parse.root.map Tree.unplaced ∧
      (run.run.run (loaded {} statementsDraft printName).2).1 =
        (run.run.run (loaded {} statementsDraft printNameInLines).2).1 := by
  have htokens : tokenize printName 1 = .ok [⟨.word "x", ⟨1, 0⟩⟩, ⟨.mark "=", ⟨1, 2⟩⟩,
      ⟨.integer 1, ⟨1, 4⟩⟩, ⟨.mark ";", ⟨1, 5⟩⟩, ⟨.word "print", ⟨1, 7⟩⟩, ⟨.word "x", ⟨1, 13⟩⟩,
      ⟨.mark ";", ⟨1, 14⟩⟩] := by decide +kernel
  have hothers : tokenize printNameInLines 1 = .ok [⟨.word "x", ⟨1, 0⟩⟩, ⟨.mark "=", ⟨1, 1⟩⟩,
      ⟨.integer 1, ⟨1, 2⟩⟩, ⟨.mark ";", ⟨2, 0⟩⟩, ⟨.word "print", ⟨2, 1⟩⟩, ⟨.word "x", ⟨3, 1⟩⟩,
      ⟨.mark ";", ⟨3, 2⟩⟩] := by decide +kernel
  have hgrammar : statementsDraft.grammar? = .ok .statements := rfl
  exact ⟨_, _, htokens, hothers, by decide, rfl,
    loaded_eq_of_same_lexemes hgrammar hgrammar htokens hothers rfl⟩

end Session

end LineGrammar
