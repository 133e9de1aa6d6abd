import LineGrammar.Proofs.Session.Acting

/-!
# Feeding program text

Of the program text that a session is fed, what the parse and the waiting tokens become is a matter
of the tokens (`Intake.take`): tokens may be taken in pieces (`Intake.take_append`), so it does not
matter which of them stand on a line.
-/

namespace LineGrammar

/-- Is this the last token of a statement? -/
def Settings.endsStatement (settings : Settings) (token : Token) : Bool :=
  token.spelling.any settings.isTerminator

/-- The parse, and the tokens that wait to be fed to it. -/
structure Intake where
  parse : Parse
  waiting : List Token

namespace Intake

def flush (grammar : Grammar) (intake : Intake) : Intake × Except ParseError Unit :=
  let (parse, result) := intake.parse.feed grammar intake.waiting
  (⟨parse, []⟩, result.map fun _ => ())

/-- Takes tokens, and feeds each statement when it ends. -/
def take (settings : Settings) (grammar : Grammar) (intake : Intake) :
    List Token → Intake × Except ParseError Unit
  | [] => (intake, .ok ())
  | token :: tokens =>
    let next : Intake := ⟨intake.parse, intake.waiting ++ [token]⟩
    if settings.endsStatement token then
      match next.flush grammar with
      | (after, .ok ()) => after.take settings grammar tokens
      | (after, .error error) => (after, .error error)
    else next.take settings grammar tokens

theorem take_append (settings : Settings) (grammar : Grammar) (intake : Intake)
    (tokens others : List Token) :
    intake.take settings grammar (tokens ++ others) =
      match intake.take settings grammar tokens with
      | (after, .ok ()) => after.take settings grammar others
      | (after, .error error) => (after, .error error) := by
  induction tokens generalizing intake with
  | nil => rfl
  | cons token tokens ih =>
    rw [List.cons_append, take, take]
    split
    · rcases flush grammar ⟨intake.parse, intake.waiting ++ [token]⟩ with ⟨after, error | ⟨⟩⟩
      · rfl
      · exact ih after
    · exact ih _

end Intake

namespace Session

variable {session : Session} {grammar : Grammar} {line : String} {tokens : List Token}

def intake (session : Session) : Intake :=
  ⟨session.parse, session.pending⟩

def withIntake (session : Session) (intake : Intake) : Session :=
  { session with parse := intake.parse, pending := intake.waiting }

theorem run_flush (grammar : Grammar) (session : Session) :
    (flush grammar).run.run session =
      ((session.intake.flush grammar).2.mapError .parse,
        session.withIntake (session.intake.flush grammar).1) := by
  unfold flush Intake.flush
  rw [run_get_bind]
  dsimp only [intake]
  rcases session.parse.feed grammar session.pending with ⟨parse, error | more⟩ <;> rfl

theorem run_takeTokens (grammar : Grammar) (tokens : List Token) (session : Session) :
    (takeTokens grammar tokens).run.run session =
      ((session.intake.take session.settings grammar tokens).2.mapError .parse,
        session.withIntake (session.intake.take session.settings grammar tokens).1) := by
  induction tokens generalizing session with
  | nil => rfl
  | cons token tokens ih =>
    rw [takeTokens, run_get_bind, run_set_bind, Intake.take]
    have hends : session.settings.endsStatement token =
        token.spelling.any session.settings.isTerminator := rfl
    rw [hends]
    dsimp only
    cases token.spelling with
    | none => exact ih _
    | some text =>
      dsimp only [Option.any_some]
      split
      · rw [run_run_bind, run_flush]
        dsimp only [intake]
        rcases Intake.flush grammar ⟨session.parse, session.pending ++ [token]⟩
          with ⟨after, error | ⟨⟩⟩
        · rfl
        · exact ih _
      · exact ih _

/-! ## Lines -/

theorem run_feedProgramLine_of_error {error : GrammarError}
    (hgrammar : session.draft.grammar? = .error error) (line : String) :
    (feedProgramLine line).run.run session =
      (.error (.grammar error), { session with sourceLine := session.sourceLine + 1 }) := by
  unfold feedProgramLine
  rw [run_modify_bind, run_run_bind, run_grammar, hgrammar]
  rfl

theorem run_feedProgramLine_of_lexError {error : LexError}
    (hgrammar : session.draft.grammar? = .ok grammar)
    (htokens : tokenize line (session.sourceLine + 1) = .error error) :
    (feedProgramLine line).run.run session =
      (.error (.lexical error), { session with sourceLine := session.sourceLine + 1 }) := by
  unfold feedProgramLine
  rw [run_modify_bind, run_run_bind, run_grammar, hgrammar]
  dsimp only [Except.mapError]
  rw [run_get_bind, run_run_bind, run_lift, htokens]
  rfl

theorem run_feedProgramLine (hgrammar : session.draft.grammar? = .ok grammar)
    (htokens : tokenize line (session.sourceLine + 1) = .ok tokens) :
    (feedProgramLine line).run.run session =
      (((session.intake.take session.settings grammar tokens).2.mapError .parse).map fun _ =>
          !(session.intake.take session.settings grammar tokens).1.parse.isComplete,
        { session.withIntake (session.intake.take session.settings grammar tokens).1 with
          sourceLine := session.sourceLine + 1
          program := none }) := by
  unfold feedProgramLine
  rw [run_modify_bind, run_run_bind, run_grammar, hgrammar]
  dsimp only [Except.mapError]
  rw [run_get_bind, run_run_bind, run_lift, htokens]
  dsimp only [Except.mapError]
  rw [run_modify_bind, run_run_bind, run_takeTokens]
  dsimp only [intake]
  rcases Intake.take session.settings grammar ⟨session.parse, session.pending⟩ tokens
    with ⟨after, error | ⟨⟩⟩ <;> rfl

/-! ## The end of a program -/

theorem run_finishProgram_of_error {error : GrammarError}
    (hgrammar : session.draft.grammar? = .error error) :
    finishProgram.run.run session = (.error (.grammar error), session) := by
  unfold finishProgram
  rw [run_run_bind, run_grammar, hgrammar]
  rfl

theorem run_finishProgram (hgrammar : session.draft.grammar? = .ok grammar) :
    finishProgram.run.run session =
      (((session.intake.flush grammar).2.mapError .parse).map fun _ =>
          !(session.intake.flush grammar).1.parse.isComplete,
        session.withIntake (session.intake.flush grammar).1) := by
  unfold finishProgram
  rw [run_run_bind, run_grammar, hgrammar]
  dsimp only [Except.mapError]
  rw [run_run_bind, run_flush]
  rcases session.intake.flush grammar with ⟨after, error | ⟨⟩⟩ <;> rfl

/-! ## Whole texts -/

/-- Feeds lines of program text, and then what waits. -/
def loadLines (lines : List String) : SessionAction Unit := do
  lines.forM fun line => do let _ ← feedProgramLine line
  let _ ← finishProgram

theorem loadProgram_eq (text : String) : loadProgram text = loadLines (linesOf text) := rfl

theorem run_loadLines_nil (session : Session) :
    (loadLines []).run.run session =
      ((finishProgram.run.run session).1.map fun _ => (), (finishProgram.run.run session).2) := by
  unfold loadLines
  rw [List.forM, run_run_bind]
  change (finishProgram >>= _).run.run session = _
  rw [run_run_bind]
  rcases finishProgram.run.run session with ⟨error | more, after⟩ <;> rfl

theorem run_loadLines_cons (line : String) (lines : List String) (session : Session) :
    (loadLines (line :: lines)).run.run session =
      match (feedProgramLine line).run.run session with
      | (.ok _, next) => (loadLines lines).run.run next
      | (.error error, next) => (.error error, next) := by
  unfold loadLines
  rw [List.forM, run_run_bind, run_run_bind, run_run_bind]
  rcases (feedProgramLine line).run.run session with ⟨error | more, next⟩
  · rfl
  · dsimp only
    rw [run_run_bind]
    rfl

/-! ## What feeding keeps -/

theorem loadLines_keeps {kept : Session → Prop}
    (hline : ∀ session line, kept session → kept ((feedProgramLine line).run.run session).2)
    (hend : ∀ session, kept session → kept (finishProgram.run.run session).2)
    (h : kept session) (lines : List String) : kept ((loadLines lines).run.run session).2 := by
  induction lines generalizing session with
  | nil =>
    rw [run_loadLines_nil]
    exact hend session h
  | cons line lines ih =>
    have hfed := hline session line h
    rw [run_loadLines_cons]
    generalize (feedProgramLine line).run.run session = fed at hfed ⊢
    obtain ⟨error | more, next⟩ := fed
    · exact hfed
    · exact ih hfed

theorem feedLine_cases (line : String) (session : Session) :
    ((feedLine line).run.run session).2 = ((feedGrammarLine line).run.run session).2 ∨
      ((feedLine line).run.run session).2 = ((feedProgramLine line).run.run session).2 := by
  unfold feedLine
  rw [run_get_bind]
  cases session.stage with
  | grammar => exact .inl rfl
  | program =>
    dsimp only
    rw [run_run_bind]
    rcases (feedProgramLine line).run.run session with ⟨error | more, next⟩ <;> exact .inr rfl

end Session

end LineGrammar
