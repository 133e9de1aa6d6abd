import LineGrammar.Proofs.Parse.TokenOrder
import LineGrammar.Proofs.Session.Operating

/-!
# Statements

Program tokens are fed to the parse statement by statement. The tokens that wait are those behind the
last terminator, in whatever way a session has come to its state (`Session.waits_performAll`). So
where a line is refused, one of the statements of these tokens and of the line is, the ones before
it have been fed, and what is behind it is dropped (`Intake.exists_of_take_error`).
-/

namespace LineGrammar

/-- The statements of a list of tokens, each with its terminator. What is behind the last terminator
is left out. -/
def Settings.statementsOf (settings : Settings) : List Token → List (List Token)
  | [] => []
  | token :: tokens =>
    if settings.endsStatement token then [token] :: settings.statementsOf tokens
    else
      match settings.statementsOf tokens with
      | [] => []
      | first :: others => (token :: first) :: others

/-- None of the tokens ends a statement. -/
def Settings.Unended (settings : Settings) (tokens : List Token) : Prop :=
  ∀ token ∈ tokens, settings.endsStatement token = false

namespace Settings

variable {settings : Settings}

theorem Unended.append {tokens others : List Token} (h : settings.Unended tokens)
    (hothers : settings.Unended others) : settings.Unended (tokens ++ others) :=
  List.forall_mem_append.mpr ⟨h, hothers⟩

theorem Unended.concat {tokens : List Token} {token : Token} (h : settings.Unended tokens)
    (htoken : settings.endsStatement token = false) : settings.Unended (tokens ++ [token]) :=
  h.append (List.forall_mem_singleton.mpr htoken)

theorem unended_nil : settings.Unended [] :=
  List.forall_mem_nil _

theorem statementsOf_append_cons {tokens : List Token} (h : settings.Unended tokens) {token : Token}
    (htoken : settings.endsStatement token = true) (others : List Token) :
    settings.statementsOf (tokens ++ token :: others) =
      (tokens ++ [token]) :: settings.statementsOf others := by
  induction tokens with
  | nil => rw [List.nil_append, statementsOf, if_pos htoken, List.nil_append]
  | cons first tokens ih =>
    obtain ⟨hfirst, htokens⟩ := List.forall_mem_cons.mp h
    rw [List.cons_append, statementsOf, if_neg (by simp [hfirst]), ih htokens, List.cons_append]

end Settings

/-- Of these statements, one is rejected and those before it are accepted. -/
structure Parse.Rejects (parse : Parse) (grammar : Grammar) (statements earlier : List (List Token))
    (rejected : List Token) (error : ParseError) : Prop where
  before : ∃ later, statements = earlier ++ rejected :: later
  accepted : (parse.feedAll grammar earlier).2 = earlier
  refused : ((parse.feedAll grammar earlier).1.feed grammar rejected).2 = .error error

namespace Parse

variable {grammar : Grammar} {parse fed : Parse} {first : List Token}

theorem feedAll_cons_of_ok {more : Bool} (h : parse.feed grammar first = (fed, .ok more))
    (lines : List (List Token)) :
    parse.feedAll grammar (first :: lines) =
      ((fed.feedAll grammar lines).1, first :: (fed.feedAll grammar lines).2) := by
  rw [feedAll, h]

theorem rejects_here {error : ParseError} (h : parse.feed grammar first = (fed, .error error))
    (others : List (List Token)) : parse.Rejects grammar (first :: others) [] first error where
  before := ⟨others, rfl⟩
  accepted := rfl
  refused := congrArg Prod.snd h

theorem Rejects.cons {more : Bool} {statements earlier : List (List Token)} {rejected : List Token}
    {error : ParseError} (hrejects : fed.Rejects grammar statements earlier rejected error)
    (h : parse.feed grammar first = (fed, .ok more)) :
    parse.Rejects grammar (first :: statements) (first :: earlier) rejected error := by
  obtain ⟨⟨later, rfl⟩, haccepted, hrefused⟩ := hrejects
  have hall := feedAll_cons_of_ok h earlier
  refine ⟨⟨later, rfl⟩, ?_, ?_⟩
  · rw [hall, haccepted]
  · rw [hall]
    exact hrefused

end Parse

/-! ## Taking tokens -/

namespace Intake

variable {settings : Settings} {grammar : Grammar} {intake : Intake}

theorem take_of_unended (settings : Settings) (grammar : Grammar) (parse : Parse)
    (waiting : List Token) {tokens : List Token} (h : settings.Unended tokens) :
    (⟨parse, waiting⟩ : Intake).take settings grammar tokens =
      (⟨parse, waiting ++ tokens⟩, .ok ()) := by
  induction tokens generalizing waiting with
  | nil => rw [take, List.append_nil]
  | cons token tokens ih =>
    obtain ⟨htoken, htokens⟩ := List.forall_mem_cons.mp h
    rw [take, if_neg (by simp [htoken]), ih _ htokens, List.append_assoc, List.singleton_append]

theorem take_waiting (grammar : Grammar) (h : settings.Unended intake.waiting)
    (tokens : List Token) :
    intake.take settings grammar tokens =
      (⟨intake.parse, []⟩ : Intake).take settings grammar (intake.waiting ++ tokens) := by
  rw [take_append, take_of_unended settings grammar intake.parse [] h]
  rfl

theorem take_statement (grammar : Grammar) (parse : Parse) {tokens : List Token}
    (h : settings.Unended tokens) {token : Token} (htoken : settings.endsStatement token = true)
    (others : List Token) :
    (⟨parse, []⟩ : Intake).take settings grammar (tokens ++ token :: others) =
      match (⟨parse, tokens ++ [token]⟩ : Intake).flush grammar with
      | (after, .ok ()) => after.take settings grammar others
      | (after, .error error) => (after, .error error) := by
  rw [take_append, take_of_unended settings grammar parse [] h]
  dsimp only
  rw [take, if_pos htoken]
  rfl

theorem unended_take (h : settings.Unended intake.waiting) (tokens : List Token) :
    settings.Unended (intake.take settings grammar tokens).1.waiting := by
  induction tokens generalizing intake with
  | nil => exact h
  | cons token tokens ih =>
    rw [take]
    split
    · rcases hflush : flush grammar ⟨intake.parse, intake.waiting ++ [token]⟩
        with ⟨after, error | ⟨⟩⟩
      · obtain rfl := congrArg Prod.fst hflush
        exact Settings.unended_nil
      · obtain rfl := congrArg Prod.fst hflush
        exact ih Settings.unended_nil
    · next htoken => exact ih (h.concat (by simpa using htoken))

/-- A refusal is that of one of the statements. The ones before it have been fed, and no token is
left. -/
theorem exists_of_take_error {error : ParseError} (h : settings.Unended intake.waiting)
    {tokens : List Token} (herror : (intake.take settings grammar tokens).2 = .error error) :
    ∃ earlier rejected,
      intake.parse.Rejects grammar (settings.statementsOf (intake.waiting ++ tokens)) earlier
        rejected error ∧
      (intake.take settings grammar tokens).1 =
        ⟨((intake.parse.feedAll grammar earlier).1.feed grammar rejected).1, []⟩ ∧
      (⟨intake.parse, []⟩ : Intake).take settings grammar earlier.flatten =
        (⟨(intake.parse.feedAll grammar earlier).1, []⟩, .ok ()) := by
  induction tokens generalizing intake with
  | nil => cases herror
  | cons token tokens ih =>
    rw [take] at herror ⊢
    cases htoken : settings.endsStatement token with
    | false =>
      rw [htoken, if_neg Bool.false_ne_true] at herror
      rw [if_neg Bool.false_ne_true]
      have hnext := @ih ⟨intake.parse, intake.waiting ++ [token]⟩ (h.concat htoken) herror
      rwa [List.append_assoc, List.singleton_append] at hnext
    | true =>
      rw [htoken, if_pos rfl, flush] at herror
      rw [if_pos rfl, flush]
      rw [Settings.statementsOf_append_cons h htoken]
      rcases hfeed : intake.parse.feed grammar (intake.waiting ++ [token])
        with ⟨fed, failure | more⟩
      · rw [hfeed] at herror
        obtain rfl := Except.error.inj herror
        refine ⟨[], _, Parse.rejects_here hfeed _, ?_, rfl⟩
        rw [Parse.feedAll, hfeed]
        rfl
      · rw [hfeed] at herror
        obtain ⟨earlier, rejected, hrejects, hafter, htake⟩ :=
          @ih ⟨fed, []⟩ Settings.unended_nil herror
        have hall := Parse.feedAll_cons_of_ok hfeed earlier
        refine ⟨(intake.waiting ++ [token]) :: earlier, rejected, hrejects.cons hfeed, ?_, ?_⟩
        · rw [hall]
          exact hafter
        · rw [hall, List.flatten_cons, List.append_assoc, List.singleton_append,
            take_statement grammar intake.parse h htoken, flush, hfeed]
          exact htake

end Intake

namespace Session

variable {settings : Settings} {session after : Session}

/-! ## What waits in a session -/

/-- The session has these settings, and no token that waits ends a statement. -/
structure Waits (given : Settings) (session : Session) : Prop where
  settings : session.settings = given
  pending : given.Unended session.pending

theorem Waits.of_same (h : Waits settings session) (hsettings : after.settings = session.settings)
    (hpending : after.pending = session.pending) : Waits settings after :=
  ⟨hsettings.trans h.settings, hpending ▸ h.pending⟩

theorem Waits.of_nil (h : Waits settings session) (hsettings : after.settings = session.settings)
    (hpending : after.pending = []) : Waits settings after :=
  ⟨hsettings.trans h.settings, hpending ▸ Settings.unended_nil⟩

theorem Waits.of_feedProgramLine (h : Waits settings session) (line : String) :
    Waits settings ((feedProgramLine line).run.run session).2 := by
  rcases hgrammar : session.draft.grammar? with error | grammar
  · rw [run_feedProgramLine_of_error hgrammar]
    exact h.of_same rfl rfl
  rcases htokens : tokenize line (session.sourceLine + 1) with error | tokens
  · rw [run_feedProgramLine_of_lexError hgrammar htokens]
    exact h.of_same rfl rfl
  · rw [run_feedProgramLine hgrammar htokens, h.settings]
    exact ⟨h.settings, Intake.unended_take h.pending tokens⟩

theorem Waits.of_finishProgram (h : Waits settings session) :
    Waits settings (finishProgram.run.run session).2 := by
  rcases hgrammar : session.draft.grammar? with error | grammar
  · rwa [run_finishProgram_of_error hgrammar]
  · rw [run_finishProgram hgrammar]
    exact h.of_nil rfl rfl

theorem Waits.of_loadLines (h : Waits settings session) (lines : List String) :
    Waits settings ((loadLines lines).run.run session).2 :=
  loadLines_keeps (fun _ line hwaits => hwaits.of_feedProgramLine line)
    (fun _ hwaits => hwaits.of_finishProgram) h lines

theorem Waits.of_feedGrammarLine (h : Waits settings session) (line : String) :
    Waits settings ((feedGrammarLine line).run.run session).2 := by
  rw [run_feedGrammarLine]
  exact h.of_same rfl rfl

theorem Waits.of_feedLine (h : Waits settings session) (line : String) :
    Waits settings ((feedLine line).run.run session).2 := by
  rcases feedLine_cases line session with hgrammar | hprogram
  · rw [hgrammar]
    exact h.of_feedGrammarLine line
  · rw [hprogram]
    exact h.of_feedProgramLine line

theorem Waits.of_declare (h : Waits settings session) :
    Waits settings (declare.run.run session).2 := by
  rcases hroot : session.parse.root with - | root
  · rwa [run_declare_of_none hroot]
  · rw [run_declare hroot]
    exact h.of_same rfl rfl

theorem Waits.of_compile (h : Waits settings session) :
    Waits settings (compile.run.run session).2 := by
  rcases compile_cases session with hsame | ⟨grammar, root, -, -, hafter⟩
  · rwa [hsame]
  · rw [hafter]
    exact h.of_same rfl rfl

theorem Waits.of_run (h : Waits settings session) : Waits settings (run.run.run session).2 := by
  rcases run_cases session with hsame | ⟨grammar, root, -, -, hafter⟩
  · rwa [hsame]
  · rw [hafter]
    exact h.of_same rfl rfl

theorem Waits.perform (h : Waits settings session) (operation : Operation) :
    Waits settings (session.perform operation) := by
  cases operation with
  | feedLine line => exact h.of_feedLine line
  | feedGrammarLine line => exact h.of_feedGrammarLine line
  | loadGrammar text =>
    change Waits settings ((loadGrammar text).run.run session).2
    rw [run_loadGrammar]
    exact h.of_same rfl rfl
  | feedProgramLine line => exact h.of_feedProgramLine line
  | loadProgram text => exact h.of_loadLines (linesOf text)
  | finishProgram => exact h.of_finishProgram
  | declare => exact h.of_declare
  | compile => exact h.of_compile
  | run => exact h.of_run
  | clearProgram | clear => exact h.of_nil rfl rfl

/-- However a session has been operated, the tokens that wait stand behind the last terminator. -/
theorem waits_performAll (settings : Settings) (operations : List Operation) :
    Waits settings (performAll settings operations) := by
  induction operations using List.reverseRecOn with
  | nil => exact ⟨rfl, Settings.unended_nil⟩
  | append_singleton operations operation ih =>
    rw [performAll_concat]
    exact ih.perform operation

end Session

end LineGrammar
