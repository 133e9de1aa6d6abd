import LineGrammar.Proofs.Parse.Numbering
import LineGrammar.Proofs.Session.Layout
import LineGrammar.Proofs.Session.Statements

/-!
# Recovery from errors in program text

A line that is not made of tokens changes nothing but the count of lines. A line that is refused
leaves the tree of the statements before the refused one, and no token. From there the session goes
on like any other one that was fed those statements only (`Session.recovers_feedProgramLine`): what
it does is the same up to line numbers, for the line of a token and the count of lines matter for
the labels of the tree only.
-/

namespace LineGrammar

/-! ## The same up to line numbers -/

namespace Intake

/-- The tree and the tokens that wait are the same up to line numbers. -/
structure Alike (intake other : Intake) : Prop where
  root : other.parse.root.map Tree.unlined = intake.parse.root.map Tree.unlined
  waiting : other.waiting.map Token.unlined = intake.waiting.map Token.unlined

variable {intake other : Intake} {tokens others : List Token}

theorem Alike.flush (h : Alike intake other) (grammar : Grammar) :
    Alike (intake.flush grammar).1 (other.flush grammar).1 ∧
      (other.flush grammar).2.mapError (ParseError.moved .unlined) =
        (intake.flush grammar).2.mapError (ParseError.moved .unlined) := by
  obtain ⟨hroot, hanswer⟩ := Parse.feed_eq_of_unlined grammar h.root h.waiting
  have hmap : ∀ answer : Except ParseError Bool,
      (answer.map fun _ => ()).mapError (ParseError.moved .unlined) =
        (answer.mapError (ParseError.moved .unlined)).map fun _ => () := by
    rintro (error | more) <;> rfl
  refine ⟨⟨hroot, rfl⟩, ?_⟩
  unfold Intake.flush
  dsimp only
  rw [hmap, hmap, hanswer]

theorem Alike.take (h : Alike intake other) (settings : Settings) (grammar : Grammar)
    (htokens : others.map Token.unlined = tokens.map Token.unlined) :
    Alike (intake.take settings grammar tokens).1 (other.take settings grammar others).1 ∧
      (other.take settings grammar others).2.mapError (ParseError.moved .unlined) =
        (intake.take settings grammar tokens).2.mapError (ParseError.moved .unlined) := by
  induction tokens generalizing intake other others with
  | nil =>
    obtain rfl : others = [] := by simpa using htokens
    exact ⟨h, rfl⟩
  | cons token tokens ih =>
    rcases others with - | ⟨first, others⟩
    · cases htokens
    obtain ⟨hfirst, hothers⟩ := List.cons.inj htokens
    have hends : settings.endsStatement first.unlined = settings.endsStatement token.unlined :=
      congrArg settings.endsStatement hfirst
    change settings.endsStatement first = settings.endsStatement token at hends
    have hnext : Alike ⟨intake.parse, intake.waiting ++ [token]⟩
        ⟨other.parse, other.waiting ++ [first]⟩ := by
      refine ⟨h.root, ?_⟩
      dsimp only
      rw [List.map_append, List.map_append, h.waiting, List.map_singleton, List.map_singleton,
        hfirst]
    rw [Intake.take, Intake.take, hends]
    split
    · obtain ⟨hafter, hanswer⟩ := hnext.flush grammar
      generalize Intake.flush grammar ⟨intake.parse, intake.waiting ++ [token]⟩ = flushed
        at hafter hanswer ⊢
      generalize Intake.flush grammar ⟨other.parse, other.waiting ++ [first]⟩ = otherFlushed
        at hafter hanswer ⊢
      obtain ⟨after, error | ⟨⟩⟩ := flushed <;> obtain ⟨otherAfter, fault | ⟨⟩⟩ := otherFlushed
      · exact ⟨hafter, hanswer⟩
      · cases hanswer
      · cases hanswer
      · exact ih hafter hothers
    · exact ih hnext hothers

end Intake

def SessionError.unlined (error : SessionError) : SessionError :=
  error.moved .unlined

namespace Session

variable {grammar : Grammar} {session other : Session}

/-- The sessions have the same settings and grammar, and the rest of what matters for further lines
is the same up to line numbers. -/
structure Alike (given : Grammar) (session other : Session) : Prop where
  settings : other.settings = session.settings
  grammar : session.draft.grammar? = .ok given
  otherGrammar : other.draft.grammar? = .ok given
  intake : Intake.Alike session.intake other.intake

theorem Alike.feedProgramLine (h : Alike grammar session other) (line : String) :
    ((feedProgramLine line).run.run other).1.mapError SessionError.unlined =
        ((feedProgramLine line).run.run session).1.mapError SessionError.unlined ∧
      Alike grammar ((feedProgramLine line).run.run session).2
        ((feedProgramLine line).run.run other).2 := by
  have htokens := unlinedTokens_tokenize line (session.sourceLine + 1) (other.sourceLine + 1)
  rcases hfound : tokenize line (session.sourceLine + 1) with error | tokens <;>
  rcases hother : tokenize line (other.sourceLine + 1) with fault | others <;>
  rw [hfound, hother] at htokens
  · rw [run_feedProgramLine_of_lexError h.grammar hfound,
      run_feedProgramLine_of_lexError h.otherGrammar hother]
    have herror := congrArg SessionError.lexical (Except.error.inj htokens)
    exact ⟨congrArg Except.error herror, ⟨h.settings, h.grammar, h.otherGrammar, h.intake⟩⟩
  · cases htokens
  · cases htokens
  · obtain ⟨hafter, hanswer⟩ := h.intake.take session.settings grammar (Except.ok.inj htokens)
    have hcomplete := Parse.isComplete_eq_of_unlined hafter.root
    have hmap : ∀ (result : Except ParseError Unit) (more : Bool),
        ((result.mapError SessionError.parse).map fun _ => more).mapError SessionError.unlined =
          ((result.mapError (ParseError.moved .unlined)).mapError SessionError.parse).map
            fun _ => more := by
      rintro (error | ⟨⟩) more <;> rfl
    rw [run_feedProgramLine h.grammar hfound, run_feedProgramLine h.otherGrammar hother,
      h.settings, hcomplete]
    refine ⟨?_, ⟨h.settings, h.grammar, h.otherGrammar, hafter⟩⟩
    rw [hmap, hmap, hanswer]

/-! ## Line after line -/

/-- Feeds lines of program text, whether they are refused or not, and keeps the answers. -/
def feedLines (session : Session) : List String → Session × List (Except SessionError Bool)
  | [] => (session, [])
  | line :: lines =>
    let (answer, next) := (feedProgramLine line).run.run session
    let (after, answers) := next.feedLines lines
    (after, answer :: answers)

/-- Whatever lines they are fed from now on, the sessions answer alike and build the same trees, up
to line numbers. -/
def GoesOnLike (session other : Session) : Prop :=
  ∀ lines, (session.feedLines lines).2.map (Except.mapError SessionError.unlined) =
      (other.feedLines lines).2.map (Except.mapError SessionError.unlined) ∧
    (session.feedLines lines).1.parse.root.map Tree.unlined =
      (other.feedLines lines).1.parse.root.map Tree.unlined

theorem Alike.goesOnLike (h : Alike grammar session other) : other.GoesOnLike session := by
  intro lines
  induction lines generalizing session other with
  | nil => exact ⟨rfl, h.intake.root⟩
  | cons line lines ih =>
    obtain ⟨hanswer, hnext⟩ := h.feedProgramLine line
    obtain ⟨hanswers, hroot⟩ := ih hnext
    exact ⟨congrArg₂ List.cons hanswer hanswers, hroot⟩

theorem feedLines_of_take (hgrammar : session.draft.grammar? = .ok grammar) {lines : List String}
    {tokens : List Token}
    (htokens : Cursor.tokensOfLines (session.sourceLine + 1) (lines.map String.toList) = .ok tokens)
    {taken : Intake}
    (htake : session.intake.take session.settings grammar tokens = (taken, .ok ())) :
    (∀ answer ∈ (session.feedLines lines).2, ∃ more, answer = .ok more) ∧
      (session.feedLines lines).1.settings = session.settings ∧
      (session.feedLines lines).1.draft.grammar? = .ok grammar ∧
      (session.feedLines lines).1.intake = taken := by
  induction lines generalizing session tokens with
  | nil =>
    obtain rfl : [] = tokens := Except.ok.inj htokens
    exact ⟨by simp [feedLines], rfl, hgrammar, congrArg Prod.fst htake⟩
  | cons line lines ih =>
    change (do
      let first ← tokenize line (session.sourceLine + 1)
      let others ← Cursor.tokensOfLines (session.sourceLine + 1 + 1) (lines.map String.toList)
      return first ++ others) = _ at htokens
    rcases hfirst : tokenize line (session.sourceLine + 1) with error | first
    · rw [hfirst] at htokens
      cases htokens
    rcases hothers : Cursor.tokensOfLines (session.sourceLine + 1 + 1) (lines.map String.toList)
      with error | others
    · rw [hfirst, hothers] at htokens
      cases htokens
    rw [hfirst, hothers] at htokens
    obtain rfl : first ++ others = tokens := Except.ok.inj htokens
    rw [Intake.take_append] at htake
    rw [feedLines, run_feedProgramLine hgrammar hfirst]
    rcases hnext : session.intake.take session.settings grammar first with ⟨next, failure | ⟨⟩⟩
    · rw [hnext] at htake
      cases htake
    rw [hnext] at htake
    obtain ⟨hanswers, hafter⟩ := @ih { session.withIntake next with
      sourceLine := session.sourceLine + 1
      program := none } hgrammar others hothers htake
    exact ⟨List.forall_mem_cons.mpr ⟨⟨_, rfl⟩, hanswers⟩, hafter⟩

/-! ## Recovering -/

/-- Another session, which has the tree of this one up to line numbers, is fed lines. With the tokens
that wait in it, their tokens are those of the statements, and no others. -/
structure Refeeds (given : Settings) (frozen : Grammar) (session : Session)
    (statements : List (List Token)) (start : Session) (lines : List String) : Prop where
  waits : Waits given start
  grammar : start.draft.grammar? = .ok frozen
  root : start.parse.root.map Tree.unlined = session.parse.root.map Tree.unlined
  tokens : ∃ fed, Cursor.tokensOfLines (start.sourceLine + 1) (lines.map String.toList) = .ok fed ∧
    (start.pending ++ fed).map Token.unlined = statements.flatten.map Token.unlined

/-- A session that is fed only statements that are accepted goes on like one that has the tree of
these statements and no token that waits. -/
theorem Refeeds.goesOnLike {settings : Settings} {statements : List (List Token)}
    {start : Session} {lines : List String}
    (h : Refeeds settings grammar session statements start lines) {taken : Intake}
    (htake : (⟨session.parse, []⟩ : Intake).take settings grammar statements.flatten =
      (taken, .ok ()))
    (hsettings : other.settings = settings) (hgrammar : other.draft.grammar? = .ok grammar)
    (hroot : other.parse.root = taken.parse.root) (hpending : other.pending = taken.waiting) :
    (∀ answer ∈ (start.feedLines lines).2, ∃ more, answer = .ok more) ∧
      other.GoesOnLike (start.feedLines lines).1 := by
  obtain ⟨hwaits, hstart, hroots, fed, hfed, hsame⟩ := h
  have hbefore : Intake.Alike ⟨session.parse, []⟩ ⟨start.parse, []⟩ := ⟨hroots, rfl⟩
  obtain ⟨hafter, hanswer⟩ := hbefore.take settings grammar hsame
  rw [htake] at hafter hanswer
  have hfeed : start.intake.take start.settings grammar fed =
      (⟨start.parse, []⟩ : Intake).take settings grammar (start.pending ++ fed) := by
    rw [hwaits.settings]
    exact Intake.take_waiting grammar hwaits.pending fed
  rcases hrefed : (⟨start.parse, []⟩ : Intake).take settings grammar (start.pending ++ fed)
    with ⟨refed, error | ⟨⟩⟩ <;> rw [hrefed] at hafter hanswer hfeed
  · cases hanswer
  obtain ⟨hanswers, hsettings', hgrammar', hintake⟩ := feedLines_of_take hstart hfed hfeed
  have halike : Alike grammar (start.feedLines lines).1 other := by
    refine ⟨?_, hgrammar', hgrammar, ?_⟩
    · rw [hsettings, hsettings', hwaits.settings]
    · rw [hintake]
      refine ⟨?_, ?_⟩
      · exact (congrArg (Option.map Tree.unlined) hroot).trans hafter.root.symm
      · exact (congrArg (List.map Token.unlined) hpending).trans hafter.waiting.symm
  exact ⟨hanswers, halike.goesOnLike⟩

/-- **Errors in program text lose only what they must.** If a line is not made of tokens, the tree,
the tokens that wait and the program stay. If a statement is rejected, the tree is that of the
statements before it, which end on the line; no token waits, and the program is dropped. From there
the session goes on like one that was fed those statements only. -/
theorem recovers_feedProgramLine {settings : Settings} {operations : List Operation} {line : String}
    {session after : Session} {error : SessionError}
    (hsession : performAll settings operations = session)
    (hline : (feedProgramLine line).run.run session = (.error error, after)) :
    (∀ fault, error = .lexical fault → after.parse = session.parse ∧
      after.pending = session.pending ∧ after.program = session.program) ∧
    ∀ fault, error = .parse fault → ∃ grammar tokens earlier rejected,
      session.draft.grammar? = .ok grammar ∧
      tokenize line (session.sourceLine + 1) = .ok tokens ∧
      session.parse.Rejects grammar (settings.statementsOf (session.pending ++ tokens)) earlier
        rejected fault ∧
      after.parse.root = (session.parse.feedAll grammar earlier).1.root ∧
      after.pending = [] ∧ after.program = none ∧
      ∀ start lines, Refeeds settings grammar session earlier start lines →
        (∀ answer ∈ (start.feedLines lines).2, ∃ more, answer = .ok more) ∧
          after.GoesOnLike (start.feedLines lines).1 := by
  have hwaits := waits_performAll settings operations
  rw [hsession] at hwaits
  rcases hgrammar : session.draft.grammar? with failure | grammar
  · rw [run_feedProgramLine_of_error hgrammar] at hline
    obtain ⟨herror, -⟩ := Prod.mk.inj hline
    obtain rfl := Except.error.inj herror
    exact ⟨fun fault h => (by cases h), fun fault h => (by cases h)⟩
  rcases htokens : tokenize line (session.sourceLine + 1) with failure | tokens
  · rw [run_feedProgramLine_of_lexError hgrammar htokens] at hline
    obtain ⟨herror, rfl⟩ := Prod.mk.inj hline
    obtain rfl := Except.error.inj herror
    exact ⟨fun fault h => ⟨rfl, rfl, rfl⟩, fun fault h => (by cases h)⟩
  rw [run_feedProgramLine hgrammar htokens, hwaits.settings] at hline
  obtain ⟨hanswer, rfl⟩ := Prod.mk.inj hline
  rcases hresult : (session.intake.take settings grammar tokens).2 with failure | ⟨⟩
  · rw [hresult] at hanswer
    obtain rfl := Except.error.inj hanswer
    refine ⟨fun fault h => (by cases h), fun fault h => ?_⟩
    obtain rfl : failure = fault := SessionError.parse.inj h
    obtain ⟨earlier, rejected, hrejects, hafter, htake⟩ :=
      Intake.exists_of_take_error hwaits.pending hresult
    have hroot : (session.intake.take settings grammar tokens).1.parse.root =
        (session.parse.feedAll grammar earlier).1.root := by
      rw [hafter]
      exact Parse.root_feed_of_error hrejects.refused
    have hpending : (session.intake.take settings grammar tokens).1.waiting = [] :=
      congrArg Intake.waiting hafter
    refine ⟨grammar, tokens, earlier, rejected, rfl, rfl, hrejects, hroot, hpending, rfl, ?_⟩
    exact fun start lines hstart =>
      hstart.goesOnLike htake hwaits.settings hgrammar hroot hpending
  · rw [hresult] at hanswer
    cases hanswer

def printWaits (draft : Draft) (line : Nat) : Session :=
  { ofSettings {} with
    draft
    pending := [⟨.word "print", ⟨line, 0⟩⟩]
    sourceLine := line }

theorem performAll_printWaits :
    performAll {} [.loadGrammar printListsText, .feedProgramLine "print"] =
      printWaits (({} : Draft).feedText printListsText).1 1 := by
  have hloaded : perform (ofSettings {}) (.loadGrammar printListsText) =
      { ofSettings {} with draft := (({} : Draft).feedText printListsText).1 } :=
    congrArg Prod.snd (run_loadGrammar _ _)
  have hfed : ∀ draft : Draft, draft.grammar? = .ok printLists →
      perform { ofSettings {} with draft } (.feedProgramLine "print") = printWaits draft 1 := by
    intro draft hgrammar
    have htokens : tokenize "print" (0 + 1) = .ok [⟨.word "print", ⟨1, 0⟩⟩] := by decide +kernel
    have hline := @run_feedProgramLine { ofSettings {} with draft } _ _ _ hgrammar htokens
    exact congrArg Prod.snd hline
  unfold performAll
  rw [List.foldl_cons, hloaded, List.foldl_cons, hfed _ grammar?_printLists, List.foldl_nil]

def printRest : List Token :=
  [⟨.integer 1, ⟨2, 0⟩⟩, ⟨.mark ";", ⟨2, 1⟩⟩, ⟨.integer 2, ⟨2, 2⟩⟩, ⟨.mark ";", ⟨2, 3⟩⟩,
    ⟨.word "print", ⟨2, 4⟩⟩, ⟨.integer 3, ⟨2, 10⟩⟩]

theorem take_printRest :
    (Intake.take {} printLists ⟨{}, [⟨.word "print", ⟨1, 0⟩⟩]⟩ printRest).2 =
      .error (.noMatch ⟨.integer 2, ⟨2, 2⟩⟩) := by
  cbv

def printOne : List Token :=
  ⟨.word "print", ⟨1, 0⟩⟩ :: printRest.take 2

theorem statementsOf_printRest :
    Settings.statementsOf {} (⟨.word "print", ⟨1, 0⟩⟩ :: printRest) =
      [printOne, [⟨.integer 2, ⟨2, 2⟩⟩, ⟨.mark ";", ⟨2, 3⟩⟩]] := by
  cbv

theorem feed_printOne : (({} : Parse).feed printLists printOne).2 = .ok true := by
  cbv

/-- The second statement of the line is rejected, and what is behind it is dropped. A session goes on
alike in which there have been two more lines. -/
theorem recovers_feedProgramLine_print : ∃ session after,
    performAll {} [.loadGrammar printListsText, .feedProgramLine "print"] = session ∧
    (feedProgramLine "1;2;print 3").run.run session =
      (.error (.parse (.noMatch ⟨.integer 2, ⟨2, 2⟩⟩)), after) ∧
    after.pending = [] ∧
    ∃ start, Refeeds {} printLists session [printOne] start ["", "1;"] ∧
      (∀ answer ∈ (start.feedLines ["", "1;"]).2, ∃ more, answer = .ok more) ∧
      after.GoesOnLike (start.feedLines ["", "1;"]).1 := by
  have hsession := performAll_printWaits
  have hgrammar := grammar?_printLists
  generalize (({} : Draft).feedText printListsText).1 = draft at hsession hgrammar
  have htokens : tokenize "1;2;print 3" (1 + 1) = .ok printRest := by decide +kernel
  have hline := @run_feedProgramLine (printWaits draft 1) _ _ _ hgrammar htokens
  have htake : ((printWaits draft 1).intake.take (printWaits draft 1).settings printLists
      printRest).2 = .error (.noMatch ⟨.integer 2, ⟨2, 2⟩⟩) := take_printRest
  rw [htake] at hline
  obtain ⟨grammar, tokens, earlier, rejected, hfrozen, hread, hrejects, -, hpending, -, hgoes⟩ :=
    (recovers_feedProgramLine hsession hline).2 _ rfl
  obtain rfl : printLists = grammar := Except.ok.inj (hgrammar.symm.trans hfrozen)
  obtain rfl : printRest = tokens := Except.ok.inj (htokens.symm.trans hread)
  obtain ⟨⟨later, hbefore⟩, -, hrefused⟩ := hrejects
  have hstatements := statementsOf_printRest.symm.trans hbefore
  obtain rfl : earlier = [printOne] := by
    rcases earlier with - | ⟨first, - | ⟨second, earlier⟩⟩
    · obtain ⟨rfl, -⟩ := List.cons.inj hstatements
      cases feed_printOne.symm.trans hrefused
    · rw [(List.cons.inj hstatements).1]
    · simp at hstatements
  have hrefeeds : Refeeds {} printLists (printWaits draft 1) [printOne] (printWaits draft 2)
      ["", "1;"] := by
    have hfed : Cursor.tokensOfLines 3 (["", "1;"].map String.toList) =
        .ok [⟨.integer 1, ⟨4, 0⟩⟩, ⟨.mark ";", ⟨4, 1⟩⟩] := by decide +kernel
    exact ⟨⟨rfl, List.forall_mem_singleton.mpr rfl⟩, hgrammar, rfl, _, hfed, rfl⟩
  exact ⟨printWaits draft 1, _, hsession, hline, hpending, printWaits draft 2, hrefeeds,
    hgoes _ _ hrefeeds⟩

end Session

end LineGrammar
