import LineGrammar.Session
import LineGrammar.Proofs.Declaration.Touring
import LineGrammar.Proofs.Grammar.Reading
import LineGrammar.Proofs.Text.Lines

/-!
# Actions of sessions

What an action of a session answers and what session it leaves, read off its steps one after the
other.
-/

namespace LineGrammar.Session

open Draft (wordsOf)

variable {session : Session} {root : Tree}

theorem run_get_bind {α : Type} (next : Session → SessionAction α) (session : Session) :
    (get >>= next).run.run session = (next session).run.run session := rfl

theorem run_set_bind {α : Type} (next : PUnit → SessionAction α) (session after : Session) :
    (set after >>= next).run.run session = (next ⟨⟩).run.run after := rfl

theorem run_modify_bind {α : Type} (change : Session → Session) (next : PUnit → SessionAction α)
    (session : Session) :
    (modify change >>= next).run.run session = (next ⟨⟩).run.run (change session) := rfl

theorem run_lift {ε α : Type} (wrap : ε → SessionError) (result : Except ε α) (session : Session) :
    (lift wrap result).run.run session = (result.mapError wrap, session) := by
  cases result <;> rfl

theorem run_grammar (session : Session) :
    grammar.run.run session = (session.draft.grammar?.mapError SessionError.grammar, session) :=
  run_lift _ _ _

/-! ## Grammar text -/

theorem run_feedGrammarLine (line : String) (session : Session) :
    (feedGrammarLine line).run.run session =
      ((session.draft.feedText line).2.mapError SessionError.grammar,
        { session with draft := (session.draft.feedText line).1 }) := by
  unfold feedGrammarLine
  rw [run_get_bind]
  exact run_lift _ _ _

theorem flatMap_wordsOf_linesOf (text : String) :
    (Session.linesOf text).flatMap wordsOf = wordsOf text := by
  unfold Session.linesOf wordsOf
  rw [← Text.flatMap_words_lines, List.flatMap_map, List.map_flatMap]
  simp only [String.toList_ofList]

theorem run_feedGrammarLines (lines : List String) (session : Session) :
    (lines.forM feedGrammarLine).run.run session =
      ((session.draft.feedWords (lines.flatMap wordsOf)).2.mapError SessionError.grammar,
        { session with draft := (session.draft.feedWords (lines.flatMap wordsOf)).1 }) := by
  induction lines generalizing session with
  | nil => rfl
  | cons line lines ih =>
    rw [List.forM, run_run_bind, run_feedGrammarLine, List.flatMap_cons,
      Draft.feedWords_append_eq, Draft.feedText]
    rcases session.draft.feedWords (wordsOf line) with ⟨next, error | ⟨⟩⟩
    · rfl
    · exact ih _

theorem run_loadGrammar (text : String) (session : Session) :
    (loadGrammar text).run.run session =
      ((session.draft.feedText text).2.mapError SessionError.grammar,
        { session with draft := (session.draft.feedText text).1 }) := by
  unfold loadGrammar Draft.feedText
  rw [run_feedGrammarLines, flatMap_wordsOf_linesOf]

/-! ## Declaring -/

theorem run_tree (hroot : session.parse.root = some root) :
    tree.run.run session = (.ok root, session) := by
  unfold tree
  rw [run_get_bind, hroot]
  rfl

theorem run_declare (hroot : session.parse.root = some root) :
    declare.run.run session =
      ((DeclarationWalk.atRoot.run session.settings root 0 {}).2.mapError SessionError.declaration,
        { session with
          store := (DeclarationWalk.atRoot.run session.settings root 0 {}).1
          walk := DeclarationWalk.atRoot.ended session.settings root {} }) := by
  unfold declare
  rw [run_run_bind, run_tree hroot]
  exact run_lift _ _ _

end LineGrammar.Session
