import LineGrammar.Token.Lexer

/-!
# Tokens of program text

A word that is read from a text starts as words do and goes on as they do, so that no word looks
like another token.
-/

namespace LineGrammar

/-- Does the text start as words do, and go on as they do? -/
def Lexeme.isWord : List Char → Bool
  | [] => false
  | first :: rest => startsWord first && rest.all continuesWord

def Lexeme.isLexical : Lexeme → Bool
  | word text => isWord text.toList
  | _ => true

/-- Can the token be read in program text? Its words are words there. -/
def Token.IsLexical (token : Token) : Prop :=
  token.lexeme.isLexical

instance (token : Token) : Decidable token.IsLexical :=
  inferInstanceAs (Decidable (token.lexeme.isLexical = true))

theorem Token.IsLexical.not_mem {token : Token} (h : token.IsLexical) {text : String}
    (hlexeme : token.lexeme = .word text) {c : Char} (hc : Lexeme.continuesWord c = false) :
    c ∉ text.toList := by
  have hword : Lexeme.isWord text.toList := by
    unfold IsLexical at h
    rwa [hlexeme] at h
  cases htext : text.toList with
  | nil => exact List.not_mem_nil
  | cons first rest =>
    rw [htext, Lexeme.isWord, Bool.and_eq_true] at hword
    have hstarts : Lexeme.continuesWord first := by
      have hfirst := hword.1
      unfold Lexeme.startsWord at hfirst
      unfold Lexeme.continuesWord
      rw [Bool.or_eq_true] at hfirst ⊢
      exact hfirst.imp (fun h => by rw [h]; rfl) id
    intro hmem
    rcases List.mem_cons.mp hmem with rfl | hmem
    · rw [hc] at hstarts
      exact absurd hstarts (by simp)
    · have hcontinues := List.all_eq_true.mp hword.2 c hmem
      rw [hc] at hcontinues
      exact absurd hcontinues (by simp)

end LineGrammar
