import LineGrammar.Proofs.Token.Lines

/-!
# Places of tokens

What a token is does not depend on where it stands. Where a text is read from another line on, its
tokens and its error are the same up to line numbers (`unlinedTokens_tokenize`).
-/

namespace LineGrammar

def Token.moved (move : Place → Place) (token : Token) : Token :=
  { token with place := move token.place }

def LexError.moved (move : Place → Place) : LexError → LexError
  | unexpectedCharacter character place => unexpectedCharacter character (move place)
  | invalidNumber literal place => invalidNumber literal (move place)
  | unterminatedQuotation place => unterminatedQuotation (move place)

/-- The place in the same column of the first line. -/
def Place.unlined (place : Place) : Place :=
  ⟨1, place.column⟩

def Token.unlined (token : Token) : Token :=
  token.moved .unlined

/-! ## Other line numbers -/

/-- The tokens of a text, or its error, up to line numbers. -/
def unlinedTokens (found : Except LexError (List Token)) : Except LexError (List Token) :=
  (found.map (List.map Token.unlined)).mapError (LexError.moved .unlined)

theorem unlinedTokens_cons (token : Token) (found : Except LexError (List Token)) :
    unlinedTokens (do let rest ← found; return token :: rest) =
      (unlinedTokens found).map (token.unlined :: ·) := by
  cases found <;> rfl

theorem Place.column_after {place other : Place} (h : other.column = place.column)
    (text : List Char) : (other.after text).column = (place.after text).column := by
  induction text generalizing place other with
  | nil => exact h
  | cons c text ih =>
    refine ih ?_
    unfold step
    split
    · rfl
    · exact congrArg (· + 1) h

theorem Place.unlined_eq {place other : Place} (h : other.column = place.column) :
    other.unlined = place.unlined := by
  rw [unlined, unlined, h]

namespace Cursor

/-- The same text is left, from the same column on. -/
structure Level (cursor other : Cursor) : Prop where
  rest : other.rest = cursor.rest
  column : other.place.column = cursor.place.column

variable {cursor other : Cursor}

theorem Level.advance (h : Level cursor other) (n : Nat) :
    Level (cursor.advance n) (other.advance n) where
  rest := congrArg (List.drop n) h.rest
  column := by
    unfold Cursor.advance
    rw [h.rest]
    exact Place.column_after h.column _

theorem Level.skipTrivia (h : Level cursor other) : Level cursor.skipTrivia other.skipTrivia := by
  unfold Cursor.skipTrivia
  rw [h.rest]
  exact h.advance _

theorem Level.next_cases (h : Level cursor other) :
    (∃ after otherAfter error otherError, cursor.next = (after, .error error) ∧
        other.next = (otherAfter, .error otherError) ∧
        otherError.moved .unlined = error.moved .unlined) ∨
      (∃ after otherAfter, cursor.next = (after, .ok none) ∧ other.next = (otherAfter, .ok none)) ∨
      ∃ after otherAfter token otherToken, cursor.next = (after, .ok (some token)) ∧
        other.next = (otherAfter, .ok (some otherToken)) ∧
        otherToken.unlined = token.unlined ∧ Level after otherAfter := by
  have hskip := h.skipTrivia
  have hplace := Place.unlined_eq hskip.column
  unfold Cursor.next
  dsimp only
  rw [hskip.rest]
  rcases cursor.skipTrivia.rest with - | ⟨c, text⟩
  · exact .inr (.inl ⟨_, _, rfl, rfl⟩)
  dsimp only
  rcases Lexeme.scan c text with ⟨length, fault | lexeme⟩
  · refine .inl ⟨_, _, _, _, rfl, rfl, ?_⟩
    cases fault <;> simp [Lexeme.Fault.locate, LexError.moved, hplace]
  · have htoken := congrArg (Token.mk lexeme) hplace
    exact .inr (.inr ⟨_, _, _, _, rfl, rfl, htoken, hskip.advance length⟩)

theorem Level.tokens {cursor other : Cursor} (h : Level cursor other) :
    unlinedTokens other.tokens = unlinedTokens cursor.tokens := by
  rw [tokens_eq cursor, tokens_eq other]
  rcases h.next_cases with ⟨after, otherAfter, error, otherError, hnext, hother, herror⟩ |
    ⟨after, otherAfter, hnext, hother⟩ |
    ⟨after, otherAfter, token, otherToken, hnext, hother, htoken, hafter⟩
  · rw [hnext, hother]
    exact congrArg Except.error herror
  · rw [hnext, hother]
  · have hshorter := length_next_lt hnext
    rw [hnext, hother]
    dsimp only
    rw [unlinedTokens_cons, unlinedTokens_cons, htoken, hafter.tokens]
termination_by cursor.rest.length

end Cursor

theorem unlinedTokens_tokenize (line : String) (number other : Nat) :
    unlinedTokens (tokenize line other) = unlinedTokens (tokenize line number) :=
  Cursor.Level.tokens ⟨rfl, rfl⟩

end LineGrammar
