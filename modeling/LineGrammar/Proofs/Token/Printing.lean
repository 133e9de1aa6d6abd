import LineGrammar.Proofs.Token.Pieces

/-!
# Tokens that are written and read again

The text of a token spells it, unless it is a real number (`spelled_text`). A blank ends each token,
and no comment starts where a token is followed by a blank. So tokens that are written with blanks
between them are read again as they were (`lexemes_tokenize_texts`).
-/

namespace LineGrammar

namespace Lexeme

/-! ## What is written -/

/-- A token's own text is a spelling of it. Real numbers are left out: a whole one is written as an
integer is. -/
theorem spelled_text {lexeme : Lexeme} {spelling : List Char} (h : lexeme.Spelled spelling)
    (hreal : ∀ value, lexeme ≠ real value) : lexeme.Spelled lexeme.text.toList := by
  cases h with
  | word hword =>
    rw [text, String.toList_ofList]
    exact .word hword
  | @integer digits value hdigits hvalue =>
    rw [text, hvalue, Number.intText_ofNat, String.toList_ofList]
    refine .integer (Number.isDigits_natText _) ?_
    rw [Number.ofDigits_natText, hvalue]
  | real => exact absurd rfl (hreal _)
  | @quoted body hbody =>
    have htext : (quoted (String.ofList body)).text.toList = '"' :: (body ++ ['"']) := by
      simp [text]
    rw [htext]
    exact .quoted hbody
  | single hc =>
    rw [text, String.toList_ofList]
    exact .single hc
  | double hmark =>
    rw [text, String.toList_ofList]
    exact .double hmark

/-! ## What stands between -/

theorem endsBefore_nil (lexeme : Lexeme) : lexeme.EndsBefore [] := by
  cases lexeme <;> simp [EndsBefore, fractionDigits]

theorem endsBefore_space (lexeme : Lexeme) (text : List Char) :
    lexeme.EndsBefore (' ' :: text) := by
  have hdigit : (' ' :: text).takeWhile Char.isDigit = [] := rfl
  cases lexeme with
  | word => exact List.takeWhile_cons_of_neg (by decide +kernel)
  | integer => exact ⟨hdigit, rfl⟩
  | real => exact hdigit
  | quoted => trivial
  | mark =>
    intro c d _ hd
    obtain rfl : ' ' = d := Option.some.inj hd
    simp [doubleMarks]

theorem not_isBlank_of_startsWord {c : Char} (h : startsWord c = true) :
    ¬Text.isBlank c = true := by
  intro hblank
  have hnumbers : ∀ n ∈ List.range' 0x9 5 ++ [0x20, 0x85, 0xA0, 0x1680] ++ List.range' 0x2000 11 ++
      [0x2028, 0x2029, 0x202F, 0x205F, 0x3000],
      Text.inRanges n Text.alphabeticRanges = false ∧ n ≠ '_'.toNat := by decide +kernel
  obtain ⟨hletter, hline⟩ := hnumbers c.toNat (by
    simp [Text.isBlank] at hblank ⊢
    omega)
  have hfirst : Text.isLetter c = true ∨ c = '_' := by simpa [startsWord] using h
  rcases hfirst with hfirst | rfl
  · exact absurd hfirst (by simp [Text.isLetter, hletter])
  · exact hline rfl

theorem not_startsGap_cons {c : Char} (hblank : ¬Text.isBlank c = true) (hslash : c ≠ '/')
    (text : List Char) : ¬StartsGap (c :: text) :=
  not_or.mpr ⟨hblank, fun h => hslash h.1⟩

theorem not_startsGap_digits {digits : List Char} (h : Number.IsDigits digits)
    (rest : List Char) : ¬StartsGap (digits ++ rest) := by
  obtain ⟨first, others, rfl⟩ := List.exists_cons_of_ne_nil h.1
  have hfirst := h.2 first List.mem_cons_self
  refine not_startsGap_cons (Text.not_isBlank_of_isDigit hfirst) ?_ _
  rintro rfl
  exact absurd hfirst (by decide)

/-- Where a token is spelled no gap starts, unless a slash behind it makes it a comment. -/
theorem not_startsGap_of_spelled {lexeme : Lexeme} {spelling rest : List Char}
    (h : lexeme.Spelled spelling) (hrest : rest.head? ≠ some '/') :
    ¬StartsGap (spelling ++ rest) := by
  cases h with
  | word hword =>
    obtain ⟨first, others, rfl⟩ := List.exists_cons_of_ne_nil (Spelled.word hword).ne_nil
    rw [isWord, Bool.and_eq_true] at hword
    refine not_startsGap_cons (not_isBlank_of_startsWord hword.1) ?_ _
    rintro rfl
    exact absurd hword.1 (by decide +kernel)
  | integer hdigits => exact not_startsGap_digits hdigits rest
  | real hwhole =>
    rw [List.append_assoc]
    exact not_startsGap_digits hwhole _
  | quoted => exact not_startsGap_cons (by decide) (by decide) _
  | single hc =>
    have hblank : ∀ c ∈ singleMarks, (!Text.isBlank c) = true := List.all_eq_true.mp (by decide)
    exact not_or.mpr ⟨by simpa using hblank _ hc, fun h => hrest h.2⟩
  | double hmark =>
    have hfirst : ∀ pair ∈ doubleMarks, ¬Text.isBlank pair.1 = true ∧ pair.1 ≠ '/' := by decide
    exact not_startsGap_cons (hfirst _ hmark).1 (hfirst _ hmark).2 _

end Lexeme

namespace Cursor

/-! ## Reading it again -/

theorem next_of_spelled {lexeme : Lexeme} {spelling rest : List Char}
    (hspelled : lexeme.Spelled spelling) (hends : lexeme.EndsBefore rest)
    (hrest : rest.head? ≠ some '/') (place : Place) :
    (⟨spelling ++ rest, place⟩ : Cursor).next =
      (⟨rest, place.after spelling⟩, .ok (some ⟨lexeme, place⟩)) := by
  have hgap := Lexeme.not_startsGap_of_spelled hspelled hrest
  obtain ⟨c, others, rfl⟩ := List.exists_cons_of_ne_nil hspelled.ne_nil
  unfold next
  rw [skipTrivia_of_not_startsGap hgap, List.cons_append]
  dsimp only
  rw [Lexeme.scan_of_spelled hspelled hends List.cons_append.symm]
  simp [advance]

theorem next_blank {c : Char} (hc : Text.isBlank c = true) (text : List Char) (place : Place) :
    (⟨c :: text, place⟩ : Cursor).next = (⟨text, place.step c⟩ : Cursor).next := by
  have hskip : (⟨c :: text, place⟩ : Cursor).skipTrivia =
      (⟨text, place.step c⟩ : Cursor).skipTrivia := by
    unfold skipTrivia
    rw [Lexeme.triviaLength_blank hc]
    rfl
  unfold next
  rw [hskip]

def printed (lexemes : List Lexeme) : List Char :=
  [' '].intercalate (lexemes.map fun lexeme => lexeme.text.toList)

theorem exists_printed_cons (lexeme : Lexeme) (lexemes : List Lexeme) :
    ∃ rest, printed (lexeme :: lexemes) = lexeme.text.toList ++ rest ∧
      lexeme.EndsBefore rest ∧ rest.head? ≠ some '/' ∧
      ∀ place, ∃ start,
        (⟨rest, place⟩ : Cursor).next = (⟨printed lexemes, start⟩ : Cursor).next := by
  cases lexemes with
  | nil =>
    refine ⟨[], ?_, lexeme.endsBefore_nil, by simp, fun place => ⟨place, rfl⟩⟩
    simp [printed]
  | cons next lexemes =>
    refine ⟨' ' :: printed (next :: lexemes), ?_, lexeme.endsBefore_space _, by simp,
      fun place => ⟨place.step ' ', next_blank (by decide) _ place⟩⟩
    simp [printed]

theorem exists_tokens_printed {lexemes : List Lexeme}
    (h : ∀ lexeme ∈ lexemes, lexeme.Spelled lexeme.text.toList) (place : Place) :
    ∃ tokens, (⟨printed lexemes, place⟩ : Cursor).tokens = .ok tokens ∧
      tokens.map Token.lexeme = lexemes := by
  induction lexemes generalizing place with
  | nil =>
    refine ⟨[], ?_, rfl⟩
    rw [tokens_eq]
    rfl
  | cons lexeme lexemes ih =>
    obtain ⟨hspelled, hrest⟩ := List.forall_mem_cons.mp h
    obtain ⟨rest, htext, hends, hhead, hnext⟩ := exists_printed_cons lexeme lexemes
    obtain ⟨start, hstart⟩ := hnext (place.after lexeme.text.toList)
    obtain ⟨tokens, htokens, hlexemes⟩ := ih hrest start
    refine ⟨⟨lexeme, place⟩ :: tokens, ?_, by simp [hlexemes]⟩
    rw [htext, tokens_eq, next_of_spelled hspelled hends hhead]
    dsimp only
    rw [tokens_eq, hstart, ← tokens_eq, htokens]
    rfl

end Cursor

/-- **Tokens that are written are read again.** The tokens of a text, if none of them is a real
number, are written with single blanks between them, and what is read then are these tokens. -/
theorem lexemes_tokenize_texts {text : String} {number : Nat} {tokens : List Token}
    (h : tokenize text number = .ok tokens)
    (hreal : ∀ token ∈ tokens, ∀ value, token.lexeme ≠ .real value) (other : Nat) :
    ∃ again, tokenize (" ".intercalate (tokens.map Token.text)) other = .ok again ∧
      again.map Token.lexeme = tokens.map Token.lexeme := by
  obtain ⟨pieces, last, hcut, rfl⟩ := Cursor.exists_pieces h
  have hspelled : ∀ lexeme ∈ (pieces.map Piece.token).map Token.lexeme,
      lexeme.Spelled lexeme.text.toList := by
    intro lexeme hlexeme
    obtain ⟨token, htoken, rfl⟩ := List.mem_map.mp hlexeme
    obtain ⟨piece, hpiece, rfl⟩ := List.mem_map.mp htoken
    exact Lexeme.spelled_text (hcut.spelled piece hpiece) (hreal _ htoken)
  have hprinted : (" ".intercalate ((pieces.map Piece.token).map Token.text)).toList =
      Cursor.printed ((pieces.map Piece.token).map Token.lexeme) := by
    rw [String.toList_intercalate]
    unfold Cursor.printed
    simp only [List.map_map]
    rfl
  unfold tokenize Cursor.ofText
  rw [hprinted]
  exact Cursor.exists_tokens_printed hspelled _

/-- Slashes that would be a comment side by side, the largest number, and zeros that are not written
again. -/
def spacedSlashes : String :=
  "007 / /\"a // b\"é_1<\r\n=9223372036854775807"

def slashTokens : List Token :=
  [⟨.integer 7, ⟨1, 0⟩⟩, ⟨.mark "/", ⟨1, 4⟩⟩, ⟨.mark "/", ⟨1, 6⟩⟩, ⟨.quoted "a // b", ⟨1, 7⟩⟩,
    ⟨.word "é_1", ⟨1, 15⟩⟩, ⟨.mark "<", ⟨1, 18⟩⟩, ⟨.mark "=", ⟨2, 0⟩⟩,
    ⟨.integer 9223372036854775807, ⟨2, 1⟩⟩]

theorem lexemes_tokenize_texts_spacedSlashes :
    tokenize spacedSlashes 1 = .ok slashTokens ∧
      (∀ token ∈ slashTokens, ∀ value, token.lexeme ≠ .real value) ∧
      ∃ again, tokenize (" ".intercalate (slashTokens.map Token.text)) 1 = .ok again ∧
        again.map Token.lexeme = slashTokens.map Token.lexeme := by
  have htokens : tokenize spacedSlashes 1 = .ok slashTokens := by decide +kernel
  have hreal : ∀ token ∈ slashTokens, ∀ value, token.lexeme ≠ .real value := by
    simp [slashTokens]
  exact ⟨htokens, hreal, lexemes_tokenize_texts htokens hreal 1⟩

end LineGrammar
