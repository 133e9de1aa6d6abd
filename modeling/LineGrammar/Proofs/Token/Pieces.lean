import LineGrammar.Proofs.Token.Lines
import Mathlib.Data.List.Induction

/-!
# Texts piece by piece

Between the tokens of a text there are only blanks and comments (`IsGap`). Reading a token passes
over the gap in front of it and over its spelling (`exists_answers`). So a text is cut into pieces,
each of which is a gap and the spelling of one token, and what is left behind the last token is a
gap; and a token stands in the line and in the column that the text before it makes
(`exists_pieces_of_tokenize`).
-/

namespace LineGrammar

/-! ## Gaps -/

namespace Lexeme

/-- Blanks and comments. A comment takes the end of its line; only the last gap of a text may end
inside one. -/
inductive IsGap : (last : Bool) → List Char → Prop
  | nil {last : Bool} : IsGap last []
  | blank {last : Bool} {c : Char} {text : List Char} (hc : Text.isBlank c = true)
    (htext : IsGap last text) : IsGap last (c :: text)
  | comment {last : Bool} {body text : List Char} (hbody : '\n' ∉ body) (htext : IsGap last text) :
    IsGap last ('/' :: '/' :: (body ++ '\n' :: text))
  | unended {body : List Char} (hbody : '\n' ∉ body) : IsGap true ('/' :: '/' :: body)

/-- Does the text start with a blank or a comment? -/
def StartsGap : List Char → Prop
  | [] => False
  | c :: text => Text.isBlank c = true ∨ c = '/' ∧ text.head? = some '/'

theorem triviaLength_of_not_startsGap {text : List Char} (h : ¬StartsGap text) :
    triviaLength false text = 0 := by
  cases text with
  | nil => rfl
  | cons c text =>
    obtain ⟨hblank, hcomment⟩ := not_or.mp h
    rw [triviaLength_outside, if_neg hblank]
    rintro others rfl rfl
    exact hcomment ⟨rfl, rfl⟩

theorem triviaLength_unended {body : List Char} (hbody : '\n' ∉ body) :
    triviaLength true body = body.length := by
  induction body with
  | nil => rfl
  | cons c body ih =>
    obtain ⟨hc, hrest⟩ := not_or.mp (mt List.mem_cons.mpr hbody)
    have hinside : (c != '\n') = true := by simpa using Ne.symm hc
    rw [triviaLength_inside, hinside, ih hrest, List.length_cons]

theorem triviaLength_line {body : List Char} (hbody : '\n' ∉ body) (rest : List Char) :
    triviaLength true (body ++ '\n' :: rest) = body.length + (triviaLength false rest + 1) := by
  induction body with
  | nil => exact (Nat.zero_add _).symm
  | cons c body ih =>
    obtain ⟨hc, hrest⟩ := not_or.mp (mt List.mem_cons.mpr hbody)
    have hinside : (c != '\n') = true := by simpa using Ne.symm hc
    rw [List.cons_append, triviaLength_inside, hinside, ih hrest, List.length_cons]
    omega

theorem exists_gap (text : List Char) :
    ∃ gap rest, text = gap ++ rest ∧ triviaLength false text = gap.length ∧
      IsGap rest.isEmpty gap ∧ ¬StartsGap rest := by
  match text with
  | [] => exact ⟨[], [], rfl, rfl, .nil, id⟩
  | c :: text =>
    by_cases hblank : Text.isBlank c = true
    · obtain ⟨gap, rest, rfl, hlength, hgap, hrest⟩ := exists_gap text
      refine ⟨c :: gap, rest, rfl, ?_, .blank hblank hgap, hrest⟩
      rw [triviaLength_blank hblank, hlength, List.length_cons]
    by_cases hcomment : c = '/' ∧ text.head? = some '/'
    · obtain ⟨rfl, hhead⟩ := hcomment
      obtain ⟨others, rfl⟩ := List.head?_eq_some_iff.mp hhead
      obtain ⟨body, behind, rfl, hall, hbehind⟩ := exists_stretch (· != '\n') others
      have hbody : '\n' ∉ body := fun hmem => absurd (hall _ hmem) (by decide)
      cases behind with
      | nil =>
        refine ⟨'/' :: '/' :: body, [], by simp, ?_, .unended hbody, id⟩
        rw [triviaLength_comment, List.append_nil, triviaLength_unended hbody]
        rfl
      | cons d behind =>
        obtain rfl : d = '\n' := by
          by_contra hd
          rw [List.takeWhile_cons_of_pos (by simpa using hd)] at hbehind
          cases hbehind
        obtain ⟨gap, rest, rfl, hlength, hgap, hrest⟩ := exists_gap behind
        refine ⟨'/' :: '/' :: (body ++ '\n' :: gap), rest, by simp, ?_, .comment hbody hgap, hrest⟩
        rw [triviaLength_comment, triviaLength_line hbody, hlength]
        simp only [List.length_cons, List.length_append]
    · have hnone : ¬StartsGap (c :: text) := not_or.mpr ⟨hblank, hcomment⟩
      exact ⟨[], c :: text, rfl, triviaLength_of_not_startsGap hnone, .nil, hnone⟩
termination_by text.length
decreasing_by
  · exact Nat.lt_succ_self _
  · subst_vars
    simp only [List.length_cons, List.length_append]
    omega

end Lexeme

/-! ## Places -/

/-- The place behind a text that starts a line: as many lines further on as there are line ends in
the text, and as many characters as there are behind the last of them. -/
def Place.behind (number : Nat) (text : List Char) : Place :=
  ⟨number + text.count '\n', (text.reverse.takeWhile (· != '\n')).length⟩

theorem Place.after_eq_behind (number : Nat) (text : List Char) :
    (⟨number, 0⟩ : Place).after text = behind number text := by
  induction text using List.reverseRecOn with
  | nil => rfl
  | append_singleton text c ih =>
    rw [after_append, ih]
    unfold behind
    rw [List.count_append, List.reverse_append]
    show step _ c = _
    unfold step
    by_cases hc : c = '\n'
    · subst hc
      rw [if_pos rfl]
      rfl
    · rw [if_neg hc, List.count_singleton, List.reverse_singleton, List.singleton_append,
        List.takeWhile_cons_of_pos (by simpa using hc)]
      simp [hc]

namespace Cursor

/-! ## One token -/

/-- What reading the next token can answer, from this place on, by the characters that it passes
over and those that it leaves. -/
inductive Answers (place : Place) :
    List Char → List Char → Except LexError (Option Token) → Prop
  | finished {gap : List Char} (hgap : Lexeme.IsGap true gap) : Answers place gap [] (.ok none)
  | token {gap spelling rest : List Char} {lexeme : Lexeme} (hgap : Lexeme.IsGap false gap)
    (hspelled : lexeme.Spelled spelling) (hends : lexeme.EndsBefore rest) :
    Answers place (gap ++ spelling) rest (.ok (some ⟨lexeme, place.after gap⟩))
  | fault {gap taken rest : List Char} {fault : Lexeme.Fault} (hgap : Lexeme.IsGap false gap)
    (hscans : Lexeme.Scans taken rest (.error fault)) :
    Answers place (gap ++ taken) rest (.error (fault.locate (place.after gap)))

/-- The cursor has moved from one place to another past these characters. -/
structure Passes (cursor after : Cursor) (passed : List Char) : Prop where
  rest : cursor.rest = passed ++ after.rest
  place : after.place = cursor.place.after passed

theorem passes_advance {cursor : Cursor} {passed rest : List Char}
    (h : cursor.rest = passed ++ rest) : cursor.Passes (cursor.advance passed.length) passed where
  rest := by simp [advance, h]
  place := by simp [advance, h]

theorem Passes.trans {cursor middle after : Cursor} {passed others : List Char}
    (h : cursor.Passes middle passed) (hnext : middle.Passes after others) :
    cursor.Passes after (passed ++ others) where
  rest := by rw [h.rest, hnext.rest, List.append_assoc]
  place := by rw [hnext.place, h.place, Place.after_append]

theorem skipTrivia_of_not_startsGap {cursor : Cursor} (h : ¬Lexeme.StartsGap cursor.rest) :
    cursor.skipTrivia = cursor := by
  unfold skipTrivia
  rw [Lexeme.triviaLength_of_not_startsGap h]
  rfl

theorem exists_passes_skipTrivia (cursor : Cursor) :
    ∃ gap, cursor.Passes cursor.skipTrivia gap ∧
      Lexeme.IsGap cursor.skipTrivia.rest.isEmpty gap ∧
        ¬Lexeme.StartsGap cursor.skipTrivia.rest := by
  obtain ⟨gap, rest, htext, hlength, hgap, hstarts⟩ := Lexeme.exists_gap cursor.rest
  have hskip : cursor.Passes cursor.skipTrivia gap := by
    unfold skipTrivia
    rw [hlength]
    exact passes_advance htext
  obtain rfl : cursor.skipTrivia.rest = rest :=
    List.append_cancel_left (hskip.rest.symm.trans htext)
  exact ⟨gap, hskip, hgap, hstarts⟩

theorem exists_answers (cursor : Cursor) :
    ∃ passed, cursor.Passes cursor.next.1 passed ∧
      Answers cursor.place passed cursor.next.1.rest cursor.next.2 := by
  obtain ⟨gap, hskip, hgap, -⟩ := cursor.exists_passes_skipTrivia
  unfold next
  dsimp only
  cases hrest : cursor.skipTrivia.rest with
  | nil =>
    rw [hrest] at hgap
    refine ⟨gap, hskip, ?_⟩
    dsimp only
    rw [hrest]
    exact .finished hgap
  | cons c text =>
    rw [hrest] at hgap
    dsimp only
    obtain ⟨taken, left, htaken, hcount, hscans⟩ := Lexeme.cuts_scan c text
    have hmove := hskip.trans (passes_advance (hrest.trans htaken))
    have hleft : (cursor.skipTrivia.advance taken.length).rest = left := by
      simp [advance, hrest, htaken]
    rcases hscan : Lexeme.scan c text with ⟨count, fault | lexeme⟩
    · rw [hscan] at hcount hscans
      obtain rfl : count = taken.length := hcount
      refine ⟨gap ++ taken, hmove, ?_⟩
      dsimp only
      rw [hleft, hskip.place]
      exact .fault hgap hscans
    · rw [hscan] at hcount hscans
      obtain rfl : count = taken.length := hcount
      refine ⟨gap ++ taken, hmove, ?_⟩
      dsimp only
      rw [hleft, hskip.place]
      cases hscans with
      | found hspelled hends => exact .token hgap hspelled hends

end Cursor

/-! ## All tokens -/

/-- A token, with the gap in front of it and its spelling. -/
structure Piece where
  gap : List Char
  spelling : List Char
  token : Token

/-- The stretch of text that a piece is. -/
def Piece.text (piece : Piece) : List Char :=
  piece.gap ++ piece.spelling

/-- A text is cut into pieces and a gap behind the last of them. Each token is spelled where it is,
and its place is the one that the text before it makes. -/
structure Cut (place : List Char → Place) (text : List Char) (pieces : List Piece)
    (last : List Char) : Prop where
  text_eq : text = pieces.flatMap Piece.text ++ last
  last_gap : Lexeme.IsGap true last
  gaps : ∀ piece ∈ pieces, Lexeme.IsGap false piece.gap
  spelled : ∀ piece ∈ pieces, piece.token.lexeme.Spelled piece.spelling
  placed : ∀ before piece after, pieces = before ++ piece :: after →
    piece.token.place = place (before.flatMap Piece.text ++ piece.gap)

theorem Cut.nil {place : List Char → Place} {gap : List Char} (h : Lexeme.IsGap true gap) :
    Cut place gap [] gap where
  text_eq := rfl
  last_gap := h
  gaps := by simp
  spelled := by simp
  placed := by simp

theorem Cut.cons {place : Place} {gap spelling rest last : List Char} {lexeme : Lexeme}
    {pieces : List Piece} (hgap : Lexeme.IsGap false gap) (hspelled : lexeme.Spelled spelling)
    (h : Cut (place.after (gap ++ spelling)).after rest pieces last) :
    Cut place.after (gap ++ spelling ++ rest) (⟨gap, spelling, ⟨lexeme, place.after gap⟩⟩ :: pieces)
      last where
  text_eq := by
    rw [h.text_eq, List.flatMap_cons, List.append_assoc _ _ last]
    rfl
  last_gap := h.last_gap
  gaps := List.forall_mem_cons.mpr ⟨hgap, h.gaps⟩
  spelled := List.forall_mem_cons.mpr ⟨hspelled, h.spelled⟩
  placed := by
    intro before piece after heq
    cases before with
    | nil =>
      obtain ⟨rfl, -⟩ := List.cons.inj heq
      rfl
    | cons first before =>
      obtain ⟨rfl, hrest⟩ := List.cons.inj heq
      rw [h.placed before piece after hrest, ← Place.after_append, List.flatMap_cons,
        List.append_assoc _ _ piece.gap]
      rfl

namespace Cursor

theorem exists_pieces {cursor : Cursor} {tokens : List Token} (h : cursor.tokens = .ok tokens) :
    ∃ pieces last, Cut cursor.place.after cursor.rest pieces last ∧
      pieces.map Piece.token = tokens := by
  fun_induction Cursor.tokens cursor generalizing tokens with
  | case1 => cases h
  | case2 cursor after hnext =>
    cases h
    obtain ⟨passed, hpasses, hanswers⟩ := cursor.exists_answers
    rw [hnext] at hpasses hanswers
    generalize hleft : after.rest = left at hanswers
    cases hanswers with
    | finished hgap =>
      refine ⟨[], passed, ?_, rfl⟩
      rw [hpasses.rest, hleft, List.append_nil]
      exact .nil hgap
  | case3 cursor after token hnext ih =>
    cases hrest : after.tokens with
    | error error =>
      rw [hrest] at h
      cases h
    | ok rest =>
      rw [hrest] at h
      cases h
      obtain ⟨pieces, last, hcut, rfl⟩ := ih hrest
      obtain ⟨passed, hpasses, hanswers⟩ := cursor.exists_answers
      rw [hnext] at hpasses hanswers
      generalize hleft : after.rest = left at hanswers hcut
      cases hanswers with
      | token hgap hspelled hends =>
        rw [hpasses.place] at hcut
        rw [hpasses.rest, hleft]
        exact ⟨_, last, .cons hgap hspelled hcut, rfl⟩

end Cursor

/-- The tokens that are read have the form that `Tree.Derives` asks of tokens. -/
theorem isLexical_of_tokenize {text : String} {number : Nat} {tokens : List Token}
    (h : tokenize text number = .ok tokens) : ∀ token ∈ tokens, token.IsLexical := by
  obtain ⟨pieces, last, hcut, rfl⟩ := Cursor.exists_pieces h
  intro token htoken
  obtain ⟨piece, hpiece, rfl⟩ := List.mem_map.mp htoken
  exact (hcut.spelled piece hpiece).isLexical

/-- **A text is its tokens and the gaps between them.** Where its tokens can be read, the text is
cut into the spellings of these tokens, in their order, with blanks and comments before, between and
behind them; and a token stands in the line that is as many line ends behind the first one, and in
the column that is as many characters behind the last of these, as there are in the text before it.
-/
theorem exists_pieces_of_tokenize {text : String} {number : Nat} {tokens : List Token}
    (h : tokenize text number = .ok tokens) :
    ∃ pieces last, Cut (Place.behind number) text.toList pieces last ∧
      pieces.map Piece.token = tokens := by
  have hplace : (⟨number, 0⟩ : Place).after = Place.behind number :=
    funext (Place.after_eq_behind number)
  obtain ⟨pieces, last, hcut, htokens⟩ := Cursor.exists_pieces h
  refine ⟨pieces, last, ?_, htokens⟩
  rw [← hplace]
  exact hcut

/-- Tokens of all kinds, with comments and line ends between and behind them. -/
def mixedLines : String :=
  "x<= 1.5//half\n /\"//\" // last"

def mixedTokens : List Token :=
  [⟨.word "x", ⟨3, 0⟩⟩, ⟨.mark "<=", ⟨3, 1⟩⟩, ⟨.real 1.5, ⟨3, 4⟩⟩, ⟨.mark "/", ⟨4, 1⟩⟩,
    ⟨.quoted "//", ⟨4, 2⟩⟩]

theorem exists_pieces_of_tokenize_mixedLines :
    tokenize mixedLines 3 = .ok mixedTokens ∧
      ∃ pieces last, Cut (Place.behind 3) mixedLines.toList pieces last ∧
        pieces.map Piece.token = mixedTokens := by
  have htokens : tokenize mixedLines 3 = .ok mixedTokens := by decide +kernel
  exact ⟨htokens, exists_pieces_of_tokenize htokens⟩

end LineGrammar
