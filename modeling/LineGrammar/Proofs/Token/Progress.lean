import LineGrammar.Proofs.Token.Pieces

/-!
# Reading on behind errors

A cursor can be asked for the next token again and again, behind errors too. A call that finds a
token, a number that is too large or a quotation without its end takes some characters of the text,
and the next call goes on behind them; a call that finds neither takes nothing but a gap, and then
all further calls answer as it did. So the answers settle, at the end of the text or before a
character that starts no token (`exists_passing_settled`).
-/

namespace LineGrammar.Cursor

/-- The cursor after so many calls, whatever they answer. -/
def afterCalls : Cursor → Nat → Cursor
  | cursor, 0 => cursor
  | cursor, calls + 1 => cursor.next.1.afterCalls calls

def answer (cursor : Cursor) (calls : Nat) : Except LexError (Option Token) :=
  (cursor.afterCalls calls).next.2

/-- Does a call that answers so take characters of a token or of a broken one? -/
def IsTaking : Except LexError (Option Token) → Prop
  | .ok (some _) => True
  | .error (.invalidNumber _ _) => True
  | .error (.unterminatedQuotation _) => True
  | .ok none => False
  | .error (.unexpectedCharacter _ _) => False

theorem afterCalls_succ (cursor : Cursor) (calls : Nat) :
    cursor.afterCalls (calls + 1) = (cursor.afterCalls calls).next.1 := by
  induction calls generalizing cursor with
  | zero => rfl
  | succ calls ih => exact ih cursor.next.1

/-! ## One call -/

theorem Answers.ne_nil {place : Place} {passed rest : List Char}
    {answer : Except LexError (Option Token)} (h : Answers place passed rest answer)
    (htaking : IsTaking answer) : passed ≠ [] := by
  cases h with
  | finished => cases htaking
  | token _ hspelled => exact List.append_ne_nil_of_right_ne_nil _ hspelled.ne_nil
  | fault _ hscans =>
    refine List.append_ne_nil_of_right_ne_nil _ ?_
    cases hscans with
    | invalid hliteral =>
      obtain hdigits | ⟨whole, fraction, hwhole, -, rfl⟩ := hliteral
      · exact hdigits.1
      · simp
    | unterminated => simp
    | unexpected => cases htaking

theorem length_next_lt_of_isTaking {cursor : Cursor} (h : IsTaking cursor.next.2) :
    cursor.next.1.rest.length < cursor.rest.length := by
  obtain ⟨passed, hpasses, hanswers⟩ := cursor.exists_answers
  have hpos := List.length_pos_of_ne_nil (hanswers.ne_nil h)
  rw [hpasses.rest, List.length_append]
  omega

theorem next_fst_of_not_isTaking {cursor : Cursor} (h : ¬IsTaking cursor.next.2) :
    cursor.next.1 = cursor.skipTrivia := by
  unfold next at h ⊢
  dsimp only at h ⊢
  cases hrest : cursor.skipTrivia.rest with
  | nil => rfl
  | cons c text =>
    rw [hrest] at h
    dsimp only at h ⊢
    obtain ⟨taken, left, htaken, hcount, hscans⟩ := Lexeme.cuts_scan c text
    rcases hscan : Lexeme.scan c text with ⟨count, fault | lexeme⟩
    · rw [hscan] at h hcount hscans
      dsimp only at h hcount hscans ⊢
      cases hscans with
      | invalid => exact absurd trivial h
      | unterminated => exact absurd trivial h
      | unexpected =>
        rw [hcount]
        rfl
    · rw [hscan] at h
      exact absurd trivial h

theorem next_next_of_not_isTaking {cursor : Cursor} (h : ¬IsTaking cursor.next.2) :
    cursor.next.1.next = cursor.next := by
  obtain ⟨gap, -, -, hgap⟩ := cursor.exists_passes_skipTrivia
  have hskip := skipTrivia_of_not_startsGap hgap
  rw [next_fst_of_not_isTaking h]
  unfold next
  rw [hskip]

/-! ## All calls -/

variable {cursor : Cursor}

theorem answer_add_of_not_isTaking {count : Nat} (h : ¬IsTaking (cursor.answer count))
    (calls : Nat) : (cursor.afterCalls (count + calls)).next = (cursor.afterCalls count).next := by
  induction calls with
  | zero => rfl
  | succ calls ih =>
    rw [← Nat.add_assoc, afterCalls_succ, ih]
    exact next_next_of_not_isTaking h

/-- Some call takes no characters, and the calls before it take one each at least. -/
theorem exists_not_isTaking (cursor : Cursor) :
    ∃ count ≤ cursor.rest.length, (∀ calls < count, IsTaking (cursor.answer calls)) ∧
      ¬IsTaking (cursor.answer count) := by
  by_cases htaking : IsTaking cursor.next.2
  · have hshorter := length_next_lt_of_isTaking htaking
    obtain ⟨count, hcount, hbefore, hsettled⟩ := exists_not_isTaking cursor.next.1
    refine ⟨count + 1, by omega, fun calls hcalls => ?_, hsettled⟩
    cases calls with
    | zero => exact htaking
    | succ calls => exact hbefore calls (Nat.lt_of_succ_lt_succ hcalls)
  · exact ⟨0, Nat.zero_le _, fun calls hcalls => absurd hcalls (Nat.not_lt_zero calls), htaking⟩
termination_by cursor.rest.length

/-- These are the stretches of a text that the calls pass over, one behind the other from its start.
A call answers by what it passes over, which is something if it takes a token or a broken one. -/
structure Passing (text : String) (number : Nat) (passed : Nat → List Char) : Prop where
  text_eq : ∀ calls, text.toList =
    (List.range calls).flatMap passed ++ ((ofText text number).afterCalls calls).rest
  answers : ∀ calls, Answers (Place.behind number ((List.range calls).flatMap passed))
    (passed calls) ((ofText text number).afterCalls (calls + 1)).rest
    ((ofText text number).answer calls)
  ne_nil : ∀ calls, IsTaking ((ofText text number).answer calls) → passed calls ≠ []

theorem exists_passing (text : String) (number : Nat) : ∃ passed, Passing text number passed := by
  choose passed hpasses hanswers using
    fun calls => ((ofText text number).afterCalls calls).exists_answers
  have hbefore : ∀ calls, (ofText text number).Passes ((ofText text number).afterCalls calls)
      ((List.range calls).flatMap passed) := by
    intro calls
    induction calls with
    | zero => exact ⟨rfl, rfl⟩
    | succ calls ih =>
      rw [afterCalls_succ, List.range_succ, List.flatMap_append, List.flatMap_singleton]
      exact ih.trans (hpasses calls)
  refine ⟨passed, fun calls => (hbefore calls).rest, fun calls => ?_,
    fun calls => (hanswers calls).ne_nil⟩
  have hplace : ((ofText text number).afterCalls calls).place =
      Place.behind number ((List.range calls).flatMap passed) :=
    (hbefore calls).place.trans (Place.after_eq_behind number _)
  rw [afterCalls_succ, ← hplace]
  exact hanswers calls

/-- **Reading settles.** Calls go on from where the one before stopped, behind errors too, and a
call that finds a token, an invalid number or an open quotation takes at least one character. After
at most as many such calls as the text has characters, all further calls answer alike: that the text
is at its end, or that one character at one place starts no token. -/
theorem exists_passing_settled (text : String) (number : Nat) :
    (∃ passed, Passing text number passed) ∧
      ∃ count ≤ text.length,
        (∀ calls < count, IsTaking ((ofText text number).answer calls)) ∧
        ((∀ calls ≥ count, (ofText text number).answer calls = .ok none) ∨
          ∃ character place, ∀ calls ≥ count,
            (ofText text number).answer calls = .error (.unexpectedCharacter character place)) := by
  refine ⟨exists_passing text number, ?_⟩
  obtain ⟨count, hcount, hbefore, hsettled⟩ := exists_not_isTaking (ofText text number)
  have hlater : ∀ calls ≥ count,
      (ofText text number).answer calls = (ofText text number).answer count := by
    intro calls hcalls
    obtain ⟨more, rfl⟩ := Nat.exists_eq_add_of_le hcalls
    exact congrArg Prod.snd (answer_add_of_not_isTaking hsettled more)
  refine ⟨count, hcount.trans_eq String.length_toList, hbefore, ?_⟩
  rcases hanswer : (ofText text number).answer count with error | token
  · rw [hanswer] at hsettled
    cases error with
    | unexpectedCharacter character place =>
      exact .inr ⟨character, place, fun calls hcalls => (hlater calls hcalls).trans hanswer⟩
    | invalidNumber => exact absurd trivial hsettled
    | unterminatedQuotation => exact absurd trivial hsettled
  · rw [hanswer] at hsettled
    cases token with
    | none => exact .inl fun calls hcalls => (hlater calls hcalls).trans hanswer
    | some token => exact absurd trivial hsettled

example : (List.range 7).map (ofText "1\n99999999999999999999\"a\nb /@ c" 1).answer =
    [.ok (some ⟨.integer 1, ⟨1, 0⟩⟩), .error (.invalidNumber "99999999999999999999" ⟨2, 0⟩),
      .error (.unterminatedQuotation ⟨2, 20⟩), .ok (some ⟨.word "b", ⟨3, 0⟩⟩),
      .ok (some ⟨.mark "/", ⟨3, 2⟩⟩), .error (.unexpectedCharacter '@' ⟨3, 3⟩),
      .error (.unexpectedCharacter '@' ⟨3, 3⟩)] := by
  decide +kernel

end LineGrammar.Cursor
