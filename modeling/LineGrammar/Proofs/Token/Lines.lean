import LineGrammar.Proofs.Text.Lines
import LineGrammar.Proofs.Token.Spelling

/-!
# Tokens line by line

No token goes over the end of a line, and a comment ends there, so that a line is read as if nothing
were behind it, and what is behind its end as if nothing were before (`Cursor.tokens_append_line`).
The tokens of a text are those of its lines, each read with its number, and its first error is that
of the first line that has one (`tokenize_eq_mapM_lines`).
-/

namespace LineGrammar

open Text (EndsLine)

section

variable {text ending rest : List Char}

namespace Lexeme

/-! ## A line in front of its end -/

theorem takeWhile_ending (hending : EndsLine ending) {p : Char → Bool} (hreturn : p '\r' = false)
    (hfeed : p '\n' = false) (rest : List Char) : (ending ++ rest).takeWhile p = [] := by
  rcases hending with rfl | rfl
  · exact List.takeWhile_cons_of_neg (by simp [hfeed])
  · exact List.takeWhile_cons_of_neg (by simp [hreturn])

theorem triviaLength_inside (c : Char) (text : List Char) :
    triviaLength true (c :: text) = triviaLength (c != '\n') text + 1 := rfl

theorem triviaLength_comment (text : List Char) :
    triviaLength false ('/' :: '/' :: text) = triviaLength true text + 2 := rfl

theorem triviaLength_outside {c : Char} {text : List Char}
    (h : ∀ others, c = '/' → text = '/' :: others → False) :
    triviaLength false (c :: text) =
      if Text.isBlank c then triviaLength false text + 1 else 0 := by
  rw [triviaLength.eq_def]
  split
  · next heq => cases heq
  · next heq _ => cases heq
  · next others _ heq =>
    obtain ⟨hslash, hothers⟩ := List.cons.inj heq
    exact (h others hslash hothers).elim
  · next heq =>
    obtain ⟨rfl, rfl⟩ := List.cons.inj heq
    rfl

theorem triviaLength_blank {c : Char} (hc : Text.isBlank c = true) (text : List Char) :
    triviaLength false (c :: text) = triviaLength false text + 1 := by
  have hslash : c ≠ '/' := by
    rintro rfl
    exact absurd hc (by decide)
  rw [triviaLength_outside fun _ heq _ => hslash heq, if_pos hc]

theorem triviaLength_append (hending : EndsLine ending) (rest : List Char) (inside : Bool)
    {text : List Char} (htext : '\n' ∉ text) :
    triviaLength inside text < text.length ∧
        triviaLength inside (text ++ (ending ++ rest)) = triviaLength inside text ∨
      triviaLength inside text = text.length ∧
        triviaLength inside (text ++ (ending ++ rest)) =
          text.length + ending.length + triviaLength false rest := by
  fun_induction triviaLength inside text with
  | case1 inside =>
    refine .inr ⟨rfl, ?_⟩
    have hreturn : Text.isBlank '\r' = true := by decide
    have hfeed : Text.isBlank '\n' = true := by decide
    have hlast : triviaLength inside ('\n' :: rest) = triviaLength false rest + 1 := by
      cases inside with
      | false => exact triviaLength_blank hfeed rest
      | true => rfl
    rcases hending with rfl | rfl
    · simp only [List.nil_append, List.singleton_append, hlast, List.length_nil,
        List.length_singleton]
      omega
    · have hfirst : triviaLength inside ('\r' :: '\n' :: rest) =
          triviaLength inside ('\n' :: rest) + 1 := by
        cases inside with
        | false => exact triviaLength_blank hreturn _
        | true => rfl
      simp only [List.nil_append, List.cons_append, hfirst, hlast, List.length_nil,
        List.length_cons]
      omega
  | case2 c text ih =>
    obtain ⟨hc, hrest⟩ := not_or.mp (mt List.mem_cons.mpr htext)
    have hstays : (c != '\n') = true := by simp [Ne.symm hc]
    rw [hstays] at ih ⊢
    rcases ih hrest with ⟨hlt, hsame⟩ | ⟨hall, hsame⟩
    · exact .inl ⟨by simpa using hlt, by simp [triviaLength_inside, hstays, hsame]⟩
    · refine .inr ⟨by simp [hall], ?_⟩
      simp only [List.cons_append, triviaLength_inside, hstays, hsame, List.length_cons]
      omega
  | case3 text ih =>
    have hrest : '\n' ∉ text := fun hmem =>
      htext (List.mem_cons_of_mem _ (List.mem_cons_of_mem _ hmem))
    rcases ih hrest with ⟨hlt, hsame⟩ | ⟨hall, hsame⟩
    · exact .inl ⟨by simpa using hlt, by simp [triviaLength_comment, hsame]⟩
    · refine .inr ⟨by simp [hall], ?_⟩
      simp only [List.cons_append, triviaLength_comment, hsame, List.length_cons]
      omega
  | case4 c text hcomment hblank ih =>
    have hrest : '\n' ∉ text := fun hmem => htext (List.mem_cons_of_mem _ hmem)
    rw [List.cons_append, triviaLength_blank hblank]
    rcases ih hrest with ⟨hlt, hsame⟩ | ⟨hall, hsame⟩
    · exact .inl ⟨by simpa using hlt, by rw [hsame]⟩
    · refine .inr ⟨by simp [hall], ?_⟩
      rw [hsame, List.length_cons]
      omega
  | case5 c text hcomment hblank =>
    refine .inl ⟨Nat.succ_pos _, ?_⟩
    rw [List.cons_append, triviaLength_outside, if_neg hblank]
    intro others hslash hother
    cases text with
    | nil => rcases hending with rfl | rfl <;> cases hother
    | cons d text => exact hcomment text hslash (by rw [(List.cons.inj hother).1])

/-! ## A token in front of the end of its line -/

theorem scanQuoted_append (hending : EndsLine ending) (rest : List Char) {text : List Char}
    (htext : '\n' ∉ text) :
    scanQuoted (text ++ (ending ++ rest)) = scanQuoted text ∨
      (scanQuoted (text ++ (ending ++ rest))).2 = .error .unterminated ∧
        (scanQuoted text).2 = .error .unterminated := by
  have hstays : ∀ body ⊆ text, '"' ∉ body → ∀ c ∈ body, staysQuoted c = true := by
    intro body hbody hquote c hc
    have hquoted : c ≠ '"' := fun heq => hquote (heq ▸ hc)
    have hline : c ≠ '\n' := fun heq => htext (heq ▸ hbody hc)
    simp [staysQuoted, hquoted, hline]
  by_cases hquote : '"' ∈ text
  · obtain ⟨body, tail, rfl, hbody⟩ := List.eq_append_cons_of_mem hquote
    have hquoted := hstays body (List.subset_append_left _ _) hbody
    rw [List.append_assoc, List.cons_append, scanQuoted_closed hquoted, scanQuoted_closed hquoted]
    exact .inl rfl
  · have hquoted := hstays text (List.Subset.refl _) hquote
    refine .inr ⟨?_, congrArg Prod.snd (scanQuoted_open hquoted)⟩
    rcases hending with rfl | rfl
    · exact congrArg Prod.snd (scanQuoted_broken hquoted rest)
    · have hreturn : ∀ c ∈ text ++ ['\r'], staysQuoted c = true := by
        intro c hc
        rcases List.mem_append.mp hc with hbody | hlast
        · exact hquoted c hbody
        · obtain rfl := List.mem_singleton.mp hlast
          rfl
      have hlong := congrArg Prod.snd (scanQuoted_broken hreturn rest)
      rwa [List.append_assoc] at hlong

theorem fractionDigits_append (hending : EndsLine ending) (rest text : List Char) :
    fractionDigits (text ++ (ending ++ rest)) = fractionDigits text := by
  have hgap : (ending ++ rest).takeWhile Char.isDigit = [] :=
    takeWhile_ending hending (by decide) (by decide) rest
  cases text with
  | nil => rcases hending with rfl | rfl <;> rfl
  | cons c text =>
    unfold fractionDigits
    split
    · next heq =>
      obtain ⟨rfl, rfl⟩ := List.cons.inj heq
      exact takeWhile_append_of_nil hgap text
    · next hpoint =>
      split
      · next heq =>
        obtain ⟨rfl, rfl⟩ := List.cons.inj heq
        exact absurd rfl (hpoint _)
      · rfl

theorem scanNumber_append (hending : EndsLine ending) (rest text : List Char) :
    scanNumber (text ++ (ending ++ rest)) = scanNumber text := by
  have hgap : (ending ++ rest).takeWhile Char.isDigit = [] :=
    takeWhile_ending hending (by decide) (by decide) rest
  have hle : (text.takeWhile Char.isDigit).length ≤ text.length :=
    (List.takeWhile_sublist _).length_le
  unfold scanNumber
  dsimp only
  rw [takeWhile_append_of_nil hgap, List.drop_append_of_le_length hle,
    fractionDigits_append hending]

theorem scanMark_append (hending : EndsLine ending) (rest : List Char) (c : Char)
    (text : List Char) : scanMark c (text ++ (ending ++ rest)) = scanMark c text := by
  cases text with
  | nil =>
    have hnone : (ending ++ rest).head?.filter (fun d => (c, d) ∈ doubleMarks) = none := by
      rcases hending with rfl | rfl <;> simp [doubleMarks]
    unfold scanMark
    rw [List.nil_append, hnone]
    rfl
  | cons d text => rfl

theorem scan_append (hending : EndsLine ending) (rest : List Char) (c : Char) {text : List Char}
    (htext : '\n' ∉ text) :
    scan c (text ++ (ending ++ rest)) = scan c text ∨
      ∃ fault, (scan c (text ++ (ending ++ rest))).2 = .error fault ∧
        (scan c text).2 = .error fault := by
  unfold scan
  split_ifs with hquote hword hdigit
  · rcases scanQuoted_append hending rest htext with heq | ⟨hlong, hshort⟩
    · rw [heq]
      exact .inl rfl
    · exact .inr ⟨_, hlong, hshort⟩
  · have hgap : (ending ++ rest).takeWhile continuesWord = [] :=
      takeWhile_ending hending (by decide +kernel) (by decide +kernel) rest
    rw [takeWhile_append_of_nil hgap]
    exact .inl rfl
  · exact .inl (scanNumber_append hending rest (c :: text))
  · exact .inl (scanMark_append hending rest c text)

end Lexeme

namespace Place

theorem line_after (place : Place) {text : List Char} (h : '\n' ∉ text) :
    (place.after text).line = place.line := by
  induction text generalizing place with
  | nil => rfl
  | cons c text ih =>
    obtain ⟨hc, hrest⟩ := not_or.mp (mt List.mem_cons.mpr h)
    refine (ih (place.step c) hrest).trans ?_
    unfold step
    rw [if_neg (Ne.symm hc)]

theorem after_append (place : Place) (text others : List Char) :
    place.after (text ++ others) = (place.after text).after others :=
  List.foldl_append

theorem after_ending (hending : EndsLine ending) (place : Place) :
    place.after ending = ⟨place.line + 1, 0⟩ := by
  rcases hending with rfl | rfl <;> rfl

end Place

namespace Cursor

theorem tokens_eq (cursor : Cursor) :
    cursor.tokens =
      match cursor.next with
      | (_, .error error) => .error error
      | (_, .ok none) => .ok []
      | (after, .ok (some token)) => do
        let rest ← after.tokens
        return token :: rest := by
  rw [tokens]
  split <;> simp_all

theorem skipTrivia_append {line : List Char} (hline : '\n' ∉ line) (hending : EndsLine ending)
    (rest : List Char) (place : Place)
    (htrivia : Lexeme.triviaLength false (line ++ (ending ++ rest)) =
      line.length + ending.length + Lexeme.triviaLength false rest) :
    (⟨line ++ (ending ++ rest), place⟩ : Cursor).skipTrivia =
      (⟨rest, ⟨place.line + 1, 0⟩⟩ : Cursor).skipTrivia := by
  have hlength : line.length + ending.length = (line ++ ending).length := by simp
  have hplace : place.after (line ++ ending) = ⟨place.line + 1, 0⟩ := by
    rw [Place.after_append, Place.after_ending hending, Place.line_after place hline]
  unfold skipTrivia advance
  dsimp only
  rw [htrivia, ← List.append_assoc, hlength, List.drop_length_add_append,
    List.take_length_add_append, Place.after_append, hplace]

theorem next_append_line {line : List Char} (hline : '\n' ∉ line) (hending : EndsLine ending)
    (rest : List Char) (place : Place)
    (htrivia : Lexeme.triviaLength false line < line.length)
    (hsame : Lexeme.triviaLength false (line ++ (ending ++ rest)) =
      Lexeme.triviaLength false line) :
    (∃ error, (⟨line, place⟩ : Cursor).next.2 = .error error ∧
        (⟨line ++ (ending ++ rest), place⟩ : Cursor).next.2 = .error error) ∨
      ∃ token left after, (⟨line, place⟩ : Cursor).next = (⟨left, after⟩, .ok (some token)) ∧
        (⟨line ++ (ending ++ rest), place⟩ : Cursor).next =
          (⟨left ++ (ending ++ rest), after⟩, .ok (some token)) ∧
        '\n' ∉ left ∧ after.line = place.line := by
  obtain ⟨c, text, htext⟩ := List.exists_cons_of_length_pos (l := line.drop
    (Lexeme.triviaLength false line)) (by rw [List.length_drop]; omega)
  have hskip : (⟨line, place⟩ : Cursor).skipTrivia =
      ⟨c :: text, place.after (line.take (Lexeme.triviaLength false line))⟩ := by
    rw [← htext]
    rfl
  have hskipLong : (⟨line ++ (ending ++ rest), place⟩ : Cursor).skipTrivia =
      ⟨c :: (text ++ (ending ++ rest)),
        place.after (line.take (Lexeme.triviaLength false line))⟩ := by
    unfold skipTrivia advance
    dsimp only
    rw [hsame, List.drop_append_of_le_length htrivia.le, List.take_append_of_le_length htrivia.le,
      htext, List.cons_append]
  have hrest : '\n' ∉ c :: text := fun hmem => hline (List.mem_of_mem_drop (htext ▸ hmem))
  have hbefore : '\n' ∉ line.take (Lexeme.triviaLength false line) :=
    fun hmem => hline (List.mem_of_mem_take hmem)
  have hplace := Place.line_after place hbefore
  unfold next
  rw [hskip, hskipLong]
  dsimp only
  generalize place.after (line.take (Lexeme.triviaLength false line)) = start at hplace ⊢
  have hscan := Lexeme.scan_append hending rest c fun hmem => hrest (List.mem_cons_of_mem _ hmem)
  rcases hfound : Lexeme.scan c text with ⟨length, fault | lexeme⟩
  · rcases hlong : Lexeme.scan c (text ++ (ending ++ rest)) with ⟨other, otherFault | lexeme⟩
    · refine .inl ⟨fault.locate start, rfl, ?_⟩
      rw [hfound, hlong] at hscan
      rcases hscan with heq | ⟨found, hother, hthis⟩
      · cases heq
        rfl
      · cases hother
        cases hthis
        rfl
    · rw [hfound, hlong] at hscan
      rcases hscan with heq | ⟨found, hother, -⟩
      · cases heq
      · cases hother
  · have hlong : Lexeme.scan c (text ++ (ending ++ rest)) = (length, .ok lexeme) := by
      rw [hfound] at hscan
      rcases hscan with heq | ⟨found, -, hthis⟩
      · exact heq
      · cases hthis
    have hle : length ≤ (c :: text).length := by
      have hle := Lexeme.scan_length_le c text
      rwa [hfound] at hle
    refine .inr ⟨⟨lexeme, start⟩, (c :: text).drop length, start.after ((c :: text).take length),
      rfl, ?_, fun hmem => hrest (List.mem_of_mem_drop hmem), ?_⟩
    · rw [hlong, ← List.cons_append]
      unfold advance
      dsimp only
      rw [List.drop_append_of_le_length hle, List.take_append_of_le_length hle]
    · exact (Place.line_after start fun hmem => hrest (List.mem_of_mem_take hmem)).trans hplace

/-- In front of the end of a line the tokens are those of the line, and those behind the end are
read as if nothing were before. -/
theorem tokens_append_line {line : List Char} (hline : '\n' ∉ line) (hending : EndsLine ending)
    (rest : List Char) (place : Place) :
    (⟨line ++ (ending ++ rest), place⟩ : Cursor).tokens = (do
      let first ← (⟨line, place⟩ : Cursor).tokens
      let others ← (⟨rest, ⟨place.line + 1, 0⟩⟩ : Cursor).tokens
      return first ++ others) := by
  rcases Lexeme.triviaLength_append hending rest false hline with ⟨hlt, hsame⟩ | ⟨hall, hsame⟩
  · rcases next_append_line hline hending rest place hlt hsame with
      ⟨error, hnext, hlong⟩ | ⟨token, left, after, hnext, hlong, hleft, hafter⟩
    · rw [tokens_eq, tokens_eq ⟨line, place⟩]
      generalize (⟨line, place⟩ : Cursor).next = found at hnext ⊢
      generalize (⟨line ++ (ending ++ rest), place⟩ : Cursor).next = foundLong at hlong ⊢
      obtain ⟨cursor, result⟩ := found
      obtain ⟨cursorLong, resultLong⟩ := foundLong
      cases hnext
      cases hlong
      rfl
    · have hshorter : left.length < line.length := length_next_lt hnext
      rw [tokens_eq, tokens_eq ⟨line, place⟩, hnext, hlong]
      dsimp only
      rw [tokens_append_line hleft hending rest after, hafter]
      cases (⟨left, after⟩ : Cursor).tokens with
      | error error => rfl
      | ok first => cases (⟨rest, ⟨place.line + 1, 0⟩⟩ : Cursor).tokens <;> rfl
  · have hnone : (⟨line, place⟩ : Cursor).tokens = .ok [] := by
      have hskip : (⟨line, place⟩ : Cursor).skipTrivia.rest = [] := by
        simp [skipTrivia, advance, hall]
      rw [tokens_eq, next, hskip]
    have hnext : (⟨line ++ (ending ++ rest), place⟩ : Cursor).next =
        (⟨rest, ⟨place.line + 1, 0⟩⟩ : Cursor).next := by
      unfold next
      rw [skipTrivia_append hline hending rest place hsame]
    rw [hnone, tokens_eq, hnext, ← tokens_eq]
    cases (⟨rest, ⟨place.line + 1, 0⟩⟩ : Cursor).tokens <;> rfl
termination_by line.length

/-- Reads all tokens of lines, from the line with this number on, or the first error. -/
def tokensOfLines (number : Nat) : List (List Char) → Except LexError (List Token)
  | [] => .ok []
  | line :: lines => do
    let first ← (⟨line, ⟨number, 0⟩⟩ : Cursor).tokens
    let others ← tokensOfLines (number + 1) lines
    return first ++ others

theorem tokens_eq_tokensOfLines (text : List Char) (number : Nat) :
    (⟨text, ⟨number, 0⟩⟩ : Cursor).tokens = tokensOfLines number (Text.lines text) := by
  induction text using Text.induction_lines generalizing number with
  | nil =>
    rw [tokens_eq]
    rfl
  | last line _ _ hlines =>
    rw [hlines, tokensOfLines, tokensOfLines]
    cases (⟨line, ⟨number, 0⟩⟩ : Cursor).tokens with
    | error error => rfl
    | ok tokens => exact congrArg Except.ok (List.append_nil tokens).symm
  | ended line ending rest hline hending hlines ih =>
    rw [hlines, tokensOfLines, ← ih, List.append_assoc, tokens_append_line hline hending]

end Cursor

end

/-! ## Lines with their numbers -/

theorem map_eq_error_iff {α β ε : Type} {f : α → β} {found : Except ε α} {error : ε} :
    found.map f = .error error ↔ found = .error error := by
  cases found <;> simp [Except.map]

theorem append_flatten {α ε : Type} (first : List α) (found : Except ε (List (List α))) :
    (do let others ← found.map List.flatten; return first ++ others) =
      (do let others ← found; return first :: others : Except ε _).map List.flatten := by
  cases found <;> rfl

theorem mapM_eq_error_iff {α β ε : Type} {f : α → Except ε β} {list : List α} {error : ε} :
    list.mapM f = .error error ↔
      ∃ before member after, list = before ++ member :: after ∧ f member = .error error ∧
        ∀ earlier ∈ before, ∃ result, f earlier = .ok result := by
  induction list with
  | nil => exact iff_of_false (fun h => by cases h) (by simp)
  | cons first rest ih =>
    rw [List.mapM_cons]
    rcases hfirst : f first with failure | result
    · constructor
      · intro h
        obtain rfl : failure = error := Except.error.inj h
        exact ⟨[], first, rest, rfl, hfirst, by simp⟩
      · rintro ⟨before, member, after, hlist, hmember, hbefore⟩
        cases before with
        | nil =>
          obtain ⟨rfl, -⟩ := List.cons.inj hlist
          exact congrArg (Except.error ·) (Except.error.inj (hfirst.symm.trans hmember))
        | cons earlier before =>
          obtain ⟨rfl, -⟩ := List.cons.inj hlist
          obtain ⟨result, hresult⟩ := hbefore first List.mem_cons_self
          cases hfirst.symm.trans hresult
    · refine (map_eq_error_iff (f := (result :: ·))).trans (ih.trans ?_)
      constructor
      · rintro ⟨before, member, after, rfl, hmember, hbefore⟩
        exact ⟨first :: before, member, after, rfl, hmember,
          List.forall_mem_cons.mpr ⟨⟨result, hfirst⟩, hbefore⟩⟩
      · rintro ⟨before, member, after, hlist, hmember, hbefore⟩
        cases before with
        | nil =>
          obtain ⟨rfl, -⟩ := List.cons.inj hlist
          cases hfirst.symm.trans hmember
        | cons earlier before =>
          obtain ⟨rfl, rfl⟩ := List.cons.inj hlist
          exact ⟨before, member, after, rfl, hmember, (List.forall_mem_cons.mp hbefore).2⟩

/-- The lines of a text with their numbers, the first of which is this one. -/
def Text.numberedLines (text : String) (number : Nat) : List (String × Nat) :=
  ((lines text.toList).map String.ofList).zipIdx number

theorem Cursor.tokensOfLines_eq_mapM (number : Nat) (lines : List (List Char)) :
    tokensOfLines number lines =
      (((lines.map String.ofList).zipIdx number).mapM fun line => tokenize line.1 line.2).map
        List.flatten := by
  induction lines generalizing number with
  | nil => rfl
  | cons line lines ih =>
    rw [tokensOfLines, ih, List.map_cons, List.zipIdx_cons, List.mapM_cons, tokenize, ofText,
      String.toList_ofList]
    rcases (⟨line, ⟨number, 0⟩⟩ : Cursor).tokens with error | first
    · rfl
    · exact append_flatten first _

/-- **A text is read line by line.** Its tokens are those of its lines, each read by itself with its
number, one line behind the other; and it has an error exactly if some line has one, which is then
that of the first such line. -/
theorem tokenize_eq_mapM_lines (text : String) (number : Nat) :
    tokenize text number =
        ((Text.numberedLines text number).mapM fun line => tokenize line.1 line.2).map
          List.flatten ∧
      ∀ error, tokenize text number = .error error ↔
        ∃ before line after, Text.numberedLines text number = before ++ line :: after ∧
          tokenize line.1 line.2 = .error error ∧
            ∀ earlier ∈ before, ∃ tokens, tokenize earlier.1 earlier.2 = .ok tokens := by
  have hlines : tokenize text number =
      ((Text.numberedLines text number).mapM fun line => tokenize line.1 line.2).map
        List.flatten :=
    (Cursor.tokens_eq_tokensOfLines text.toList number).trans (Cursor.tokensOfLines_eq_mapM _ _)
  refine ⟨hlines, fun error => ?_⟩
  rw [hlines, map_eq_error_iff, mapM_eq_error_iff]

end LineGrammar
