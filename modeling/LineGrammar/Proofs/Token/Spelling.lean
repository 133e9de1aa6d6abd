import LineGrammar.Proofs.Number.Digits
import LineGrammar.Proofs.Token.Lexical
import Mathlib.Data.List.TakeWhile
import Mathlib.Tactic.SplitIfs

/-!
# How tokens are spelled

A token is spelled as a word, a mark, a numeral or a quotation (`Spelled`). Where a text starts with
the spelling of a token that does not go on behind it, that token is read, and all of the spelling
with it (`scan_of_spelled`). Whatever the text is, a token or a fault is found that takes the
characters which spell it and no others (`cuts_scan`).
-/

namespace LineGrammar

/-! ## Stretches of characters -/

theorem takeWhile_append_of_nil {p : Char → Bool} {gap : List Char} (h : gap.takeWhile p = [])
    (text : List Char) : (text ++ gap).takeWhile p = text.takeWhile p := by
  rw [List.takeWhile_append, h, List.append_nil]
  split
  · next hlength => exact (List.takeWhile_sublist p).eq_of_length hlength |>.symm
  · rfl

theorem takeWhile_append_of_forall {p : Char → Bool} {body gap : List Char}
    (hbody : ∀ c ∈ body, p c = true) (hgap : gap.takeWhile p = []) :
    (body ++ gap).takeWhile p = body := by
  rw [takeWhile_append_of_nil hgap]
  exact List.takeWhile_eq_self_iff.mpr hbody

theorem exists_stretch (p : Char → Bool) (text : List Char) :
    ∃ stretch rest, text = stretch ++ rest ∧ (∀ c ∈ stretch, p c = true) ∧
      rest.takeWhile p = [] := by
  refine ⟨text.takeWhile p, text.dropWhile p, List.takeWhile_append_dropWhile.symm,
    fun c hc => List.mem_takeWhile_imp hc, ?_⟩
  have hhead := List.head?_dropWhile_not p text
  cases hrest : text.dropWhile p with
  | nil => rfl
  | cons c rest =>
    rw [hrest] at hhead
    exact List.takeWhile_cons_of_neg (by simpa using hhead)

namespace Lexeme

open Number (IsDigits)

/-! ## Spellings -/

/-- A number as programs write it: digits, with a point between them if it is a real one. -/
def IsNumeral (text : List Char) : Prop :=
  IsDigits text ∨
    ∃ whole fraction, IsDigits whole ∧ IsDigits fraction ∧ text = whole ++ '.' :: fraction

/-- May quoted text go on with this character? -/
def staysQuoted (c : Char) : Bool :=
  c != '"' && c != '\n'

/-- The spellings of a token in program text. -/
inductive Spelled : Lexeme → List Char → Prop
  | word {text : List Char} (hword : isWord text = true) : Spelled (word (String.ofList text)) text
  | integer {digits : List Char} {value : Int64} (hdigits : IsDigits digits)
    (hvalue : value.toInt = Number.ofDigits digits) : Spelled (integer value) digits
  | real {whole fraction : List Char} {value : Float} (hwhole : IsDigits whole)
    (hfraction : IsDigits fraction)
    (hvalue : Number.readReal? (whole ++ '.' :: fraction) = some value) :
    Spelled (real value) (whole ++ '.' :: fraction)
  | quoted {text : List Char} (htext : ∀ c ∈ text, staysQuoted c = true) :
    Spelled (quoted (String.ofList text)) ('"' :: (text ++ ['"']))
  | single {c : Char} (hc : c ∈ singleMarks) : Spelled (mark (String.ofList [c])) [c]
  | double {c d : Char} (hmark : (c, d) ∈ doubleMarks) :
    Spelled (mark (String.ofList [c, d])) [c, d]

/-- Is the token at its end in front of this text? -/
def EndsBefore : Lexeme → List Char → Prop
  | word _, rest => rest.takeWhile continuesWord = []
  | integer _, rest => rest.takeWhile Char.isDigit = [] ∧ fractionDigits rest = []
  | real _, rest => rest.takeWhile Char.isDigit = []
  | quoted _, _ => True
  | mark text, rest => ∀ c d, text.toList = [c] → rest.head? = some d → (c, d) ∉ doubleMarks

theorem Spelled.isLexical {lexeme : Lexeme} {spelling : List Char} (h : lexeme.Spelled spelling) :
    lexeme.isLexical = true := by
  cases h with
  | word hword =>
    show isWord (String.ofList spelling).toList = true
    rwa [String.toList_ofList]
  | integer | real | quoted | single | double => rfl

theorem Spelled.ne_nil {lexeme : Lexeme} {spelling : List Char} (h : lexeme.Spelled spelling) :
    spelling ≠ [] := by
  cases h with
  | word hword =>
    rintro rfl
    cases hword
  | integer hdigits => exact hdigits.1
  | real | quoted | single | double => simp

/-! ## The first character -/

theorem startsWord_of_isDigit {c : Char} (h : c.isDigit = true) : startsWord c = false := by
  have hlt : c.toNat < 0x41 :=
    Nat.lt_of_le_of_lt (Char.isDigit_iff_toNat.mp h).2 (by decide)
  have hletter : Text.isLetter c = false := by
    -- the first range of letters starts behind all digits
    show (decide (0x41 ≤ c.toNat) && _) = false
    rw [decide_eq_false (by omega), Bool.false_and]
  have hline : (c == '_') = false := by
    rw [beq_eq_false_iff_ne]
    rintro rfl
    exact absurd hlt (by decide)
  unfold startsWord
  rw [hletter, hline, Bool.false_or]

theorem ne_quote_of_startsWord {c : Char} (h : startsWord c = true) : c ≠ '"' := by
  rintro rfl
  exact absurd h (by decide +kernel)

theorem ne_quote_of_isDigit {c : Char} (h : c.isDigit = true) : c ≠ '"' := by
  rintro rfl
  exact absurd h (by decide)

/-- Starts neither a word nor a number nor a quotation. -/
def startsMark (c : Char) : Bool :=
  !startsWord c && !c.isDigit && c != '"'

theorem startsMark_of_mem_singleMarks : ∀ c ∈ singleMarks, startsMark c = true :=
  List.all_eq_true.mp (by decide +kernel)

theorem startsMark_of_mem_doubleMarks : ∀ pair ∈ doubleMarks, startsMark pair.1 = true :=
  List.all_eq_true.mp (by decide +kernel)

theorem scan_of_startsMark {c : Char} (h : startsMark c = true) (text : List Char) :
    scan c text = scanMark c text := by
  simp only [startsMark, Bool.and_eq_true, Bool.not_eq_true', bne_iff_ne] at h
  obtain ⟨⟨hword, hdigit⟩, hquote⟩ := h
  unfold scan
  simp [hword, hdigit, hquote]

theorem scan_of_isDigit {c : Char} (h : c.isDigit = true) (text : List Char) :
    scan c text = scanNumber (c :: text) := by
  unfold scan
  rw [if_neg (ne_quote_of_isDigit h), if_neg (by simp [startsWord_of_isDigit h]), if_pos h]

/-! ## Numerals -/

section

variable {digits rest : List Char}

theorem scanNumber_whole (hdigits : IsDigits digits) (hrest : rest.takeWhile Char.isDigit = [])
    (hfraction : fractionDigits rest = []) :
    scanNumber (digits ++ rest) = (digits.length,
      (Number.readInt64? digits).elim (.error (.invalid digits)) fun value =>
        .ok (integer value)) := by
  unfold scanNumber
  dsimp only
  rw [takeWhile_append_of_forall hdigits.2 hrest, List.drop_left, if_pos hfraction]
  cases Number.readInt64? digits <;> rfl

theorem scanNumber_real {fraction : List Char} (hdigits : IsDigits digits)
    (hfraction : IsDigits fraction) (hrest : rest.takeWhile Char.isDigit = []) :
    scanNumber (digits ++ '.' :: (fraction ++ rest)) = ((digits ++ '.' :: fraction).length,
      (Number.readReal? (digits ++ '.' :: fraction)).elim
        (.error (.invalid (digits ++ '.' :: fraction))) fun value => .ok (real value)) := by
  have htake : fractionDigits ('.' :: (fraction ++ rest)) = fraction :=
    takeWhile_append_of_forall hfraction.2 hrest
  have hpoint : ('.' :: (fraction ++ rest)).takeWhile Char.isDigit = [] := rfl
  unfold scanNumber
  dsimp only
  rw [takeWhile_append_of_forall hdigits.2 hpoint, List.drop_left, htake, if_neg hfraction.1]
  cases Number.readReal? (digits ++ '.' :: fraction) <;> rfl

end

/-! ## Quotations -/

theorem scanQuoted_closed {body : List Char} (hbody : ∀ c ∈ body, staysQuoted c = true)
    (rest : List Char) :
    scanQuoted (body ++ '"' :: rest) = (body.length + 1, .ok (quoted (String.ofList body))) := by
  have htake : (body ++ '"' :: rest).takeWhile (fun c => c != '"' && c != '\n') = body :=
    takeWhile_append_of_forall hbody rfl
  unfold scanQuoted
  dsimp only
  rw [htake, List.drop_left]
  rfl

/-- A quotation that is open at the end of its line takes that end. -/
theorem scanQuoted_broken {body : List Char} (hbody : ∀ c ∈ body, staysQuoted c = true)
    (rest : List Char) :
    scanQuoted (body ++ '\n' :: rest) = (body.length + 1, .error .unterminated) := by
  have htake : (body ++ '\n' :: rest).takeWhile (fun c => c != '"' && c != '\n') = body :=
    takeWhile_append_of_forall hbody rfl
  unfold scanQuoted
  dsimp only
  rw [htake, List.drop_left]
  rfl

theorem scanQuoted_open {body : List Char} (hbody : ∀ c ∈ body, staysQuoted c = true) :
    scanQuoted body = (body.length, .error .unterminated) := by
  have htake : body.takeWhile (fun c => c != '"' && c != '\n') = body :=
    List.takeWhile_eq_self_iff.mpr hbody
  unfold scanQuoted
  dsimp only
  rw [htake, List.drop_length]

/-! ## Reading what is spelled -/

theorem scan_of_spelled {lexeme : Lexeme} {spelling rest : List Char}
    (hspelled : lexeme.Spelled spelling) (hends : lexeme.EndsBefore rest) {c : Char}
    {text : List Char} (htext : c :: text = spelling ++ rest) :
    scan c text = (spelling.length, .ok lexeme) := by
  cases hspelled with
  | @word spelling hword =>
    obtain ⟨first, others, rfl⟩ := List.exists_cons_of_ne_nil (Spelled.word hword).ne_nil
    obtain ⟨rfl, rfl⟩ := List.cons.inj htext
    rw [isWord, Bool.and_eq_true, List.all_eq_true] at hword
    have htake : (others ++ rest).takeWhile continuesWord = others :=
      takeWhile_append_of_forall hword.2 hends
    unfold scan
    rw [if_neg (ne_quote_of_startsWord hword.1), if_pos hword.1, List.append_eq, htake]
  | @integer _ value hdigits hvalue =>
    have hfirst : c.isDigit = true := by
      obtain ⟨first, others, rfl⟩ := List.exists_cons_of_ne_nil hdigits.1
      obtain ⟨rfl, -⟩ := List.cons.inj htext
      exact hdigits.2 c List.mem_cons_self
    have hread := (Number.readInt64?_eq_some hdigits).mpr hvalue
    rw [scan_of_isDigit hfirst, htext, scanNumber_whole hdigits hends.1 hends.2, hread,
      Option.elim_some]
  | @real whole fraction value hwhole hfraction hvalue =>
    have hfirst : c.isDigit = true := by
      obtain ⟨first, others, rfl⟩ := List.exists_cons_of_ne_nil hwhole.1
      obtain ⟨rfl, -⟩ := List.cons.inj htext
      exact hwhole.2 c List.mem_cons_self
    rw [scan_of_isDigit hfirst, htext, List.append_assoc, List.cons_append,
      scanNumber_real hwhole hfraction hends, hvalue, Option.elim_some]
  | @quoted body hbody =>
    obtain ⟨rfl, rfl⟩ := List.cons.inj htext
    unfold scan
    rw [if_pos rfl, List.append_eq, List.append_assoc, List.singleton_append,
      scanQuoted_closed hbody]
    simp
  | single hc =>
    obtain ⟨rfl, rfl⟩ := List.cons.inj htext
    have hnone : text.head?.filter (fun d => (c, d) ∈ doubleMarks) = none := by
      rw [Option.filter_eq_none_iff]
      intro d hd
      simpa using hends c d (String.toList_ofList) hd
    rw [scan_of_startsMark (startsMark_of_mem_singleMarks c hc)]
    unfold scanMark
    rw [hnone]
    exact if_pos hc
  | @double _ d hmark =>
    obtain ⟨rfl, rfl⟩ := List.cons.inj htext
    rw [scan_of_startsMark (startsMark_of_mem_doubleMarks _ hmark)]
    have hsome : (d :: rest).head?.filter (fun d => (c, d) ∈ doubleMarks) = some d := by
      simp [hmark]
    unfold scanMark
    rw [List.append_eq, List.singleton_append, hsome]
    rfl

/-! ## What is taken -/

/-- What can be found in front of a text, by the characters that it takes. A quotation without its
end takes the end of its line, and a character that starts nothing is not taken. -/
inductive Scans : List Char → List Char → Except Fault Lexeme → Prop
  | found {lexeme : Lexeme} {spelling rest : List Char} (hspelled : lexeme.Spelled spelling)
    (hends : lexeme.EndsBefore rest) : Scans spelling rest (.ok lexeme)
  | invalid {literal rest : List Char} (hliteral : IsNumeral literal) :
    Scans literal rest (.error (.invalid literal))
  | unterminated {body ending rest : List Char} (hbody : ∀ c ∈ body, staysQuoted c = true)
    (hending : ending = ['\n'] ∨ ending = [] ∧ rest = []) :
    Scans ('"' :: (body ++ ending)) rest (.error .unterminated)
  | unexpected {c : Char} {rest : List Char} (hstart : startsMark c = true)
    (hsingle : c ∉ singleMarks) : Scans [] (c :: rest) (.error (.unexpected c))

/-- The text is cut into what is taken, as many characters as the result says, and the rest. -/
def Cuts (text : List Char) (result : Nat × Except Fault Lexeme) : Prop :=
  ∃ taken rest, text = taken ++ rest ∧ result.1 = taken.length ∧ Scans taken rest result.2

theorem Scans.cuts {taken rest : List Char} {result : Except Fault Lexeme}
    (h : Scans taken rest result) : Cuts (taken ++ rest) (taken.length, result) :=
  ⟨taken, rest, rfl, rfl, h⟩

theorem cuts_quoted (text : List Char) :
    Cuts ('"' :: text) ((scanQuoted text).1 + 1, (scanQuoted text).2) := by
  obtain ⟨body, rest, rfl, hbody, hrest⟩ := exists_stretch staysQuoted text
  cases rest with
  | nil =>
    have hscan := scanQuoted_open hbody
    rw [List.append_nil, hscan]
    exact ⟨_, [], by simp, by simp, .unterminated hbody (.inr ⟨rfl, rfl⟩)⟩
  | cons c rest =>
    have hc : c = '"' ∨ c = '\n' := by
      by_contra hother
      have hstays : staysQuoted c = true := by
        simpa [staysQuoted] using not_or.mp hother
      rw [List.takeWhile_cons_of_pos hstays] at hrest
      cases hrest
    obtain rfl | rfl := hc
    · rw [scanQuoted_closed hbody]
      exact ⟨'"' :: (body ++ ['"']), rest, by simp, by simp, .found (.quoted hbody) trivial⟩
    · rw [scanQuoted_broken hbody]
      exact ⟨'"' :: (body ++ ['\n']), rest, by simp, by simp, .unterminated hbody (.inl rfl)⟩

theorem cuts_word {c : Char} (hc : startsWord c = true) (text : List Char) :
    Cuts (c :: text) ((c :: text.takeWhile continuesWord).length,
      .ok (word (String.ofList (c :: text.takeWhile continuesWord)))) := by
  obtain ⟨body, rest, rfl, hbody, hrest⟩ := exists_stretch continuesWord text
  rw [takeWhile_append_of_forall hbody hrest]
  have hword : isWord (c :: body) = true := by
    rw [isWord, hc, Bool.true_and, List.all_eq_true]
    exact hbody
  exact Scans.cuts (.found (.word hword) hrest)

theorem cuts_number {c : Char} (hc : c.isDigit = true) (text : List Char) :
    Cuts (c :: text) (scanNumber (c :: text)) := by
  obtain ⟨whole, rest, htext, hdigits, hrest⟩ := exists_stretch Char.isDigit (c :: text)
  rw [htext]
  have hwhole : IsDigits whole := by
    refine ⟨?_, hdigits⟩
    rintro rfl
    rw [List.nil_append] at htext
    rw [← htext, List.takeWhile_cons_of_pos hc] at hrest
    cases hrest
  by_cases hfraction : fractionDigits rest = []
  · rw [scanNumber_whole hwhole hrest hfraction]
    cases hread : Number.readInt64? whole with
    | some value =>
      have hvalue := (Number.readInt64?_eq_some hwhole).mp hread
      exact Scans.cuts (.found (.integer hwhole hvalue) ⟨hrest, hfraction⟩)
    | none => exact Scans.cuts (.invalid (.inl hwhole))
  · obtain ⟨tail, rfl⟩ : ∃ tail, rest = '.' :: tail := by
      unfold fractionDigits at hfraction
      split at hfraction
      · exact ⟨_, rfl⟩
      · exact absurd rfl hfraction
    obtain ⟨fraction, rest, rfl, hall, hbehind⟩ := exists_stretch Char.isDigit tail
    have hfraction : IsDigits fraction := by
      refine ⟨?_, hall⟩
      rintro rfl
      exact hfraction hbehind
    rw [scanNumber_real hwhole hfraction hbehind]
    have htaken : whole ++ '.' :: (fraction ++ rest) = (whole ++ '.' :: fraction) ++ rest := by simp
    rw [htaken]
    cases hread : Number.readReal? (whole ++ '.' :: fraction) with
    | some value => exact Scans.cuts (.found (.real hwhole hfraction hread) hbehind)
    | none => exact Scans.cuts (.invalid (.inr ⟨whole, fraction, hwhole, hfraction, rfl⟩))

theorem cuts_mark {c : Char} (hc : startsMark c = true) (text : List Char) :
    Cuts (c :: text) (scanMark c text) := by
  unfold scanMark
  split
  · next d hd =>
    obtain ⟨hhead, hmark⟩ := Option.filter_eq_some_iff.mp hd
    obtain ⟨rest, rfl⟩ := List.head?_eq_some_iff.mp hhead
    exact Scans.cuts (.found (.double (of_decide_eq_true hmark)) fun _ _ hone => by simp at hone)
  · next hnone =>
    split_ifs with hsingle
    · refine Scans.cuts (.found (.single hsingle) fun first d hfirst hd => ?_)
      obtain rfl : c = first := by simpa using hfirst
      have hmark := Option.filter_eq_none_iff.mp hnone d hd
      simpa using hmark
    · exact Scans.cuts (.unexpected hc hsingle)

theorem cuts_scan (c : Char) (text : List Char) : Cuts (c :: text) (scan c text) := by
  unfold scan
  split_ifs with hquote hword hdigit
  · subst hquote
    exact cuts_quoted text
  · exact cuts_word hword text
  · exact cuts_number hdigit text
  · exact cuts_mark (by simp [startsMark, hquote, hword, hdigit]) text

theorem scan_length_le (c : Char) (text : List Char) :
    (scan c text).1 ≤ (c :: text).length := by
  obtain ⟨taken, rest, htext, hcount, -⟩ := cuts_scan c text
  rw [hcount, htext, List.length_append]
  exact Nat.le_add_right _ _

end Lexeme

end LineGrammar
