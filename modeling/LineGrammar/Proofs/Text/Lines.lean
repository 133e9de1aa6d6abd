import LineGrammar.Text.Blank
import Mathlib.Data.List.Basic

/-!
# Texts line by line

A text is its first line, the end of that line, and the rest (`exists_line`); what holds of lines and
carries over a line end holds of texts (`induction_lines`). Blanks separate words, and so do line
ends, so that the words of a text are those of its lines (`flatMap_words_lines`). Words with blanks
between them are the words of that text (`words_intercalate`).
-/

namespace LineGrammar.Text

/-- Is this the end of a line? -/
def EndsLine (ending : List Char) : Prop :=
  ending = ['\n'] ∨ ending = ['\r', '\n']

theorem EndsLine.ne_nil {ending : List Char} (h : EndsLine ending) : ending ≠ [] := by
  rcases h with rfl | rfl <;> simp

/-! ## The first line -/

theorem exists_line {text : List Char} (h : text ≠ []) :
    ∃ line ending rest, text = line ++ ending ++ rest ∧ '\n' ∉ line ∧
      lines text = line :: lines rest ∧
        (EndsLine ending ∨ line ≠ [] ∧ ending = [] ∧ rest = []) := by
  fun_induction lines text with
  | case1 => exact absurd rfl h
  | case2 text => exact ⟨[], ['\r', '\n'], text, rfl, List.not_mem_nil, rfl, .inl (.inr rfl)⟩
  | case3 text => exact ⟨[], ['\n'], text, rfl, List.not_mem_nil, rfl, .inl (.inl rfl)⟩
  | case4 c text hreturn hfeed hlines ih =>
    have hc : c ≠ '\n' := fun heq => hfeed heq
    by_cases htext : text = []
    · subst htext
      exact ⟨[c], [], [], rfl, by simpa using Ne.symm hc, rfl, .inr ⟨by simp, rfl, rfl⟩⟩
    · obtain ⟨line, ending, rest, -, -, hfirst, -⟩ := ih htext
      rw [hlines] at hfirst
      cases hfirst
  | case5 c text hreturn hfeed first others hlines ih =>
    have hc : c ≠ '\n' := fun heq => hfeed heq
    have htext : text ≠ [] := by
      rintro rfl
      cases hlines
    obtain ⟨line, ending, rest, rfl, hline, hfirst, hending⟩ := ih htext
    rw [hlines] at hfirst
    obtain ⟨rfl, rfl⟩ := List.cons.inj hfirst
    exact ⟨c :: first, ending, rest, rfl, by simp [Ne.symm hc, hline], rfl,
      hending.imp_right fun ⟨_, hlast⟩ => ⟨List.cons_ne_nil _ _, hlast⟩⟩

/-- What holds of the empty text and of a last line without an end, and of a line and its end in
front of a text of which it holds, holds of all texts. -/
theorem induction_lines {motive : List Char → Prop} (nil : motive [])
    (last : ∀ line, '\n' ∉ line → line ≠ [] → lines line = [line] → motive line)
    (ended : ∀ line ending rest, '\n' ∉ line → EndsLine ending →
      lines (line ++ ending ++ rest) = line :: lines rest → motive rest →
        motive (line ++ ending ++ rest))
    (text : List Char) : motive text := by
  by_cases hnil : text = []
  · rwa [hnil]
  · obtain ⟨line, ending, rest, rfl, hline, hlines, hending | ⟨hne, rfl, rfl⟩⟩ := exists_line hnil
    · have := List.length_pos_of_ne_nil hending.ne_nil
      exact ended line ending rest hline hending hlines (induction_lines nil last ended rest)
    · simp only [List.append_nil] at hlines ⊢
      exact last line hline hne hlines
termination_by text.length
decreasing_by subst_vars; simp only [List.length_append]; omega

/-! ## Words -/

theorem consWord_append (word : List Char) (words others : List (List Char)) :
    consWord word (words ++ others) = consWord word words ++ others := by
  unfold consWord
  split <;> rfl

theorem firstWord_append_blank {c : Char} (hc : isBlank c = true) (text rest : List Char) :
    firstWord (text ++ c :: rest) = ((firstWord text).1, (firstWord text).2 ++ words rest) := by
  induction text with
  | nil => simp [firstWord, hc, words]
  | cons d text ih =>
    rw [List.cons_append, firstWord, ih, firstWord]
    dsimp only
    split
    · rw [consWord_append]
    · rfl

theorem words_append_blank {c : Char} (hc : isBlank c = true) (text rest : List Char) :
    words (text ++ c :: rest) = words text ++ words rest := by
  rw [words, firstWord_append_blank hc, consWord_append]
  rfl

theorem words_append_blanks {gap : List Char} (hne : gap ≠ [])
    (hgap : ∀ c ∈ gap, isBlank c = true) (text rest : List Char) :
    words (text ++ gap ++ rest) = words text ++ words rest := by
  induction gap generalizing text with
  | nil => exact absurd rfl hne
  | cons c gap ih =>
    have hc : isBlank c = true := hgap c List.mem_cons_self
    by_cases hlast : gap = []
    · rw [hlast, List.append_assoc]
      exact words_append_blank hc text rest
    · have hnone : words ([] ++ gap ++ rest) = words rest :=
        ih hlast (fun d hd => hgap d (List.mem_cons_of_mem _ hd)) []
      rw [List.append_assoc, List.cons_append, words_append_blank hc]
      exact congrArg _ hnone

theorem EndsLine.blank {ending : List Char} (h : EndsLine ending) :
    ∀ c ∈ ending, isBlank c = true := by
  rcases h with rfl | rfl
  · exact List.forall_mem_singleton.mpr rfl
  · exact List.forall_mem_cons.mpr ⟨rfl, List.forall_mem_singleton.mpr rfl⟩

theorem flatMap_words_lines (text : List Char) : (lines text).flatMap words = words text := by
  induction text using induction_lines with
  | nil => rfl
  | last line _ _ hlines => rw [hlines, List.flatMap_singleton]
  | ended line ending rest _ hending hlines ih =>
    rw [hlines, List.flatMap_cons, ih, words_append_blanks hending.ne_nil hending.blank]

/-- A word by itself: some characters without blanks. -/
def IsWord (word : List Char) : Prop :=
  word ≠ [] ∧ ∀ c ∈ word, isBlank c = false

instance (word : List Char) : Decidable (IsWord word) :=
  have : Decidable (∀ c ∈ word, isBlank c = false) := List.decidableBAll _ word
  inferInstanceAs (Decidable (word ≠ [] ∧ ∀ c ∈ word, isBlank c = false))

theorem words_of_isWord {word : List Char} (h : IsWord word) : words word = [word] := by
  have hfirst : ∀ text : List Char, (∀ c ∈ text, isBlank c = false) →
      firstWord text = (text, []) := by
    intro text htext
    induction text with
    | nil => rfl
    | cons c text ih =>
      obtain ⟨hc, hrest⟩ := List.forall_mem_cons.mp htext
      simp [firstWord, ih hrest, hc]
  rw [words, hfirst word h.2, consWord, if_neg (by simpa using h.1)]

theorem words_intercalate {gap : List Char} (hne : gap ≠ [])
    (hgap : ∀ c ∈ gap, isBlank c = true) {list : List (List Char)}
    (hlist : ∀ word ∈ list, IsWord word) : words (gap.intercalate list) = list := by
  induction list with
  | nil => rfl
  | cons word list ih =>
    obtain ⟨hword, hrest⟩ := List.forall_mem_cons.mp hlist
    cases list with
    | nil => simpa using words_of_isWord hword
    | cons next list =>
      rw [List.intercalate_cons_cons, words_append_blanks hne hgap, words_of_isWord hword, ih hrest]
      rfl

end LineGrammar.Text
