import LineGrammar.Proofs.Parse.Acceptance
import LineGrammar.Proofs.Parse.Closing
import LineGrammar.Proofs.Parse.Recursion

/-!
# No parse is ever complete

Each alternative of the start symbol ends with the end of the input, and no token belongs to that. So
what reads the rest of such an alternative leaves it unsettled (`Reads.settled_lt`), and the root of
a parse is complete after no line, whatever was read (`Parse.incomplete_run`). Each accepted line is
answered by asking for more input, also the one that ends a sentence which no longer one begins with
(`Parse.tellsEnd_iff`).
-/

namespace LineGrammar.Grammar

open LineGrammar.Tree

variable {grammar : Grammar} {line furthest : Nat} {symbols : List String} {token : Token}
  {tokens : List Token} {stretch : Stretch}

/-! ## Reading -/

/-- Symbols among which is the end of the input are never all settled. -/
theorem Reads.settled_lt (hend : grammar.isTerminal endOfInput = true)
    (h : Reads grammar line tokens symbols stretch) (hmem : endOfInput ∈ symbols) :
    stretch.settled < symbols.length := by
  induction h with
  | done => cases hmem
  | empty _ ih =>
    have hne : endOfInput ≠ emptyText := by decide
    exact Nat.succ_lt_succ (ih (List.mem_of_ne_of_mem hne hmem))
  | short | inside => exact Nat.zero_lt_succ _
  | terminal hsymbol hterminal haccepts _ ih =>
    have hne := Spells.ne_endOfInput ⟨hterminal, hsymbol, haccepts⟩
    exact Nat.succ_lt_succ (ih (List.mem_of_ne_of_mem hne.symm hmem))
  | @symbol symbol _ _ _ _ _ _ _ _ hterminal _ _ _ _ _ ih =>
    have hne : endOfInput ≠ symbol := by
      rintro rfl
      simp [hend] at hterminal
    exact Nat.succ_lt_succ (ih (List.mem_of_ne_of_mem hne hmem))

theorem completion_of_readOn {node : Tree} {extension : Extension}
    (hend : grammar.isTerminal endOfInput = true)
    (hlast : ∀ body ∈ grammar.alternatives node.symbol, body.getLast? = some endOfInput)
    (hread : (grammar.readOn line node.symbol node.children tokens).1 = some extension) :
    extension.completion ≠ .complete := by
  obtain ⟨alternative, hmem, stretch, ⟨unread, rfl⟩, hlength, hreads, -, -, hfits⟩ :=
    extends_of_readOn hread
  rw [List.drop_left] at hreads
  have hne : unread ≠ [] := by
    rintro rfl
    simp at hlength
  have hunread : unread.getLast? = some endOfInput := by
    have halternative := hlast _ hmem
    rwa [List.getLast?_append_of_ne_nil _ hne] at halternative
  have hlt := hreads.settled_lt hend (List.mem_of_getLast? hunread)
  rw [Completion.Fits, List.length_append] at hfits
  exact fun hcomplete => absurd (hfits.mp hcomplete) (by omega)

/-! ## Growing -/

theorem completion_modifyAt {path : Path} (hpath : path ≠ []) (change : Tree → Tree) (tree : Tree) :
    (tree.modifyAt change path).completion = tree.completion := by
  obtain ⟨index, path, rfl⟩ := List.exists_cons_of_ne_nil hpath
  rw [modifyAt_cons]

section

variable (hend : grammar.isTerminal endOfInput = true)
include hend

theorem completion_grow (line : Nat) (token : Token) (tokens : List Token) (furthest : Nat)
    (growth : Growth)
    (hlast : ∀ body ∈ grammar.alternatives growth.tree.symbol, body.getLast? = some endOfInput)
    (h : growth.tree.completion ≠ .complete) :
    (grammar.grow line token tokens furthest growth).1.tree.completion ≠ .complete := by
  fun_induction grow grammar line token tokens furthest growth with
  | case1 => exact h
  | case2 furthest growth path node hpoint found further hread extension hfilter =>
    have hnode := (growthPoint?_spec hpoint).1
    have hfound := (Option.filter_eq_some_iff.mp hfilter).1
    by_cases hpath : path = []
    · subst hpath
      obtain rfl : growth.tree = node := by simpa [nodeAt?] using hnode
      rw [Growth.extend, modifyAt_nil]
      exact completion_of_readOn hend hlast (by rw [hread, hfound])
    · rwa [Growth.extend, completion_modifyAt hpath]
  | case3 => exact h
  | case4 furthest growth path node hpoint found further hread _ hfilter hpath ih =>
    -- the root is never marked
    refine ih ?_ ?_
    · rwa [Growth.markComplete, symbol_modifyAt Tree.markComplete fun _ => rfl]
    · rwa [Growth.markComplete, completion_modifyAt hpath]

theorem completion_growAll (line : Nat) (growth : Growth) (tokens : List Token)
    (hlast : ∀ body ∈ grammar.alternatives growth.tree.symbol, body.getLast? = some endOfInput)
    (h : growth.tree.completion ≠ .complete) :
    (grammar.growAll line growth tokens).1.tree.completion ≠ .complete := by
  fun_induction growAll grammar line growth tokens with
  | case1 => exact h
  | case2 growth token tokens grown error hgrow =>
    have hgrown := completion_grow hend line token tokens 0 growth hlast h
    rwa [hgrow] at hgrown
  | case3 growth token tokens grown consumed hgrow ih =>
    have hgrown := completion_grow hend line token tokens 0 growth hlast h
    have hsymbol := symbol_grow grammar line token tokens 0 growth
    rw [hgrow] at hgrown hsymbol
    refine ih ?_ ?_
    · rwa [Growth.closeFinished, closeFinished_eq, hsymbol]
    · rwa [Growth.closeFinished, closeFinished_eq]

end

/-! ## Sentences -/

/-- The tokens belong to the terminals of a sentence, one to each. -/
def IsSentence (grammar : Grammar) (tokens : List Token) : Prop :=
  ∃ start word, grammar.start? = some start ∧ Derives grammar.Writes [start] word ∧
    List.Forall₂ grammar.Spells word tokens

/-- The tokens are a sentence, and no longer one begins with them. -/
def IsLastSentence (grammar : Grammar) (tokens : List Token) : Prop :=
  grammar.IsSentence tokens ∧ ∀ more, grammar.IsSentence (tokens ++ more) → more = []

end LineGrammar.Grammar

namespace LineGrammar.Parse

open Grammar

variable {grammar written : Grammar} {parse : Parse}

/-- The answer to a line that fits tells whether the root is complete behind it. -/
theorem eq_not_isComplete_of_feed {line : List Token} {more : Bool}
    (h : (parse.feed grammar line).2 = .ok more) :
    more = !(parse.feed grammar line).1.isComplete := by
  unfold feed at h ⊢
  split_ifs at h ⊢
  · exact (Except.ok.inj h).symm
  · cases hstart : grammar.start? with
    | none => simp [hstart] at h
    | some start =>
      rw [hstart] at h
      dsimp only at h ⊢
      split at h
      · simp at h
      · exact (Except.ok.inj h).symm

/-- The root of the parse is one of the start symbol, and not complete. -/
structure Incomplete (grammar : Grammar) (parse : Parse) : Prop where
  proper : parse.Proper grammar
  completion : ∀ root ∈ parse.root, root.completion ≠ .complete

theorem incomplete_fresh (grammar : Grammar) (row : Nat) :
    (⟨none, row⟩ : Parse).Incomplete grammar :=
  ⟨proper_fresh grammar row, fun root hroot => by simp at hroot⟩

theorem Incomplete.isComplete_eq (h : parse.Incomplete grammar) : parse.isComplete = false := by
  unfold isComplete
  split
  · next root hroot => simpa using h.completion root hroot
  · rfl

section

variable (hend : written.freeze.isTerminal endOfInput = true)
include hend

theorem incomplete_feed (h : parse.Incomplete written.freeze) (line : List Token) :
    (parse.feed written.freeze line).1.Incomplete written.freeze := by
  refine ⟨proper_feed h.proper line, ?_⟩
  rcases parse.feed_cases written.freeze line with
    ⟨hroot, -⟩ | ⟨start, growth, -, hstart, hgrow, hroot⟩
  · rw [hroot]
    exact h.completion
  · rw [hroot]
    rintro root ⟨⟩
    have hgrown := completion_growAll hend (parse.line + 1)
      { tree := parse.root.getD (.branch start (parse.line + 1)) } line ?_ ?_
    · rwa [hgrow] at hgrown
    · intro body hbody
      rw [(h.proper.getD hstart (parse.line + 1)).2.1] at hbody
      have hwritten : written.start? = some start := hstart
      obtain ⟨alternative, -, rfl⟩ := (mem_alternatives_freeze_start hwritten).mp hbody
      exact getLast?_terminated alternative
    · cases hbefore : parse.root with
      | none => exact Completion.noConfusion
      | some root => exact h.completion root hbefore

/-- **No line completes the root.** Whatever lines are fed, the root is not complete, and each line
that fits is answered by asking for more input. -/
theorem incomplete_run (h : parse.Incomplete written.freeze) (lines : List (List Token)) :
    (run (feed · written.freeze) parse lines).1.Incomplete written.freeze ∧
      .ok false ∉ (run (feed · written.freeze) parse lines).2 := by
  induction lines generalizing parse with
  | nil => exact ⟨h, List.not_mem_nil⟩
  | cons line lines ih =>
    have hfed := incomplete_feed hend h line
    obtain ⟨hafter, hanswers⟩ := ih hfed
    refine ⟨hafter, ?_⟩
    rw [run]
    refine List.not_mem_cons_of_ne_of_not_mem (fun hanswer => ?_) hanswers
    have hmore := eq_not_isComplete_of_feed hanswer.symm
    rw [hfed.isComplete_eq] at hmore
    cases hmore

end

/-! ## What the answers tell -/

/-- What has come of feeding the tokens tells where a sentence ends: behind one that no longer one
begins with, the root is complete and no more input is asked for, and within a sentence more input is
asked for. -/
structure TellsEnd (written : Grammar) (tokens : List Token)
    (fed : Parse × List (Except ParseError Bool)) : Prop where
  behind : written.IsLastSentence tokens →
    fed.1.isComplete = true ∧ ∀ answer ∈ fed.2.getLast?, answer = .ok false
  within : ¬written.IsSentence tokens → (∃ more, written.IsSentence (tokens ++ more)) →
    ∀ answer ∈ fed.2.getLast?, answer = .ok true

/-- **No end of a sentence is told.** The root is not complete and no line is answered by asking for
no more, so that of accepted lines those are told wrongly, and only those, that make a sentence which
no longer one begins with. -/
theorem tellsEnd_iff (written : Grammar) (hend : written.freeze.isTerminal endOfInput = true)
    (row : Nat) (lines : List (List Token)) :
    (run (feed · written.freeze) ⟨none, row⟩ lines).1.isComplete = false ∧
    .ok false ∉ (run (feed · written.freeze) ⟨none, row⟩ lines).2 ∧
    ((∀ answer ∈ (run (feed · written.freeze) ⟨none, row⟩ lines).2, ∃ more, answer = .ok more) →
      (TellsEnd written lines.flatten (run (feed · written.freeze) ⟨none, row⟩ lines) ↔
        ¬written.IsLastSentence lines.flatten)) := by
  obtain ⟨hincomplete, hanswers⟩ := incomplete_run hend (incomplete_fresh written.freeze row) lines
  refine ⟨hincomplete.isComplete_eq, hanswers, fun haccepted => ⟨fun htells hlast => ?_,
    fun hlast => ⟨fun h => absurd h hlast, fun _ _ answer hanswer => ?_⟩⟩⟩
  · have hcomplete := (htells.behind hlast).1
    rw [hincomplete.isComplete_eq] at hcomplete
    cases hcomplete
  · have hmem := List.mem_of_getLast? hanswer
    obtain ⟨more, rfl⟩ := haccepted answer hmem
    cases more with
    | true => rfl
    | false => exact absurd hmem hanswers

/-- The lines make a sentence, and still the second one is answered by asking for more input. -/
theorem tellsEnd_iff_optionalLetter :
    optionalLetterRules.freeze.isTerminal endOfInput = true ∧
      (run (feed · optionalLetterRules.freeze) {} [wordTokens ["a"], wordTokens ["b"]]).2 =
        [.ok true, .ok true] ∧
      (run (feed · optionalLetterRules.freeze) {}
        [wordTokens ["a"], wordTokens ["b"]]).1.isComplete = false ∧
      (TellsEnd optionalLetterRules [wordTokens ["a"], wordTokens ["b"]].flatten
          (run (feed · optionalLetterRules.freeze) {} [wordTokens ["a"], wordTokens ["b"]]) ↔
        ¬optionalLetterRules.IsLastSentence [wordTokens ["a"], wordTokens ["b"]].flatten) := by
  have hend : optionalLetterRules.freeze.isTerminal endOfInput = true := rfl
  have hanswers : (run (feed · optionalLetterRules.freeze) {}
      [wordTokens ["a"], wordTokens ["b"]]).2 = [.ok true, .ok true] := by cbv
  obtain ⟨hcomplete, -, htells⟩ :=
    tellsEnd_iff optionalLetterRules hend 0 [wordTokens ["a"], wordTokens ["b"]]
  refine ⟨hend, hanswers, hcomplete, htells ?_⟩
  rw [hanswers]
  simp

def letterRules : Grammar where
  nonTerminals := ["S"]
  terminals := ["a", "$", "#"]
  rules := [("S", [["a"]])]

/-- The letter is accepted, and it is all that can be written; still more input is asked for. -/
theorem not_tellsEnd_letter :
    (∃ draft, ({} : Draft).feedText "S # a # S -> a # ##" = (draft, .ok ()) ∧
      draft.grammar? = .ok letterRules.freeze) ∧
    (run (feed · letterRules.freeze) {} [wordTokens ["a"]]).2 = [.ok true] ∧
    letterRules.IsLastSentence [wordTokens ["a"]].flatten ∧
    ¬TellsEnd letterRules [wordTokens ["a"]].flatten
      (run (feed · letterRules.freeze) {} [wordTokens ["a"]]) := by
  have hwrites : letterRules.Writes "S" ["a"] := .inl (by decide)
  have hlast : letterRules.IsLastSentence [wordTokens ["a"]].flatten := by
    refine ⟨⟨"S", ["a"], rfl, .of_writes hwrites, .cons ⟨rfl, by decide, rfl⟩ .nil⟩, ?_⟩
    rintro more ⟨start, word, hstart, hderives, hspells⟩
    obtain rfl : "S" = start := Option.some.inj hstart
    have hforms : word ∈ [["S"], ["a"]] := mem_of_derives (by decide) hderives (by simp)
    have hone : word.length = 1 := by
      simp only [List.mem_cons, List.not_mem_nil, or_false] at hforms
      rcases hforms with rfl | rfl <;> rfl
    have hlength := hspells.length_eq
    rw [hone, List.length_append] at hlength
    exact List.length_eq_zero_iff.mp (Nat.left_eq_add.mp hlength)
  have hcomplete : (run (feed · letterRules.freeze) {} [wordTokens ["a"]]).1.isComplete = false := by
    cbv
  refine ⟨⟨_, rfl, rfl⟩, by cbv, hlast, fun htells => ?_⟩
  have htrue := (htells.behind hlast).1
  rw [hcomplete] at htrue
  cases htrue

end LineGrammar.Parse
