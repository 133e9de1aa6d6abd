import LineGrammar.Proofs.Grammar.LeadingText
import LineGrammar.Proofs.Parse.Taking

/-!
# Start symbols that recur

Freezing ends the alternatives of the start symbol with the end of the input. So an occurrence of the
start symbol in a body takes either all tokens that are left or none, where the rules as they were
written may take some of them and leave the others to what stands behind. With a fresh start symbol
in front the written rules apply.

Both ways, what is taken is told symbol by symbol (`Led.alike_taken`): it is the same, or it is not
all and what stands behind can take none of the tokens. This holds as long as no token of the line
belongs to a terminal that follows the start symbol, since such a terminal only could take over
where the start symbol has left tokens.
-/

namespace LineGrammar.Grammar

/-- The rule keys that the form begins with are free. -/
def Available (written : Grammar) (free form : List String) : Prop :=
  ∀ key ∈ written.ruleKeys, Begins written.Writes form key → key ∈ free

/-- The form begins with no terminal that one of the tokens belongs to. -/
def Bars (written : Grammar) (line : List Token) (form : List String) : Prop :=
  ∀ terminal, ∀ token ∈ line, written.Spells terminal token → ¬Begins written.Writes form terminal

/-- No token belongs to a terminal that stands behind the key. -/
def Clears (written : Grammar) (line : List Token) (key : String) : Prop :=
  ∀ terminal, ∀ token ∈ line, written.Spells terminal token → ¬written.Follows key terminal

/-- As many of the tokens are taken, or neither time all of them, and what is behind takes none. -/
def Alike (written : Grammar) (line tokens : List Token) (behind : List String)
    (count other : Option Nat) : Prop :=
  count = other ∨
    count ≠ some tokens.length ∧ other ≠ some tokens.length ∧ written.Bars line behind

variable {grammar written : Grammar} {fresh start key symbol : String} {row offset : Nat}
  {free others form symbols behind : List String} {line tokens later : List Token} {token : Token}
  {count other : Option Nat}

theorem Spells.ne_endOfInput (h : grammar.Spells symbol token) : symbol ≠ endOfInput := by
  rintro rfl
  simp [Spells, accepts] at h

/-! ## What is free -/

theorem available_ruleKeys (h : grammar.Carries written fresh) (form : List String) :
    written.Available grammar.ruleKeys form :=
  fun _ hkey _ => h.ruleKeys hkey

theorem Available.tail (h : written.Available free (symbol :: symbols))
    (hsymbol : Vanishing written.Writes symbol) : written.Available free symbols :=
  fun key hkey hbegins => h key hkey (begins_cons.mpr (.inr ⟨vanishes_singleton hsymbol, hbegins⟩))

/-- Where no key recurs on the left, all that an alternative begins with is free but for its key. -/
theorem Available.erase (h : written.Available free (key :: symbols))
    (hleft : written.WithoutLeftRecursion) {body : List String}
    (hbody : body ∈ written.alternatives key) : written.Available (free.erase key) body := by
  intro other hother hbegins
  have hne : other ≠ key := by
    rintro rfl
    exact hleft other body hbody hbegins
  exact (List.mem_erase_of_ne hne).mpr
    (h other hother (begins_cons_of_writes (.inl hbody) hbegins))

/-! ## What is behind -/

theorem Bars.of_append (h : written.Bars line (symbols ++ behind))
    (hsymbols : Vanishes written.Writes symbols) : written.Bars line behind :=
  fun terminal token htoken hspells hbegins =>
    h terminal token htoken hspells (begins_append.mpr (.inr ⟨hsymbols, hbegins⟩))

theorem Clears.bars (h : written.Clears line key) (hstands : written.Stands (key :: behind)) :
    written.Bars line behind := by
  rintro terminal token htoken hspells ⟨rest, hderives⟩
  exact h terminal token htoken hspells
    (.inl ⟨rest, hstands.derives (hderives.append_left [key])⟩)

namespace Alike

theorem eq_length_iff (h : written.Alike line tokens behind count other) :
    count = some tokens.length ↔ other = some tokens.length := by
  rcases h with rfl | ⟨hcount, hother, -⟩
  · exact Iff.rfl
  · exact iff_of_false hcount hother

theorem of_bars (h : count = some tokens.length ↔ other = some tokens.length)
    (hbars : written.Bars line behind) : written.Alike line tokens behind count other := by
  by_cases hcount : count = some tokens.length
  · exact .inl (hcount.trans (h.mp hcount).symm)
  · exact .inr ⟨hcount, mt h.mpr hcount, hbars⟩

theorem of_some (hcount : ∀ taken, count = some taken →
      taken ≠ tokens.length ∧ written.Bars line behind)
    (hother : ∀ taken, other = some taken →
      taken ≠ tokens.length ∧ written.Bars line behind) :
    written.Alike line tokens behind count other := by
  by_cases hnone : count = none ∧ other = none
  · exact .inl (hnone.1.trans hnone.2.symm)
  · refine .inr ⟨fun hall => (hcount _ hall).1 rfl, fun hall => (hother _ hall).1 rfl, ?_⟩
    cases count with
    | some taken => exact (hcount taken rfl).2
    | none =>
      cases other with
      | some taken => exact (hother taken rfl).2
      | none => exact absurd ⟨rfl, rfl⟩ hnone

theorem map_add {before : Nat} (h : written.Alike line (tokens.drop before) behind count other)
    (hle : before ≤ tokens.length) :
    written.Alike line tokens behind (count.map (before + ·)) (other.map (before + ·)) := by
  have hne : ∀ count : Option Nat, count ≠ some (tokens.drop before).length →
      count.map (before + ·) ≠ some tokens.length := by
    intro count hcount hall
    obtain ⟨left, rfl, hleft⟩ := Option.map_eq_some_iff.mp hall
    rw [List.length_drop] at hcount
    exact hcount (congrArg some (by omega))
  rcases h with rfl | ⟨hcount, hother, hbars⟩
  · exact .inl rfl
  · exact .inr ⟨hne count hcount, hne other hother, hbars⟩

end Alike

/-! ## Symbols -/

theorem taken_endOfInput (hend : grammar.isTerminal endOfInput = true) (free : List String)
    (offset : Nat) (token : Token) (later : List Token) :
    grammar.taken row free offset (token :: later) [endOfInput] = none := by
  rw [taken_terminal (by decide) hend, if_neg]
  simp [accepts]

theorem taken_terminated (h : grammar.WellFormed) (hend : grammar.isTerminal endOfInput = true)
    (body : Alternative) :
    grammar.taken row free offset tokens (terminated body) = some tokens.length ↔
      grammar.taken row free offset tokens body = some tokens.length := by
  unfold terminated
  split
  · exact Iff.rfl
  · rw [taken_append_end h (taken_endOfInput hend)]
    split
    · next hall => exact iff_of_true rfl hall
    · next hall => exact iff_of_false (by simp) hall

theorem taken_ruleless (h : grammar.Carries written fresh) (hne : symbol ≠ emptyText)
    (hterminal : written.isTerminal symbol = false) (hsymbol : symbol ≠ fresh)
    (hkey : symbol ∉ written.ruleKeys) :
    grammar.taken row free offset (token :: later) (symbol :: symbols) = none := by
  rw [← h.isTerminal] at hterminal
  by_cases hfree : symbol ∈ free
  · have hnone : grammar.most row (free.erase symbol) offset (token :: later) symbol = none := by
      refine most_eq_none.mpr fun body hbody => ?_
      obtain ⟨alternative, halternative, -⟩ := h.alternatives symbol hsymbol body hbody
      exact absurd (mem_ruleKeys_of_mem_alternatives halternative) hkey
    rw [taken_key h.wellFormed hne hterminal hfree, hnone]
    rfl
  · exact taken_unknown hne hterminal hfree

namespace Led

variable (h : written.Led fresh start)
include h

section

variable (hcarries : grammar.Carries written fresh)
include hcarries

omit h in
theorem spells_of_carries (hspells : grammar.Spells symbol token) :
    written.Spells symbol token := by
  unfold Spells at *
  rwa [hcarries.isTerminal, hcarries.accepts] at hspells

theorem taken_of_bars (hbars : written.Bars line (symbols ++ behind)) (hfresh : fresh ∉ symbols)
    (htoken : token ∈ line) {taken : Nat}
    (htaken : grammar.taken row free offset (token :: later) symbols = some taken) :
    taken = 0 ∧ Vanishes written.Writes symbols := by
  have hzero : taken = 0 := by
    refine Nat.eq_zero_of_not_pos fun hpos => ?_
    obtain ⟨terminal, hspells, hbegins⟩ := begins_of_taken htaken hpos
    have hnext : terminal ≠ endOfInput := hspells.ne_endOfInput
    exact hbars terminal token htoken (spells_of_carries hcarries hspells)
      (begins_append.mpr (.inl (h.begins hcarries hbegins hfresh hnext)))
  subst hzero
  exact ⟨rfl, h.vanishes hcarries (vanishes_of_taken htaken) hfresh⟩

theorem taken_key_of_bars (hne : key ≠ emptyText) (hterminal : grammar.isTerminal key = false)
    (hfree : key ∈ free) (hbars : written.Bars line (symbols ++ behind)) (hfresh : fresh ∉ symbols)
    (hline : token :: later ⊆ line)
    (hmost : grammar.most row (free.erase key) offset (token :: later) key ≠
      some (token :: later).length) {taken : Nat}
    (htaken : grammar.taken row free offset (token :: later) (key :: symbols) = some taken) :
    taken ≠ (token :: later).length ∧ written.Bars line behind := by
  rw [taken_key hcarries.wellFormed hne hterminal hfree] at htaken
  obtain ⟨count, hcount, hrest⟩ := Option.bind_eq_some_iff.mp htaken
  have hall : count ≠ (token :: later).length := by
    rintro rfl
    exact hmost hcount
  rw [if_neg hall] at hrest
  obtain ⟨more, hmore, rfl⟩ := Option.map_eq_some_iff.mp hrest
  have hle : count ≤ (token :: later).length := most_le hcount
  obtain ⟨next, behindNext, hdrop⟩ : ∃ next rest, (token :: later).drop count = next :: rest := by
    rw [← List.ne_nil_iff_exists_cons, ← List.length_pos_iff, List.length_drop]
    omega
  have hnext : next ∈ line :=
    hline (List.mem_of_mem_drop (hdrop ▸ List.mem_cons_self))
  rw [hdrop] at hmore
  obtain ⟨rfl, hvanishes⟩ := h.taken_of_bars hcarries hbars hfresh hnext hmore
  exact ⟨hall, hbars.of_append hvanishes⟩

/-- Where a key takes none of the tokens and does not take all of them, it vanishes. -/
theorem available_after (hkey : key ≠ fresh) (havailable : written.Available free (key :: symbols))
    {used : List String} {taken : Nat}
    (hmost : grammar.most row used offset (token :: later) key = some taken) :
    written.Available (if taken = 0 then free else grammar.ruleKeys) symbols := by
  split
  · next hzero =>
    subst hzero
    exact havailable.tail (h.vanishing hcarries (vanishing_of_most hmost) hkey)
  · exact available_ruleKeys hcarries symbols

end

variable {plain led : Grammar} (hplain : plain.Carries written fresh)
  (hled : led.Carries written fresh)
include hplain hled

omit h in
theorem alike_terminal (hne : symbol ≠ emptyText) (hterminal : written.isTerminal symbol = true)
    (hrest : written.Alike line later behind
      (plain.taken row plain.ruleKeys (offset + 1) later symbols)
      (led.taken row led.ruleKeys (offset + 1) later symbols)) :
    written.Alike line (token :: later) behind
      (plain.taken row free offset (token :: later) (symbol :: symbols))
      (led.taken row others offset (token :: later) (symbol :: symbols)) := by
  rw [taken_terminal hne (by rw [hplain.isTerminal, hterminal]),
    taken_terminal hne (by rw [hled.isTerminal, hterminal]), hplain.accepts, hled.accepts]
  split
  · exact Alike.map_add hrest (Nat.le_add_left 1 later.length)
  · exact .inl rfl

/-- A key and what is behind it take alike if the key does, and what is behind it does where the key
takes as many tokens both times, but not all. -/
theorem alike_key (hne : key ≠ emptyText) (hterminal : written.isTerminal key = false)
    (hfree : key ∈ free) (hothers : key ∈ others) (hfresh : fresh ∉ symbols)
    (hline : token :: later ⊆ line)
    (hmost : written.Alike line (token :: later) (symbols ++ behind)
      (plain.most row (free.erase key) offset (token :: later) key)
      (led.most row (others.erase key) offset (token :: later) key))
    (hrest : ∀ taken, taken ≠ (token :: later).length →
      plain.most row (free.erase key) offset (token :: later) key = some taken →
      led.most row (others.erase key) offset (token :: later) key = some taken →
      written.Alike line ((token :: later).drop taken) behind
        (plain.taken row (if taken = 0 then free else plain.ruleKeys) (offset + taken)
          ((token :: later).drop taken) symbols)
        (led.taken row (if taken = 0 then others else led.ruleKeys) (offset + taken)
          ((token :: later).drop taken) symbols)) :
    written.Alike line (token :: later) behind
      (plain.taken row free offset (token :: later) (key :: symbols))
      (led.taken row others offset (token :: later) (key :: symbols)) := by
  have hterminalPlain : plain.isTerminal key = false := by rw [hplain.isTerminal, hterminal]
  have hterminalLed : led.isTerminal key = false := by rw [hled.isTerminal, hterminal]
  rcases hmost with hsame | ⟨hnotPlain, hnotLed, hbars⟩
  · rw [taken_key hplain.wellFormed hne hterminalPlain hfree,
      taken_key hled.wellFormed hne hterminalLed hothers]
    rw [hsame] at hrest ⊢
    cases hboth : led.most row (others.erase key) offset (token :: later) key with
    | none => exact .inl rfl
    | some taken =>
      rw [Option.bind_some, Option.bind_some]
      split
      · exact .inl rfl
      · next hall => exact (hrest taken hall hboth hboth).map_add (most_le hboth)
  · -- what the key leaves is taken by nothing behind it
    exact .of_some
      (fun _ => h.taken_key_of_bars hplain hne hterminalPlain hfree hbars hfresh hline hnotPlain)
      (fun _ => h.taken_key_of_bars hled hne hterminalLed hothers hbars hfresh hline hnotLed)

omit h hplain hled in
theorem alike_most (hsame : plain.alternatives key = led.alternatives key)
    (hbodies : ∀ body ∈ plain.alternatives key, written.Alike line tokens behind
      (plain.taken row free offset tokens body) (led.taken row others offset tokens body)) :
    written.Alike line tokens behind (plain.most row free offset tokens key)
      (led.most row others offset tokens key) := by
  by_cases hall : ∀ body ∈ plain.alternatives key,
      plain.taken row free offset tokens body = led.taken row others offset tokens body
  · refine .inl ?_
    rw [most, most, ← hsame]
    exact congrArg List.max? (List.filterMap_congr hall)
  · push Not at hall
    obtain ⟨body, hbody, hne⟩ := hall
    rcases hbodies body hbody with heq | ⟨-, -, hbars⟩
    · exact absurd heq hne
    · refine .of_bars ?_ hbars
      rw [most_eq_length, most_eq_length, ← hsame]
      exact exists_congr fun body =>
        and_congr_right fun hbody => (hbodies body hbody).eq_length_iff

/-! ## With and without the fresh symbol -/

omit hplain hled in
theorem most_plain_start : written.freeze.most row free offset tokens start = some tokens.length ↔
    ∃ body ∈ written.alternatives start,
      written.freeze.taken row free offset tokens body = some tokens.length := by
  have hend : written.freeze.isTerminal endOfInput = true := h.isTerminal_end
  simp only [most_eq_length, h.alternatives_plain_start, List.mem_map, exists_exists_and_eq_and,
    taken_terminated h.wellFormed_freeze hend]

omit hplain hled in
theorem most_led_start : (written.ledBy fresh start).freeze.most row free offset tokens start =
      some tokens.length ↔ ∃ body ∈ written.alternatives start,
        (written.ledBy fresh start).freeze.taken row free offset tokens body =
          some tokens.length := by
  rw [most_eq_length, alternatives_led h.start_ne]

omit hplain hled in
theorem alike_most_written (hclear : written.Clears line start) (hkey : key ≠ fresh)
    (hstands : written.Stands (key :: behind))
    (hbodies : ∀ body ∈ written.alternatives key, written.Alike line tokens behind
      (written.freeze.taken row free offset tokens body)
      ((written.ledBy fresh start).freeze.taken row others offset tokens body)) :
    written.Alike line tokens behind (written.freeze.most row free offset tokens key)
      ((written.ledBy fresh start).freeze.most row others offset tokens key) := by
  by_cases hstart : key = start
  · subst hstart
    refine .of_bars ?_ (hclear.bars hstands)
    rw [h.most_plain_start, h.most_led_start]
    exact exists_congr fun body =>
      and_congr_right fun hbody => (hbodies body hbody).eq_length_iff
  · refine alike_most ?_ ?_
    · rw [h.alternatives_plain hstart, alternatives_led hkey]
    · rwa [h.alternatives_plain hstart]

omit hplain hled in
/-- **Symbols take alike with and without the fresh symbol.** -/
theorem alike_taken {offset : Nat} {free others symbols behind : List String}
    {tokens : List Token} (hleft : written.WithoutLeftRecursion)
    (hclear : written.Clears line start) (hfresh : fresh ∉ symbols)
    (hstands : written.Stands (symbols ++ behind)) (hline : tokens ⊆ line)
    (hfree : written.Available free symbols) (hothers : written.Available others symbols) :
    written.Alike line tokens behind (written.freeze.taken row free offset tokens symbols)
      ((written.ledBy fresh start).freeze.taken row others offset tokens symbols) := by
  match symbols, tokens with
  | [], tokens => exact .inl (by rw [taken_nil, taken_nil])
  | symbol :: symbols, [] => exact .inl (by rw [taken_no_tokens, taken_no_tokens])
  | symbol :: symbols, token :: later =>
    have hrestFresh : fresh ∉ symbols := fun hmem => hfresh (List.mem_cons_of_mem _ hmem)
    have hne : symbol ≠ fresh := fun heq => hfresh (heq ▸ List.mem_cons_self)
    have hrestStands : written.Stands (symbols ++ behind) := hstands.tail
    by_cases hempty : symbol = emptyText
    · subst hempty
      have hvanishing : Vanishing written.Writes emptyText :=
        .intro written.writes_emptyText (by simp)
      rw [taken_emptyText, taken_emptyText]
      exact alike_taken hleft hclear hrestFresh hrestStands hline (hfree.tail hvanishing)
        (hothers.tail hvanishing)
    cases hterminal : written.isTerminal symbol with
    | true =>
      have hlater : later ⊆ line := fun _ hmem => hline (List.mem_cons_of_mem _ hmem)
      exact alike_terminal h.carries_plain h.carries_led hempty hterminal
        (alike_taken hleft hclear hrestFresh hrestStands hlater
          (available_ruleKeys h.carries_plain symbols) (available_ruleKeys h.carries_led symbols))
    | false =>
      by_cases hkey : symbol ∈ written.ruleKeys
      · have hmemFree : symbol ∈ free := hfree symbol hkey ⟨_, .refl _⟩
        have hmemOthers : symbol ∈ others := hothers symbol hkey ⟨_, .refl _⟩
        refine h.alike_key h.carries_plain h.carries_led hempty hterminal hmemFree hmemOthers
          hrestFresh hline (h.alike_most_written hclear hne hstands fun body hbody => ?_)
          fun taken hall hplain hled => ?_
        · exact alike_taken hleft hclear (h.not_mem symbol body hbody) (hstands.write hbody) hline
            (hfree.erase hleft hbody) (hothers.erase hleft hbody)
        have hdrop : (token :: later).drop taken ⊆ line :=
          fun _ hmem => hline (List.mem_of_mem_drop hmem)
        have hfreeAfter := h.available_after h.carries_plain hne hfree hplain
        have hothersAfter := h.available_after h.carries_led hne hothers hled
        cases taken with
        | zero =>
          exact alike_taken hleft hclear hrestFresh hrestStands hdrop hfreeAfter hothersAfter
        | succ taken =>
          exact alike_taken hleft hclear hrestFresh hrestStands hdrop hfreeAfter hothersAfter
      · rw [taken_ruleless h.carries_plain hempty hterminal hne hkey,
          taken_ruleless h.carries_led hempty hterminal hne hkey]
        exact .inl rfl
termination_by (tokens.length, free.length, symbols.length)
decreasing_by
  · exact Prod.Lex.right _ (Prod.Lex.right _ (Nat.lt_add_one _))
  · have := List.length_pos_of_mem hmemFree
    refine Prod.Lex.right _ (Prod.Lex.left _ _ ?_)
    rw [List.length_erase_of_mem hmemFree]
    omega
  · simp [Prod.lex_def]
  · refine Prod.Lex.left _ _ ?_
    rw [List.length_drop, List.length_cons]
    omega
  · exact Prod.Lex.left _ _ (Nat.lt_add_one _)

omit hplain hled in
theorem most_led_fresh (token : Token) (later : List Token) :
    (written.ledBy fresh start).freeze.most row (written.ledBy fresh start).freeze.ruleKeys offset
        (token :: later) fresh = some (token :: later).length ↔
      ∃ body ∈ written.alternatives start, (written.ledBy fresh start).freeze.taken row
        ((written.ledBy fresh start).freeze.ruleKeys.erase start) offset (token :: later) body =
          some (token :: later).length := by
  have hend : (written.ledBy fresh start).freeze.isTerminal endOfInput = true := h.isTerminal_end
  have hterminal : (written.ledBy fresh start).freeze.isTerminal start = false := h.isTerminal_start
  have hne : start ≠ emptyText := (h.ne_start_of_isTerminal h.isTerminal_empty).symm
  have hone : [start, endOfInput] = [start] ++ [endOfInput] := rfl
  rw [most_eq_length, h.alternatives_led_fresh, ← h.most_led_start]
  simp only [List.mem_singleton, exists_eq_left]
  rw [hone, taken_append_end h.wellFormed_led (taken_endOfInput hend)]
  by_cases hkey : start ∈ (written.ledBy fresh start).freeze.ruleKeys
  · rw [taken_singleton h.wellFormed_led hne hterminal hkey]
    simp
  · have hnone : (written.ledBy fresh start).freeze.most row
        ((written.ledBy fresh start).freeze.ruleKeys.erase start) offset (token :: later) start =
          none :=
      most_eq_none.mpr fun body hbody => absurd (mem_ruleKeys_of_mem_alternatives hbody) hkey
    rw [taken_unknown hne hterminal hkey, hnone]
    simp

omit hplain hled in
/-- **A fresh start symbol in front changes nothing.** Without left recursion, a fresh parse takes
the same first lines of which no token belongs to a terminal that follows the old start symbol. -/
theorem accepts_iff (hleft : written.WithoutLeftRecursion) {tokens : List Token}
    (hclear : written.Clears tokens start) (row : Nat) :
    Parse.Accepts ⟨none, row⟩ written.freeze tokens ↔
      Parse.Accepts ⟨none, row⟩ (written.ledBy fresh start).freeze tokens := by
  have hstart : written.freeze.start? = some start := h.start?
  rw [Parse.accepts_iff h.wellFormed_freeze hstart, Parse.accepts_iff h.wellFormed_led rfl]
  refine or_congr_right' fun hne => ?_
  obtain ⟨token, later, rfl⟩ := List.exists_cons_of_ne_nil hne
  rw [h.most_plain_start, h.most_led_fresh]
  refine exists_congr fun body => and_congr_right fun hbody => ?_
  have hstands : written.Stands (body ++ []) := by
    rw [List.append_nil]
    exact ⟨start, [], h.start?, .of_writes (.inl hbody)⟩
  refine (h.alike_taken hleft hclear (h.not_mem start body hbody) hstands (List.Subset.refl _)
    (available_ruleKeys h.carries_plain body) ?_).eq_length_iff
  intro key hkey hbegins
  have hother : key ≠ start := by
    rintro rfl
    exact hleft key body hbody hbegins
  exact (List.mem_erase_of_ne hother).mpr (h.carries_led.ruleKeys hkey)

end Led

end LineGrammar.Grammar

namespace LineGrammar.Parse

open Grammar

/-- **A start symbol that recurs is parsed like any other symbol**, on these conditions. Of a grammar
text that is read to its end, let no key recur on the left as the rules are written. Then the text
with a fresh start symbol in front, which is written as the old one, is read to its end as well; and
if no token belongs to a terminal that follows the old start symbol, a fresh parse accepts the tokens
under the one grammar if and only if it does so under the other. -/
theorem accepts_lead_iff {markers : Markers} {text led : String} {draft : Draft} {grammar : Grammar}
    {fresh start : String} (hread : ({ markers } : Draft).feedText text = (draft, .ok ()))
    (hgrammar : draft.grammar? = .ok grammar) (hstart : grammar.start? = some start)
    (hled : Draft.wordsOf led = markers.lead fresh start (Draft.wordsOf text))
    (hfresh : fresh ∉ endOfInput :: emptyText :: Draft.wordsOf text)
    (hseparator : markers.separator ∉ [fresh, start, markers.endGrammar])
    (hspecial : ∀ symbol ∈ [endOfInput, emptyText], symbol ∉ grammar.nonTerminals)
    (hleft : (Draft.written markers (Draft.wordsOf text)).WithoutLeftRecursion) :
    ∃ ledDraft ledGrammar, ({ markers } : Draft).feedText led = (ledDraft, .ok ()) ∧
      ledDraft.grammar? = .ok ledGrammar ∧
      ∀ row tokens, (Draft.written markers (Draft.wordsOf text)).Clears tokens start →
        (Accepts ⟨none, row⟩ grammar tokens ↔ Accepts ⟨none, row⟩ ledGrammar tokens) := by
  obtain ⟨parts⟩ := Draft.exists_parts hread (Draft.stage_of_grammar? hgrammar)
  have hfrozen : (Draft.written markers (Draft.wordsOf text)).freeze = grammar :=
    Except.ok.inj (parts.grammar?_eq.symm.trans hgrammar)
  have hleads := parts.led hfresh hgrammar hstart hspecial
  obtain ⟨ledDraft, hledRead, hledGrammar⟩ :=
    parts.exists_feedWords_lead hfresh hgrammar hstart hseparator
  refine ⟨ledDraft, _, by rw [Draft.feedText, hled, hledRead], hledGrammar, ?_⟩
  intro row tokens hclear
  rw [← hfrozen]
  exact hleads.accepts_iff hleft hclear row

/-- A letter between any number of opening letters and as many closing ones, as it is written. -/
def nestedRules : Grammar where
  nonTerminals := ["S"]
  terminals := ["a", "b", "c", "$", "#"]
  rules := [("S", [["a", "S", "b"], ["c"]])]

def nestedText : String := "S # a b c # S -> a S b # S -> c # ##"

/-- The same with a start symbol in front. -/
def ledNestedText : String := "R S # a b c # R -> S # S -> a S b # S -> c # ##"

theorem read_nestedText : ({} : Draft).feedText nestedText =
    ({ grammar := nestedRules.freeze, stage := .finished, position := 17 }, .ok ()) := rfl

theorem read_ledNestedText : ({} : Draft).feedText ledNestedText =
    ({ grammar := (nestedRules.ledBy "R" "S").freeze, stage := .finished, position := 22 },
      .ok ()) := rfl

theorem nested_writes {symbol : String} {body : List String} (h : nestedRules.Writes symbol body) :
    symbol = "S" ∧ (body = ["a", "S", "b"] ∨ body = ["c"]) ∨ symbol = emptyText := by
  rcases h with hmem | ⟨rfl, -⟩
  · obtain ⟨alternatives, hlookup, hbody⟩ := mem_alternatives_iff.mp hmem
    have hrule := mem_of_lookup hlookup
    simp only [nestedRules, List.mem_singleton, Prod.mk.injEq] at hrule
    obtain ⟨rfl, rfl⟩ := hrule
    exact .inl ⟨rfl, by simpa using hbody⟩
  · exact .inr rfl

theorem nested_withoutLeftRecursion : nestedRules.WithoutLeftRecursion := by
  have hletter : ∀ letter ≠ "S", letter ≠ emptyText → ∀ rest,
      ¬Begins nestedRules.Writes (letter :: rest) "S" := by
    intro letter hne hempty rest hbegins
    rw [begins_iff] at hbegins
    cases hbegins with
    | here => exact hne rfl
    | inside hwrites _ => rcases nested_writes hwrites with ⟨rfl, -⟩ | rfl <;> contradiction
    | past hvanishing _ =>
      cases hvanishing with
      | intro hwrites _ => rcases nested_writes hwrites with ⟨rfl, -⟩ | rfl <;> contradiction
  intro key body hbody
  rcases nested_writes (.inl hbody) with ⟨rfl, rfl | rfl⟩ | rfl
  · exact hletter "a" (by decide) (by decide) _
  · exact hletter "c" (by decide) (by decide) _
  · have hnone : nestedRules.alternatives emptyText = [] := rfl
    rw [hnone] at hbody
    cases hbody

/-- Around the start symbol stand opening letters on the left and closing ones on the right. -/
theorem nested_form {form : List String} (h : Derives nestedRules.Writes ["S"] form) :
    ∃ left middle right, form = left ++ middle :: right ∧ middle ∈ ["S", "c"] ∧
      (∀ letter ∈ left, letter = "a") ∧ ∀ letter ∈ right, letter = "b" := by
  induction h with
  | refl => exact ⟨[], "S", [], rfl, by simp, by simp, by simp⟩
  | tail _ hstep ih =>
    obtain ⟨left, middle, right, heq, hmiddle, hleft, hright⟩ := ih
    obtain @⟨symbol, body, before, behind, hwrites⟩ := hstep
    have hmem : symbol ∈ left ++ middle :: right := by rw [← heq]; simp
    rcases nested_writes hwrites with ⟨rfl, hbody⟩ | rfl
    · have hnotLeft : "S" ∉ left := fun hin => absurd (hleft _ hin) (by decide)
      have hnotRight : "S" ∉ right := fun hin => absurd (hright _ hin) (by decide)
      obtain ⟨rfl, -, rfl⟩ := (List.append_cons_inj_of_notMem hnotLeft hnotRight).mp heq.symm
      rcases hbody with rfl | rfl
      · refine ⟨left ++ ["a"], "S", "b" :: right, by simp, by simp, ?_, by simpa using hright⟩
        simpa [or_imp, forall_and] using hleft
      · exact ⟨left, "c", right, by simp, by simp, hleft, hright⟩
    · -- the empty text is not in the form
      rcases List.mem_append.mp hmem with hin | hin
      · exact absurd (hleft _ hin) (by decide)
      · rcases List.mem_cons.mp hin with rfl | hin
        · exact absurd hmiddle (by decide)
        · exact absurd (hright _ hin) (by decide)

theorem nested_follows {terminal : String} (hend : terminal ≠ endOfInput)
    (h : nestedRules.Follows "S" terminal) : terminal = "b" := by
  rcases h with ⟨behind, start, left, hstart, hderives⟩ | ⟨heq, -⟩
  · obtain rfl : "S" = start := Option.some.inj hstart
    obtain ⟨before, middle, right, heq, -, hbefore, hright⟩ := nested_form hderives
    have hnotBefore : "S" ∉ before := fun hin => absurd (hbefore _ hin) (by decide)
    have hnotRight : "S" ∉ right := fun hin => absurd (hright _ hin) (by decide)
    obtain ⟨-, -, rfl⟩ := (List.append_cons_inj_of_notMem hnotBefore hnotRight).mp heq.symm
    exact hright _ (by simp)
  · exact absurd heq hend

/-- As long as no letter is closed, the start symbol is parsed the same with another one in front. -/
theorem accepts_lead_iff_nested :
    ({} : Draft).feedText nestedText =
      ({ grammar := nestedRules.freeze, stage := .finished, position := 17 }, .ok ()) ∧
    Draft.wordsOf ledNestedText = ({} : Markers).lead "R" "S" (Draft.wordsOf nestedText) ∧
    nestedRules.WithoutLeftRecursion ∧ nestedRules.Clears (wordTokens ["a", "a", "c"]) "S" ∧
    ∃ led ledGrammar, ({} : Draft).feedText ledNestedText = (led, .ok ()) ∧
      led.grammar? = .ok ledGrammar ∧
      (Accepts {} nestedRules.freeze (wordTokens ["a", "a", "c"]) ↔
        Accepts {} ledGrammar (wordTokens ["a", "a", "c"])) := by
  have hother : ∀ token ∈ wordTokens ["a", "a", "c"], nestedRules.accepts "b" token = false := by
    decide
  have hclear : nestedRules.Clears (wordTokens ["a", "a", "c"]) "S" := by
    intro terminal token htoken hspells hfollows
    obtain rfl : terminal = "b" := nested_follows hspells.ne_endOfInput hfollows
    exact absurd hspells.2.2 (by simp [hother token htoken])
  have hled : Draft.wordsOf ledNestedText =
      ({} : Markers).lead "R" "S" (Draft.wordsOf nestedText) := rfl
  obtain ⟨led, ledGrammar, hread, hgrammar, hall⟩ := accepts_lead_iff read_nestedText rfl rfl hled
    (by decide) (by decide) (by decide) nested_withoutLeftRecursion
  exact ⟨read_nestedText, hled, nested_withoutLeftRecursion, hclear, led, ledGrammar, hread,
    hgrammar, hall 0 _ hclear⟩

/-- A letter that is closed is not accepted, though it is with a start symbol in front. -/
theorem not_accepts_lead_iff_nested :
    (∃ draft, ({} : Draft).feedText nestedText = (draft, .ok ()) ∧
      draft.grammar? = .ok nestedRules.freeze) ∧
    Draft.wordsOf ledNestedText = ({} : Markers).lead "R" "S" (Draft.wordsOf nestedText) ∧
    (∃ draft, ({} : Draft).feedText ledNestedText = (draft, .ok ()) ∧
      draft.grammar? = .ok (nestedRules.ledBy "R" "S").freeze) ∧
    (Draft.written {} (Draft.wordsOf nestedText)).WithoutLeftRecursion ∧
    ¬(Accepts {} nestedRules.freeze (wordTokens ["a", "c", "b"]) ↔
      Accepts {} (nestedRules.ledBy "R" "S").freeze (wordTokens ["a", "c", "b"])) := by
  refine ⟨⟨_, read_nestedText, rfl⟩, rfl, ⟨_, read_ledNestedText, rfl⟩,
    nested_withoutLeftRecursion, fun hiff => ?_⟩
  have hled : Accepts {} (nestedRules.ledBy "R" "S").freeze (wordTokens ["a", "c", "b"]) :=
    ⟨true, by cbv⟩
  obtain ⟨more, hmore⟩ := hiff.mpr hled
  have hrefused : (({} : Parse).feed nestedRules.freeze (wordTokens ["a", "c", "b"])).2 =
      .error (.noMatch ⟨.word "b", ⟨1, 0⟩⟩) := by cbv
  rw [hrefused] at hmore
  cases hmore

end LineGrammar.Parse
