import LineGrammar.Parse.Extension
import LineGrammar.Proofs.Grammar.EndOfInput

/-!
# A start symbol in front

`Grammar.ledBy` puts a fresh start symbol in front of a grammar, with the old start symbol as its
only alternative. Freezing then lets the alternative of the fresh symbol end with the end of the
input, and leaves those of the old start symbol as they were written (`Led.alternatives_led`).

But for the end of the input, a form without the fresh symbol vanishes under each of the two frozen
grammars, or begins with a symbol, only where it does so under the written one (`Led.vanishes`,
`Led.begins`).
-/

namespace LineGrammar.Grammar

/-- The grammar with a symbol and rules in front. -/
def withFront (grammar : Grammar) (fresh : String) (front : List (String × List Alternative)) :
    Grammar :=
  { grammar with
    nonTerminals := fresh :: grammar.nonTerminals
    rules := front ++ grammar.rules }

/-- The grammar with a fresh start symbol, which is written as the old one. -/
def ledBy (written : Grammar) (fresh start : String) : Grammar :=
  written.withFront fresh [(fresh, [[start]])]

/-- No alternative of a key begins with that key, directly or by way of others. -/
def WithoutLeftRecursion (grammar : Grammar) : Prop :=
  ∀ key, ∀ body ∈ grammar.alternatives key, ¬Begins grammar.Writes body key

/-- The symbol is fresh for the written grammar, of which the other one is the start symbol. -/
structure Led (written : Grammar) (fresh start : String) : Prop where
  wellFormed : written.WellFormed
  isTerminal_empty : written.isTerminal emptyText = true
  isTerminal_end : written.isTerminal endOfInput = true
  start? : written.start? = some start
  not_terminal : fresh ∉ written.terminals
  not_nonTerminal : fresh ∉ written.nonTerminals
  not_mem : ∀ key, ∀ body ∈ written.alternatives key, fresh ∉ body

/-- The grammar has the terminals and the rules of the written one, and for symbols other than the
fresh one no alternatives but the written ones, perhaps with the end of the input behind. -/
structure Carries (grammar written : Grammar) (fresh : String) : Prop where
  wellFormed : grammar.WellFormed
  terminals : grammar.terminals = written.terminals
  ruleKeys : written.ruleKeys ⊆ grammar.ruleKeys
  alternatives : ∀ key, key ≠ fresh → ∀ body ∈ grammar.alternatives key,
    ∃ alternative ∈ written.alternatives key, body = alternative ∨
      body = alternative ++ [endOfInput]

theorem Carries.isTerminal {grammar written : Grammar} {fresh : String}
    (h : grammar.Carries written fresh) : grammar.isTerminal = written.isTerminal := by
  funext symbol
  rw [Grammar.isTerminal, Grammar.isTerminal, h.terminals]

theorem Carries.accepts {grammar written : Grammar} {fresh : String}
    (h : grammar.Carries written fresh) : grammar.accepts = written.accepts := by
  funext terminal token
  rw [Grammar.accepts, Grammar.accepts, h.isTerminal]

namespace Led

variable {written grammar : Grammar} {fresh start key symbol next : String}
  {body form : List String} (h : written.Led fresh start)
include h

theorem wellFormed_freeze : written.freeze.WellFormed :=
  h.wellFormed.terminateStart.withSets

theorem start_mem : start ∈ written.nonTerminals :=
  List.mem_of_head? h.start?

theorem isTerminal_start : written.isTerminal start = false := by
  cases hterminal : written.isTerminal start with
  | false => rfl
  | true =>
    exact absurd h.start_mem
      (h.wellFormed.not_mem_nonTerminals start (isTerminal_iff.mp hterminal))

theorem ne_of_isTerminal (hsymbol : written.isTerminal symbol = true) : symbol ≠ fresh := by
  rintro rfl
  exact h.not_terminal (isTerminal_iff.mp hsymbol)

theorem start_ne : start ≠ fresh := by
  rintro rfl
  exact h.not_nonTerminal h.start_mem

theorem ne_start_of_isTerminal (hsymbol : written.isTerminal symbol = true) : symbol ≠ start := by
  rintro rfl
  simp [h.isTerminal_start] at hsymbol

theorem not_ruleKey : fresh ∉ written.ruleKeys :=
  fun hmem => h.not_nonTerminal (h.wellFormed.mem_nonTerminals fresh hmem)

/-! ## The alternatives -/

theorem wellFormed_ledBy : (written.ledBy fresh start).WellFormed where
  nodup_ruleKeys := List.nodup_cons.mpr ⟨h.not_ruleKey, h.wellFormed.nodup_ruleKeys⟩
  mem_nonTerminals := by
    intro key hkey
    rcases List.mem_cons.mp hkey with rfl | hkey
    · exact List.mem_cons_self
    · exact List.mem_cons_of_mem _ (h.wellFormed.mem_nonTerminals key hkey)
  not_mem_nonTerminals := by
    intro symbol hterminal hmem
    rcases List.mem_cons.mp hmem with rfl | hmem
    · exact h.not_terminal hterminal
    · exact h.wellFormed.not_mem_nonTerminals symbol hterminal hmem
  ne_nil := by
    intro entry hentry alternative halternative
    rcases List.mem_cons.mp hentry with rfl | hentry
    · rw [List.mem_singleton.mp halternative]
      exact List.cons_ne_nil _ _
    · exact h.wellFormed.ne_nil entry hentry alternative halternative

theorem wellFormed_led : (written.ledBy fresh start).freeze.WellFormed :=
  h.wellFormed_ledBy.terminateStart.withSets

omit h in
theorem start?_ledBy (written : Grammar) (fresh start : String) :
    (written.ledBy fresh start).start? = some fresh := rfl

omit h in
theorem ruleKeys_freeze (written : Grammar) : written.freeze.ruleKeys = written.ruleKeys := by
  show (written.rules.map _).map _ = _
  rw [List.map_map]
  rfl

omit h in
theorem alternatives_led (hkey : key ≠ fresh) :
    (written.ledBy fresh start).freeze.alternatives key = written.alternatives key := by
  rw [alternatives_freeze, start?_ledBy, if_neg fun heq => hkey (Option.some.inj heq), alternatives,
    alternatives, ledBy, withFront, List.singleton_append, List.lookup_cons,
    beq_eq_false_iff_ne.mpr hkey]

theorem alternatives_led_fresh :
    (written.ledBy fresh start).freeze.alternatives fresh = [[start, endOfInput]] := by
  have hne : start ≠ endOfInput := (h.ne_start_of_isTerminal h.isTerminal_end).symm
  have halternatives : (written.ledBy fresh start).alternatives fresh = [[start]] := by
    rw [alternatives, ledBy, withFront, List.singleton_append, List.lookup_cons, beq_self_eq_true]
    rfl
  have hlast : terminated [start] = [start, endOfInput] := by
    rw [terminated, if_neg]
    · rfl
    · simpa using hne
  rw [alternatives_freeze, start?_ledBy, if_pos rfl, halternatives, List.map_singleton, hlast]

theorem alternatives_plain_start : written.freeze.alternatives start =
    (written.alternatives start).map terminated := by
  rw [alternatives_freeze, if_pos h.start?.symm]

theorem alternatives_plain (hkey : key ≠ start) :
    written.freeze.alternatives key = written.alternatives key := by
  rw [alternatives_freeze, if_neg]
  rw [h.start?]
  exact fun heq => hkey (Option.some.inj heq)

theorem carries_led : Carries (written.ledBy fresh start).freeze written fresh where
  wellFormed := h.wellFormed_led
  terminals := rfl
  ruleKeys := by
    rw [ruleKeys_freeze]
    exact List.subset_cons_self _ _
  alternatives := by
    intro key hkey body hbody
    rw [alternatives_led hkey] at hbody
    exact ⟨body, hbody, .inl rfl⟩

theorem carries_plain : Carries written.freeze written fresh where
  wellFormed := h.wellFormed_freeze
  terminals := rfl
  ruleKeys := by
    rw [ruleKeys_freeze]
    exact List.Subset.refl _
  alternatives := by
    intro key _ body hbody
    by_cases hkey : key = start
    · rw [hkey, h.alternatives_plain_start] at hbody
      obtain ⟨alternative, halternative, rfl⟩ := List.mem_map.mp hbody
      refine ⟨alternative, hkey ▸ halternative, ?_⟩
      unfold terminated
      split
      · exact .inl rfl
      · exact .inr rfl
    · rw [h.alternatives_plain hkey] at hbody
      exact ⟨body, hbody, .inl rfl⟩

/-! ## Forms -/

theorem not_writes_end (body : List String) : ¬written.Writes endOfInput body :=
  h.wellFormed.not_writes h.isTerminal_end (by decide)

variable (hcarries : grammar.Carries written fresh)
include hcarries

theorem writes_cases (hsymbol : symbol ≠ fresh) (hwrites : grammar.Writes symbol body) :
    ∃ alternative, written.Writes symbol alternative ∧ fresh ∉ alternative ∧
      (body = alternative ∨ body = alternative ++ [endOfInput]) := by
  rcases hwrites with hmem | ⟨rfl, rfl⟩
  · obtain ⟨alternative, halternative, heq⟩ := hcarries.alternatives symbol hsymbol body hmem
    exact ⟨alternative, .inl halternative, h.not_mem symbol alternative halternative, heq⟩
  · exact ⟨[], written.writes_emptyText, List.not_mem_nil, .inl rfl⟩

theorem vanishing (hvanishing : Vanishing grammar.Writes symbol) (hsymbol : symbol ≠ fresh) :
    Vanishing written.Writes symbol := by
  induction hvanishing with
  | intro hwrites hbody ih =>
    obtain ⟨alternative, hwritten, hfresh, rfl | rfl⟩ := h.writes_cases hcarries hsymbol hwrites
    · exact .intro hwritten fun other hother =>
        ih other hother fun heq => hfresh (heq ▸ hother)
    · -- the end of the input does not vanish
      cases ih endOfInput (by simp) (h.ne_of_isTerminal h.isTerminal_end) with
      | intro hlast _ => exact absurd hlast (h.not_writes_end _)

theorem vanishes (hvanishes : Vanishes grammar.Writes form) (hform : fresh ∉ form) :
    Vanishes written.Writes form :=
  vanishes_iff.mpr fun symbol hsymbol =>
    h.vanishing hcarries (vanishes_iff.mp hvanishes symbol hsymbol) fun heq => hform (heq ▸ hsymbol)

theorem begins (hbegins : Begins grammar.Writes form next) (hform : fresh ∉ form)
    (hnext : next ≠ endOfInput) : Begins written.Writes form next := by
  rw [begins_iff] at hbegins ⊢
  induction hbegins with
  | here => exact .here
  | inside hwrites hbody ih =>
    obtain ⟨hsymbol, -⟩ := not_or.mp (mt List.mem_cons.mpr hform)
    obtain ⟨alternative, hwritten, hfresh, rfl | rfl⟩ :=
      h.writes_cases hcarries (Ne.symm hsymbol) hwrites
    · exact .inside hwritten (ih hfresh)
    · have hlast : fresh ≠ endOfInput := (h.ne_of_isTerminal h.isTerminal_end).symm
      rcases beginning_append.mp (ih (by simp [hfresh, hlast])) with hfirst | ⟨-, hend⟩
      · exact .inside hwritten hfirst
      · rcases begins_singleton.mp (begins_iff.mpr hend) with heq | ⟨_, hwrites, -⟩
        · exact absurd heq.symm hnext
        · exact absurd hwrites (h.not_writes_end _)
  | past hvanishing _ ih =>
    obtain ⟨hsymbol, hright⟩ := not_or.mp (mt List.mem_cons.mpr hform)
    exact .past (h.vanishing hcarries hvanishing (Ne.symm hsymbol)) (ih hright)

end Led

end LineGrammar.Grammar
