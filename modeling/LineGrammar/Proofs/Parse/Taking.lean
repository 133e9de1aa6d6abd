import LineGrammar.Proofs.Parse.Grammatical
import LineGrammar.Proofs.Parse.Prediction

/-!
# How many tokens reading takes

Whether a line is accepted depends on the number of tokens alone that reading takes, not on the
nodes that it makes of them. A key takes as many tokens as any of its alternatives does
(`taken_key`), and a fresh parse accepts a line if the start symbol takes all of it
(`Parse.accepts_iff`).
-/

namespace LineGrammar.Grammar

open LineGrammar.Tree

/-- How many tokens symbols take, if they can be read at all. -/
def taken (grammar : Grammar) (line : Nat) (free : List String) (offset : Nat)
    (tokens : List Token) (symbols : List String) : Option Nat :=
  (grammar.readSequence line free offset tokens symbols).1.map Stretch.consumed

/-- The most tokens that an alternative of a key takes. -/
def most (grammar : Grammar) (line : Nat) (free : List String) (offset : Nat)
    (tokens : List Token) (key : String) : Option Nat :=
  ((grammar.alternatives key).filterMap (grammar.taken line free offset tokens)).max?

variable {grammar : Grammar} {line offset count : Nat} {free symbols : List String}
  {symbol key : String} {token : Token} {tokens later : List Token} {stretch : Stretch}

theorem Reads.consumed_le (h : Reads grammar line tokens symbols stretch) :
    stretch.consumed ≤ tokens.length := by
  induction h with
  | done => exact Nat.zero_le _
  | empty _ ih =>
    rw [Stretch.cons, Nat.zero_add]
    exact ih
  | short => exact Nat.zero_le _
  | terminal _ _ _ _ ih =>
    rw [Stretch.cons, List.length_cons]
    dsimp only
    omega
  | inside _ _ _ _ _ ih => exact ih
  | symbol _ _ _ _ _ _ ihInner ihRest =>
    rw [List.length_drop] at ihRest
    rw [Stretch.cons]
    dsimp only
    omega

/-! ## Symbols -/

theorem taken_eq_some : grammar.taken line free offset tokens symbols = some count ↔
    ∃ stretch, (grammar.readSequence line free offset tokens symbols).1 = some stretch ∧
      stretch.consumed = count :=
  Option.map_eq_some_iff

theorem exists_reads (h : grammar.taken line free offset tokens symbols = some count) :
    ∃ stretch, Reads grammar line tokens symbols stretch ∧ stretch.consumed = count := by
  obtain ⟨stretch, hread, hconsumed⟩ := taken_eq_some.mp h
  exact ⟨stretch, (reads_and_fitsReading grammar line).1 _ _ _ _ stretch hread, hconsumed⟩

theorem taken_le (h : grammar.taken line free offset tokens symbols = some count) :
    count ≤ tokens.length := by
  obtain ⟨stretch, hreads, rfl⟩ := exists_reads h
  exact hreads.consumed_le

theorem taken_nil (grammar : Grammar) (line : Nat) (free : List String) (offset : Nat)
    (tokens : List Token) : grammar.taken line free offset tokens [] = some 0 := by
  rw [taken, readSequence]
  rfl

theorem taken_emptyText : grammar.taken line free offset tokens (emptyText :: symbols) =
    grammar.taken line free offset tokens symbols := by
  rw [taken, readSequence.eq_def]
  dsimp only
  rw [if_pos rfl, Option.map_map, taken]
  congr 1
  funext stretch
  exact Nat.zero_add _

theorem taken_no_tokens (grammar : Grammar) (line : Nat) (free : List String) (offset : Nat)
    (symbols : List String) : grammar.taken line free offset [] symbols = some 0 := by
  induction symbols with
  | nil => exact taken_nil grammar line free offset []
  | cons symbol symbols ih =>
    by_cases hempty : symbol = emptyText
    · rw [hempty, taken_emptyText, ih]
    · rw [taken, readSequence, if_neg hempty]
      rfl

theorem taken_terminal (hne : symbol ≠ emptyText) (hterminal : grammar.isTerminal symbol = true) :
    grammar.taken line free offset (token :: later) (symbol :: symbols) =
      if grammar.accepts symbol token then
        (grammar.taken line grammar.ruleKeys (offset + 1) later symbols).map (1 + ·)
      else none := by
  rw [taken, readSequence, if_neg hne]
  simp only [hterminal, if_true]
  split
  · rw [taken, Option.map_map, Option.map_map]
    rfl
  · rfl

theorem taken_unknown (hne : symbol ≠ emptyText) (hterminal : grammar.isTerminal symbol = false)
    (hfree : symbol ∉ free) :
    grammar.taken line free offset (token :: later) (symbol :: symbols) = none := by
  rw [taken, readSequence, if_neg hne]
  simp [hterminal, hfree]

/-! ## Keys -/

theorem most_eq_some : grammar.most line free offset tokens key = some count ↔
    (∃ body ∈ grammar.alternatives key, grammar.taken line free offset tokens body = some count) ∧
      ∀ body ∈ grammar.alternatives key, ∀ other,
        grammar.taken line free offset tokens body = some other → other ≤ count := by
  rw [most, List.max?_eq_some_iff]
  simp only [List.mem_filterMap, forall_exists_index, and_imp]
  exact and_congr_right fun _ => ⟨fun h body hbody other => h other body hbody,
    fun h other body hbody => h body hbody other⟩

theorem most_eq_none : grammar.most line free offset tokens key = none ↔
    ∀ body ∈ grammar.alternatives key, grammar.taken line free offset tokens body = none := by
  rw [most, List.max?_eq_none_iff, List.filterMap_eq_nil_iff]

theorem most_le (h : grammar.most line free offset tokens key = some count) :
    count ≤ tokens.length := by
  obtain ⟨⟨body, -, htaken⟩, -⟩ := most_eq_some.mp h
  exact taken_le htaken

theorem most_eq_length : grammar.most line free offset tokens key = some tokens.length ↔
    ∃ body ∈ grammar.alternatives key,
      grammar.taken line free offset tokens body = some tokens.length := by
  rw [most_eq_some]
  exact and_iff_left fun body _ other htaken => taken_le htaken

/-- Of the alternatives that fit, one is chosen that takes the most tokens. -/
theorem map_consumed_choose (h : grammar.WellFormed) (key : String) :
    (Extension.choose (grammar.readAlternatives line free offset tokens []
      (grammar.alternatives key)).1).map (·.consumed) =
        grammar.most line free offset tokens key := by
  have hfits : ∀ fit, fit ∈ (grammar.readAlternatives line free offset tokens []
      (grammar.alternatives key)).1 → ∃ body ∈ grammar.alternatives key,
        grammar.taken line free offset tokens body = some fit.stretch.consumed := by
    intro fit hfit
    obtain ⟨body, hbody, -, -, stretch, hread, rfl⟩ := mem_readAlternatives.mp hfit
    exact ⟨body, hbody, taken_eq_some.mpr ⟨stretch, hread, rfl⟩⟩
  have hfit : ∀ body ∈ grammar.alternatives key, ∀ other,
      grammar.taken line free offset tokens body = some other →
        ∃ fit ∈ (grammar.readAlternatives line free offset tokens []
          (grammar.alternatives key)).1, fit.stretch.consumed = other := by
    intro body hbody other htaken
    obtain ⟨stretch, hread, rfl⟩ := taken_eq_some.mp htaken
    have hlength : 0 < body.length := List.length_pos_iff.mpr (h.alternative_ne_nil hbody)
    exact ⟨_, mem_readAlternatives.mpr ⟨body, hbody, List.nil_prefix, hlength, stretch, hread, rfl⟩,
      rfl⟩
  cases hchoose : Extension.choose (grammar.readAlternatives line free offset tokens []
      (grammar.alternatives key)).1 with
  | none =>
    refine (most_eq_none.mpr fun body hbody => ?_).symm
    rw [Option.eq_none_iff_forall_ne_some]
    intro other htaken
    obtain ⟨fit, hmem, -⟩ := hfit body hbody other htaken
    obtain ⟨extension, hsome, -⟩ := exists_choose hmem
    rw [hchoose] at hsome
    cases hsome
  | some extension =>
    obtain ⟨fit, hmem, -, hconsumed, -⟩ := choose_eq_some hchoose
    refine (most_eq_some.mpr ⟨?_, fun body hbody other htaken => ?_⟩).symm
    · obtain ⟨body, hbody, htaken⟩ := hfits fit hmem
      exact ⟨body, hbody, htaken.trans (congrArg some hconsumed.symm)⟩
    · obtain ⟨fit, hmem, rfl⟩ := hfit body hbody other htaken
      obtain ⟨found, hsome, hmost⟩ := exists_choose hmem
      obtain rfl := Option.some.inj (hchoose.symm.trans hsome)
      exact hmost fit hmem

theorem consumed_of_incomplete {existing : List String} {extension : Extension}
    (h : Extends grammar line tokens symbol existing extension)
    (hincomplete : extension.completion ≠ .complete) : extension.consumed = tokens.length := by
  obtain ⟨alternative, -, stretch, ⟨rest, rfl⟩, -, hreads, -, hconsumed, hcompletion⟩ := h
  rw [List.drop_left] at hreads
  rw [hconsumed]
  refine Nat.le_antisymm hreads.consumed_le (Nat.le_of_not_lt fun hlt => hincomplete ?_)
  refine hcompletion.mpr ?_
  rw [(hreads.settled_of_lt hlt).1, List.length_append]

/-- A key takes the most that an alternative takes, and if that is not all, what is behind it takes
more. -/
theorem taken_key (h : grammar.WellFormed) (hne : key ≠ emptyText)
    (hterminal : grammar.isTerminal key = false) (hfree : key ∈ free) :
    grammar.taken line free offset (token :: later) (key :: symbols) =
      (grammar.most line (free.erase key) offset (token :: later) key).bind fun count =>
        if count = (token :: later).length then some count
        else
          (grammar.taken line (if count = 0 then free else grammar.ruleKeys) (offset + count)
            ((token :: later).drop count) symbols).map (count + ·) := by
  rw [← map_consumed_choose h key]
  cases hchoose : Extension.choose (grammar.readAlternatives line (free.erase key) offset
      (token :: later) [] (grammar.alternatives key)).1 with
  | none =>
    rw [taken, readSequence, if_neg hne]
    simp [hterminal, hfree, hchoose]
  | some extension =>
    have hextends : Extends grammar line (token :: later) key [] extension :=
      extends_of_choose ((reads_and_fitsReading grammar line).2 _ _ _ _ _) hchoose
    rw [taken, readSequence_key hne hterminal hfree symbols hchoose, Option.map_some,
      Option.bind_some]
    by_cases hall : extension.consumed = (token :: later).length
    · rw [if_pos hall]
      split
      · rfl
      · have hdrop : (token :: later).drop extension.consumed = [] := by
          rw [hall, List.drop_length]
        have hrest := taken_no_tokens grammar line
          (if extension.consumed = 0 then free else grammar.ruleKeys)
          (offset + extension.consumed) symbols
        obtain ⟨stretch, hread, hconsumed⟩ := taken_eq_some.mp hrest
        rw [hdrop, hread, Option.map_map, Option.map_some]
        exact congrArg some (by rw [Function.comp_apply, Stretch.cons, hconsumed, Nat.add_zero])
    · have hcomplete : extension.completion ≠ .incomplete := fun hincomplete =>
        hall (consumed_of_incomplete hextends (by simp [hincomplete]))
      rw [if_neg hcomplete, if_neg hall, taken, Option.map_map, Option.map_map]
      rfl

theorem taken_singleton (h : grammar.WellFormed) (hne : key ≠ emptyText)
    (hterminal : grammar.isTerminal key = false) (hfree : key ∈ free) :
    grammar.taken line free offset (token :: later) [key] =
      grammar.most line (free.erase key) offset (token :: later) key := by
  rw [taken_key h hne hterminal hfree]
  cases grammar.most line (free.erase key) offset (token :: later) key with
  | none => rfl
  | some count =>
    rw [Option.bind_some, taken_nil]
    split <;> rfl

/-! ## The end of the input -/

theorem map_add_all {found : Option Nat} {left all : Nat} (h : count + left = all) :
    (if found = some left then some left else none).map (count + ·) =
      if found.map (count + ·) = some all then some all else none := by
  subst h
  cases found with
  | none => simp
  | some other => by_cases hother : other = left <;> simp [hother]

/-- Symbols that can be read only where no tokens are left take all tokens, if any, together with
those in front. -/
theorem taken_append_end (h : grammar.WellFormed) {last : String}
    (hlast : ∀ free offset token later,
      grammar.taken line free offset (token :: later) [last] = none) :
    grammar.taken line free offset tokens (symbols ++ [last]) =
      if grammar.taken line free offset tokens symbols = some tokens.length then some tokens.length
      else none := by
  induction symbols generalizing free offset tokens with
  | nil =>
    rw [List.nil_append, taken_nil]
    cases tokens with
    | nil => simp [taken_no_tokens]
    | cons token later => simp [hlast]
  | cons symbol symbols ih =>
    rw [List.cons_append]
    by_cases hempty : symbol = emptyText
    · rw [hempty, taken_emptyText, taken_emptyText, ih]
    cases tokens with
    | nil => simp [taken_no_tokens]
    | cons token later =>
      cases hterminal : grammar.isTerminal symbol with
      | true =>
        rw [taken_terminal hempty hterminal, taken_terminal hempty hterminal]
        split
        · rw [ih]
          exact map_add_all (by rw [List.length_cons, Nat.add_comm])
        · simp
      | false =>
        by_cases hfree : symbol ∈ free
        · rw [taken_key h hempty hterminal hfree, taken_key h hempty hterminal hfree]
          cases hmost : grammar.most line (free.erase symbol) offset (token :: later) symbol with
          | none => simp
          | some count =>
            rw [Option.bind_some, Option.bind_some]
            split
            · next hall => simp [hall]
            · next hsome =>
              have hle := most_le hmost
              rw [ih]
              exact map_add_all (by rw [List.length_drop]; omega)
        · rw [taken_unknown hempty hterminal hfree, taken_unknown hempty hterminal hfree]
          simp

/-! ## What is taken -/

theorem begins_of_taken (h : grammar.taken line free offset (token :: later) symbols = some count)
    (hpos : 0 < count) :
    ∃ terminal, grammar.Spells terminal token ∧ Begins grammar.Writes symbols terminal := by
  obtain ⟨stretch, hreads, rfl⟩ := exists_reads h
  obtain ⟨terminal, hspells, hbegins, -⟩ := hreads.begins_or_vanishes.1 hpos
  exact ⟨terminal, hspells, hbegins⟩

theorem vanishes_of_taken (h : grammar.taken line free offset (token :: later) symbols = some 0) :
    Vanishes grammar.Writes symbols := by
  obtain ⟨stretch, hreads, hzero⟩ := exists_reads h
  exact hreads.begins_or_vanishes.2 hzero

theorem vanishing_of_most (h : grammar.most line free offset (token :: later) key = some 0) :
    Vanishing grammar.Writes key := by
  obtain ⟨⟨body, hbody, htaken⟩, -⟩ := most_eq_some.mp h
  exact .intro (.inl hbody) (vanishes_iff.mp (vanishes_of_taken htaken))

theorem map_consumed_readOn (h : grammar.WellFormed) (line : Nat) (symbol : String)
    (tokens : List Token) :
    (grammar.readOn line symbol [] tokens).1.map (·.consumed) =
      grammar.most line grammar.ruleKeys 0 tokens symbol :=
  map_consumed_choose h symbol

theorem grow_branch {symbol : String} {row : Nat} {extension : Extension}
    (hread : (grammar.readOn line symbol [] (token :: later)).1 = some extension)
    (hpos : 0 < extension.consumed) :
    (grammar.grow line token later 0 { tree := .branch symbol row }).2 =
      .ok extension.consumed := by
  rw [grow]
  split
  · next hnone => cases hnone
  · next path node hpoint =>
    obtain ⟨rfl, rfl⟩ := Prod.mk.inj (Option.some.inj hpoint)
    rcases hon : grammar.readOn line symbol [] (token :: later) with ⟨found, further⟩
    rw [hon] at hread
    obtain rfl : found = some extension := hread
    have hnode : grammar.readOn line (branch symbol row).symbol (branch symbol row).children
        (token :: later) = (some extension, further) := hon
    have hfilter : ((some extension).filter fun extension => 0 < extension.consumed) =
        some extension := Option.filter_eq_some_iff.mpr ⟨rfl, by simpa using hpos⟩
    rw [hnode]
    dsimp only
    rw [hfilter]

theorem growAll_branch_iff (h : grammar.WellFormed) (symbol : String) (row : Nat) :
    (grammar.growAll line { tree := .branch symbol row } (token :: later)).2 = .ok () ↔
      grammar.most line grammar.ruleKeys 0 (token :: later) symbol =
        some (token :: later).length := by
  rw [← map_consumed_readOn h]
  constructor
  · intro hok
    have hfresh : Fresh (branch symbol row) := ⟨rfl, rfl, rfl⟩
    obtain ⟨extension, hread, hall⟩ := readOn_of_growAll_fresh hfresh (List.cons_ne_nil _ _) hok
    replace hread : (grammar.readOn line symbol [] (token :: later)).1 = some extension := hread
    have hmost := map_consumed_readOn h line symbol (token :: later)
    rw [hread, Option.map_some] at hmost ⊢
    exact congrArg some (Nat.le_antisymm (most_le hmost.symm) hall)
  · intro hall
    obtain ⟨extension, hread, hconsumed⟩ := Option.map_eq_some_iff.mp hall
    have hgrow : (grammar.grow line token later 0 { tree := .branch symbol row }).2 =
        .ok extension.consumed :=
      grow_branch hread (by rw [hconsumed, List.length_cons]; omega)
    rw [growAll]
    split
    · next herror => rw [herror] at hgrow; cases hgrow
    · next grown consumed hok =>
      rw [hok] at hgrow
      obtain rfl : consumed = extension.consumed := by simpa using hgrow
      have hnone : later.drop (extension.consumed - 1) = [] := by
        rw [hconsumed, List.length_cons, Nat.add_sub_cancel, List.drop_length]
      rw [hnone, growAll]

end LineGrammar.Grammar

namespace LineGrammar.Parse

open Grammar

/-- The parse takes the tokens as its next line. -/
def Accepts (parse : Parse) (grammar : Grammar) (tokens : List Token) : Prop :=
  ∃ more, (parse.feed grammar tokens).2 = .ok more

theorem accepts_iff {grammar : Grammar} (h : grammar.WellFormed) {start : String}
    (hstart : grammar.start? = some start) (row : Nat) (tokens : List Token) :
    Accepts ⟨none, row⟩ grammar tokens ↔ tokens = [] ∨
      grammar.most (row + 1) grammar.ruleKeys 0 tokens start = some tokens.length := by
  cases tokens with
  | nil => simp [Accepts, feed]
  | cons token later =>
    rw [← growAll_branch_iff h start (row + 1), Accepts, feed, if_neg (List.cons_ne_nil _ _), hstart]
    dsimp only [Option.getD_none]
    split
    · next herror => simp [herror]
    · next hok => simp [hok]

end LineGrammar.Parse
