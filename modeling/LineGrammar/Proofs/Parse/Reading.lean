import LineGrammar.Parse.Extension
import Mathlib.Data.List.Basic

/-!
# What reading can make of the tokens

`Reads` says what a sequence of symbols can make of tokens, with one case for each way in which a
symbol is read, and leaves open which of several fitting alternatives is chosen. `Extends` says the
same of a node that is read on. What `readSequence` and `readOn` return is among it, so that a
property of all that is read needs one induction over `Reads`; or, where it matters that an
alternative that is entered has symbols, one case for each of these ways
(`KeptByReading.of_read`).
-/

namespace LineGrammar

/-- What the completion of a node says about its alternative, of which so many symbols are settled. -/
def Completion.Fits (completion : Completion) (settled length : Nat) : Prop :=
  completion = .complete ↔ settled = length

namespace Grammar

/-- What symbols can make of tokens. -/
inductive Reads (grammar : Grammar) (line : Nat) : List Token → List String → Stretch → Prop where
  | done {tokens : List Token} : Reads grammar line tokens [] .empty
  | empty {tokens : List Token} {symbols : List String} {rest : Stretch}
      (hrest : Reads grammar line tokens symbols rest) :
      Reads grammar line tokens (emptyText :: symbols) (.cons (.leaf emptyText none line) 0 rest)
  /-- The tokens have ended. -/
  | short {symbol : String} {symbols : List String} (hsymbol : symbol ≠ emptyText) :
      Reads grammar line [] (symbol :: symbols) .empty
  | terminal {symbol : String} {symbols : List String} {token : Token} {later : List Token}
      {rest : Stretch} (hsymbol : symbol ≠ emptyText) (hterminal : grammar.isTerminal symbol = true)
      (haccepts : grammar.accepts symbol token = true)
      (hrest : Reads grammar line later symbols rest) :
      Reads grammar line (token :: later) (symbol :: symbols)
        (.cons (.leaf symbol (some token) line) 1 rest)
  /-- The tokens end inside of the symbol. -/
  | inside {symbol : String} {symbols : List String} {token : Token} {later : List Token}
      {alternative : Alternative} {inner : Stretch} (hsymbol : symbol ≠ emptyText)
      (hterminal : grammar.isTerminal symbol = false)
      (halternative : alternative ∈ grammar.alternatives symbol)
      (hinner : Reads grammar line (token :: later) alternative inner)
      (hsettled : inner.settled ≠ alternative.length) :
      Reads grammar line (token :: later) (symbol :: symbols)
        ⟨[⟨symbol, none, .incomplete, false, line, inner.nodes⟩], inner.consumed, 0⟩
  /-- The symbol is read as far as it needs to be, and the next ones are read behind it. -/
  | symbol {symbol : String} {symbols : List String} {token : Token} {later : List Token}
      {alternative : Alternative} {inner rest : Stretch} {completion : Completion}
      (hsymbol : symbol ≠ emptyText) (hterminal : grammar.isTerminal symbol = false)
      (halternative : alternative ∈ grammar.alternatives symbol)
      (hinner : Reads grammar line (token :: later) alternative inner)
      (hcompletion : completion.Fits inner.settled alternative.length)
      (hrest : Reads grammar line ((token :: later).drop inner.consumed) symbols rest) :
      Reads grammar line (token :: later) (symbol :: symbols)
        (.cons ⟨symbol, none, completion, false, line, inner.nodes⟩ inner.consumed rest)

/-- How a node can be read on that has read the `existing` symbols. -/
def Extends (grammar : Grammar) (line : Nat) (tokens : List Token) (symbol : String)
    (existing : List String) (extension : Extension) : Prop :=
  ∃ alternative ∈ grammar.alternatives symbol, ∃ stretch : Stretch,
    existing <+: alternative ∧ existing.length < alternative.length ∧
      Reads grammar line tokens (alternative.drop existing.length) stretch ∧
      extension.nodes = stretch.nodes ∧ extension.consumed = stretch.consumed ∧
      extension.completion.Fits (existing.length + stretch.settled) alternative.length

/-! ## The choice -/

theorem mem_of_foldl_prefer {fits : List Fit} {choice : Option Fit} {best : Fit}
    (h : fits.foldl Fit.prefer choice = some best) : choice = some best ∨ best ∈ fits := by
  induction fits generalizing choice with
  | nil => exact .inl h
  | cons fit fits ih =>
    rcases ih h with hchoice | hmem
    · cases choice with
      | none =>
        obtain rfl := Option.some.inj hchoice
        exact .inr (List.mem_cons_self)
      | some other =>
        unfold Fit.prefer at hchoice
        dsimp only at hchoice
        split at hchoice
        · obtain rfl := Option.some.inj hchoice
          exact .inr (List.mem_cons_self)
        · exact .inl hchoice
    · exact .inr (List.mem_cons_of_mem _ hmem)

theorem choose_eq_some {fits : List Fit} {extension : Extension}
    (h : Extension.choose fits = some extension) :
    ∃ fit ∈ fits, extension.nodes = fit.stretch.nodes ∧
      extension.consumed = fit.stretch.consumed ∧
      extension.completion.Fits fit.settled fit.length := by
  obtain ⟨best, hbest, rfl⟩ := Option.map_eq_some_iff.mp h
  have hmem : best ∈ fits := (mem_of_foldl_prefer hbest).resolve_left (by simp)
  refine ⟨best, hmem, rfl, rfl, ?_⟩
  unfold Completion.Fits
  have hfull : best.isFull = true ↔ best.settled = best.length := by simp [Fit.isFull]
  rw [← hfull]
  dsimp only
  split
  · next hyes => simp [hyes]
  · next hno => split <;> simp [hno]

/-! ## The reading -/

/-- A property of what symbols make of tokens which each way to read a symbol keeps. An alternative
that is entered has symbols. -/
structure KeptByReading (grammar : Grammar) (line : Nat)
    (property : List Token → List String → Stretch → Prop) : Prop where
  done (tokens : List Token) : property tokens [] .empty
  empty {tokens : List Token} {symbols : List String} {rest : Stretch}
    (hrest : property tokens symbols rest) :
    property tokens (emptyText :: symbols) (.cons (.leaf emptyText none line) 0 rest)
  short {symbol : String} {symbols : List String} (hsymbol : symbol ≠ emptyText) :
    property [] (symbol :: symbols) .empty
  terminal {symbol : String} {symbols : List String} {token : Token} {later : List Token}
    {rest : Stretch} (hsymbol : symbol ≠ emptyText) (hterminal : grammar.isTerminal symbol = true)
    (haccepts : grammar.accepts symbol token = true) (hrest : property later symbols rest) :
    property (token :: later) (symbol :: symbols) (.cons (.leaf symbol (some token) line) 1 rest)
  inside {symbol : String} {symbols : List String} {token : Token} {later : List Token}
    {alternative : Alternative} {inner : Stretch} (hsymbol : symbol ≠ emptyText)
    (hterminal : grammar.isTerminal symbol = false)
    (halternative : alternative ∈ grammar.alternatives symbol) (hne : alternative ≠ [])
    (hinner : property (token :: later) alternative inner)
    (hsettled : inner.settled ≠ alternative.length) :
    property (token :: later) (symbol :: symbols)
      ⟨[⟨symbol, none, .incomplete, false, line, inner.nodes⟩], inner.consumed, 0⟩
  symbol {symbol : String} {symbols : List String} {token : Token} {later : List Token}
    {alternative : Alternative} {inner rest : Stretch} {completion : Completion}
    (hsymbol : symbol ≠ emptyText) (hterminal : grammar.isTerminal symbol = false)
    (halternative : alternative ∈ grammar.alternatives symbol) (hne : alternative ≠ [])
    (hinner : property (token :: later) alternative inner)
    (hcompletion : completion.Fits inner.settled alternative.length)
    (hrest : property ((token :: later).drop inner.consumed) symbols rest) :
    property (token :: later) (symbol :: symbols)
      (.cons ⟨symbol, none, completion, false, line, inner.nodes⟩ inner.consumed rest)

/-- What is known of each alternative that fits, where the property is known of what is read. -/
def FitsBy (property : List Token → List String → Stretch → Prop) (tokens : List Token)
    (existing : List String) (alternatives : List Alternative) (fit : Fit) : Prop :=
  ∃ alternative ∈ alternatives, existing <+: alternative ∧ existing.length < alternative.length ∧
    property tokens (alternative.drop existing.length) fit.stretch ∧
    fit.settled = existing.length + fit.stretch.settled ∧ fit.length = alternative.length

/-- What is known of each alternative that fits. -/
def FitsReading (grammar : Grammar) (line : Nat) (tokens : List Token) (existing : List String)
    (alternatives : List Alternative) (fit : Fit) : Prop :=
  FitsBy (Reads grammar line) tokens existing alternatives fit

section

variable {grammar : Grammar} {line : Nat} {property : List Token → List String → Stretch → Prop}
  {tokens later : List Token} {token : Token} {existing symbols : List String} {symbol : String}
  {alternatives : List Alternative} {fits : List Fit} {fit : Fit} {extension : Extension}

theorem FitsBy.cons (h : FitsBy property tokens existing alternatives fit)
    (alternative : Alternative) :
    FitsBy property tokens existing (alternative :: alternatives) fit := by
  obtain ⟨other, hother, hrest⟩ := h
  exact ⟨other, List.mem_cons_of_mem _ hother, hrest⟩

theorem exists_of_choose (hfits : ∀ fit ∈ fits, FitsBy property tokens existing alternatives fit)
    (h : Extension.choose fits = some extension) :
    ∃ alternative ∈ alternatives, ∃ stretch : Stretch,
      existing <+: alternative ∧ existing.length < alternative.length ∧
        property tokens (alternative.drop existing.length) stretch ∧
        extension.nodes = stretch.nodes ∧ extension.consumed = stretch.consumed ∧
        extension.completion.Fits (existing.length + stretch.settled) alternative.length := by
  obtain ⟨fit, hfit, hnodes, hconsumed, hcompletion⟩ := choose_eq_some h
  obtain ⟨alternative, hmem, hprefix, hlength, hread, hsettled, hlong⟩ := hfits fit hfit
  rw [hsettled, hlong] at hcompletion
  exact ⟨alternative, hmem, fit.stretch, hprefix, hlength, hread, hnodes, hconsumed, hcompletion⟩

theorem extends_of_choose
    (hfits : ∀ fit ∈ fits,
      FitsReading grammar line tokens existing (grammar.alternatives symbol) fit)
    (h : Extension.choose fits = some extension) :
    Extends grammar line tokens symbol existing extension :=
  exists_of_choose hfits h

namespace KeptByReading

theorem inside_of_choose (h : KeptByReading grammar line property)
    (hfits : ∀ fit ∈ fits,
      FitsBy property (token :: later) [] (grammar.alternatives symbol) fit)
    (hchoose : Extension.choose fits = some extension) (hsymbol : symbol ≠ emptyText)
    (hterminal : grammar.isTerminal symbol = false)
    (hincomplete : extension.completion = .incomplete) (symbols : List String) :
    property (token :: later) (symbol :: symbols)
      ⟨[extension.toNode symbol line], extension.consumed, 0⟩ := by
  obtain ⟨alternative, hmem, inner, -, hlength, hinner, hnodes, hconsumed, hcompletion⟩ :=
    exists_of_choose hfits hchoose
  rw [List.length_nil, Nat.zero_add] at hcompletion
  have hsettled : inner.settled ≠ alternative.length := fun hfull =>
    absurd (hcompletion.mpr hfull) (by simp [hincomplete])
  rw [Extension.toNode, hincomplete, hnodes, hconsumed]
  exact h.inside hsymbol hterminal hmem (List.ne_nil_of_length_pos hlength) hinner hsettled

theorem symbol_of_choose (h : KeptByReading grammar line property)
    (hfits : ∀ fit ∈ fits,
      FitsBy property (token :: later) [] (grammar.alternatives symbol) fit)
    (hchoose : Extension.choose fits = some extension) (hsymbol : symbol ≠ emptyText)
    (hterminal : grammar.isTerminal symbol = false) {after : Stretch}
    (hafter : property ((token :: later).drop extension.consumed) symbols after) :
    property (token :: later) (symbol :: symbols)
      (.cons (extension.toNode symbol line) extension.consumed after) := by
  obtain ⟨alternative, hmem, inner, -, hlength, hinner, hnodes, hconsumed, hcompletion⟩ :=
    exists_of_choose hfits hchoose
  rw [List.length_nil, Nat.zero_add] at hcompletion
  rw [hconsumed] at hafter
  rw [Extension.toNode, hnodes, hconsumed]
  exact h.symbol hsymbol hterminal hmem (List.ne_nil_of_length_pos hlength) hinner hcompletion
    hafter

theorem of_read (hkept : KeptByReading grammar line property) :
    (∀ (free : List String) (offset : Nat) (tokens : List Token) (symbols : List String),
      ∀ stretch, (grammar.readSequence line free offset tokens symbols).1 = some stretch →
        property tokens symbols stretch) ∧
    (∀ (free : List String) (offset : Nat) (tokens : List Token) (existing : List String)
      (alternatives : List Alternative),
      ∀ fit ∈ (grammar.readAlternatives line free offset tokens existing alternatives).1,
        FitsBy property tokens existing alternatives fit) := by
  apply readSequence.mutual_induct grammar line
  case case1 =>
    intro free offset tokens stretch h
    rw [readSequence] at h
    obtain rfl := Option.some.inj h
    exact hkept.done tokens
  case case2 =>
    intro free offset tokens symbols rest furthest hrest ih stretch h
    rw [readSequence.eq_def] at h
    dsimp only at h
    rw [if_pos rfl, hrest] at h
    obtain ⟨inner, rfl, rfl⟩ := Option.map_eq_some_iff.mp h
    exact hkept.empty (ih inner (by rw [hrest]))
  case case3 =>
    intro free offset symbol symbols hsymbol stretch h
    rw [readSequence, if_neg hsymbol] at h
    obtain rfl := Option.some.inj h
    exact hkept.short hsymbol
  case case4 =>
    intro free offset symbol symbols hsymbol token later hterminal haccepts rest furthest hrest ih
      stretch h
    rw [readSequence, if_neg hsymbol] at h
    simp only [hterminal, haccepts, if_true, hrest] at h
    obtain ⟨inner, rfl, rfl⟩ := Option.map_eq_some_iff.mp h
    exact hkept.terminal hsymbol hterminal haccepts (ih inner (by rw [hrest]))
  case case5 =>
    intro free offset symbol symbols hsymbol token later hterminal haccepts stretch h
    rw [readSequence, if_neg hsymbol] at h
    simp [hterminal, haccepts] at h
  case case6 =>
    intro free offset symbol symbols hsymbol token later hterminal hfree fits furthest hfits hchoose
      _ stretch h
    rw [readSequence, if_neg hsymbol] at h
    simp [hterminal, hfree, hfits, hchoose] at h
  case case7 =>
    intro free offset symbol symbols hsymbol token later hterminal hfree fits furthest hfits
      extension hchoose hincomplete ih stretch h
    rw [readSequence, if_neg hsymbol] at h
    simp only [hterminal, hfree, hfits, hchoose, hincomplete, if_true, dif_pos, if_false,
      Bool.false_eq_true] at h
    rw [hfits] at ih
    obtain rfl := Option.some.inj h
    exact hkept.inside_of_choose ih hchoose hsymbol (by simpa using hterminal) hincomplete symbols
  case case8 =>
    intro free offset symbol symbols hsymbol token later hterminal hfree fits furthest hfits
      extension hchoose hincomplete rest further hrest ih ihSame ihLater stretch h
    rw [readSequence, if_neg hsymbol] at h
    simp only [hterminal, hfree, hfits, hchoose, hincomplete, dif_pos, if_false,
      Bool.false_eq_true, hrest] at h
    rw [hfits] at ih
    obtain ⟨after, rfl, rfl⟩ := Option.map_eq_some_iff.mp h
    refine hkept.symbol_of_choose ih hchoose hsymbol (by simpa using hterminal) ?_
    cases hcount : extension.consumed with
    | zero =>
      rw [hcount] at hrest
      exact ihSame after (congrArg Prod.fst hrest)
    | succ consumed =>
      rw [hcount] at hrest
      exact ihLater consumed after (congrArg Prod.fst hrest)
  case case9 =>
    intro free offset symbol symbols hsymbol token later hterminal hfree stretch h
    rw [readSequence, if_neg hsymbol] at h
    simp [hterminal, hfree] at h
  case case10 =>
    intro free offset tokens existing fit hfit
    simp [readAlternatives] at hfit
  case case11 =>
    intro free offset tokens existing alternative alternatives fits furthest hfits hlonger further
      hread ih _ fit hfit
    rw [readAlternatives, hfits] at hfit
    simp only [hlonger, if_true, hread] at hfit
    exact (ih fit (by rw [hfits]; exact hfit)).cons alternative
  case case12 =>
    intro free offset tokens existing alternative alternatives fits furthest hfits hlonger stretch
      further hread ih ihStretch fit hfit
    rw [readAlternatives, hfits] at hfit
    simp only [hlonger, if_true, hread] at hfit
    rw [Bool.and_eq_true, List.isPrefixOf_iff_prefix, decide_eq_true_iff] at hlonger
    rcases List.mem_cons.mp hfit with rfl | hmem
    · exact ⟨alternative, List.mem_cons_self, hlonger.1, hlonger.2,
        ihStretch stretch (by rw [hread]), rfl, rfl⟩
    · exact (ih fit (by rw [hfits]; exact hmem)).cons alternative
  case case13 =>
    intro free offset tokens existing alternative alternatives fits furthest hfits hlonger ih fit
      hfit
    rw [readAlternatives, hfits] at hfit
    simp only [hlonger, if_false, Bool.false_eq_true] at hfit
    exact (ih fit (by rw [hfits]; exact hfit)).cons alternative

end KeptByReading

end

/-- The ways in which symbols can be read are kept by reading. -/
theorem keptByReading_reads (grammar : Grammar) (line : Nat) :
    KeptByReading grammar line (Reads grammar line) where
  done _ := .done
  empty := .empty
  short := .short
  terminal := .terminal
  inside hsymbol hterminal halternative _ := .inside hsymbol hterminal halternative
  symbol hsymbol hterminal halternative _ := .symbol hsymbol hterminal halternative

theorem reads_and_fitsReading (grammar : Grammar) (line : Nat) :
    (∀ (free : List String) (offset : Nat) (tokens : List Token) (symbols : List String),
      ∀ stretch, (grammar.readSequence line free offset tokens symbols).1 = some stretch →
        Reads grammar line tokens symbols stretch) ∧
    (∀ (free : List String) (offset : Nat) (tokens : List Token) (existing : List String)
      (alternatives : List Alternative),
      ∀ fit ∈ (grammar.readAlternatives line free offset tokens existing alternatives).1,
        FitsReading grammar line tokens existing alternatives fit) :=
  (keptByReading_reads grammar line).of_read

theorem extends_of_readOn {grammar : Grammar} {line : Nat} {symbol : String} {existing : List Tree}
    {tokens : List Token} {extension : Extension}
    (h : (grammar.readOn line symbol existing tokens).1 = some extension) :
    Extends grammar line tokens symbol (existing.map (·.symbol)) extension :=
  extends_of_choose ((reads_and_fitsReading grammar line).2 _ _ _ _ _) h

end Grammar

end LineGrammar
