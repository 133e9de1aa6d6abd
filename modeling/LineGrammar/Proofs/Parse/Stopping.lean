import LineGrammar.Proofs.Parse.Taking
import LineGrammar.Proofs.Parse.Guarding

/-!
# Where the reading of a symbol stops

A symbol that is read on takes the first of the tokens, and makes nodes for the next symbols of one
alternative. It is left unfinished only where the tokens have ended; where it leaves tokens over,
all that it has read is complete at every depth (`Grammar.StopsWhole`). None of this depends on what
is being read around it: it is true under every guard (`Grammar.stopsWhole_under`), since each
guarded search that comes to something comes to a reading of the tokens (`Grammar.reads_of_search`).
-/

namespace LineGrammar.Grammar

open LineGrammar.Tree

variable {grammar : Grammar} {line offset furthest : Nat} {active : List (String × Nat)}
  {free symbols : List String} {symbol : String} {existing : List Tree} {tokens : List Token}
  {stretch : Stretch} {extension : Extension}

/-! ## Reading under a guard -/

/-- Reads a symbol on while only the `free` symbols may be entered before the first token. -/
def readUnder (grammar : Grammar) (line : Nat) (free : List String) (offset : Nat) (symbol : String)
    (existing : List Tree) (tokens : List Token) : Option Extension × Nat :=
  let (fits, furthest) := grammar.readAlternatives line free offset tokens
    (existing.map (·.symbol)) (grammar.alternatives symbol)
  (Extension.choose fits, furthest)

/-- Reads a symbol on while those are being read that are `active`; none if that has no end. -/
def searchUnder (grammar : Grammar) (line : Nat) (active : List (String × Nat)) (offset : Nat)
    (symbol : String) (existing : List Tree) (tokens : List Token) :
    Option (Option Extension × Nat) := do
  let (fits, furthest) ← grammar.searchAlternatives line active offset tokens
    (existing.map (·.symbol)) (grammar.alternatives symbol)
  some (Extension.choose fits, furthest)

theorem readOn_eq_readUnder (grammar : Grammar) (line : Nat) (symbol : String)
    (existing : List Tree) (tokens : List Token) :
    grammar.readOn line symbol existing tokens =
      grammar.readUnder line grammar.ruleKeys 0 symbol existing tokens :=
  rfl

/-- Every search under a guard ends. It comes to what is read while the unguarded keys are free, if
no symbol has been entered behind the first token. -/
theorem endsAs_searchUnder (grammar : Grammar) (line : Nat) (active : List (String × Nat))
    (offset : Nat) (symbol : String) (existing : List Tree) (tokens : List Token) :
    EndsAs (grammar.ruleKeys.Nodup ∧ ∀ entry ∈ active, entry.2 ≤ offset)
      (grammar.searchUnder line active offset symbol existing tokens)
      (grammar.readUnder line (grammar.freeAt active offset) offset symbol existing tokens) := by
  have halternatives : EndsAs (grammar.ruleKeys.Nodup ∧ ∀ entry ∈ active, entry.2 ≤ offset)
      (grammar.searchAlternatives line active offset tokens (existing.map (·.symbol))
        (grammar.alternatives symbol))
      (grammar.readAlternatives line (grammar.freeAt active offset) offset tokens
        (existing.map (·.symbol)) (grammar.alternatives symbol)) := by
    apply Task.endsAs_searchAlternatives
    intro alternative _ _
    obtain ⟨result, hsearch, hread⟩ := Task.settles grammar line
      ⟨active, offset, tokens, alternative.drop (existing.map (·.symbol)).length⟩
    exact ⟨result, hsearch, fun hguard => hread ⟨hguard.1, hguard.2⟩⟩
  obtain ⟨⟨fits, furthest⟩, hfits, hread⟩ := halternatives
  rw [searchUnder, hfits, readUnder]
  exact ⟨_, rfl, fun hguard => by rw [← hread hguard]⟩

/-! ## What searches come to -/

/-- What a guarded search comes to is a reading of the tokens, whatever the guard is. -/
theorem reads_of_search (grammar : Grammar) (line : Nat) :
    (∀ (active : List (String × Nat)) (offset : Nat) (tokens : List Token) (symbols : List String)
      (result : Option Stretch × Nat),
      grammar.searchSequence line active offset tokens symbols = some result →
        ∀ stretch, result.1 = some stretch → Reads grammar line tokens symbols stretch) ∧
    (∀ (active : List (String × Nat)) (offset : Nat) (tokens : List Token)
      (existing : List String) (alternatives : List Alternative) (result : List Fit × Nat),
      grammar.searchAlternatives line active offset tokens existing alternatives = some result →
        ∀ fit ∈ result.1, FitsReading grammar line tokens existing alternatives fit) := by
  have hkept := keptByReading_reads grammar line
  apply searchSequence.mutual_partial_correctness
  case h_1 =>
    intro searchSequence searchAlternatives ihSequence ihAlternatives active offset tokens symbols
      result h stretch hstretch
    cases symbols with
    | nil =>
      obtain rfl := Option.some.inj h
      obtain rfl := Option.some.inj hstretch
      exact .done
    | cons symbol symbols =>
      dsimp only at h
      by_cases hempty : symbol = emptyText
      · rw [if_pos hempty] at h
        obtain ⟨⟨rest, furthest⟩, hrest, hresult⟩ := Option.bind_eq_some_iff.mp h
        obtain rfl := Option.some.inj hresult
        obtain ⟨inner, hinner, rfl⟩ := Option.map_eq_some_iff.mp hstretch
        subst hempty
        exact .empty (ihSequence _ _ _ _ _ hrest inner hinner)
      · rw [if_neg hempty] at h
        cases tokens with
        | nil =>
          obtain rfl := Option.some.inj h
          obtain rfl := Option.some.inj hstretch
          exact .short hempty
        | cons token later =>
          dsimp only at h
          split at h
          · next hterminal =>
            split at h
            · next haccepts =>
              obtain ⟨⟨rest, furthest⟩, hrest, hresult⟩ := Option.bind_eq_some_iff.mp h
              obtain rfl := Option.some.inj hresult
              obtain ⟨inner, hinner, rfl⟩ := Option.map_eq_some_iff.mp hstretch
              exact .terminal hempty hterminal haccepts (ihSequence _ _ _ _ _ hrest inner hinner)
            · obtain rfl := Option.some.inj h
              cases hstretch
          · next hterminal =>
            split at h
            · obtain rfl := Option.some.inj h
              cases hstretch
            · obtain ⟨⟨fits, furthest⟩, hfits, hbehind⟩ := Option.bind_eq_some_iff.mp h
              have hreading := ihAlternatives _ _ _ _ _ _ hfits
              dsimp only at hbehind
              split at hbehind
              · obtain rfl := Option.some.inj hbehind
                cases hstretch
              · next extension hchoose =>
                split at hbehind
                · next hincomplete =>
                  obtain rfl := Option.some.inj hbehind
                  obtain rfl := Option.some.inj hstretch
                  exact hkept.inside_of_choose hreading hchoose hempty
                    (by simpa using hterminal) hincomplete symbols
                · obtain ⟨⟨rest, further⟩, hrest, hresult⟩ := Option.bind_eq_some_iff.mp hbehind
                  obtain rfl := Option.some.inj hresult
                  obtain ⟨after, hafter, rfl⟩ := Option.map_eq_some_iff.mp hstretch
                  exact hkept.symbol_of_choose hreading hchoose hempty
                    (by simpa using hterminal) (ihSequence _ _ _ _ _ hrest after hafter)
  case h_2 =>
    intro searchSequence searchAlternatives ihSequence ihAlternatives active offset tokens existing
      alternatives result h fit hfit
    cases alternatives with
    | nil =>
      obtain rfl := Option.some.inj h
      cases hfit
    | cons alternative alternatives =>
      obtain ⟨⟨fits, furthest⟩, hfits, hbehind⟩ := Option.bind_eq_some_iff.mp h
      have hothers := ihAlternatives _ _ _ _ _ _ hfits
      dsimp only at hbehind
      split at hbehind
      · next hlonger =>
        obtain ⟨⟨found, further⟩, hfound, hresult⟩ := Option.bind_eq_some_iff.mp hbehind
        rw [Bool.and_eq_true, List.isPrefixOf_iff_prefix, decide_eq_true_iff] at hlonger
        cases found with
        | none =>
          obtain rfl := Option.some.inj hresult
          exact (hothers fit hfit).cons alternative
        | some stretch =>
          obtain rfl := Option.some.inj hresult
          rcases List.mem_cons.mp hfit with rfl | hmem
          · exact ⟨alternative, List.mem_cons_self, hlonger.1, hlonger.2,
              ihSequence _ _ _ _ _ hfound stretch rfl, rfl, rfl⟩
          · exact (hothers fit hmem).cons alternative
      · obtain rfl := Option.some.inj hbehind
        exact (hothers fit hfit).cons alternative

/-! ## What is left over -/

theorem Reads.complete_of_lt (h : Reads grammar line tokens symbols stretch)
    (hlt : stretch.consumed < tokens.length) :
    ∀ node ∈ stretch.nodes, node.Everywhere fun node => node.completion = .complete := by
  have hleaf : ∀ symbol token,
      (leaf symbol token line).Everywhere fun node => node.completion = .complete :=
    fun symbol token => .intro rfl (by simp [leaf])
  induction h with
  | done => simp [Stretch.empty]
  | empty _ ih =>
    rw [Stretch.cons, Nat.zero_add] at hlt
    exact List.forall_mem_cons.mpr ⟨hleaf _ _, ih hlt⟩
  | short => simp [Stretch.empty]
  | terminal _ _ _ _ ih =>
    simp only [Stretch.cons, List.length_cons] at hlt
    exact List.forall_mem_cons.mpr ⟨hleaf _ _, ih (by omega)⟩
  | inside _ _ _ hinner hsettled =>
    exact absurd (hinner.settled_of_lt hlt).1 hsettled
  | symbol _ _ _ hinner hcompletion _ ihInner ihRest =>
    simp only [Stretch.cons] at hlt
    have hfull := (hinner.settled_of_lt (by omega)).1
    refine List.forall_mem_cons.mpr ⟨?_, ihRest (by rw [List.length_drop]; omega)⟩
    exact .intro (hcompletion.mpr hfull) (ihInner (by omega))

/-- What a symbol is read on by takes the first of the tokens, and goes on in one alternative. It is
unfinished only if it takes all of them, and if not all that it adds is complete at every depth. -/
structure StopsWhole (grammar : Grammar) (symbol : String) (existing : List Tree)
    (tokens : List Token) (extension : Extension) : Prop where
  consumed_le : extension.consumed ≤ tokens.length
  tokens_eq : tokensAll extension.nodes = tokens.take extension.consumed
  alternative : ∃ alternative ∈ grammar.alternatives symbol,
    (existing ++ extension.nodes).map (·.symbol) <+: alternative
  takesAll : extension.completion ≠ .complete → extension.consumed = tokens.length
  complete : extension.consumed < tokens.length →
    ∀ node ∈ extension.nodes, node.Everywhere fun node => node.completion = .complete

theorem Extends.stopsWhole
    (h : Extends grammar line tokens symbol (existing.map (·.symbol)) extension) :
    grammar.StopsWhole symbol existing tokens extension := by
  obtain ⟨alternative, hmem, stretch, ⟨unread, rfl⟩, -, hreads, hnodes, hconsumed, hcompletion⟩ := h
  rw [List.drop_left] at hreads
  have hfull : extension.completion = .complete ↔ stretch.settled = unread.length :=
    Iff.trans hcompletion (by rw [List.length_append, Nat.add_left_cancel_iff])
  constructor
  case consumed_le =>
    rw [hconsumed]
    exact hreads.consumed_le
  case tokens_eq =>
    rw [hnodes, hconsumed]
    exact hreads.tokensAll_nodes
  case alternative =>
    refine ⟨_, hmem, ?_⟩
    rw [List.map_append, hnodes]
    exact (List.prefix_append_right_inj _).mpr ⟨_, hreads.symbols_append⟩
  case takesAll =>
    intro hcompletion
    by_contra hother
    have hlt : stretch.consumed < tokens.length :=
      Nat.lt_of_le_of_ne hreads.consumed_le (hconsumed ▸ hother)
    exact hcompletion (hfull.mpr (hreads.settled_of_lt hlt).1)
  case complete =>
    intro hlt
    rw [hconsumed] at hlt
    rw [hnodes]
    exact hreads.complete_of_lt hlt

/-- **A reading that stops early is whole.** Under every guard the search for a way to read a symbol
on ends, and what it comes to takes the first of the tokens, goes on in one alternative, and is
unfinished only if it takes all tokens; where it leaves some over, all that it adds is complete. So
it is with what is read while any symbols are free. The two are the same under a guard that is like
those of a reading. -/
theorem stopsWhole_under (grammar : Grammar) (line offset : Nat) (active : List (String × Nat))
    (free : List String) (symbol : String) (existing : List Tree) (tokens : List Token) :
    EndsAs (grammar.ruleKeys.Nodup ∧ ∀ entry ∈ active, entry.2 ≤ offset)
      (grammar.searchUnder line active offset symbol existing tokens)
      (grammar.readUnder line (grammar.freeAt active offset) offset symbol existing tokens) ∧
    (∀ extension furthest,
      grammar.searchUnder line active offset symbol existing tokens =
        some (some extension, furthest) →
      grammar.StopsWhole symbol existing tokens extension) ∧
    ∀ extension, (grammar.readUnder line free offset symbol existing tokens).1 = some extension →
      grammar.StopsWhole symbol existing tokens extension := by
  refine ⟨endsAs_searchUnder grammar line active offset symbol existing tokens, ?_, ?_⟩
  · intro extension furthest h
    obtain ⟨⟨fits, further⟩, hfits, hresult⟩ := Option.bind_eq_some_iff.mp h
    obtain ⟨hchoose, -⟩ := Prod.mk.inj (Option.some.inj hresult)
    exact (extends_of_choose ((reads_of_search grammar line).2 _ _ _ _ _ _ hfits)
      hchoose).stopsWhole
  · intro extension h
    exact (extends_of_choose ((reads_and_fitsReading grammar line).2 _ _ _ _ _) h).stopsWhole

/-- Letters behind a mark, with something behind them that may be left out. -/
def markedLetters : Grammar where
  nonTerminals := ["P", "L", "M"]
  terminals := ["x", "y", "a", "c", "d", "$", "#"]
  rules := [("P", [["x", "y"], ["x", "L", "M"]]), ("L", [["a", "L"], ["#"]]), ("M", [["d"], ["#"]])]

def mark : List Tree :=
  [.leaf "x" (some ⟨.word "x", ⟨1, 0⟩⟩) 1]

/-- The symbol is read on behind its mark while it is being read itself. The last of the tokens is
left over. -/
theorem stopsWhole_under_markedLetters : ∃ extension furthest,
    markedLetters.searchUnder 2 [("P", 4), ("L", 3)] 4 "P" mark
      (Parse.wordTokens ["a", "a", "c"]) = some (some extension, furthest) ∧
    (markedLetters.readUnder 2 ["L", "M"] 4 "P" mark
      (Parse.wordTokens ["a", "a", "c"])).1 = some extension ∧
    extension.consumed = 2 ∧ (mark ++ extension.nodes).map (·.symbol) = ["x", "L", "M"] ∧
    extension.completion = .complete ∧
    ∀ node ∈ extension.nodes, node.Everywhere fun node => node.completion = .complete := by
  obtain ⟨⟨⟨found, furthest⟩, hsearch, heq⟩, hsearched, hread⟩ := stopsWhole_under markedLetters 2 4
    [("P", 4), ("L", 3)] ["L", "M"] "P" mark (Parse.wordTokens ["a", "a", "c"])
  have hfree : markedLetters.freeAt [("P", 4), ("L", 3)] 4 = ["L", "M"] := by decide
  have hsame := congrArg Prod.fst (heq ⟨by decide, by decide⟩)
  have hshape : (markedLetters.readUnder 2 ["L", "M"] 4 "P" mark
      (Parse.wordTokens ["a", "a", "c"])).1.map (fun extension =>
        (extension.consumed, (mark ++ extension.nodes).map (·.symbol))) =
      some (2, ["x", "L", "M"]) := by
    cbv
  rw [hfree] at hsame
  obtain ⟨extension, hextension, hpair⟩ := Option.map_eq_some_iff.mp hshape
  obtain ⟨hconsumed, hsymbols⟩ := Prod.mk.inj hpair
  obtain rfl : found = some extension := hsame.trans hextension
  refine ⟨extension, furthest, hsearch, hextension, hconsumed, hsymbols, ?_, ?_⟩
  · by_contra hcompletion
    have hall := (hsearched extension furthest hsearch).takesAll hcompletion
    rw [hconsumed] at hall
    exact absurd hall (by decide)
  · exact (hread extension hextension).complete (by rw [hconsumed]; decide)

end LineGrammar.Grammar
