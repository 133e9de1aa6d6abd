import LineGrammar.Proofs.Parse.Closing
import LineGrammar.Proofs.Parse.Guarding
import Mathlib.Data.Nat.Init

/-!
# Feeding ends

Here the loops of feeding are written without any measure as well, each turn as it is made and as
often as it takes: the attempts to put tokens at the end of a tree (`Grammar.growFreely`), and the
turns in which the tokens of a line are taken (`Grammar.growAllFreely`). Every loop ends, for every
grammar: an attempt that fails turns a node that was not complete into a complete one
(`Grammar.turn_failed`), and a turn takes at least one token (`Grammar.growFreely_pos`). So feeding
ends, and comes to what `Parse.feed` comes to (`Parse.feeding_ends`).
-/

namespace LineGrammar

open LineGrammar.Tree

namespace Grammar

/-- What an attempt to put tokens at the end of a tree comes to. -/
inductive Turn where
  /-- Some tokens are taken, or no node is left to try. -/
  | done (growth : Growth) (outcome : Except ParseError Nat)
  /-- The node cannot take the next token, and another one is tried. -/
  | failed (growth : Growth) (furthest : Nat)

/-- One attempt to put tokens at the end of a tree; none if it has no end. -/
def turn (grammar : Grammar) (line : Nat) (token : Token) (tokens : List Token) (furthest : Nat)
    (growth : Growth) : Option Turn :=
  match growth.tree.growthPoint? with
  | none => some (.done growth (.error (refuse token tokens furthest)))
  | some (path, node) => do
    let (found, further) ← grammar.searchOn line node.symbol node.children (token :: tokens)
    match found.filter fun extension => 0 < extension.consumed with
    | some extension => some (.done (growth.extend path node extension) (.ok extension.consumed))
    | none =>
      if path = [] then
        some (.done growth (.error (refuse token tokens (max furthest further))))
      else some (.failed (growth.markComplete path node) (max furthest further))

/-- Attempts to put tokens at the end of a tree for as long as the attempts fail; none if that has
no end. -/
def growFreely (grammar : Grammar) (line : Nat) (token : Token) (tokens : List Token)
    (furthest : Nat) (growth : Growth) : Option (Growth × Except ParseError Nat) := do
  match ← grammar.turn line token tokens furthest growth with
  | .done grown outcome => some (grown, outcome)
  | .failed marked furthest => grammar |>.growFreely line token tokens furthest marked
partial_fixpoint

/-- Adds tokens to a tree for as long as there are some; none if that has no end. -/
def growAllFreely (grammar : Grammar) (line : Nat) (growth : Growth) :
    List Token → Option (Growth × Except ParseError Unit)
  | [] => some (growth, .ok ())
  | token :: tokens => do
    match ← grammar.growFreely line token tokens 0 growth with
    | (grown, .error error) => some (grown, .error error)
    | (grown, .ok consumed) =>
      grammar |>.growAllFreely line (grown.closeFinished grammar) ((token :: tokens).drop consumed)
partial_fixpoint

variable {grammar : Grammar} {line : Nat} {token : Token} {tokens : List Token}
  {furthest further consumed : Nat} {growth marked grown : Growth}

/-! ## Turns -/

/-- One node that was not complete is complete now, and all else is as it was. -/
def Completes (tree marked : Tree) : Prop :=
  ∃ path node, tree.nodeAt? path = some node ∧ node.completion ≠ .complete ∧
    marked = tree.modifyAt markComplete path

theorem Completes.unfinished {tree marked : Tree} (h : Completes tree marked) :
    marked.unfinished + 1 = tree.unfinished := by
  obtain ⟨path, node, hnode, hcompletion, rfl⟩ := h
  exact unfinished_markComplete hnode hcompletion

theorem turn_failed
    (h : grammar.turn line token tokens furthest growth = some (.failed marked further)) :
    Completes growth.tree marked.tree := by
  unfold turn at h
  split at h
  · cases h
  · next path node hpoint =>
    obtain ⟨⟨found, other⟩, -, hturn⟩ := Option.bind_eq_some_iff.mp h
    obtain ⟨hnode, hcompletion⟩ := growthPoint?_spec hpoint
    dsimp only at hturn
    split at hturn
    · cases hturn
    · split at hturn
      · cases hturn
      · cases hturn
        exact ⟨path, node, hnode, hcompletion, rfl⟩

theorem turn_done
    (h : grammar.turn line token tokens furthest growth = some (.done grown (.ok consumed))) :
    0 < consumed := by
  unfold turn at h
  split at h
  · cases h
  · next path node hpoint =>
    obtain ⟨⟨found, other⟩, -, hturn⟩ := Option.bind_eq_some_iff.mp h
    dsimp only at hturn
    split at hturn
    · next extension hfilter =>
      cases hturn
      exact of_decide_eq_true (Option.filter_eq_some_iff.mp hfilter).2
    · split at hturn <;> cases hturn

/-- What the tree grows to after an attempt. -/
def Turn.outcome (grammar : Grammar) (line : Nat) (token : Token) (tokens : List Token) :
    Turn → Growth × Except ParseError Nat
  | .done grown outcome => (grown, outcome)
  | .failed marked furthest => grammar.grow line token tokens furthest marked

theorem exists_turn (grammar : Grammar) (line : Nat) (token : Token) (tokens : List Token)
    (furthest : Nat) (growth : Growth) :
    ∃ turn, grammar.turn line token tokens furthest growth = some turn ∧
      (grammar.ruleKeys.Nodup →
        turn.outcome grammar line token tokens = grammar.grow line token tokens furthest growth) := by
  unfold turn
  cases hpoint : growth.tree.growthPoint? with
  | none =>
    refine ⟨_, rfl, fun _ => ?_⟩
    rw [Turn.outcome, grow]
    split
    · rfl
    · next hsome => rw [hpoint] at hsome; cases hsome
  | some point =>
    obtain ⟨path, node⟩ := point
    obtain ⟨⟨found, other⟩, hfound, hread⟩ :=
      grammar.endsAs_searchOn line node.symbol node.children (token :: tokens)
    rw [grow_of_growthPoint? hpoint]
    dsimp only
    rw [hfound]
    dsimp only [Option.bind_eq_bind, Option.bind_some]
    cases hfilter : found.filter fun extension => 0 < extension.consumed with
    | some extension =>
      refine ⟨_, rfl, fun hnodup => ?_⟩
      rw [← hread hnodup]
      dsimp only
      rw [hfilter, Turn.outcome]
    | none =>
      dsimp only
      by_cases hpath : path = []
      · rw [if_pos hpath]
        refine ⟨_, rfl, fun hnodup => ?_⟩
        rw [← hread hnodup]
        dsimp only
        rw [hfilter, Turn.outcome]
        dsimp only
        rw [if_pos hpath]
      · rw [if_neg hpath]
        refine ⟨_, rfl, fun hnodup => ?_⟩
        rw [← hread hnodup]
        dsimp only
        rw [hfilter, Turn.outcome]
        dsimp only
        rw [if_neg hpath]

/-! ## Loops -/

/-- The attempts to put tokens at the end of a tree end, since fewer and fewer nodes are not
complete. -/
theorem endsAs_growFreely (grammar : Grammar) (line : Nat) (token : Token) (tokens : List Token)
    (furthest : Nat) (growth : Growth) :
    EndsAs grammar.ruleKeys.Nodup (grammar.growFreely line token tokens furthest growth)
      (grammar.grow line token tokens furthest growth) := by
  induction hunfinished : growth.tree.unfinished using Nat.strong_induction_on
    generalizing furthest growth with
  | h unfinished ih =>
    obtain ⟨turn, hturn, houtcome⟩ := grammar.exists_turn line token tokens furthest growth
    rw [growFreely, hturn]
    cases turn with
    | done grown outcome => exact ⟨_, rfl, houtcome⟩
    | failed marked further =>
      have hfewer := (turn_failed hturn).unfinished
      obtain ⟨result, hresult, hgrow⟩ := ih _ (by omega) further marked rfl
      exact ⟨result, hresult, fun hnodup => (hgrow hnodup).trans (houtcome hnodup)⟩

theorem growFreely_pos
    (h : grammar.growFreely line token tokens furthest growth = some (grown, .ok consumed)) :
    0 < consumed := by
  refine growFreely.partial_correctness grammar line token tokens
    (fun _ _ result => ∀ consumed, result.2 = .ok consumed → 0 < consumed) ?_ furthest growth _ h
    consumed rfl
  intro rest ih furthest growth result hresult consumed hconsumed
  obtain ⟨turn, hturn, hrest⟩ := Option.bind_eq_some_iff.mp hresult
  cases turn with
  | done grown outcome =>
    cases hrest
    obtain rfl : outcome = .ok consumed := hconsumed
    exact turn_done hturn
  | failed marked further => exact ih further marked result hrest consumed hconsumed

/-- The turns in which tokens are added end, since each takes some of them. -/
theorem endsAs_growAllFreely (grammar : Grammar) (line : Nat) (growth : Growth)
    (tokens : List Token) :
    EndsAs grammar.ruleKeys.Nodup (grammar.growAllFreely line growth tokens)
      (grammar.growAll line growth tokens) := by
  induction hlength : tokens.length using Nat.strong_induction_on generalizing growth tokens with
  | h length ih =>
    cases tokens with
    | nil => exact ⟨_, by rw [growAllFreely], fun _ => by rw [growAll]⟩
    | cons token tokens =>
      obtain ⟨⟨grown, outcome⟩, hgrown, hgrow⟩ :=
        grammar.endsAs_growFreely line token tokens 0 growth
      rw [growAllFreely, hgrown]
      cases outcome with
      | error error =>
        refine ⟨_, rfl, fun hnodup => ?_⟩
        rw [growAll, ← hgrow hnodup]
      | ok consumed =>
        have hpos := growFreely_pos hgrown
        have hdrop : (token :: tokens).drop consumed = tokens.drop (consumed - 1) := by
          rw [← Nat.sub_add_cancel hpos, List.drop_succ_cons, Nat.add_sub_cancel]
        have hless : (tokens.drop (consumed - 1)).length < length := by
          rw [List.length_drop, ← hlength, List.length_cons]
          omega
        obtain ⟨result, hresult, hall⟩ := ih _ hless (grown.closeFinished grammar) _ rfl
        rw [← hdrop] at hresult
        refine ⟨result, hresult, fun hnodup => ?_⟩
        rw [growAll, ← hgrow hnodup]
        exact hall hnodup

end Grammar

namespace Parse

open Grammar

/-- Feeds a line of tokens; none if that has no end. -/
def feedFreely (parse : Parse) (grammar : Grammar) (tokens : List Token) :
    Option (Parse × Except ParseError Bool) :=
  if tokens = [] then some (parse, .ok (!parse.isComplete))
  else
    match grammar.start? with
    | none => some (parse, .error .noStartSymbol)
    | some start => do
      let line := parse.line + 1
      match ← grammar.growAllFreely line { tree := parse.root.getD (.branch start line) } tokens with
      | (growth, .error error) =>
        some (⟨parse.root.map fun _ => growth.reverted, line⟩, .error error)
      | (growth, .ok ()) =>
        let grown : Parse := ⟨some growth.tree, line⟩
        some (grown, .ok (!grown.isComplete))

theorem endsAs_feedFreely (parse : Parse) (grammar : Grammar) (tokens : List Token) :
    EndsAs grammar.ruleKeys.Nodup (parse.feedFreely grammar tokens) (parse.feed grammar tokens) := by
  unfold feedFreely feed
  split
  · exact ⟨_, rfl, fun _ => rfl⟩
  · cases grammar.start? with
    | none => exact ⟨_, rfl, fun _ => rfl⟩
    | some start =>
      dsimp only
      obtain ⟨⟨growth, outcome⟩, hgrowth, hall⟩ := grammar.endsAs_growAllFreely (parse.line + 1)
        { tree := parse.root.getD (.branch start (parse.line + 1)) } tokens
      rw [hgrowth]
      cases outcome with
      | error error =>
        refine ⟨_, rfl, fun hnodup => ?_⟩
        rw [← hall hnodup]
      | ok taken =>
        refine ⟨_, rfl, fun hnodup => ?_⟩
        rw [← hall hnodup]

/-- Feeding ends, for every grammar, every parse and every line, and with what `feed` says. A tree that
grows takes at least one token, and an attempt that fails completes one node. The tasks of a reading
are well-founded and each comes to an end, since no symbol is being read twice from the same token. -/
theorem feeding_ends (grammar : Grammar) (parse : Parse) (tokens : List Token) :
    EndsAs grammar.ruleKeys.Nodup (parse.feedFreely grammar tokens) (parse.feed grammar tokens) ∧
      (∀ line token later furthest growth grown consumed,
        grammar.growFreely line token later furthest growth = some (grown, .ok consumed) →
          0 < consumed) ∧
      (∀ line token later furthest growth marked further,
        grammar.turn line token later furthest growth = some (.failed marked further) →
          Completes growth.tree marked.tree ∧
            marked.tree.unfinished + 1 = growth.tree.unfinished) ∧
      ∀ line,
        (WellFounded fun other task => Task.Demands grammar line task other) ∧
        (∀ task : Task, ∃ result, task.search grammar line = some result) ∧
        ∀ symbols task,
          Relation.ReflTransGen (Task.Demands grammar line) ⟨[], 0, tokens, symbols⟩ task →
            task.Guarded grammar tokens ∧
              task.active.length ≤ grammar.ruleKeys.length * tokens.length := by
  refine ⟨endsAs_feedFreely parse grammar tokens, ?_, ?_, fun line => ⟨?_, ?_, ?_⟩⟩
  · intro line token later furthest growth grown consumed hgrown
    exact growFreely_pos hgrown
  · intro line token later furthest growth marked further hturn
    have hcompletes := turn_failed hturn
    exact ⟨hcompletes, hcompletes.unfinished⟩
  · exact Task.wellFounded_demands grammar line
  · intro task
    obtain ⟨result, hsearch, -⟩ := task.settles grammar line
    exact ⟨result, hsearch⟩
  · intro symbols task hreaches
    have hguarded := Task.guarded_of_reflTransGen hreaches
    exact ⟨hguarded, hguarded.length_le⟩

/-- Lists that begin with lists, by themselves and by way of a symbol that may be empty and has an
alternative of a symbol without rules. -/
def circles : Grammar :=
  Grammar.withSets {
    nonTerminals := ["S", "L", "M"]
    terminals := ["a", "c", "$", "#"]
    rules := [("S", [["L", "$"]]), ("L", [["L", "c", "a"], ["M"], ["a"]]),
      ("M", [["L"], ["#"], ["Q"]])] }

/-- The recursion is cut off, and the second letter is refused. -/
theorem feeding_ends_circles : circles.ruleKeys.Nodup ∧
    ∃ fed, ({} : Parse).feedFreely circles (wordTokens ["a", "c", "a"]) = some fed ∧
      fed.2 = .error (.noMatch ⟨.word "c", ⟨1, 0⟩⟩) := by
  obtain ⟨fed, hfed, heq⟩ := (feeding_ends circles {} (wordTokens ["a", "c", "a"])).1
  refine ⟨by decide, fed, hfed, ?_⟩
  rw [heq (by decide)]
  cbv

end Parse

end LineGrammar
