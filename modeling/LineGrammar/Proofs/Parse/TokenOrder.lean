import LineGrammar.Parse
import LineGrammar.Proofs.Parse.Edge
import LineGrammar.Proofs.Parse.Reading
import LineGrammar.Proofs.Parse.Undo

/-!
# Tokens stay in order

A tree grows at its open nodes only, and the tokens of the tree stay in the order in which they were
fed because of where these nodes are: all of them lie on one way down from the root, and no token
stands behind that way (`Tree.EdgeOpen`). What is read anew is of this shape, since a node is left
unfinished only where the tokens end; and the node that grows is the last open one, so that its
children are settled and all that is added comes last.
-/

namespace LineGrammar

namespace Tree

theorem tokensAll_append (trees others : List Tree) :
    tokensAll (trees ++ others) = tokensAll trees ++ tokensAll others := by
  induction trees with
  | nil => rfl
  | cons tree trees ih => rw [List.cons_append, tokensAll, ih, tokensAll, List.append_assoc]

/-- What is known where a node with all its children settled is changed into another one that has
some more tokens at its end. -/
structure Growing (change : Tree → Tree) (node : Tree) (added : List Token) : Prop where
  edgeOpen : (change node).EdgeOpen
  tokens : (change node).tokens = node.tokens ++ added

theorem OpenAt.growing {tree node : Tree} {path : Path} {change : Tree → Tree} {added : List Token}
    (h : OpenAt tree path node) (hchange : Growing change node added) :
    Growing (fun tree => tree.modifyAt change path) tree added := by
  induction h with
  | here => simpa only [modifyAt_nil] using hchange
  | under hbefore _ hafter htokens ih =>
    obtain ⟨hedge, hadded⟩ := ih hchange
    constructor
    · rw [OpenAt.modifyAt_under]
      exact .inr (edgeOpenAll_append hbefore (.inr ⟨hedge, hafter, htokens⟩))
    · rw [OpenAt.modifyAt_under, tokens, tokens, tokensAll_append, tokensAll_append, tokensAll,
        tokensAll, hadded, htokens]
      simp only [List.append_nil, List.append_assoc]

/-! ## Closing finished nodes -/

mutual

theorem tokens_close : ∀ tree : Tree, tree.close.tokens = tree.tokens
  | ⟨symbol, token, completion, closed, line, children⟩ => by
    unfold close
    cases closed with
    | true => rfl
    | false =>
      simp only [Bool.false_eq_true, if_false]
      rw [tokens, tokens, tokensAll_closeAll]

theorem tokensAll_closeAll : ∀ trees : List Tree, tokensAll (closeAll trees) = tokensAll trees
  | [] => rfl
  | tree :: trees => by
    rw [closeAll, tokensAll, tokensAll, tokens_close, tokensAll_closeAll]

end

theorem closed_close (tree : Tree) : tree.close.closed = true := by
  obtain ⟨symbol, token, completion, closed, line, children⟩ := tree
  cases closed <;> rfl

theorem settled_of_closed {tree : Tree} (h : tree.closed = true) : tree.Settled := by
  obtain ⟨symbol, token, completion, closed, line, children⟩ := tree
  exact .inl h

end Tree

namespace Grammar

open LineGrammar.Tree

mutual

theorem tokens_closeFinished (grammar : Grammar) :
    ∀ tree : Tree, (grammar.closeFinished tree).tokens = tree.tokens
  | ⟨symbol, token, completion, closed, line, children⟩ => by
    rw [closeFinished, tokens, tokens, tokensAll_closeFinishedAll]

theorem tokensAll_closeFinishedAll (grammar : Grammar) :
    ∀ trees : List Tree, tokensAll (grammar.closeFinishedAll trees) = tokensAll trees
  | [] => rfl
  | node :: rest => by
    rw [closeFinishedAll, tokensAll, tokensAll, tokensAll_closeFinishedAll]
    congr 1
    split
    · rfl
    · split
      · exact tokens_close node
      · exact tokens_closeFinished grammar node

end

mutual

theorem settled_closeFinished (grammar : Grammar) :
    ∀ {tree : Tree}, tree.Settled → (grammar.closeFinished tree).Settled
  | ⟨symbol, token, completion, closed, line, children⟩, h => by
    rw [closeFinished]
    rcases h with hclosed | ⟨hcomplete, hchildren⟩
    · exact .inl hclosed
    · exact .inr ⟨hcomplete, settledAll_closeFinishedAll grammar hchildren⟩

theorem settledAll_closeFinishedAll (grammar : Grammar) :
    ∀ {trees : List Tree}, SettledAll trees → SettledAll (grammar.closeFinishedAll trees)
  | [], _ => trivial
  | node :: rest, h => by
    rw [closeFinishedAll]
    refine ⟨?_, settledAll_closeFinishedAll grammar h.2⟩
    split
    · exact h.1
    · split
      · exact settled_of_closed node.closed_close
      · exact settled_closeFinished grammar h.1

end

mutual

theorem edgeOpen_closeFinished (grammar : Grammar) :
    ∀ {tree : Tree}, tree.EdgeOpen → (grammar.closeFinished tree).EdgeOpen
  | ⟨symbol, token, completion, closed, line, children⟩, h => by
    rw [closeFinished]
    rcases h with hclosed | hchildren
    · exact .inl hclosed
    · exact .inr (edgeOpenAll_closeFinishedAll grammar hchildren)

theorem edgeOpenAll_closeFinishedAll (grammar : Grammar) :
    ∀ {trees : List Tree}, EdgeOpenAll trees → EdgeOpenAll (grammar.closeFinishedAll trees)
  | [], _ => trivial
  | node :: rest, h => by
    rw [closeFinishedAll]
    rcases h with ⟨hnode, hrest⟩ | ⟨hnode, hrest, htokens⟩
    · refine .inl ⟨?_, edgeOpenAll_closeFinishedAll grammar hrest⟩
      split
      · exact hnode
      · split
        · exact settled_of_closed node.closed_close
        · exact settled_closeFinished grammar hnode
    · refine .inr ⟨?_, settledAll_closeFinishedAll grammar hrest, ?_⟩
      · split
        · exact hnode
        · split
          · exact edgeOpen_of_settled (settled_of_closed node.closed_close)
          · exact edgeOpen_closeFinished grammar hnode
      · rw [tokensAll_closeFinishedAll, htokens]

end

/-! ## Reading -/

section

variable {grammar : Grammar} {line : Nat} {tokens : List Token} {symbols : List String}
  {stretch : Stretch}

theorem Reads.tokensAll_nodes (h : Reads grammar line tokens symbols stretch) :
    tokensAll stretch.nodes = tokens.take stretch.consumed := by
  induction h with
  | done => rfl
  | empty hrest ih =>
    rw [Stretch.cons, tokensAll, ih, Nat.zero_add]
    rfl
  | short hsymbol => rfl
  | terminal hsymbol hterminal haccepts hrest ih =>
    rw [Stretch.cons, tokensAll, ih, Nat.add_comm, List.take_succ_cons]
    rfl
  | inside hsymbol hterminal halternative hinner hsettled ih =>
    rw [tokensAll, tokensAll, Tree.tokens, ih]
    exact List.append_nil _
  | symbol hsymbol hterminal halternative hinner hcompletion hrest ihInner ihRest =>
    rw [Stretch.cons, tokensAll, ihRest, Tree.tokens, ihInner, List.take_add]
    rfl

theorem Reads.settledAll_of_nil (h : Reads grammar line [] symbols stretch) :
    SettledAll stretch.nodes := by
  generalize htokens : ([] : List Token) = tokens at h
  induction h with
  | done => trivial
  | empty hrest ih => exact ⟨settled_leaf _ _ _, ih htokens⟩
  | short hsymbol => trivial
  | terminal hsymbol hterminal haccepts hrest ih => simp at htokens
  | inside hsymbol hterminal halternative hinner hsettled ih => simp at htokens
  | symbol hsymbol hterminal halternative hinner hcompletion hrest ihInner ihRest =>
    simp at htokens

theorem Reads.settled_of_lt (h : Reads grammar line tokens symbols stretch)
    (hlt : stretch.consumed < tokens.length) :
    stretch.settled = symbols.length ∧ SettledAll stretch.nodes := by
  induction h with
  | done => exact ⟨rfl, trivial⟩
  | empty hrest ih =>
    rw [Stretch.cons, Nat.zero_add] at hlt
    obtain ⟨hsettled, hall⟩ := ih hlt
    exact ⟨congrArg Nat.succ hsettled, settled_leaf _ _ _, hall⟩
  | short hsymbol => exact absurd hlt (Nat.not_lt_zero _)
  | terminal hsymbol hterminal haccepts hrest ih =>
    simp only [Stretch.cons, List.length_cons] at hlt
    obtain ⟨hsettled, hall⟩ := ih (by omega)
    exact ⟨congrArg Nat.succ hsettled, settled_leaf _ _ _, hall⟩
  | inside hsymbol hterminal halternative hinner hsettled ih =>
    exact absurd (ih hlt).1 hsettled
  | symbol hsymbol hterminal halternative hinner hcompletion hrest ihInner ihRest =>
    simp only [Stretch.cons] at hlt
    obtain ⟨hfull, hnodes⟩ := ihInner (by omega)
    obtain ⟨hsettled, hall⟩ := ihRest (by rw [List.length_drop]; omega)
    exact ⟨congrArg Nat.succ hsettled, .inr ⟨hcompletion.mpr hfull, hnodes⟩, hall⟩

/-- All that is left open lies on one way down, and no token has been read behind it. -/
theorem Reads.edgeOpenAll (h : Reads grammar line tokens symbols stretch) :
    EdgeOpenAll stretch.nodes := by
  induction h with
  | done => trivial
  | empty hrest ih => exact .inl ⟨settled_leaf _ _ _, ih⟩
  | short hsymbol => trivial
  | terminal hsymbol hterminal haccepts hrest ih => exact .inl ⟨settled_leaf _ _ _, ih⟩
  | inside hsymbol hterminal halternative hinner hsettled ih =>
    exact .inr ⟨.inr ih, trivial, rfl⟩
  | @symbol _ _ token later _ inner rest _ hsymbol hterminal halternative hinner hcompletion hrest
      ihInner ihRest =>
    by_cases hlt : inner.consumed < (token :: later).length
    · obtain ⟨hfull, hnodes⟩ := hinner.settled_of_lt hlt
      exact .inl ⟨.inr ⟨hcompletion.mpr hfull, hnodes⟩, ihRest⟩
    · -- the inner symbol has taken all tokens
      have hnil : (token :: later).drop inner.consumed = [] :=
        List.drop_eq_nil_of_le (Nat.le_of_not_lt hlt)
      have htokens := hrest.tokensAll_nodes
      rw [hnil] at hrest htokens
      exact .inr ⟨.inr ihInner, hrest.settledAll_of_nil, by rw [htokens, List.take_nil]⟩

end

/-! ## Growth -/

theorem growing_markComplete {node : Tree} (hsettled : SettledAll node.children) :
    Growing Tree.markComplete node [] := by
  obtain ⟨symbol, token, completion, closed, line, children⟩ := node
  constructor
  · exact edgeOpen_of_settled (.inr ⟨rfl, hsettled⟩)
  · exact (List.append_nil _).symm

theorem growing_extendBy {grammar : Grammar} {line : Nat} {tokens : List Token} {node : Tree}
    {extension : Extension} (hsettled : SettledAll node.children)
    (hread : (grammar.readOn line node.symbol node.children tokens).1 = some extension) :
    Growing (extendBy extension) node (tokens.take extension.consumed) := by
  obtain ⟨symbol, token, completion, closed, row, children⟩ := node
  obtain ⟨alternative, -, stretch, -, -, hreads, hnodes, hconsumed, -⟩ := extends_of_readOn hread
  constructor
  · refine .inr (edgeOpenAll_append hsettled ?_)
    rw [hnodes]
    exact hreads.edgeOpenAll
  · rw [extendBy, Tree.tokens, Tree.tokens]
    dsimp only
    rw [tokensAll_append, hnodes, hconsumed, hreads.tokensAll_nodes, List.append_assoc]

theorem tokens_grow (grammar : Grammar) (line : Nat) (token : Token) (tokens : List Token)
    (furthest : Nat) (growth : Growth) (hedge : growth.tree.EdgeOpen) {consumed : Nat}
    (h : (grammar.grow line token tokens furthest growth).2 = .ok consumed) :
    (grammar.grow line token tokens furthest growth).1.tree.EdgeOpen ∧ 0 < consumed ∧
      (grammar.grow line token tokens furthest growth).1.tree.tokens =
        growth.tree.tokens ++ (token :: tokens).take consumed := by
  fun_induction grow grammar line token tokens furthest growth with
  | case1 => simp at h
  | case2 furthest growth path node hpoint found further hread extension hfilter =>
    have hopen := openAt_of_growthPoint? hpoint hedge
    obtain ⟨hfound, hpos⟩ := Option.filter_eq_some_iff.mp hfilter
    obtain rfl : extension.consumed = consumed := by simpa using h
    have hextension := growing_extendBy hopen.settledAll_children (by rw [hread, hfound])
    obtain ⟨hedges, htokens⟩ := hopen.growing hextension
    exact ⟨hedges, by simpa using hpos, htokens⟩
  | case3 => simp at h
  | case4 furthest growth path node hpoint found further hread _ hfilter hpath ih =>
    have hopen := openAt_of_growthPoint? hpoint hedge
    obtain ⟨hedges, htokens⟩ := hopen.growing (growing_markComplete hopen.settledAll_children)
    rw [List.append_nil] at htokens
    rw [← htokens]
    exact ih hedges h

theorem tokens_growAll (grammar : Grammar) (line : Nat) (growth : Growth) (tokens : List Token)
    (hedge : growth.tree.EdgeOpen) (h : (grammar.growAll line growth tokens).2 = .ok ()) :
    (grammar.growAll line growth tokens).1.tree.EdgeOpen ∧
      (grammar.growAll line growth tokens).1.tree.tokens = growth.tree.tokens ++ tokens := by
  fun_induction growAll grammar line growth tokens with
  | case1 growth => exact ⟨hedge, (List.append_nil _).symm⟩
  | case2 => simp at h
  | case3 growth token tokens grown consumed hgrow ih =>
    have hturn := tokens_grow grammar line token tokens 0 growth hedge
      (show (grammar.grow line token tokens 0 growth).2 = .ok consumed by rw [hgrow])
    rw [hgrow] at hturn
    obtain ⟨hedges, hpos, htokens⟩ := hturn
    obtain ⟨hedgeAfter, hafter⟩ := ih (edgeOpen_closeFinished grammar hedges) h
    refine ⟨hedgeAfter, ?_⟩
    have hdrop : (token :: tokens).drop consumed = tokens.drop (consumed - 1) := by
      obtain ⟨before, rfl⟩ : ∃ before, consumed = before + 1 := ⟨consumed - 1, by omega⟩
      rfl
    rw [hafter, Growth.closeFinished, tokens_closeFinished, htokens, List.append_assoc, ← hdrop,
      List.take_append_drop]

end Grammar

namespace Parse

def tokens (parse : Parse) : List Token :=
  parse.root.elim [] Tree.tokens

/-- Feeds line after line, whether they fit or not, and collects those that fit. -/
def feedAll (parse : Parse) (grammar : Grammar) : List (List Token) → Parse × List (List Token)
  | [] => (parse, [])
  | line :: lines =>
    match parse.feed grammar line with
    | (fed, .error _) => fed.feedAll grammar lines
    | (fed, .ok _) =>
      let (after, accepted) := fed.feedAll grammar lines
      (after, line :: accepted)

theorem feedAll_induction {grammar : Grammar} {motive : Parse → Prop}
    (hfeed : ∀ parse line, motive parse → motive (parse.feed grammar line).1) {parse : Parse}
    (h : motive parse) (lines : List (List Token)) : motive (parse.feedAll grammar lines).1 := by
  induction lines generalizing parse with
  | nil => exact h
  | cons line lines ih =>
    have hfed := hfeed parse line h
    rw [feedAll]
    split
    · next fed error hline =>
      rw [hline] at hfed
      exact ih hfed
    · next fed expected hline =>
      rw [hline] at hfed
      exact ih hfed

/-- The tokens that a line adds, by whether it fits. -/
def added (line : List Token) : Except ParseError Bool → List Token
  | .ok _ => line
  | .error _ => []

/-- All that can grow lies on one way down, with no token behind it. -/
def EdgeOpen (parse : Parse) : Prop :=
  ∀ root ∈ parse.root, root.EdgeOpen

/-- A line that fits adds its tokens at the end, and one that does not fit adds none. -/
theorem tokens_feed {parse : Parse} (grammar : Grammar) (line : List Token)
    (hedge : parse.EdgeOpen) :
    (parse.feed grammar line).1.EdgeOpen ∧
      (parse.feed grammar line).1.tokens =
        parse.tokens ++ added line (parse.feed grammar line).2 := by
  unfold feed
  by_cases hempty : line = []
  · rw [if_pos hempty]
    exact ⟨hedge, by rw [hempty]; exact (List.append_nil _).symm⟩
  · rw [if_neg hempty]
    cases hstart : grammar.start? with
    | none => exact ⟨hedge, (List.append_nil _).symm⟩
    | some start =>
      dsimp only
      have hbefore : (parse.root.getD (.branch start (parse.line + 1))).EdgeOpen ∧
          (parse.root.getD (.branch start (parse.line + 1))).tokens = parse.tokens := by
        unfold tokens
        cases hroot : parse.root with
        | none => exact ⟨.inr trivial, rfl⟩
        | some root => exact ⟨hedge root hroot, rfl⟩
      have hroot := parse.map_reverted_growAll grammar (.branch start (parse.line + 1))
        (parse.line + 1) line
      have hgrown := grammar.tokens_growAll (parse.line + 1)
        { tree := parse.root.getD (.branch start (parse.line + 1)) } line hbefore.1
      rcases hgrow : grammar.growAll (parse.line + 1)
        { tree := parse.root.getD (.branch start (parse.line + 1)) } line with
          ⟨growth, error | ⟨⟨⟩⟩⟩
      · rw [hgrow] at hroot
        dsimp only at hroot ⊢
        rw [hroot]
        exact ⟨hedge, (List.append_nil _).symm⟩
      · rw [hgrow] at hgrown
        obtain ⟨hedges, htokens⟩ := hgrown rfl
        refine ⟨fun root hroot => ?_, ?_⟩
        · obtain rfl := Option.some.inj hroot
          exact hedges
        · rw [← hbefore.2]
          exact htokens

theorem tokens_feedAll {grammar : Grammar} {parse : Parse} (lines : List (List Token))
    (hedge : parse.EdgeOpen) :
    (parse.feedAll grammar lines).1.tokens =
      parse.tokens ++ (parse.feedAll grammar lines).2.flatten := by
  induction lines generalizing parse with
  | nil => exact (List.append_nil _).symm
  | cons line lines ih =>
    obtain ⟨hedges, htokens⟩ := tokens_feed grammar line hedge
    rw [feedAll]
    split
    · next fed error hfeed =>
      rw [hfeed] at hedges htokens
      rw [ih hedges, htokens]
      exact congrArg (· ++ _) (List.append_nil _)
    · next fed expected hfeed =>
      rw [hfeed] at hedges htokens
      dsimp only
      rw [ih hedges, htokens, List.flatten_cons, ← List.append_assoc]
      rfl

/-- **The tokens stay in order.** However many lines are fed to a fresh parse, the tokens of the tree
are those of the lines that fit, one line behind the other. -/
theorem tokens_feedAll_fresh (grammar : Grammar) (line : Nat) (lines : List (List Token)) :
    ((⟨none, line⟩ : Parse).feedAll grammar lines).1.tokens =
      ((⟨none, line⟩ : Parse).feedAll grammar lines).2.flatten := by
  have hfresh : (⟨none, line⟩ : Parse).EdgeOpen := fun root hroot => by simp at hroot
  rw [tokens_feedAll lines hfresh]
  rfl

end Parse

end LineGrammar
