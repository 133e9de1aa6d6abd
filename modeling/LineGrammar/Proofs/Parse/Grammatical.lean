import LineGrammar.Proofs.Grammar.Freezing
import LineGrammar.Proofs.Parse.Shape

/-!
# What the accepted tokens are

The tokens of the accepted lines are a beginning of a text of the start symbol, up to what growth
leaves out. A node that does not take the next token is marked complete, whatever it has read until
then, and the next token is tried further out. So the rest of an alternative may be missing where a
line has ended inside of it: such a node cuts the alternative off (`Tree.Cuts`). Nothing else is
left out or added: with the alternatives as they have been cut off, the tokens are a beginning of a
text (`derivesTokens_feedAll`). Within one line nothing is cut off.
-/

namespace LineGrammar

namespace Grammar

variable {grammar : Grammar} {writes others : Writing} {form other rest : List String}
  {tokens later : List Token}

/-- The form derives terminals that the tokens belong to, with the rest behind them. -/
def DerivesTokens (grammar : Grammar) (writes : Writing) (form : List String)
    (tokens : List Token) (rest : List String) : Prop :=
  ∃ terminals, List.Forall₂ grammar.Spells terminals tokens ∧
    Derives writes form (terminals ++ rest)

namespace DerivesTokens

theorem none (form : List String) : grammar.DerivesTokens writes form [] form :=
  ⟨[], .nil, .refl form⟩

theorem of_derives (h : Derives writes form other)
    (hother : grammar.DerivesTokens writes other tokens rest) :
    grammar.DerivesTokens writes form tokens rest := by
  obtain ⟨terminals, hspells, hderives⟩ := hother
  exact ⟨terminals, hspells, h.trans hderives⟩

theorem append_right (h : grammar.DerivesTokens writes form tokens rest) (behind : List String) :
    grammar.DerivesTokens writes (form ++ behind) tokens (rest ++ behind) := by
  obtain ⟨terminals, hspells, hderives⟩ := h
  refine ⟨terminals, hspells, ?_⟩
  rw [← List.append_assoc]
  exact hderives.append_right behind

theorem append (h : grammar.DerivesTokens writes form tokens [])
    (hother : grammar.DerivesTokens writes other later rest) :
    grammar.DerivesTokens writes (form ++ other) (tokens ++ later) rest := by
  obtain ⟨terminals, hspells, hderives⟩ := h
  obtain ⟨behind, hspellsOther, hderivesOther⟩ := hother
  rw [List.append_nil] at hderives
  refine ⟨terminals ++ behind, List.rel_append hspells hspellsOther, ?_⟩
  rw [List.append_assoc]
  exact hderives.append hderivesOther

theorem mono (hmono : ∀ symbol body, writes symbol body → others symbol body)
    (h : grammar.DerivesTokens writes form tokens rest) :
    grammar.DerivesTokens others form tokens rest := by
  obtain ⟨terminals, hspells, hderives⟩ := h
  exact ⟨terminals, hspells, hderives.mono hmono⟩

end DerivesTokens

end Grammar

namespace Tree

open LineGrammar.Grammar

variable {grammar : Grammar} {writes : Writing}

/-- A node of the tree that cannot grow has read this much of an alternative of the symbol, where
what is missing cannot be the empty text. -/
def Cuts (grammar : Grammar) (tree : Tree) (symbol : String) (read : List String) : Prop :=
  ∃ path node, tree.nodeAt? path = some node ∧ node.isOpen = false ∧ node.symbol = symbol ∧
    node.children.map (·.symbol) = read ∧
    (∃ missing, read ++ missing ∈ grammar.alternatives symbol) ∧
    ∀ missing, read ++ missing ∈ grammar.alternatives symbol → ¬Vanishes grammar.Writes missing

theorem Cuts.of_child {tree child : Tree} {symbol : String} {read : List String}
    (h : child.Cuts grammar symbol read) (hchild : child ∈ tree.children) :
    tree.Cuts grammar symbol read := by
  obtain ⟨path, node, hnode, hrest⟩ := h
  obtain ⟨index, hindex⟩ := List.getElem?_of_mem hchild
  refine ⟨index :: path, node, ?_, hrest⟩
  rw [nodeAt?, hindex]
  exact hnode

/-- What the tokens of trees are for their symbols: all of a text if nothing is left to grow. -/
def Covers (grammar : Grammar) (writes : Writing) (trees : List Tree) : Prop :=
  ∃ rest, grammar.DerivesTokens writes (trees.map (·.symbol)) (tokensAll trees) rest ∧
    (SettledAll trees → rest = [])

theorem covers_of_forall {trees : List Tree} (hedge : EdgeOpenAll trees)
    (h : ∀ tree ∈ trees, tree.EdgeOpen → Covers grammar writes [tree]) :
    Covers grammar writes trees := by
  induction trees with
  | nil => exact ⟨[], .none [], fun _ => rfl⟩
  | cons tree trees ih =>
    obtain ⟨hfirst, htrees⟩ := List.forall_mem_cons.mp h
    rcases hedge with ⟨hsettled, hedges⟩ | ⟨hedge, hsettled, htokens⟩
    · obtain ⟨rest, hderives, hnone⟩ := hfirst (edgeOpen_of_settled hsettled)
      obtain rfl := hnone ⟨hsettled, trivial⟩
      obtain ⟨behind, hbehind, hall⟩ := ih hedges htrees
      rw [tokensAll, tokensAll, List.append_nil] at hderives
      exact ⟨behind, hderives.append hbehind, fun h => hall h.2⟩
    · -- behind the node that can grow there is no token
      obtain ⟨rest, hderives, hnone⟩ := hfirst hedge
      obtain ⟨behind, hbehind, hall⟩ := ih (edgeOpenAll_of_settledAll hsettled) htrees
      obtain rfl := hall hsettled
      rw [tokensAll, tokensAll, List.append_nil] at hderives
      rw [htokens] at hbehind
      obtain ⟨terminals, hspells, hvanish⟩ := hbehind
      obtain rfl := List.forall₂_nil_right_iff.mp hspells
      refine ⟨rest, ?_, fun h => hnone ⟨h.1, trivial⟩⟩
      rw [tokensAll, htokens, List.append_nil]
      refine .of_derives (hvanish.append_left [tree.symbol]) ?_
      simpa using hderives

/-- The tokens of a proper tree are a beginning of a text of its symbol, where alternatives may be
cut off as they are in the tree. -/
theorem covers_of_proper {tree : Tree} (h : tree.Everywhere grammar.Proper) (hedge : tree.EdgeOpen)
    (hwrites : ∀ symbol body, grammar.Writes symbol body → writes symbol body)
    (hcuts : ∀ symbol read, tree.Cuts grammar symbol read → writes symbol read) :
    Covers grammar writes [tree] := by
  induction h with
  | @intro tree hproper hchildren ih =>
    have hbelow : ∀ child ∈ tree.children, child.EdgeOpen → Covers grammar writes [child] :=
      fun child hchild hedge => ih child hchild hedge fun symbol read hcut =>
        hcuts symbol read (hcut.of_child hchild)
    obtain ⟨rest, hderives, hnone⟩ := covers_of_forall (hproper.edgeOpenAll_children hedge) hbelow
    cases hproper.shaped with
    | token line hspells => exact ⟨[], ⟨[_], .cons hspells .nil, .refl _⟩, fun _ => rfl⟩
    | blank line =>
      exact ⟨[], ⟨[], .nil, .of_writes (hwrites _ _ grammar.writes_emptyText)⟩, fun _ => rfl⟩
    | key unread htoken halternative hbegun =>
      have htokens : tokensAll [tree] = tokensAll tree.children := by
        obtain ⟨symbol, token, completion, closed, line, children⟩ := tree
        obtain rfl : token = none := htoken
        exact List.append_nil _
      rw [Covers, htokens]
      cases hopen : tree.isOpen with
      | true =>
        refine ⟨rest ++ unread, ?_, fun hsettled => ?_⟩
        · exact .of_derives (.of_writes (hwrites _ _ (.inl halternative)))
            (hderives.append_right unread)
        · exact absurd hsettled.1
            (OpenAt.here hopen (hproper.settledAll_children hsettled.1)).not_settled
      | false =>
        refine ⟨rest, .of_derives ?_ hderives, fun hsettled =>
          hnone (hproper.settledAll_children hsettled.1)⟩
        by_cases hvanish : ∃ missing, tree.children.map (·.symbol) ++ missing ∈
          grammar.alternatives tree.symbol ∧ Vanishes grammar.Writes missing
        · obtain ⟨missing, hmem, hmissing⟩ := hvanish
          have hread := (hmissing.mono hwrites).append_left (tree.children.map (·.symbol))
          rw [List.append_nil] at hread
          exact .trans (.of_writes (hwrites _ _ (.inl hmem))) hread
        · refine .of_writes (hcuts _ _ ⟨[], tree, rfl, hopen, rfl, rfl, ⟨unread, halternative⟩, ?_⟩)
          exact fun missing hmem hmissing => hvanish ⟨missing, hmem, hmissing⟩

end Tree

/-! ## One line -/

namespace Grammar

open LineGrammar.Tree

variable {grammar : Grammar} {line : Nat} {tokens : List Token} {symbols : List String}
  {stretch : Stretch}

theorem Reads.derivesTokens (h : Reads grammar line tokens symbols stretch) :
    ∃ rest, grammar.DerivesTokens grammar.Writes symbols (tokens.take stretch.consumed) rest ∧
      (stretch.consumed < tokens.length → rest = []) := by
  induction h with
  | done => exact ⟨[], .none [], fun _ => rfl⟩
  | @empty tokens symbols _ _ ih =>
    obtain ⟨rest, hderives, hnone⟩ := ih
    rw [Stretch.cons, Nat.zero_add]
    refine ⟨rest, .of_derives ?_ hderives, hnone⟩
    exact (Derives.of_writes grammar.writes_emptyText).append_right symbols
  | short => exact ⟨_, .none _, fun hlt => absurd hlt (Nat.not_lt_zero _)⟩
  | @terminal symbol symbols token later _ hsymbol hterminal haccepts _ ih =>
    obtain ⟨rest, hderives, hnone⟩ := ih
    have hfirst : grammar.DerivesTokens grammar.Writes [symbol] [token] [] :=
      ⟨[symbol], .cons ⟨hterminal, hsymbol, haccepts⟩ .nil, .refl _⟩
    rw [Stretch.cons, Nat.add_comm, List.take_succ_cons]
    refine ⟨rest, hfirst.append hderives, fun hlt => hnone ?_⟩
    simpa using hlt
  | inside _ _ halternative hinner hsettled ih =>
    obtain ⟨rest, hderives, -⟩ := ih
    refine ⟨_, .of_derives ((Derives.of_writes (.inl halternative)).append_right _)
      (hderives.append_right _), fun hlt => ?_⟩
    exact absurd (hinner.settled_of_lt hlt).1 hsettled
  | @symbol symbol symbols token later _ inner rest _ _ _ halternative _ _ hrest ihInner ihRest =>
    obtain ⟨behind, hinner, hnone⟩ := ihInner
    have hwritten : Derives grammar.Writes (symbol :: symbols) (_ ++ symbols) :=
      (Derives.of_writes (.inl halternative)).append_right symbols
    rw [Stretch.cons, List.take_add]
    by_cases hlt : inner.consumed < (token :: later).length
    · obtain rfl := hnone hlt
      obtain ⟨after, hafter, hall⟩ := ihRest
      refine ⟨after, .of_derives hwritten (hinner.append hafter), fun h => hall ?_⟩
      rw [List.length_drop]
      dsimp only at h
      omega
    · -- the inner symbol has taken all tokens
      refine ⟨behind ++ symbols, .of_derives hwritten ?_, fun h => ?_⟩
      · rw [List.drop_eq_nil_of_le (Nat.le_of_not_lt hlt), List.take_nil, List.append_nil]
        exact hinner.append_right symbols
      · dsimp only at h
        omega

theorem edgeOpen_of_fresh {tree : Tree} (h : Fresh tree) : tree.EdgeOpen := by
  obtain ⟨symbol, token, completion, closed, line, children⟩ := tree
  obtain ⟨-, rfl, -⟩ := h
  exact .inr trivial

theorem grow_of_fresh {token : Token} {furthest : Nat} {growth : Growth} {consumed : Nat}
    (hfresh : Fresh growth.tree)
    (h : (grammar.grow line token tokens furthest growth).2 = .ok consumed) :
    ∃ extension, (grammar.readOn line growth.tree.symbol [] (token :: tokens)).1 = some extension ∧
      extension.consumed = consumed ∧
      (grammar.grow line token tokens furthest growth).1.tree = extendBy extension growth.tree := by
  fun_induction grow grammar line token tokens furthest growth with
  | case1 => simp at h
  | case2 furthest growth path node hpoint found further hread extension hfilter =>
    have hopen := openAt_of_growthPoint? hpoint (edgeOpen_of_fresh hfresh)
    obtain ⟨rfl, rfl⟩ := eq_of_fresh hopen hfresh
    obtain ⟨hfound, -⟩ := Option.filter_eq_some_iff.mp hfilter
    refine ⟨extension, ?_, by simpa using h, by rw [Growth.extend, modifyAt_nil]⟩
    rw [← hfresh.2.1, hread, hfound]
  | case3 => simp at h
  | case4 furthest growth path node hpoint found further hread _ hfilter hpath ih =>
    have hopen := openAt_of_growthPoint? hpoint (edgeOpen_of_fresh hfresh)
    exact absurd (eq_of_fresh hopen hfresh).1 hpath

theorem grow_of_settled {growth : Growth} (h : growth.tree.Settled) (grammar : Grammar) (line : Nat)
    (token : Token) (tokens : List Token) (furthest : Nat) :
    (grammar.grow line token tokens furthest growth).2 =
      .error (refuse token tokens furthest) := by
  have hnone : growth.tree.growthPoint? = none := by
    cases hpoint : growth.tree.growthPoint? with
    | none => rfl
    | some point =>
      exact absurd h (openAt_of_growthPoint? hpoint (edgeOpen_of_settled h)).not_settled
  rw [grow]
  split
  · rfl
  · next hsome => rw [hnone] at hsome; simp at hsome

theorem readOn_of_growAll_fresh {growth : Growth} (hfresh : Fresh growth.tree) (hne : tokens ≠ [])
    (h : (grammar.growAll line growth tokens).2 = .ok ()) :
    ∃ extension, (grammar.readOn line growth.tree.symbol [] tokens).1 = some extension ∧
      tokens.length ≤ extension.consumed := by
  fun_cases growAll grammar line growth tokens with
  | case1 => exact absurd rfl hne
  | case2 => simp_all [growAll]
  | case3 token tokens grown consumed hgrow =>
    have hok : (grammar.grow line token tokens 0 growth).2 = .ok consumed := by rw [hgrow]
    have hpos := (tokens_grow grammar line token tokens 0 growth (edgeOpen_of_fresh hfresh) hok).2.1
    obtain ⟨extension, hread, rfl, htree⟩ := grow_of_fresh hfresh hok
    obtain ⟨alternative, hmem, stretch, -, -, hreads, hnodes, hcount, hcompletion⟩ :=
      extends_of_readOn hread
    refine ⟨extension, hread, Nat.le_of_not_lt fun hlt => ?_⟩
    -- what has been read is settled, so that the next token has no place
    obtain ⟨hfull, hsettled⟩ := hreads.settled_of_lt (hcount ▸ hlt)
    have hgrown : grown.tree.Settled := by
      rw [hgrow] at htree
      rw [htree, extendBy, hfresh.2.1, hnodes]
      refine .inr ⟨hcompletion.mpr ?_, hsettled⟩
      rw [hfull]
      simp
    rw [growAll, hgrow] at h
    dsimp only at h
    obtain ⟨next, later, hrest⟩ : ∃ next later,
        tokens.drop (extension.consumed - 1) = next :: later := by
      rw [← List.ne_nil_iff_exists_cons, ← List.length_pos_iff, List.length_drop]
      rw [List.length_cons] at hlt
      omega
    rw [hrest, growAll] at h
    have hafter : (grown.closeFinished grammar).tree.Settled := settled_closeFinished grammar hgrown
    have hrefused := grow_of_settled hafter grammar line next later 0
    split at h
    · simp at h
    · next hagain =>
      rw [hagain] at hrefused
      simp at hrefused

theorem derivesTokens_growAll_of_fresh {growth : Growth} (hfresh : Fresh growth.tree)
    (hne : tokens ≠ []) (h : (grammar.growAll line growth tokens).2 = .ok ()) :
    ∃ rest, grammar.DerivesTokens grammar.Writes [growth.tree.symbol] tokens rest := by
  obtain ⟨extension, hread, hall⟩ := readOn_of_growAll_fresh hfresh hne h
  obtain ⟨alternative, hmem, stretch, -, -, hreads, -, hcount, -⟩ := extends_of_readOn hread
  obtain ⟨rest, hderives, -⟩ := hreads.derivesTokens
  rw [← hcount, List.take_of_length_le hall] at hderives
  exact ⟨rest, .of_derives (.of_writes (.inl hmem)) hderives⟩

end Grammar

namespace Parse

open LineGrammar.Grammar

/-- A node of the tree cuts an alternative off. -/
def Cuts (grammar : Grammar) (parse : Parse) (symbol : String) (read : List String) : Prop :=
  ∃ root ∈ parse.root, root.Cuts grammar symbol read

theorem derivesTokens_of_proper {grammar : Grammar} {parse : Parse} {start : String}
    (h : parse.Proper grammar) (hstart : grammar.start? = some start) :
    ∃ rest, grammar.DerivesTokens
      (fun symbol body => grammar.Writes symbol body ∨ parse.Cuts grammar symbol body) [start]
      parse.tokens rest := by
  unfold tokens
  cases hroot : parse.root with
  | none => exact ⟨[start], .none [start]⟩
  | some root =>
    obtain rfl : start = root.symbol := Option.some.inj (hstart.symm.trans (h.symbol root hroot))
    have hcovers : Tree.Covers grammar
        (fun symbol body => grammar.Writes symbol body ∨ parse.Cuts grammar symbol body) [root] :=
      Tree.covers_of_proper (h.everywhere root hroot) (h.edgeOpen root hroot) (fun _ _ => .inl)
        fun symbol read hcut => .inr ⟨root, hroot, hcut⟩
    obtain ⟨rest, hderives, -⟩ := hcovers
    rw [Tree.tokensAll, Tree.tokensAll, List.append_nil] at hderives
    exact ⟨rest, hderives⟩

theorem derivesTokens_feed_fresh {grammar : Grammar} {line : Nat} {tokens : List Token}
    {start : String} (hstart : grammar.start? = some start) {expected : Bool}
    (h : ((⟨none, line⟩ : Parse).feed grammar tokens).2 = .ok expected) :
    ∃ rest, grammar.DerivesTokens grammar.Writes [start] tokens rest := by
  rcases (⟨none, line⟩ : Parse).feed_cases grammar tokens with
    ⟨-, rfl | ⟨error, herror⟩⟩ | ⟨other, growth, hne, hother, hgrow, -⟩
  · exact ⟨[start], .none [start]⟩
  · rw [h] at herror
    simp at herror
  · obtain rfl := Option.some.inj (hstart.symm.trans hother)
    have hfresh : Fresh (Tree.branch start (line + 1)) := ⟨rfl, rfl, rfl⟩
    exact derivesTokens_growAll_of_fresh hfresh hne (congrArg Prod.snd hgrow)

/-- **Only rests of alternatives are left out.** However many lines are fed to a fresh parse, the
tokens of those that fit are a beginning of a text of the start symbol, where nodes of the tree that
cannot grow may have cut alternatives off; of a text as the rules have it if no node has, or if one
line is fed only. -/
theorem derivesTokens_feedAll {grammar : Grammar} {start : String}
    (hstart : grammar.start? = some start) (line : Nat) (lines : List (List Token)) :
    (∃ rest, grammar.DerivesTokens
      (fun symbol body => grammar.Writes symbol body ∨
        ((⟨none, line⟩ : Parse).feedAll grammar lines).1.Cuts grammar symbol body) [start]
      ((⟨none, line⟩ : Parse).feedAll grammar lines).2.flatten rest) ∧
    ((∀ symbol read, ¬((⟨none, line⟩ : Parse).feedAll grammar lines).1.Cuts grammar symbol read) ∨
        lines.length ≤ 1 →
      ∃ rest, grammar.DerivesTokens grammar.Writes [start]
        ((⟨none, line⟩ : Parse).feedAll grammar lines).2.flatten rest) := by
  have hproper := proper_feedAll (proper_fresh grammar line) lines
  have htokens : ((⟨none, line⟩ : Parse).feedAll grammar lines).1.tokens =
      ((⟨none, line⟩ : Parse).feedAll grammar lines).2.flatten :=
    tokens_feedAll lines (proper_fresh grammar line).edgeOpen
  have hall := derivesTokens_of_proper hproper hstart
  rw [htokens] at hall
  refine ⟨hall, ?_⟩
  rintro (hnone | hone)
  · obtain ⟨rest, hderives⟩ := hall
    exact ⟨rest, hderives.mono fun symbol body h => h.resolve_right (hnone symbol body)⟩
  · match lines, hone with
    | [], _ => exact ⟨[start], .none [start]⟩
    | [tokens], _ =>
      rw [feedAll]
      split
      · exact ⟨[start], .none [start]⟩
      · next fed expected hfeed =>
        rw [feedAll, List.flatten_singleton]
        exact derivesTokens_feed_fresh hstart (congrArg Prod.snd hfeed)

def pairAndLetter : Grammar :=
  Grammar.withSets {
    nonTerminals := ["S", "A"]
    terminals := ["a", "b", "c", "$", "#"]
    rules := [("S", [["A", "c", "$"]]), ("A", [["a", "b"]])] }

theorem pairAndLetter_frozen : pairAndLetter.Frozen :=
  frozen_of_feedText "S A # a b c # S -> A c # A -> a b # ##" rfl rfl

theorem derivesTokens_feedAll_pairAndLetter : pairAndLetter.start? = some "S" ∧
    ∃ rest, pairAndLetter.DerivesTokens
      (fun symbol body => pairAndLetter.Writes symbol body ∨
        (({} : Parse).feedAll pairAndLetter [wordTokens ["a"], wordTokens ["c"]]).1.Cuts
          pairAndLetter symbol body) ["S"]
      (({} : Parse).feedAll pairAndLetter [wordTokens ["a"], wordTokens ["c"]]).2.flatten rest :=
  ⟨rfl, (derivesTokens_feedAll rfl 0 [wordTokens ["a"], wordTokens ["c"]]).1⟩

/-- Two lines fit that leave the second letter of the pair out, and no text begins like that. -/
theorem not_derivesTokens_pairAndLetter : pairAndLetter.Frozen ∧
    (({} : Parse).feedAll pairAndLetter [wordTokens ["a"], wordTokens ["c"]]).2 =
      [wordTokens ["a"], wordTokens ["c"]] ∧
    ¬∃ rest, pairAndLetter.DerivesTokens pairAndLetter.Writes ["S"] (wordTokens ["a", "c"]) rest := by
  refine ⟨pairAndLetter_frozen, by cbv, ?_⟩
  rintro ⟨rest, terminals, hspells, hderives⟩
  have hletters : ∀ terminal ∈ pairAndLetter.terminals, ∀ letter ∈ ["a", "c"],
      pairAndLetter.accepts terminal ⟨.word letter, ⟨1, 0⟩⟩ = true → terminal = letter := by decide
  cases hspells with
  | @cons first _ _ _ hfirst hspells =>
    cases hspells with
    | @cons second _ _ _ hsecond hspells =>
      obtain rfl := hletters first (isTerminal_iff.mp hfirst.1) "a" (by simp) hfirst.2.2
      obtain rfl := hletters second (isTerminal_iff.mp hsecond.1) "c" (by simp) hsecond.2.2
      have hforms : "a" :: "c" :: _ ∈ [["S"], ["A", "c", "$"], ["a", "b", "c", "$"]] :=
        mem_of_derives (by decide) hderives (by simp)
      simp at hforms

end Parse

end LineGrammar
