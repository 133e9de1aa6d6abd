import LineGrammar.Grammar.Follow
import LineGrammar.Parse
import LineGrammar.Proofs.Tree.Paths
import Mathlib.Computability.Primrec.List
import Mathlib.Data.List.Permutation

/-!
# Refused lines leave no trace

The edits that are recorded while a line is added revert what has been done: each step of the growth
changes the tree and puts the edits that take the change back in front of the others. So a growth
keeps the tree that it started from, as `Growth.reverted`, and a line that is refused after any
number of steps leaves the tree as it was.
-/

namespace LineGrammar

namespace Tree

variable (symbol : String) (token : Option Token) (completion : Completion) (closed : Bool)
  (line : Nat)

theorem reopenAll_append (paths others : List Path) (tree : Tree) :
    reopenAll (paths ++ others) tree = reopenAll others (reopenAll paths tree) :=
  List.foldl_append

theorem reopenAll_map_cons (index : Nat) (paths : List Path) (children : List Tree) :
    reopenAll (paths.map (index :: ·)) ⟨symbol, token, completion, closed, line, children⟩ =
      ⟨symbol, token, completion, closed, line, children.modify index (reopenAll paths)⟩ := by
  induction paths generalizing children with
  | nil =>
    have hid : reopenAll [] = id := rfl
    rw [hid, List.modify_id]
    rfl
  | cons path paths ih =>
    rw [List.map_cons, reopenAll, List.foldl_cons, modifyAt_cons]
    exact (ih _).trans (by rw [List.modify_modify_eq]; rfl)

mutual

theorem reopenAll_openPaths : ∀ tree : Tree, reopenAll tree.openPaths tree.close = tree
  | ⟨symbol, token, completion, closed, line, children⟩ => by
    cases closed with
    | true => rfl
    | false =>
      have h := reopenAll_openPathsOfAll symbol token completion false line [] children
      rw [openPaths, close, if_neg (by simp), if_neg (by simp)]
      simpa [reopenAll, reopen] using h

theorem reopenAll_openPathsOfAll (symbol : String) (token : Option Token)
    (completion : Completion) (closed : Bool) (line : Nat) :
    ∀ before trees : List Tree,
      reopenAll (openPathsOfAll before.length trees)
        ⟨symbol, token, completion, closed, line, before ++ closeAll trees⟩ =
      ⟨symbol, token, completion, closed, line, before ++ trees⟩
  | before, [] => rfl
  | before, tree :: trees => by
    have hrest := reopenAll_openPathsOfAll symbol token completion closed line
      (before ++ [tree]) trees
    rw [List.length_append, List.length_singleton, List.append_assoc, List.append_assoc] at hrest
    rw [openPathsOfAll, closeAll, reopenAll_append, reopenAll_map_cons, modify_length_append,
      reopenAll_openPaths tree]
    exact hrest

end

end Tree

namespace Edit

variable (symbol : String) (token : Option Token) (completion : Completion) (closed : Bool)
  (line : Nat)

theorem revertAll_append (edits others : List Edit) (tree : Tree) :
    revertAll (edits ++ others) tree = revertAll others (revertAll edits tree) :=
  List.foldl_append

theorem revert_under (index : Nat) (edit : Edit) (tree : Tree) :
    (edit.under index).revert tree =
      { tree with children := tree.children.modify index edit.revert } := by
  cases edit with
  | grown path children completion => exact Tree.modifyAt_cons _ tree index path
  | closed path nodes => exact Tree.modifyAt_cons _ tree index path

theorem revertAll_map_under (index : Nat) (edits : List Edit) (children : List Tree) :
    revertAll (edits.map (under index)) ⟨symbol, token, completion, closed, line, children⟩ =
      ⟨symbol, token, completion, closed, line, children.modify index (revertAll edits)⟩ := by
  induction edits generalizing children with
  | nil =>
    have hid : revertAll [] = id := rfl
    rw [hid, List.modify_id]
    rfl
  | cons edit edits ih =>
    rw [List.map_cons, revertAll, List.foldl_cons, revert_under]
    exact (ih _).trans (by rw [List.modify_modify_eq]; rfl)

end Edit

namespace Grammar

variable (grammar : Grammar)

mutual

theorem revertAll_closings : ∀ tree : Tree,
    Edit.revertAll (grammar.closings tree).reverse (grammar.closeFinished tree) = tree
  | ⟨symbol, token, completion, closed, line, children⟩ => by
    have h := revertAll_closingsOfAll symbol token completion closed line [] children
    rw [closings, closeFinished]
    exact h

theorem revertAll_closingsOfAll (symbol : String) (token : Option Token)
    (completion : Completion) (closed : Bool) (line : Nat) :
    ∀ before trees : List Tree,
      Edit.revertAll (closingsOfAll grammar before.length trees).reverse
        ⟨symbol, token, completion, closed, line, before ++ closeFinishedAll grammar trees⟩ =
      ⟨symbol, token, completion, closed, line, before ++ trees⟩
  | before, [] => rfl
  | before, node :: rest => by
    rw [closingsOfAll, closeFinishedAll, List.reverse_append, Edit.revertAll_append]
    -- the edits of the later nodes are reverted first, while this one is still closed
    generalize hchanged : (if node.closed then node
      else if grammar.finishes node rest.head? then node.close
      else closeFinished grammar node) = changed
    have hrest := revertAll_closingsOfAll symbol token completion closed line
      (before ++ [changed]) rest
    rw [List.length_append, List.length_singleton, List.append_assoc, List.append_assoc] at hrest
    rw [List.singleton_append] at hrest
    rw [hrest, List.singleton_append]
    subst hchanged
    split
    · rfl
    · split
      · rw [List.reverse_singleton]
        show Tree.modifyAt _ _ [before.length] = _
        rw [Tree.modifyAt_cons]
        dsimp only
        rw [Tree.modify_length_append, Tree.modifyAt_nil, Tree.reopenAll_openPaths node]
      · rw [← List.map_reverse, Edit.revertAll_map_under, Tree.modify_length_append,
          revertAll_closings node]

end

end Grammar

namespace Growth

theorem reverted_extend {growth : Growth} {path : Path} {node : Tree}
    (h : growth.tree.nodeAt? path = some node) (extension : Extension) :
    (growth.extend path node extension).reverted = growth.reverted := by
  rw [reverted, extend, Edit.revertAll, List.foldl_cons]
  dsimp only [Edit.revert]
  rw [Tree.modifyAt_modifyAt, Tree.modifyAt_eq_self h]
  · rfl
  · obtain ⟨symbol, token, completion, closed, line, children⟩ := node
    simp [Tree.extendBy, Tree.shrinkTo]

theorem reverted_markComplete {growth : Growth} {path : Path} {node : Tree}
    (h : growth.tree.nodeAt? path = some node) :
    (growth.markComplete path node).reverted = growth.reverted := by
  rw [reverted, markComplete, Edit.revertAll, List.foldl_cons]
  dsimp only [Edit.revert]
  rw [Tree.modifyAt_modifyAt, Tree.modifyAt_eq_self h]
  · rfl
  · obtain ⟨symbol, token, completion, closed, line, children⟩ := node
    simp [Tree.markComplete, Tree.shrinkTo]

theorem reverted_closeFinished (growth : Growth) (grammar : Grammar) :
    (growth.closeFinished grammar).reverted = growth.reverted := by
  rw [reverted, closeFinished, Edit.revertAll_append, grammar.revertAll_closings growth.tree]
  rfl

end Growth

namespace Grammar

variable (grammar : Grammar) (line : Nat)

/-- Adding some tokens can be reverted, also when it fails after nodes were marked complete. -/
theorem reverted_grow (token : Token) (tokens : List Token) (furthest : Nat) (growth : Growth) :
    (grammar.grow line token tokens furthest growth).1.reverted = growth.reverted := by
  fun_induction grow grammar line token tokens furthest growth with
  | case1 => rfl
  | case2 furthest growth path node hpoint =>
    exact Growth.reverted_extend (Tree.growthPoint?_spec hpoint).1 _
  | case3 => rfl
  | case4 furthest growth path node hpoint found further hread _ hfilter hpath ih =>
    rw [ih, Growth.reverted_markComplete (Tree.growthPoint?_spec hpoint).1]

theorem reverted_growAll (growth : Growth) (tokens : List Token) :
    (grammar.growAll line growth tokens).1.reverted = growth.reverted := by
  fun_induction growAll grammar line growth tokens with
  | case1 => rfl
  | case2 growth token tokens grown error hgrow =>
    have h := reverted_grow grammar line token tokens 0 growth
    rwa [hgrow] at h
  | case3 growth token tokens grown consumed hgrow ih =>
    have h := reverted_grow grammar line token tokens 0 growth
    rw [hgrow] at h
    rw [ih, Growth.reverted_closeFinished, h]

end Grammar

namespace Parse

/-- What is left of the edits of a line when they are reverted is the tree before, if there was one.
-/
theorem map_reverted_growAll (parse : Parse) (grammar : Grammar) (start : Tree) (line : Nat)
    (tokens : List Token) :
    (parse.root.map fun _ =>
      (grammar.growAll line { tree := parse.root.getD start } tokens).1.reverted) = parse.root := by
  have hreverted := grammar.reverted_growAll line { tree := parse.root.getD start } tokens
  rw [hreverted]
  cases parse.root with
  | none => rfl
  | some root => rfl

/-- **A refused line is refused as a whole.** The tree afterwards is the tree before, node by node,
and there is none if there was none. -/
theorem root_feed_of_error {parse : Parse} {grammar : Grammar} {tokens : List Token}
    {error : ParseError} (h : (parse.feed grammar tokens).2 = .error error) :
    (parse.feed grammar tokens).1.root = parse.root := by
  unfold feed at h ⊢
  by_cases hempty : tokens = []
  · rw [if_pos hempty]
  · rw [if_neg hempty] at h ⊢
    cases hstart : grammar.start? with
    | none => rfl
    | some start =>
      rw [hstart] at h
      dsimp only at h ⊢
      have hroot := parse.map_reverted_growAll grammar (.branch start (parse.line + 1))
        (parse.line + 1) tokens
      split at h
      · next growth failure hgrow =>
        rw [hgrow] at hroot
        exact hroot
      · simp at h

/-- A grammar of lists of pairs. -/
def pairs : Grammar :=
  Grammar.withSets {
    nonTerminals := ["list", "pair"]
    terminals := ["a", "b", endOfInput, emptyText]
    rules := [("list", [["pair", "list"], ["pair"]]), ("pair", [["a", "b"]])] }

/-- The tokens of words on a first line. -/
def wordTokens (words : List String) : List Token :=
  words.map fun word => ⟨.word word, ⟨1, 0⟩⟩

/-- The first half of a pair has been fed. The next line ends that pair and adds another one, which
closes the first, before its last token is refused. -/
theorem root_feed_pairs :
    ((({} : Parse).feed pairs (wordTokens ["a"])).1.feed pairs
        (wordTokens ["b", "a", "b", "b"])).2 = .error (.noMatch ⟨.word "b", ⟨1, 0⟩⟩) ∧
      ((({} : Parse).feed pairs (wordTokens ["a"])).1.feed pairs
        (wordTokens ["b", "a", "b", "b"])).1.root =
        (({} : Parse).feed pairs (wordTokens ["a"])).1.root := by
  -- evaluation goes by the equations of `List.lookup`, which come with `Primrec.List`
  have herror : ((({} : Parse).feed pairs (wordTokens ["a"])).1.feed pairs
      (wordTokens ["b", "a", "b", "b"])).2 = .error (.noMatch ⟨.word "b", ⟨1, 0⟩⟩) := by cbv
  exact ⟨herror, root_feed_of_error herror⟩

end Parse

end LineGrammar
