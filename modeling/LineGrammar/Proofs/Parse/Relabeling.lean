import LineGrammar.Proofs.Parse.Closing
import LineGrammar.Proofs.Tree.Moving
import Mathlib.Data.List.GetD

/-!
# Growing trees with other labels

What a tree grows by depends on the symbols of its nodes and on what the tokens are. Where a change
of labels makes of the nodes that one line adds those of another line, with the tokens at other
places (`Tree.Transfers`), the tree with the change grows alike, and the same tokens are refused
(`Parse.feed_transferred`).
-/

namespace LineGrammar

/-- The change makes of what one line adds what another one adds, its tokens at other places. -/
structure Tree.Transfers (move : Place → Place) (line row : Nat) (change : Tree → Tree) : Prop
    extends Tree.Relabels change where
  node : ∀ (symbol : String) (token : Option Token) (completion : Completion) (closed : Bool)
    (children : List Tree), change ⟨symbol, token, completion, closed, line, children⟩ =
      ⟨symbol, token.map (Token.moved move), completion, closed, row, children.map change⟩

def ParseError.moved (move : Place → Place) : ParseError → ParseError
  | noStartSymbol => noStartSymbol
  | noMatch token => noMatch (token.moved move)

/-! ## Reading -/

section

variable (change : Tree → Tree)

def Stretch.mapNodes (stretch : Stretch) : Stretch :=
  { stretch with nodes := stretch.nodes.map change }

def Fit.mapNodes (fit : Fit) : Fit :=
  { fit with stretch := fit.stretch.mapNodes change }

theorem Stretch.map_cons_mapNodes (node : Tree) (consumed : Nat) (rest : Option Stretch) :
    (rest.map (Stretch.mapNodes change)).map (Stretch.cons (change node) consumed) =
      (rest.map (Stretch.cons node consumed)).map (Stretch.mapNodes change) := by
  cases rest <;> rfl

theorem Fit.prefer_mapNodes (choice : Option Fit) (fit : Fit) :
    prefer (choice.map (Fit.mapNodes change)) (fit.mapNodes change) =
      (prefer choice fit).map (Fit.mapNodes change) := by
  cases choice with
  | none => rfl
  | some best =>
    change (if fit.isBetterThan best then _ else _) = _
    rw [prefer]
    split <;> rfl

theorem Fit.foldl_prefer_mapNodes (fits : List Fit) (choice : Option Fit) :
    (fits.map (Fit.mapNodes change)).foldl prefer (choice.map (Fit.mapNodes change)) =
      (fits.foldl prefer choice).map (Fit.mapNodes change) := by
  induction fits generalizing choice with
  | nil => rfl
  | cons fit fits ih => rw [List.map_cons, List.foldl_cons, List.foldl_cons, prefer_mapNodes, ih]

theorem Extension.choose_mapNodes (fits : List Fit) :
    choose (fits.map (Fit.mapNodes change)) = (choose fits).map (Extension.mapNodes change) := by
  have hfull : (fits.map (Fit.mapNodes change)).any Fit.isFull = fits.any Fit.isFull := by
    rw [List.any_map]
    rfl
  have hbest := Fit.foldl_prefer_mapNodes change fits none
  rw [Option.map_none] at hbest
  unfold choose
  rw [hbest, hfull, Option.map_map, Option.map_map]
  rfl

@[simp] theorem Extension.completion_mapNodes (extension : Extension) :
    (extension.mapNodes change).completion = extension.completion := rfl

@[simp] theorem Extension.consumed_mapNodes (extension : Extension) :
    (extension.mapNodes change).consumed = extension.consumed := rfl

end

namespace Tree

open Extension (completion_mapNodes consumed_mapNodes)
open Grammar

variable {move : Place → Place} {line row : Nat} {change : Tree → Tree}

theorem Transfers.branch (h : Transfers move line row change) (symbol : String) :
    change (.branch symbol line) = .branch symbol row :=
  h.node symbol none .incomplete false []

theorem Transfers.leaf (h : Transfers move line row change) (symbol : String)
    (token : Option Token) :
    change (.leaf symbol token line) = .leaf symbol (token.map (Token.moved move)) row :=
  h.node symbol token .complete true []

theorem Transfers.toNode (h : Transfers move line row change) (extension : Extension)
    (symbol : String) :
    (extension.mapNodes change).toNode symbol row = change (extension.toNode symbol line) :=
  (h.node symbol none extension.completion false extension.nodes).symm

theorem Transfers.map_cons_leaf (h : Transfers move line row change) (symbol : String)
    (token : Option Token) (consumed : Nat) (rest : Option Stretch) :
    (rest.map (Stretch.mapNodes change)).map
        (Stretch.cons (.leaf symbol (token.map (Token.moved move)) row) consumed) =
      (rest.map (Stretch.cons (.leaf symbol token line) consumed)).map
        (Stretch.mapNodes change) := by
  rw [← h.leaf]
  exact Stretch.map_cons_mapNodes change _ consumed rest

theorem Transfers.read (h : Transfers move line row change) (grammar : Grammar) :
    (∀ (free : List String) (offset : Nat) (tokens : List Token) (symbols : List String),
      grammar.readSequence row free offset (tokens.map (Token.moved move)) symbols =
        ((grammar.readSequence line free offset tokens symbols).1.map (Stretch.mapNodes change),
          (grammar.readSequence line free offset tokens symbols).2)) ∧
    (∀ (free : List String) (offset : Nat) (tokens : List Token) (existing : List String)
      (alternatives : List Alternative),
      grammar.readAlternatives row free offset (tokens.map (Token.moved move)) existing
          alternatives =
        ((grammar.readAlternatives line free offset tokens existing alternatives).1.map
            (Fit.mapNodes change),
          (grammar.readAlternatives line free offset tokens existing alternatives).2)) := by
  apply readSequence.mutual_induct grammar line
  case case1 =>
    intro free offset tokens
    rw [readSequence, readSequence]
    rfl
  case case2 =>
    intro free offset tokens symbols rest furthest hrest ih
    rw [readSequence.eq_def, readSequence.eq_def grammar line free offset tokens]
    dsimp only
    rw [if_pos rfl, if_pos rfl, ih, hrest]
    exact Prod.ext (h.map_cons_leaf emptyText none _ _) rfl
  case case3 =>
    intro free offset symbol symbols hsymbol
    rw [List.map_nil, readSequence, readSequence, if_neg hsymbol, if_neg hsymbol]
    rfl
  case case4 =>
    intro free offset symbol symbols hsymbol token later hterminal haccepts rest furthest hrest ih
    have hmoved : grammar.accepts symbol (token.moved move) = true := haccepts
    rw [List.map_cons, readSequence, readSequence, if_neg hsymbol, if_neg hsymbol]
    simp only [hterminal, haccepts, hmoved, if_true, ih, hrest]
    exact Prod.ext (h.map_cons_leaf symbol (some token) _ _) rfl
  case case5 =>
    intro free offset symbol symbols hsymbol token later hterminal haccepts
    have hmoved : ¬grammar.accepts symbol (token.moved move) = true := haccepts
    rw [List.map_cons, readSequence, readSequence, if_neg hsymbol, if_neg hsymbol]
    simp [hterminal, haccepts, hmoved]
  case case6 =>
    intro free offset symbol symbols hsymbol token later hterminal hfree fits furthest hfits hchoose
      ih
    rw [List.map_cons, readSequence, readSequence, if_neg hsymbol, if_neg hsymbol]
    rw [List.map_cons] at ih
    simp [hterminal, hfree, hfits, hchoose, ih, Extension.choose_mapNodes]
  case case7 =>
    intro free offset symbol symbols hsymbol token later hterminal hfree fits furthest hfits
      extension hchoose hincomplete ih
    rw [List.map_cons, readSequence, readSequence, if_neg hsymbol, if_neg hsymbol]
    rw [List.map_cons] at ih
    simp only [hterminal, hfree, hfits, hchoose, ih, Extension.choose_mapNodes, Option.map_some,
      Bool.false_eq_true, if_false, if_true, dif_pos, hincomplete, completion_mapNodes,
      consumed_mapNodes, h.toNode]
    rfl
  case case8 =>
    intro free offset symbol symbols hsymbol token later hterminal hfree fits furthest hfits
      extension hchoose hincomplete rest further hrest ih ihSame ihLater
    rw [List.map_cons, readSequence, readSequence, if_neg hsymbol, if_neg hsymbol]
    rw [List.map_cons] at ih ihSame
    cases hcount : extension.consumed with
    | zero =>
      rw [hcount] at hrest
      dsimp only at hrest
      simp only [hterminal, hfree, hfits, hchoose, ih, Extension.choose_mapNodes, Option.map_some,
        Bool.false_eq_true, if_false, dif_pos, hincomplete, completion_mapNodes, consumed_mapNodes,
        hcount, ihSame, hrest, h.toNode, Stretch.map_cons_mapNodes]
    | succ consumed =>
      rw [hcount] at hrest
      dsimp only at hrest
      simp only [hterminal, hfree, hfits, hchoose, ih, Extension.choose_mapNodes, Option.map_some,
        Bool.false_eq_true, if_false, dif_pos, hincomplete, completion_mapNodes, consumed_mapNodes,
        hcount, ← List.map_drop, ihLater, hrest, h.toNode, Stretch.map_cons_mapNodes]
  case case9 =>
    intro free offset symbol symbols hsymbol token later hterminal hfree
    rw [List.map_cons, readSequence, readSequence, if_neg hsymbol, if_neg hsymbol]
    simp [hterminal, hfree]
  case case10 =>
    intro free offset tokens existing
    rw [readAlternatives, readAlternatives]
    rfl
  case case11 =>
    intro free offset tokens existing alternative alternatives fits furthest hfits hlonger further
      hread ih ihRead
    rw [readAlternatives, readAlternatives, ih, hfits]
    simp [hlonger, ihRead, hread]
  case case12 =>
    intro free offset tokens existing alternative alternatives fits furthest hfits hlonger stretch
      further hread ih ihStretch
    rw [readAlternatives, readAlternatives, ih, hfits]
    simp [hlonger, ihStretch, hread, Fit.mapNodes, Stretch.mapNodes]
  case case13 =>
    intro free offset tokens existing alternative alternatives fits furthest hfits hlonger ih
    rw [readAlternatives, readAlternatives, ih, hfits]
    simp [hlonger]

theorem Transfers.readOn (h : Transfers move line row change) (grammar : Grammar)
    (symbol : String) (existing : List Tree) (tokens : List Token) :
    grammar.readOn row symbol (existing.map change) (tokens.map (Token.moved move)) =
      ((grammar.readOn line symbol existing tokens).1.map (Extension.mapNodes change),
        (grammar.readOn line symbol existing tokens).2) := by
  unfold Grammar.readOn
  rw [h.map_symbol, (h.read grammar).2]
  dsimp only
  rw [Extension.choose_mapNodes]

end Tree

/-! ## Closing -/

namespace Tree.Relabels

open Grammar

variable {change : Tree → Tree}

theorem finishes (h : Relabels change) (grammar : Grammar) (node : Tree) (next : Option Tree) :
    grammar.finishes (change node) (next.map change) = grammar.finishes node next := by
  unfold Grammar.finishes
  rw [h.symbol]
  cases next with
  | none => rfl
  | some next =>
    rcases grammar.isNonTerminal node.symbol with - | -
    · rfl
    rcases grammar.followSet? node.symbol with - | follow
    · rfl
    · exact congrArg (fun symbol => follow.meets (grammar.firstOfSymbol symbol)) (h.symbol next)

mutual

theorem closeFinished (h : Relabels change) (grammar : Grammar) : ∀ tree : Tree,
    grammar.closeFinished (change tree) = change (grammar.closeFinished tree)
  | ⟨symbol, token, completion, closed, line, children⟩ => by
    have hput := h.put ⟨symbol, token, completion, closed, line, children⟩ completion closed
      (grammar.closeFinishedAll children)
    rw [h.eq, Grammar.closeFinished, Grammar.closeFinished, closeFinishedAll h grammar children]
    exact hput.symm

theorem closeFinishedAll (h : Relabels change) (grammar : Grammar) : ∀ trees : List Tree,
    grammar.closeFinishedAll (trees.map change) = (grammar.closeFinishedAll trees).map change
  | [] => rfl
  | node :: rest => by
    have hfinishes := h.finishes grammar node rest.head?
    rw [← List.head?_map] at hfinishes
    rw [List.map_cons, Grammar.closeFinishedAll, Grammar.closeFinishedAll, List.map_cons, h.closed,
      hfinishes, closeFinishedAll h grammar rest, closeFinished h grammar node, h.close]
    split_ifs <;> rfl

end

mutual

theorem closings (h : Relabels change) (grammar : Grammar) : ∀ tree : Tree,
    grammar.closings (change tree) = grammar.closings tree
  | ⟨symbol, token, completion, closed, line, children⟩ => by
    rw [h.eq, Grammar.closings, Grammar.closings, closingsOfAll h grammar 0 children]

theorem closingsOfAll (h : Relabels change) (grammar : Grammar) (index : Nat) :
    ∀ trees : List Tree,
      grammar.closingsOfAll index (trees.map change) = grammar.closingsOfAll index trees
  | [] => rfl
  | node :: rest => by
    have hfinishes := h.finishes grammar node rest.head?
    rw [← List.head?_map] at hfinishes
    rw [List.map_cons, Grammar.closingsOfAll, Grammar.closingsOfAll, h.closed, hfinishes,
      closingsOfAll h grammar (index + 1) rest, closings h grammar node, h.openPaths]

end

end Tree.Relabels

/-! ## Growing -/

namespace Growth

variable {change : Tree → Tree}

def mapTree (change : Tree → Tree) (growth : Growth) : Growth :=
  { growth with tree := change growth.tree }

theorem extend_mapTree (h : Tree.Relabels change) (growth : Growth) (path : Path) (node : Tree)
    (extension : Extension) :
    (growth.mapTree change).extend path (change node) (extension.mapNodes change) =
      (growth.extend path node extension).mapTree change := by
  unfold extend mapTree
  dsimp only
  rw [h.modifyAt (h.extendBy extension), h.children, List.length_map, h.completion]

theorem markComplete_mapTree (h : Tree.Relabels change) (growth : Growth) (path : Path)
    (node : Tree) :
    (growth.mapTree change).markComplete path (change node) =
      (growth.markComplete path node).mapTree change := by
  unfold markComplete mapTree
  dsimp only
  rw [h.modifyAt h.markComplete, h.children, List.length_map, h.completion]

theorem closeFinished_mapTree (h : Tree.Relabels change) (growth : Growth) (grammar : Grammar) :
    (growth.mapTree change).closeFinished grammar =
      (growth.closeFinished grammar).mapTree change := by
  unfold closeFinished mapTree
  dsimp only
  rw [h.closeFinished, h.closings]

end Growth

namespace Grammar

variable (move : Place → Place)

theorem refuse_moved (token : Token) (tokens : List Token) (position : Nat) :
    refuse (token.moved move) (tokens.map (Token.moved move)) position =
      (refuse token tokens position).moved move := by
  have hlast : (token.moved move :: tokens.map (Token.moved move)).getLast (by simp) =
      ((token :: tokens).getLast (by simp)).moved move :=
    List.getLast_map (f := Token.moved move) (l := token :: tokens) (by simp)
  unfold refuse
  rw [hlast]
  exact congrArg ParseError.noMatch (List.getD_map (token :: tokens) _ (Token.moved move))

theorem filter_mapNodes (change : Tree → Tree) (found : Option Extension) :
    ((found.map (Extension.mapNodes change)).filter fun extension => 0 < extension.consumed) =
      (found.filter fun extension => 0 < extension.consumed).map (Extension.mapNodes change) := by
  cases found with
  | none => rfl
  | some extension =>
    by_cases hpos : 0 < extension.consumed <;> simp [Option.filter_some, hpos]

end Grammar

namespace Tree.Transfers

open Grammar

variable {move : Place → Place} {line row : Nat} {change : Tree → Tree} {grammar : Grammar}

theorem grow_of_growthPoint? (h : Transfers move line row change) {token : Token}
    {tokens : List Token} {furthest : Nat} {growth : Growth} {path : Path} {node : Tree}
    (hpoint : growth.tree.growthPoint? = some (path, node)) :
    grammar.grow row (token.moved move) (tokens.map (Token.moved move)) furthest
        (growth.mapTree change) =
      match grammar.readOn line node.symbol node.children (token :: tokens) with
      | (found, further) =>
        match found.filter fun extension => 0 < extension.consumed with
        | some extension =>
          ((growth.extend path node extension).mapTree change, .ok extension.consumed)
        | none =>
          if path = [] then
            (growth.mapTree change,
              .error ((refuse token tokens (max furthest further)).moved move))
          else grammar.grow row (token.moved move) (tokens.map (Token.moved move))
            (max furthest further) ((growth.markComplete path node).mapTree change) := by
  have hmapped := h.growthPoint? growth.tree
  rw [hpoint] at hmapped
  have hread := h.readOn grammar node.symbol node.children (token :: tokens)
  rw [List.map_cons] at hread
  rw [Grammar.grow_of_growthPoint? hmapped, h.symbol, h.children, hread]
  rcases grammar.readOn line node.symbol node.children (token :: tokens) with ⟨found, further⟩
  dsimp only
  rw [filter_mapNodes]
  cases found.filter fun extension => 0 < extension.consumed with
  | none =>
    dsimp only [Option.map_none]
    rw [refuse_moved, Growth.markComplete_mapTree h.toRelabels]
  | some extension =>
    exact Prod.ext (Growth.extend_mapTree h.toRelabels growth path node extension) rfl

theorem grow (h : Transfers move line row change) (grammar : Grammar) (token : Token)
    (tokens : List Token) (furthest : Nat) (growth : Growth) :
    grammar.grow row (token.moved move) (tokens.map (Token.moved move)) furthest
        (growth.mapTree change) =
      ((grammar.grow line token tokens furthest growth).1.mapTree change,
        (grammar.grow line token tokens furthest growth).2.mapError (ParseError.moved move)) := by
  fun_induction Grammar.grow grammar line token tokens furthest growth with
  | case1 furthest growth hpoint =>
    have hmapped : (growth.mapTree change).tree.growthPoint? = none := by
      refine (h.growthPoint? growth.tree).trans ?_
      rw [hpoint]
      rfl
    rw [Grammar.grow]
    split
    · exact Prod.ext rfl (congrArg Except.error (refuse_moved move token tokens furthest))
    · next path node hfound =>
      rw [hmapped] at hfound
      cases hfound
  | case2 furthest growth path node hpoint found further hread extension hfilter =>
    rw [h.grow_of_growthPoint? hpoint, hread]
    dsimp only
    rw [hfilter]
    rfl
  | case3 furthest growth node found further hread furthest' hfilter hpoint =>
    rw [h.grow_of_growthPoint? hpoint, hread]
    dsimp only
    rw [hfilter]
    rfl
  | case4 furthest growth path node hpoint found further hread furthest' hfilter hpath ih =>
    rw [h.grow_of_growthPoint? hpoint, hread]
    dsimp only
    rw [hfilter]
    dsimp only
    rw [if_neg hpath]
    exact ih

theorem growAll (h : Transfers move line row change) (grammar : Grammar) (growth : Growth)
    (tokens : List Token) :
    grammar.growAll row (growth.mapTree change) (tokens.map (Token.moved move)) =
      ((grammar.growAll line growth tokens).1.mapTree change,
        (grammar.growAll line growth tokens).2.mapError (ParseError.moved move)) := by
  fun_induction Grammar.growAll grammar line growth tokens with
  | case1 growth =>
    rw [List.map_nil, Grammar.growAll]
    rfl
  | case2 growth token tokens grown error hgrow =>
    have hturn := h.grow grammar token tokens 0 growth
    rw [hgrow] at hturn
    rw [List.map_cons, Grammar.growAll, hturn]
    rfl
  | case3 growth token tokens grown consumed hgrow ih =>
    have hturn := h.grow grammar token tokens 0 growth
    rw [hgrow] at hturn
    rw [List.map_cons, Grammar.growAll, hturn]
    dsimp only [Except.mapError]
    rw [Growth.closeFinished_mapTree h.toRelabels, ← List.map_drop]
    exact ih

end Tree.Transfers

/-! ## Lines -/

namespace Parse

variable {move : Place → Place} {change : Tree → Tree} {parse other : Parse}

theorem isComplete_of_relabels (h : Tree.Relabels change)
    (hroot : other.root = parse.root.map change) : other.isComplete = parse.isComplete := by
  unfold isComplete
  rw [hroot]
  cases parse.root with
  | none => rfl
  | some root =>
    dsimp only [Option.map_some]
    rw [h.completion]

/-- A line is fed alike to a tree with other labels. -/
theorem feed_transferred (h : Tree.Transfers move (parse.line + 1) (other.line + 1) change)
    (hroot : other.root = parse.root.map change) (grammar : Grammar) (tokens : List Token) :
    (other.feed grammar (tokens.map (Token.moved move))).1.root =
        (parse.feed grammar tokens).1.root.map change ∧
      (other.feed grammar (tokens.map (Token.moved move))).2 =
        (parse.feed grammar tokens).2.mapError (ParseError.moved move) := by
  by_cases hempty : tokens = []
  · subst hempty
    exact ⟨hroot, congrArg (fun complete => Except.ok !complete)
      (isComplete_of_relabels h.toRelabels hroot)⟩
  have hrefuses := parse.map_reverted_growAll grammar
  have hrefusesOther := other.map_reverted_growAll grammar
  unfold feed
  rw [if_neg hempty, if_neg (mt List.map_eq_nil_iff.mp hempty)]
  rcases grammar.start? with - | start
  · exact ⟨hroot, rfl⟩
  have hstart : ({ tree := other.root.getD (.branch start (other.line + 1)) } : Growth) =
      Growth.mapTree change { tree := parse.root.getD (.branch start (parse.line + 1)) } := by
    rw [hroot]
    cases parse.root with
    | none => exact congrArg (Growth.mk · []) (h.branch start).symm
    | some root => rfl
  have hgrow := h.growAll grammar
    { tree := parse.root.getD (.branch start (parse.line + 1)) } tokens
  specialize hrefuses (.branch start (parse.line + 1)) (parse.line + 1) tokens
  specialize hrefusesOther (.branch start (other.line + 1)) (other.line + 1)
    (tokens.map (Token.moved move))
  rw [← hstart] at hgrow
  dsimp only
  rw [hgrow] at hrefusesOther ⊢
  generalize grammar.growAll (parse.line + 1)
    { tree := parse.root.getD (.branch start (parse.line + 1)) } tokens = grown
    at hrefuses hrefusesOther ⊢
  rcases grown with ⟨growth, error | ⟨⟩⟩
  · have htaken := congrArg (Option.map change) hrefuses.symm
    exact ⟨hrefusesOther.trans (hroot.trans htaken), rfl⟩
  · exact ⟨rfl, congrArg (fun complete => Except.ok !complete)
      (isComplete_of_relabels h.toRelabels rfl)⟩

end Parse

end LineGrammar
