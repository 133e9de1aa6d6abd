import LineGrammar.Proofs.Parse.Relabeling

/-!
# Line numbers

A node knows the line that added it, and its token the line on which it stood. A parse looks at
neither. With all of it on the first line (`Tree.unlined`) two trees can be compared up to line
numbers: those that are the same then are fed alike, also where the next lines have other numbers
(`Parse.feed_eq_of_unlined`).
-/

namespace LineGrammar

namespace Tree

mutual

/-- The tree as if all of it stood on the first line. -/
def unlined : Tree → Tree
  | ⟨symbol, token, completion, closed, _, children⟩ =>
    ⟨symbol, token.map Token.unlined, completion, closed, 1, unlinedAll children⟩

def unlinedAll : List Tree → List Tree
  | [] => []
  | tree :: trees => tree.unlined :: unlinedAll trees

end

theorem unlinedAll_eq_map (trees : List Tree) : unlinedAll trees = trees.map unlined := by
  induction trees with
  | nil => rfl
  | cons tree trees ih => rw [unlinedAll, ih, List.map_cons]

theorem unlined_eq (tree : Tree) : tree.unlined =
    { tree with
      token := tree.token.map Token.unlined
      line := 1
      children := tree.children.map unlined } := by
  obtain ⟨symbol, token, completion, closed, line, children⟩ := tree
  rw [unlined, unlinedAll_eq_map]

/-- Line numbers are labels: what any line adds is what the first one would have added. -/
theorem transfers_unlined (line : Nat) : Transfers .unlined line 1 unlined where
  symbol tree := by rw [unlined_eq]
  putChildren tree children := by rw [unlined_eq, unlined_eq]
  putState tree completion closed := by rw [unlined_eq, unlined_eq]
  node symbol token completion closed children := by
    rw [unlined_eq]
    rfl

end Tree

namespace Parse

variable {grammar : Grammar} {parse other : Parse} {tokens others : List Token}

theorem isComplete_eq_of_unlined
    (hroot : other.root.map Tree.unlined = parse.root.map Tree.unlined) :
    other.isComplete = parse.isComplete := by
  have hcomplete : ∀ parse : Parse,
      (⟨parse.root.map Tree.unlined, 0⟩ : Parse).isComplete = parse.isComplete := fun parse =>
    isComplete_of_relabels (Tree.transfers_unlined 0).toRelabels rfl
  rw [← hcomplete other, hroot, hcomplete]

theorem feed_eq_of_unlined (grammar : Grammar)
    (hroot : other.root.map Tree.unlined = parse.root.map Tree.unlined)
    (htokens : others.map Token.unlined = tokens.map Token.unlined) :
    (other.feed grammar others).1.root.map Tree.unlined =
        (parse.feed grammar tokens).1.root.map Tree.unlined ∧
      (other.feed grammar others).2.mapError (ParseError.moved .unlined) =
        (parse.feed grammar tokens).2.mapError (ParseError.moved .unlined) := by
  -- both are what a fresh count of lines comes to
  have hfed : ∀ (parse : Parse) (tokens : List Token),
      ((⟨parse.root.map Tree.unlined, 0⟩ : Parse).feed grammar (tokens.map Token.unlined)).1.root =
          (parse.feed grammar tokens).1.root.map Tree.unlined ∧
        ((⟨parse.root.map Tree.unlined, 0⟩ : Parse).feed grammar (tokens.map Token.unlined)).2 =
          (parse.feed grammar tokens).2.mapError (ParseError.moved .unlined) := fun parse tokens =>
    feed_transferred (Tree.transfers_unlined (parse.line + 1)) rfl grammar tokens
  have hother := hfed other others
  rw [hroot, htokens] at hother
  exact ⟨hother.1.symm.trans (hfed parse tokens).1, hother.2.symm.trans (hfed parse tokens).2⟩

end Parse

end LineGrammar
