import LineGrammar.Proofs.Parse.Relabeling

/-!
# Parsing tokens at other places

A parse looks at what its tokens are, not at where they stood. Fed with tokens at other places it
grows the same tree, but for the places, or refuses the same token (`Parse.feed_moved`).
-/

namespace LineGrammar

variable (move : Place → Place)

def Parse.moved (parse : Parse) : Parse :=
  { parse with root := parse.root.map (Tree.moved move) }

theorem Tree.transfers_moved (line : Nat) : Transfers move line line (moved move) where
  toRelabels := relabels_moved move
  node symbol token completion closed children := by rw [moved_eq]

namespace Parse

theorem line_feed (parse : Parse) (grammar : Grammar) (tokens : List Token) :
    (parse.feed grammar tokens).1.line =
      if tokens = [] ∨ grammar.start? = none then parse.line else parse.line + 1 := by
  unfold feed
  by_cases hempty : tokens = []
  · rw [if_pos hempty, if_pos (.inl hempty)]
  rw [if_neg hempty]
  rcases grammar.start? with - | start
  · rw [if_pos (.inr rfl)]
  · rw [if_neg (by simp [hempty])]
    dsimp only
    split <;> rfl

theorem feed_moved (parse : Parse) (grammar : Grammar) (tokens : List Token) :
    (parse.moved move).feed grammar (tokens.map (Token.moved move)) =
      ((parse.feed grammar tokens).1.moved move,
        (parse.feed grammar tokens).2.mapError (ParseError.moved move)) := by
  have hline : ((parse.moved move).feed grammar (tokens.map (Token.moved move))).1.line =
      (parse.feed grammar tokens).1.line := by
    simp only [line_feed, List.map_eq_nil_iff]
    rfl
  have htransfers : Tree.Transfers move (parse.line + 1) ((parse.moved move).line + 1)
      (Tree.moved move) := Tree.transfers_moved move (parse.line + 1)
  obtain ⟨hroot, hanswer⟩ := feed_transferred htransfers rfl grammar tokens
  generalize (parse.moved move).feed grammar (tokens.map (Token.moved move)) = fed at *
  obtain ⟨⟨root, line⟩, answer⟩ := fed
  dsimp only at hroot hline hanswer
  rw [hroot, hline, hanswer]
  rfl

end Parse

end LineGrammar
