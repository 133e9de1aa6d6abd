import Mathlib.Order.MinMax
import LineGrammar.Proofs.Parse.Closing
import LineGrammar.Proofs.Parse.Taking

/-!
# Lines that are cut off

Reading the first tokens of a line alone goes as reading all of them does, until the last of these
tokens has been taken: what is refused is refused by what stands before it. So reading the first
tokens either takes all of them or is the same as with more tokens behind them (`CutAt`), and then
none of those is refused.

Where a line is refused, a token has been met that nothing takes at the furthest place that was
reached. The line that is cut off before that token is accepted (`Parse.exists_refused`).
-/

namespace LineGrammar.Grammar

open LineGrammar.Tree

/-- What has been read of the first tokens alone, against what has been read of all tokens. What is
refused stands before the bound. -/
structure CutAt {Found : Type} (takesAll : Found → Prop) (bound : Nat) (cut whole : Found × Nat) :
    Prop where
  refused_lt : cut.2 < bound
  takesAll_or_eq : takesAll cut.1 ∨ cut = whole

/-- What symbols make of the first tokens. -/
def SequenceCut (grammar : Grammar) (line : Nat) (free : List String) (offset : Nat)
    (tokens : List Token) (symbols : List String) (count : Nat) : Prop :=
  CutAt (fun found => found.map Stretch.consumed = some count) (offset + count)
    (grammar.readSequence line free offset (tokens.take count) symbols)
    (grammar.readSequence line free offset tokens symbols)

/-- What alternatives make of the first tokens. -/
def FitsCut (grammar : Grammar) (line : Nat) (free : List String) (offset : Nat)
    (tokens : List Token) (existing : List String) (alternatives : List Alternative)
    (count : Nat) : Prop :=
  CutAt (fun fits => ∃ fit ∈ fits, fit.stretch.consumed = count) (offset + count)
    (grammar.readAlternatives line free offset (tokens.take count) existing alternatives)
    (grammar.readAlternatives line free offset tokens existing alternatives)

variable {grammar : Grammar} {line offset count : Nat} {free symbols existing : List String}
  {alternatives : List Alternative} {symbol : String} {token : Token} {tokens later : List Token}

/-! ## Reading -/

theorem readSequence_no_tokens (grammar : Grammar) (line : Nat) (free : List String) (offset : Nat)
    (symbols : List String) :
    (grammar.readSequence line free offset [] symbols).1.map Stretch.consumed = some 0 ∧
      (grammar.readSequence line free offset [] symbols).2 = 0 := by
  refine ⟨taken_no_tokens grammar line free offset symbols, ?_⟩
  induction symbols with
  | nil => rw [readSequence]
  | cons symbol symbols ih =>
    rw [readSequence.eq_def]
    dsimp only
    split
    · exact ih
    · rfl

theorem map_consumed_cons (found : Option Stretch) (node : Tree) (consumed : Nat) :
    (found.map (Stretch.cons node consumed)).map Stretch.consumed =
      (found.map Stretch.consumed).map (consumed + ·) := by
  rw [Option.map_map, Option.map_map]
  rfl

theorem FitsReading.consumed_le {fit : Fit}
    (h : FitsReading grammar line tokens existing alternatives fit) :
    fit.stretch.consumed ≤ tokens.length := by
  obtain ⟨_, -, -, -, hreads, -, -⟩ := h
  exact hreads.consumed_le

/-! ## Reading the first tokens -/

theorem FitsCut.choose (h : FitsCut grammar line free offset tokens existing alternatives count) :
    CutAt (fun found => found.map Extension.consumed = some count) (offset + count)
      (Extension.choose (grammar.readAlternatives line free offset (tokens.take count) existing
          alternatives).1,
        (grammar.readAlternatives line free offset (tokens.take count) existing alternatives).2)
      (Extension.choose (grammar.readAlternatives line free offset tokens existing alternatives).1,
        (grammar.readAlternatives line free offset tokens existing alternatives).2) := by
  refine ⟨h.refused_lt, h.takesAll_or_eq.imp (fun hall => ?_) fun heq => by rw [heq]⟩
  obtain ⟨fit, hmem, hall⟩ := hall
  obtain ⟨extension, hchoose, hmost⟩ := exists_choose hmem
  obtain ⟨best, hbest, -, hconsumed, -⟩ := choose_eq_some hchoose
  have hfew := ((reads_and_fitsReading grammar line).2 _ _ _ _ _ best hbest).consumed_le
  have hmany := hmost fit hmem
  rw [List.length_take] at hfew
  dsimp only
  rw [hchoose, Option.map_some]
  exact congrArg some (by omega)

theorem sequenceCut_behind {node : Tree} {consumed furthest : Nat} {behind : List Token}
    (hfurthest : furthest < offset + count) (hle : consumed ≤ count)
    (hrest : 0 < count - consumed →
      SequenceCut grammar line free (offset + consumed) behind symbols (count - consumed)) :
    CutAt (fun found => found.map Stretch.consumed = some count) (offset + count)
      (((grammar.readSequence line free (offset + consumed) (behind.take (count - consumed))
        symbols).1.map (.cons node consumed)),
        max furthest (grammar.readSequence line free (offset + consumed)
          (behind.take (count - consumed)) symbols).2)
      (((grammar.readSequence line free (offset + consumed) behind symbols).1.map
        (.cons node consumed)),
        max furthest (grammar.readSequence line free (offset + consumed) behind symbols).2) := by
  rcases Nat.eq_zero_or_pos (count - consumed) with hzero | hpos
  · obtain ⟨htaken, hrefused⟩ :=
      readSequence_no_tokens grammar line free (offset + consumed) symbols
    rw [hzero, List.take_zero]
    refine ⟨by dsimp only; omega, .inl ?_⟩
    dsimp only
    rw [map_consumed_cons, htaken, Option.map_some]
    exact congrArg some (by omega)
  · obtain ⟨hlt, hcut⟩ := hrest hpos
    refine ⟨by dsimp only; omega, hcut.imp (fun hall => ?_) fun heq => by rw [heq]⟩
    dsimp only
    rw [map_consumed_cons, hall, Option.map_some]
    exact congrArg some (by omega)

theorem sequenceCut_terminal (hne : symbol ≠ emptyText)
    (hterminal : grammar.isTerminal symbol = true) (haccepts : grammar.accepts symbol token = true)
    {left : Nat} (hrest : 0 < left →
      SequenceCut grammar line grammar.ruleKeys (offset + 1) later symbols left) :
    SequenceCut grammar line free offset (token :: later) (symbol :: symbols) (left + 1) := by
  have hbehind := @sequenceCut_behind grammar line offset (left + 1) grammar.ruleKeys symbols
    (.leaf symbol (some token) line) 1 0 later (by omega) (by omega) hrest
  rw [SequenceCut, List.take_succ_cons, readSequence, readSequence, if_neg hne, if_neg hne]
  simpa only [hterminal, haccepts, if_true, Nat.zero_max, Nat.add_sub_cancel] using hbehind

theorem sequenceCut_key (hne : symbol ≠ emptyText) (hterminal : grammar.isTerminal symbol = false)
    (hfree : symbol ∈ free) {left : Nat} (hle : left + 1 ≤ (token :: later).length)
    (hfits : FitsCut grammar line (free.erase symbol) offset (token :: later) []
      (grammar.alternatives symbol) (left + 1))
    (hrest : ∀ extension,
      Extension.choose (grammar.readAlternatives line (free.erase symbol) offset (token :: later) []
        (grammar.alternatives symbol)).1 = some extension →
      extension.completion ≠ .incomplete → ∀ count, 0 < count →
      count ≤ ((token :: later).drop extension.consumed).length →
      SequenceCut grammar line (if extension.consumed = 0 then free else grammar.ruleKeys)
        (offset + extension.consumed) ((token :: later).drop extension.consumed) symbols count) :
    SequenceCut grammar line free offset (token :: later) (symbol :: symbols) (left + 1) := by
  obtain ⟨hlt, hchosen⟩ := hfits.choose
  rw [SequenceCut]
  rw [List.take_succ_cons] at hlt hchosen ⊢
  rw [readSequence_of_free hne hterminal hfree rfl, readSequence_of_free hne hterminal hfree rfl]
  dsimp only at hlt
  rcases hchosen with hall | hsame
  · obtain ⟨extension, hchoose, hconsumed⟩ := Option.map_eq_some_iff.mp hall
    dsimp only at hchoose
    rw [hchoose]
    dsimp only
    split
    · exact ⟨hlt, .inl (congrArg some hconsumed)⟩
    · have hnone : (token :: later.take left).drop extension.consumed = [] := by
        rw [hconsumed, ← List.take_succ_cons, List.drop_take, Nat.sub_self, List.take_zero]
      obtain ⟨htaken, hrefused⟩ := readSequence_no_tokens grammar line
        (if extension.consumed = 0 then free else grammar.ruleKeys) (offset + extension.consumed)
        symbols
      rw [hnone]
      refine ⟨by dsimp only; omega, .inl ?_⟩
      dsimp only
      rw [map_consumed_cons, htaken, hconsumed]
      rfl
  · obtain ⟨hchoose, hfurthest⟩ := Prod.mk.inj hsame
    rw [hfurthest] at hlt
    rw [hchoose, hfurthest]
    cases hextension : Extension.choose (grammar.readAlternatives line (free.erase symbol) offset
        (token :: later) [] (grammar.alternatives symbol)).1 with
    | none => exact ⟨hlt, .inr rfl⟩
    | some extension =>
      dsimp only
      split
      · exact ⟨hlt, .inr rfl⟩
      · next hcomplete =>
        have hfew : extension.consumed ≤ left + 1 := by
          obtain ⟨best, hbest, -, hconsumed, -⟩ := choose_eq_some (hchoose.trans hextension)
          have hread := ((reads_and_fitsReading grammar line).2 _ _ _ _ _ best hbest).consumed_le
          rw [List.length_cons, List.length_take] at hread
          omega
        rw [← List.take_succ_cons, List.drop_take]
        refine sequenceCut_behind hlt hfew fun hleft => ?_
        exact hrest extension hextension hcomplete _ hleft (by rw [List.length_drop]; omega)

theorem FitsCut.cons {alternative : Alternative}
    (hfits : FitsCut grammar line free offset tokens existing alternatives count)
    (hlonger : (existing.isPrefixOf alternative && existing.length < alternative.length) = true)
    (hread : SequenceCut grammar line free offset tokens (alternative.drop existing.length) count) :
    FitsCut grammar line free offset tokens existing (alternative :: alternatives) count := by
  obtain ⟨hltFits, hcutFits⟩ := hfits
  obtain ⟨hltRead, hcutRead⟩ := hread
  rw [FitsCut, readAlternatives, readAlternatives]
  simp only [hlonger, if_true]
  generalize grammar.readAlternatives line free offset (tokens.take count) existing alternatives =
    cutFits at *
  generalize grammar.readSequence line free offset (tokens.take count)
    (alternative.drop existing.length) = cutRead at *
  generalize grammar.readSequence line free offset tokens (alternative.drop existing.length) =
    read at *
  obtain ⟨found, further⟩ := cutRead
  cases found with
  | none =>
    refine ⟨max_lt hltRead hltFits, ?_⟩
    obtain rfl := hcutRead.resolve_left (by simp)
    exact hcutFits.imp id fun heq => by rw [heq]
  | some stretch =>
    refine ⟨max_lt hltRead hltFits, ?_⟩
    rcases hcutRead with hall | rfl
    · exact .inl ⟨_, List.mem_cons_self, Option.some.inj hall⟩
    · refine hcutFits.imp (fun hall => ?_) fun heq => by rw [heq]
      obtain ⟨fit, hfit, hall⟩ := hall
      exact ⟨fit, List.mem_cons_of_mem _ hfit, hall⟩

/-- Reading the first tokens alone takes them all, or goes as it does with more behind them. -/
theorem sequenceCut_and_fitsCut (grammar : Grammar) (line : Nat) :
    (∀ (free : List String) (offset : Nat) (tokens : List Token) (symbols : List String),
      ∀ left, left + 1 ≤ tokens.length →
        SequenceCut grammar line free offset tokens symbols (left + 1)) ∧
    (∀ (free : List String) (offset : Nat) (tokens : List Token) (existing : List String)
      (alternatives : List Alternative),
      ∀ left, left + 1 ≤ tokens.length →
        FitsCut grammar line free offset tokens existing alternatives (left + 1)) := by
  apply readSequence.mutual_induct grammar line
  case case1 =>
    intro free offset tokens left hle
    rw [SequenceCut, readSequence, readSequence]
    exact ⟨by dsimp only; omega, .inr rfl⟩
  case case2 =>
    intro free offset tokens symbols rest furthest hrest ih left hle
    obtain ⟨hlt, hcut⟩ := ih left hle
    rw [SequenceCut, readSequence.eq_def, readSequence.eq_def grammar line free offset tokens]
    dsimp only
    rw [if_pos rfl, if_pos rfl]
    refine ⟨hlt, hcut.imp (fun hall => ?_) fun heq => by rw [heq]⟩
    dsimp only
    rw [map_consumed_cons, hall, Option.map_some, Nat.zero_add]
  case case3 =>
    intro free offset symbol symbols hsymbol left hle
    simp at hle
  case case4 =>
    intro free offset symbol symbols hsymbol token later hterminal haccepts rest furthest hrest ih
      left hle
    refine sequenceCut_terminal hsymbol hterminal haccepts fun hpos => ?_
    obtain ⟨fewer, rfl⟩ := Nat.exists_eq_add_one.mpr hpos
    exact ih fewer (by simpa using hle)
  case case5 =>
    intro free offset symbol symbols hsymbol token later hterminal haccepts left hle
    rw [SequenceCut, List.take_succ_cons, readSequence, readSequence, if_neg hsymbol,
      if_neg hsymbol]
    simp only [hterminal, haccepts, if_true, if_false, Bool.false_eq_true]
    exact ⟨by dsimp only; omega, .inr rfl⟩
  case case6 =>
    intro free offset symbol symbols hsymbol token later hterminal hfree fits furthest hfits hchoose
      ih left hle
    refine sequenceCut_key hsymbol (by simpa using hterminal) hfree hle (ih left hle) ?_
    intro extension hsome
    simp [hfits, hchoose] at hsome
  case case7 =>
    intro free offset symbol symbols hsymbol token later hterminal hfree fits furthest hfits
      extension hchoose hincomplete ih left hle
    refine sequenceCut_key hsymbol (by simpa using hterminal) hfree hle (ih left hle) ?_
    intro other hother hcomplete
    rw [hfits] at hother
    obtain rfl := Option.some.inj (hchoose.symm.trans hother)
    exact absurd hincomplete hcomplete
  case case8 =>
    intro free offset symbol symbols hsymbol token later hterminal hfree fits furthest hfits
      extension hchoose hincomplete rest further hrest ih ihSame ihLater left hle
    refine sequenceCut_key hsymbol (by simpa using hterminal) hfree hle (ih left hle) ?_
    intro other hother hcomplete count hpos hfew
    rw [hfits] at hother
    obtain rfl := Option.some.inj (hchoose.symm.trans hother)
    obtain ⟨fewer, rfl⟩ := Nat.exists_eq_add_one.mpr hpos
    cases hconsumed : extension.consumed with
    | zero =>
      rw [hconsumed] at hfew
      exact ihSame fewer hfew
    | succ consumed =>
      rw [hconsumed] at hfew
      exact ihLater consumed fewer hfew
  case case9 =>
    intro free offset symbol symbols hsymbol token later hterminal hfree left hle
    rw [SequenceCut, List.take_succ_cons, readSequence, readSequence, if_neg hsymbol,
      if_neg hsymbol]
    simp only [hterminal, hfree, dif_neg, not_false_eq_true, if_false, Bool.false_eq_true]
    exact ⟨by dsimp only; omega, .inr rfl⟩
  case case10 =>
    intro free offset tokens existing left hle
    rw [FitsCut, readAlternatives, readAlternatives]
    exact ⟨by dsimp only; omega, .inr rfl⟩
  case case11 =>
    intro free offset tokens existing alternative alternatives fits furthest hfits hlonger further
      hread ih ihRead left hle
    exact (ih left hle).cons hlonger (ihRead left hle)
  case case12 =>
    intro free offset tokens existing alternative alternatives fits furthest hfits hlonger stretch
      further hread ih ihRead left hle
    exact (ih left hle).cons hlonger (ihRead left hle)
  case case13 =>
    intro free offset tokens existing alternative alternatives fits furthest hfits hlonger ih left
      hle
    rw [FitsCut, readAlternatives, readAlternatives]
    simp only [hlonger, if_false, Bool.false_eq_true]
    exact ih left hle

theorem cutAt_readOn (grammar : Grammar) (line : Nat) (symbol : String) (existing : List Tree)
    (token : Token) (later : List Token) {left : Nat} (hle : left ≤ later.length) :
    CutAt (fun found => found.map Extension.consumed = some (left + 1)) (left + 1)
      (grammar.readOn line symbol existing (token :: later.take left))
      (grammar.readOn line symbol existing (token :: later)) := by
  have hfits := (sequenceCut_and_fitsCut grammar line).2 grammar.ruleKeys 0 (token :: later)
    (existing.map (·.symbol)) (grammar.alternatives symbol) left (by simpa using hle)
  have hchosen := hfits.choose
  rw [Nat.zero_add, List.take_succ_cons] at hchosen
  exact hchosen

/-! ## Turns -/

section

variable {left furthest consumed : Nat} {growth grown : Growth} {path : Path} {node : Tree}
  {error : ParseError}

theorem grow_of_takesAll (hpoint : growth.tree.growthPoint? = some (path, node))
    (hall : (grammar.readOn line node.symbol node.children (token :: later.take left)).1.map
      Extension.consumed = some (left + 1)) :
    (grammar.grow line token (later.take left) furthest growth).2 = .ok (left + 1) := by
  rw [grow_of_growthPoint? hpoint]
  obtain ⟨extension, hread, hconsumed⟩ := Option.map_eq_some_iff.mp hall
  have hfilter : ((grammar.readOn line node.symbol node.children (token :: later.take left)).1.filter
      fun extension => 0 < extension.consumed) = some extension :=
    Option.filter_eq_some_iff.mpr ⟨hread, by simp [hconsumed]⟩
  dsimp only
  rw [hfilter]
  exact congrArg Except.ok hconsumed

theorem grow_take_of_ok (hle : left ≤ later.length)
    (h : grammar.grow line token later furthest growth = (grown, .ok consumed)) :
    grammar.grow line token (later.take left) furthest growth = (grown, .ok consumed) ∨
      (grammar.grow line token (later.take left) furthest growth).2 = .ok (left + 1) := by
  fun_induction grow grammar line token later furthest growth with
  | case1 => simp at h
  | case2 furthest growth path node hpoint found further hread extension hfilter =>
    obtain ⟨-, hall | hsame⟩ := cutAt_readOn grammar line node.symbol node.children token later hle
    · exact .inr (grow_of_takesAll hpoint hall)
    · rw [grow_of_growthPoint? hpoint, hsame, hread]
      dsimp only
      rw [hfilter]
      exact .inl h
  | case3 => simp at h
  | case4 furthest growth path node hpoint found further hread highest hfilter hpath ih =>
    obtain ⟨-, hall | hsame⟩ := cutAt_readOn grammar line node.symbol node.children token later hle
    · exact .inr (grow_of_takesAll hpoint hall)
    · rw [grow_of_growthPoint? hpoint, hsame, hread]
      dsimp only
      rw [hfilter]
      dsimp only
      rw [if_neg hpath]
      exact ih h

/-- If a node refuses a token further on than any was refused before, it takes all tokens in front
of that one where nothing more follows. -/
theorem grow_take_of_refused (hpoint : growth.tree.growthPoint? = some (path, node))
    {found : Option Extension} {further : Nat}
    (hread : grammar.readOn line node.symbol node.children (token :: later) = (found, further)) :
    max furthest further = furthest ∨ ∃ left < later.length, max furthest further = left + 1 ∧
      (grammar.grow line token (later.take left) furthest growth).2 = .ok (left + 1) := by
  rcases Nat.lt_or_ge furthest further with hfurther | hle
  · have hwhole := (cutAt_readOn grammar line node.symbol node.children token later
      (Nat.le_refl later.length)).refused_lt
    rw [List.take_length, hread] at hwhole
    obtain ⟨left, rfl⟩ := Nat.exists_eq_add_one.mpr (Nat.zero_lt_of_lt hfurther)
    have hlt : left < later.length := Nat.lt_of_succ_lt_succ hwhole
    obtain ⟨hcut, hall | hsame⟩ :=
      cutAt_readOn grammar line node.symbol node.children token later hlt.le
    · exact .inr ⟨left, hlt, max_eq_right hfurther.le, grow_of_takesAll hpoint hall⟩
    · rw [hsame, hread] at hcut
      exact absurd hcut (Nat.lt_irrefl _)
  · exact .inl (max_eq_left hle)

/-- A turn that takes no token reports the furthest place where one was refused. All tokens in front
of that place are taken where nothing more follows. -/
theorem grow_take_of_error
    (h : (grammar.grow line token later furthest growth).2 = .error error) :
    ∃ position, error = refuse token later position ∧ (position = furthest ∨
      ∃ left < later.length, position = left + 1 ∧
        (grammar.grow line token (later.take left) furthest growth).2 = .ok (left + 1)) := by
  fun_induction grow grammar line token later furthest growth with
  | case1 furthest growth hpoint => exact ⟨furthest, by simpa using h.symm, .inl rfl⟩
  | case2 => simp at h
  | case3 furthest growth node found further hread highest hfilter hpoint =>
    exact ⟨highest, by simpa using h.symm, grow_take_of_refused hpoint hread⟩
  | case4 furthest growth path node hpoint found further hread highest hfilter hpath ih =>
    obtain ⟨position, herror, hposition⟩ := ih h
    refine ⟨position, herror, ?_⟩
    rcases hposition with rfl | ⟨left, hlt, rfl, hmarked⟩
    · exact grow_take_of_refused hpoint hread
    · -- the node is marked for the first tokens as well, unless it takes them all
      refine .inr ⟨left, hlt, rfl, ?_⟩
      obtain ⟨-, hall | hsame⟩ :=
        cutAt_readOn grammar line node.symbol node.children token later hlt.le
      · exact grow_of_takesAll hpoint hall
      · rw [grow_of_growthPoint? hpoint, hsame, hread]
        dsimp only
        rw [hfilter]
        dsimp only
        rw [if_neg hpath]
        exact hmarked

theorem pos_of_grow (h : (grammar.grow line token later furthest growth).2 = .ok consumed) :
    0 < consumed := by
  fun_induction grow grammar line token later furthest growth with
  | case1 => simp at h
  | case2 furthest growth path node hpoint found further hread extension hfilter =>
    have hpos := (Option.filter_eq_some_iff.mp hfilter).2
    obtain rfl : extension.consumed = consumed := by simpa using h
    simpa using hpos
  | case3 => simp at h
  | case4 furthest growth path node hpoint found further hread highest hfilter hpath ih => exact ih h

theorem growAll_of_takesAll
    (h : (grammar.grow line token (later.take left) 0 growth).2 = .ok (left + 1)) :
    (grammar.growAll line growth (token :: later.take left)).2 = .ok () := by
  rw [growAll]
  split
  · next hgrow => simp [hgrow] at h
  · next grown consumed hgrow =>
    obtain rfl : consumed = left + 1 := by simpa [hgrow] using h
    rw [Nat.add_sub_cancel, List.drop_take, Nat.sub_self, List.take_zero, growAll]

/-- **A refused token stands behind tokens that can be taken.** The error is about one of the tokens,
and all of them are taken that are in front of it. -/
theorem growAll_take_of_error (h : (grammar.growAll line growth tokens).2 = .error error) :
    ∃ position refused, tokens[position]? = some refused ∧ error = .noMatch refused ∧
      (grammar.growAll line growth (tokens.take position)).2 = .ok () := by
  fun_induction growAll grammar line growth tokens with
  | case1 => simp at h
  | case2 growth token later grown failure hgrow =>
    obtain rfl : failure = error := by simpa using h
    obtain ⟨position, rfl, hposition⟩ := grow_take_of_error (by rw [hgrow])
    rcases hposition with rfl | ⟨left, hlt, rfl, hcut⟩
    · exact ⟨0, token, rfl, rfl, by rw [List.take_zero, growAll]⟩
    · refine ⟨left + 1, later[left], by simp [hlt], by simp [refuse, hlt], ?_⟩
      rw [List.take_succ_cons]
      exact growAll_of_takesAll hcut
  | case3 growth token later grown consumed hgrow ih =>
    obtain ⟨position, refused, hrefused, rfl, hcut⟩ := ih h
    have hpos : 0 < consumed := pos_of_grow (by rw [hgrow])
    obtain ⟨count, rfl⟩ := Nat.exists_eq_add_one.mpr hpos
    rw [Nat.add_sub_cancel] at hrefused hcut
    rw [List.getElem?_drop] at hrefused
    refine ⟨count + position + 1, refused, by simpa using hrefused, rfl, ?_⟩
    rw [List.take_succ_cons]
    have hle : count + position ≤ later.length :=
      (List.getElem?_eq_some_iff.mp hrefused).1.le
    rcases grow_take_of_ok hle hgrow with hsame | hall
    · rw [growAll, hsame]
      dsimp only
      rw [Nat.add_sub_cancel, List.drop_take, Nat.add_sub_cancel_left]
      exact hcut
    · exact growAll_of_takesAll hall

end

end LineGrammar.Grammar

namespace LineGrammar.Parse

open Grammar

/-- **Errors point past what can be accepted.** If a line is refused because of a token, that token
is one of the line, and the parse accepts the line as far as it goes before the token. -/
theorem exists_refused {grammar : Grammar} {parse : Parse} {tokens : List Token} {token : Token}
    (h : (parse.feed grammar tokens).2 = .error (.noMatch token)) :
    ∃ position, tokens[position]? = some token ∧
      Accepts parse grammar (tokens.take position) := by
  unfold feed at h
  split_ifs at h with hnone
  cases hstart : grammar.start? with
  | none => simp [hstart] at h
  | some start =>
    rw [hstart] at h
    dsimp only at h
    split at h
    · next growth error hgrow =>
      obtain rfl : error = .noMatch token := by simpa using h
      obtain ⟨position, refused, hrefused, hsame, hcut⟩ := growAll_take_of_error (by rw [hgrow])
      obtain rfl := ParseError.noMatch.inj hsame
      refine ⟨position, hrefused, ?_⟩
      unfold Accepts feed
      split_ifs with hempty
      · exact ⟨_, rfl⟩
      · rw [hstart]
        dsimp only
        split
        · next hfailed => simp [hfailed] at hcut
        · exact ⟨_, rfl⟩
    · simp at h

/-- The words of a second line, each with its number as its column. -/
def secondLine (words : List String) : List Token :=
  words.zipIdx.map fun (word, column) => ⟨.word word, ⟨2, column⟩⟩

/-- The second line ends the pair that the first one has begun, and adds another one. Its last token
is refused. -/
theorem exists_refused_pairs :
    ((({} : Parse).feed pairs (wordTokens ["a"])).1.feed pairs
        (secondLine ["b", "a", "b", "b"])).2 = .error (.noMatch ⟨.word "b", ⟨2, 3⟩⟩) ∧
      ∃ position, (secondLine ["b", "a", "b", "b"])[position]? = some ⟨.word "b", ⟨2, 3⟩⟩ ∧
        Accepts (({} : Parse).feed pairs (wordTokens ["a"])).1 pairs
          ((secondLine ["b", "a", "b", "b"]).take position) := by
  have herror : ((({} : Parse).feed pairs (wordTokens ["a"])).1.feed pairs
      (secondLine ["b", "a", "b", "b"])).2 = .error (.noMatch ⟨.word "b", ⟨2, 3⟩⟩) := by cbv
  exact ⟨herror, exists_refused herror⟩

end LineGrammar.Parse
