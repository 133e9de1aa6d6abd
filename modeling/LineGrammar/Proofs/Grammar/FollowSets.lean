import LineGrammar.Proofs.Grammar.Freezing
import Mathlib.Computability.Primrec.List

/-!
# The FOLLOW sets are the least solution

What a FOLLOW set has to contain is said by the rules: the end of the input for the start symbol,
what is met behind each occurrence of the symbol on the way to the end of its alternative, and where
that end is reached, all of the FOLLOW set of the rule key (`FollowsClosed`). The kept sets are the
least family of sets that contains all this (`Frozen.followSets_least`).

The walk goes from a symbol to the rule keys whose end its occurrences may be, but from each
alternative only once, whatever symbol it was reached for. Nothing is lost by that: a key that a
visited alternative leads to is done with when the whole walk ends (`Explores`), that is, all that
stands behind it is found, and every alternative that it may be the end of is visited in turn. So
what is found is what stands behind the symbol, or behind a key to which its end leads in any number
of steps (`mem_follow`).
-/

namespace LineGrammar.Grammar

variable {grammar : Grammar} {symbol key : String} {rest : List String}

/-- The walk to the end of an alternative gets past the symbol. -/
def Passes (grammar : Grammar) (symbol : String) : Prop :=
  symbol = endOfInput ∨ (grammar.first symbol).2 = .epsilon

/-- The walk to the end of an alternative meets a member of FOLLOW sets at the symbol. -/
def Meets (grammar : Grammar) (symbol member : String) : Prop :=
  if symbol = endOfInput then member = endOfInput
  else member ∈ (grammar.first symbol).1 ∧ member ≠ emptyText

/-- A family of sets, told by their members, that contains all that FOLLOW sets have to. -/
structure FollowsClosed (grammar : Grammar) (follows : String → String → Prop) : Prop where
  start : ∀ symbol, grammar.start? = some symbol → follows symbol endOfInput
  behind : ∀ key, ∀ alternative ∈ grammar.alternatives key, ∀ left symbol passed next right,
    alternative = left ++ symbol :: (passed ++ next :: right) →
      grammar.isNonTerminal symbol = true → (∀ other ∈ passed, grammar.Passes other) →
        ∀ member, grammar.Meets next member → follows symbol member
  through : ∀ key, ∀ alternative ∈ grammar.alternatives key, ∀ left symbol passed,
    alternative = left ++ symbol :: passed →
      grammar.isNonTerminal symbol = true → (∀ other ∈ passed, grammar.Passes other) →
        ∀ member, follows key member → follows symbol member

/-- The kept FOLLOW sets, as a family told by their members. -/
def KeptFollows (grammar : Grammar) (symbol member : String) : Prop :=
  ∃ set, grammar.followSet? symbol = some set ∧ member ∈ set

/-! ## One alternative -/

theorem followOfRest_snd :
    (grammar.followOfRest rest).2 = true ↔ ∀ other ∈ rest, grammar.Passes other := by
  induction rest with
  | nil => simp [followOfRest]
  | cons symbol rest ih =>
    rw [List.forall_mem_cons, ← ih]
    rw [followOfRest, Passes]
    split
    · next hend => simp [hend]
    · next hend =>
      rcases hfirst : grammar.first symbol with ⟨found, status⟩
      cases status <;> simp [hend]

theorem mem_followOfRest {member : String} :
    member ∈ (grammar.followOfRest rest).1 ↔ ∃ passed next right, rest = passed ++ next :: right ∧
      (∀ other ∈ passed, grammar.Passes other) ∧ grammar.Meets next member := by
  induction rest with
  | nil => simp [followOfRest]
  | cons symbol rest ih =>
    -- the member is met at the first symbol, or behind it if the walk gets past
    have hsplit : (∃ passed next right, symbol :: rest = passed ++ next :: right ∧
        (∀ other ∈ passed, grammar.Passes other) ∧ grammar.Meets next member) ↔
        grammar.Meets symbol member ∨
          grammar.Passes symbol ∧ member ∈ (grammar.followOfRest rest).1 := by
      rw [ih]
      constructor
      · rintro ⟨passed, next, right, heq, hpassed, hmeets⟩
        cases passed with
        | nil =>
          obtain ⟨rfl, -⟩ := List.cons.inj heq
          exact .inl hmeets
        | cons first passed =>
          obtain ⟨rfl, rfl⟩ := List.cons.inj heq
          rw [List.forall_mem_cons] at hpassed
          exact .inr ⟨hpassed.1, passed, next, right, rfl, hpassed.2, hmeets⟩
      · rintro (hmeets | ⟨hpasses, passed, next, right, rfl, hpassed, hmeets⟩)
        · exact ⟨[], symbol, rest, rfl, by simp, hmeets⟩
        · exact ⟨symbol :: passed, next, right, rfl, List.forall_mem_cons.mpr ⟨hpasses, hpassed⟩,
            hmeets⟩
    rw [hsplit, followOfRest, Passes, Meets]
    split
    · next hend => simp [hend]
    · next hend =>
      rcases hfirst : grammar.first symbol with ⟨found, status⟩
      cases status <;> simp [hend]

theorem mem_restsAfter {body : List String} :
    rest ∈ restsAfter symbol body ↔ ∃ left, body = left ++ symbol :: rest := by
  induction body with
  | nil => simp [restsAfter]
  | cons first body ih =>
    have hsplit : (∃ left, first :: body = left ++ symbol :: rest) ↔
        (first = symbol ∧ body = rest) ∨ ∃ left, body = left ++ symbol :: rest := by
      constructor
      · rintro ⟨left, heq⟩
        cases left with
        | nil => exact .inl (List.cons.inj heq)
        | cons _ left => exact .inr ⟨left, (List.cons.inj heq).2⟩
      · rintro (⟨rfl, rfl⟩ | ⟨left, rfl⟩)
        · exact ⟨[], rfl⟩
        · exact ⟨first :: left, rfl⟩
    rw [hsplit, restsAfter, ← ih]
    split
    · next heq => simp [heq, eq_comm]
    · next hne => simp [hne]

/-! ## One symbol -/

theorem mem_behind {production : Production} :
    (production, rest) ∈ grammar.behind symbol ↔ ∃ alternatives,
      (production.key, alternatives) ∈ grammar.rules ∧ ∃ alternative left,
        alternatives[production.index]? = some alternative ∧ alternative = left ++ symbol :: rest := by
  obtain ⟨key, index⟩ := production
  unfold behind
  simp only [List.mem_flatMap, List.mem_map, Prod.exists, Prod.mk.injEq, Production.mk.injEq,
    mem_restsAfter, List.mem_zipIdx_iff_getElem?]
  constructor
  · rintro ⟨_, alternatives, hrule, alternative, _, hindex, _, ⟨left, hleft⟩, ⟨rfl, rfl⟩, rfl⟩
    exact ⟨alternatives, hrule, alternative, left, hindex, hleft⟩
  · rintro ⟨alternatives, hrule, alternative, left, hindex, hleft⟩
    exact ⟨_, alternatives, hrule, alternative, _, hindex, _, ⟨left, hleft⟩, ⟨rfl, rfl⟩, rfl⟩

theorem mem_productions_of_mem_behind {production : Production}
    (h : (production, rest) ∈ grammar.behind symbol) : production ∈ grammar.productions := by
  obtain ⟨alternatives, hrule, alternative, left, hindex, -⟩ := mem_behind.mp h
  obtain ⟨hlt, -⟩ := List.getElem?_eq_some_iff.mp hindex
  exact List.mem_flatMap.mpr
    ⟨_, hrule, List.mem_map.mpr ⟨_, List.mem_range.mpr hlt, rfl⟩⟩

theorem WellFormed.exists_mem_behind_iff (h : grammar.WellFormed) :
    (∃ index, (⟨key, index⟩, rest) ∈ grammar.behind symbol) ↔
      ∃ alternative ∈ grammar.alternatives key, ∃ left, alternative = left ++ symbol :: rest := by
  simp only [mem_behind, mem_alternatives_iff, h.lookup_eq_some_iff]
  constructor
  · rintro ⟨index, alternatives, hrule, alternative, left, hindex, hleft⟩
    exact ⟨alternative, ⟨alternatives, hrule, List.mem_of_getElem? hindex⟩, left, hleft⟩
  · rintro ⟨alternative, ⟨alternatives, hrule, hmem⟩, left, hleft⟩
    obtain ⟨index, hindex⟩ := List.getElem?_of_mem hmem
    exact ⟨index, alternatives, hrule, alternative, left, hindex, hleft⟩

/-- The member comes directly behind the symbol. -/
def DirectlyFollows (grammar : Grammar) (symbol member : String) : Prop :=
  (grammar.start? = some symbol ∧ member = endOfInput) ∨ ∃ production rest,
    (production, rest) ∈ grammar.behind symbol ∧ member ∈ (grammar.followOfRest rest).1

/-- All that follows the other rule key follows the symbol, for the symbol may be its end. -/
def EndsWith (grammar : Grammar) (symbol key : String) : Prop :=
  key ≠ symbol ∧ ∃ index rest, (⟨key, index⟩, rest) ∈ grammar.behind symbol ∧
    ∀ other ∈ rest, grammar.Passes other

theorem WellFormed.isNonTerminal_of_endsWith (h : grammar.WellFormed)
    (hends : grammar.EndsWith symbol key) : grammar.isNonTerminal key = true := by
  obtain ⟨-, index, rest, hbehind, -⟩ := hends
  obtain ⟨alternatives, hrule, -⟩ := mem_behind.mp hbehind
  exact isNonTerminal_iff.mpr (h.mem_nonTerminals key (List.mem_map.mpr ⟨_, hrule, rfl⟩))

/-! ## From key to key -/

/-- What stands behind these occurrences of the symbol is found, and no alternative of another key
that one of them may be the end of is unvisited. -/
structure Gathered (grammar : Grammar) (found : SymbolSet) (left : List Production)
    (symbol : String) (occurrences : List (Production × List String)) : Prop where
  mem_found : ∀ production rest, (production, rest) ∈ occurrences →
    ∀ member ∈ (grammar.followOfRest rest).1, member ∈ found
  not_mem_left : ∀ production rest, (production, rest) ∈ occurrences →
    (∀ other ∈ rest, grammar.Passes other) → production.key ≠ symbol → production ∉ left

/-- The symbol is done with. -/
structure Explored (grammar : Grammar) (found : SymbolSet) (left : List Production)
    (symbol : String) : Prop where
  start : grammar.start? = some symbol → endOfInput ∈ found
  gathered : grammar.Gathered found left symbol (grammar.behind symbol)

variable {unvisited left later : List Production} {found more : SymbolSet}

theorem Gathered.mono {occurrences : List (Production × List String)}
    (h : grammar.Gathered found left symbol occurrences)
    (hfound : ∀ member ∈ found, member ∈ more) (hleft : later ⊆ left) :
    grammar.Gathered more later symbol occurrences where
  mem_found production rest hmem member hmember :=
    hfound member (h.mem_found production rest hmem member hmember)
  not_mem_left production rest hmem hpassed hkey :=
    mt (@hleft production) (h.not_mem_left production rest hmem hpassed hkey)

theorem Gathered.cons {production : Production} {occurrences : List (Production × List String)}
    (h : grammar.Gathered found left symbol occurrences)
    (hfound : ∀ member ∈ (grammar.followOfRest rest).1, member ∈ found)
    (hleft : (∀ other ∈ rest, grammar.Passes other) → production.key ≠ symbol →
      production ∉ left) :
    grammar.Gathered found left symbol ((production, rest) :: occurrences) := by
  refine ⟨fun _ _ hmem => ?_, fun _ _ hmem => ?_⟩
  · rcases List.mem_cons.mp hmem with heq | hmem
    · obtain ⟨rfl, rfl⟩ := Prod.mk.inj heq
      exact hfound
    · exact h.mem_found _ _ hmem
  · rcases List.mem_cons.mp hmem with heq | hmem
    · obtain ⟨rfl, rfl⟩ := Prod.mk.inj heq
      exact hleft
    · exact h.not_mem_left _ _ hmem

theorem Explored.mono (h : grammar.Explored found left symbol)
    (hfound : ∀ member ∈ found, member ∈ more) (hleft : later ⊆ left) :
    grammar.Explored more later symbol :=
  ⟨fun hstart => hfound _ (h.start hstart), h.gathered.mono hfound hleft⟩

/-- Of the alternatives that were unvisited some are left, and the keys of the others are done
with. -/
structure Explores (grammar : Grammar) (unvisited : List Production) (found : SymbolSet)
    (left : List Production) : Prop where
  left_subset : left ⊆ unvisited
  explored : ∀ production ∈ unvisited, production ∉ left →
    grammar.Explored found left production.key

theorem Explores.refl (unvisited : List Production) :
    grammar.Explores unvisited found unvisited :=
  ⟨List.Subset.refl _, fun _ hmem hleft => absurd hmem hleft⟩

theorem Explores.trans (h : grammar.Explores unvisited found left)
    (hlater : grammar.Explores left more later) (hmore : ∀ member ∈ found, member ∈ more) :
    grammar.Explores unvisited more later := by
  refine ⟨List.Subset.trans hlater.left_subset h.left_subset, fun production hmem hgone => ?_⟩
  by_cases hleft : production ∈ left
  · exact hlater.explored production hleft hgone
  · exact (h.explored production hmem hleft).mono hmore hlater.left_subset

theorem Explores.mono (h : grammar.Explores unvisited found left)
    (hmore : ∀ member ∈ found, member ∈ more) : grammar.Explores unvisited more left :=
  h.trans (.refl left) hmore

theorem Explores.of_filter {production : Production}
    (h : grammar.Explores (unvisited.filter (· ≠ production)) found left)
    (hkey : grammar.Explored found left production.key) :
    grammar.Explores unvisited found left := by
  refine ⟨fun other hother => List.mem_of_mem_filter (h.left_subset hother),
    fun other hmem hgone => ?_⟩
  by_cases heq : other = production
  · rw [heq]
    exact hkey
  · exact h.explored other (List.mem_filter.mpr ⟨hmem, by simpa using heq⟩) hgone

/-- A walk is done with all it visits, and what it finds behind a symbol is all that is there. -/
theorem explores_followWithin (grammar : Grammar) :
    (∀ unvisited symbol,
      grammar.Explores unvisited (grammar.followWithin unvisited symbol).found
          (grammar.followWithin unvisited symbol).left ∧
        grammar.Explored (grammar.followWithin unvisited symbol).found
          (grammar.followWithin unvisited symbol).left symbol) ∧
    (∀ unvisited symbol occurrences,
      grammar.Explores unvisited (grammar.followOfOccurrences unvisited symbol occurrences).found
          (grammar.followOfOccurrences unvisited symbol occurrences).left ∧
        grammar.Gathered (grammar.followOfOccurrences unvisited symbol occurrences).found
          (grammar.followOfOccurrences unvisited symbol occurrences).left symbol occurrences) := by
  apply followWithin.mutual_induct grammar
  case case1 =>
    rintro unvisited symbol hstart ⟨hexplores, hgathered⟩
    rw [followWithin, if_pos hstart]
    have hmore : ∀ member ∈
        (grammar.followOfOccurrences unvisited symbol (grammar.behind symbol)).found,
        member ∈ (grammar.followOfOccurrences unvisited symbol
          (grammar.behind symbol)).found.insert endOfInput :=
      fun member hmember => SymbolSet.mem_insert.mpr (.inr hmember)
    exact ⟨hexplores.mono hmore, fun _ => SymbolSet.mem_insert.mpr (.inl rfl),
      hgathered.mono hmore (List.Subset.refl _)⟩
  case case2 =>
    rintro unvisited symbol hstart ⟨hexplores, hgathered⟩
    rw [followWithin, if_neg hstart]
    exact ⟨hexplores, fun hsymbol => absurd hsymbol hstart, hgathered⟩
  case case3 =>
    intro unvisited symbol
    rw [followOfOccurrences]
    exact ⟨.refl unvisited, by simp, by simp⟩
  case case4 =>
    rintro unvisited symbol production rest occurrences direct passed hfound henters _ _ _
      ⟨hthrough, hkey⟩ _ ⟨hlater, hgathered⟩
    rw [followOfOccurrences, hfound]
    dsimp only
    rw [dif_pos henters]
    have hleft := List.Subset.trans hlater.left_subset hthrough.left_subset
    refine ⟨(hthrough.of_filter hkey).trans (hlater.mono ?_) ?_,
      (hgathered.mono ?_ (List.Subset.refl _)).cons ?_ ?_⟩
    · exact fun member hmember => SymbolSet.mem_union.mpr (.inr hmember)
    · exact fun member hmember =>
        SymbolSet.mem_union.mpr (.inl (SymbolSet.mem_union.mpr (.inr hmember)))
    · exact fun member hmember => SymbolSet.mem_union.mpr (.inr hmember)
    · rw [hfound]
      exact fun member hmember =>
        SymbolSet.mem_union.mpr (.inl (SymbolSet.mem_union.mpr (.inl hmember)))
    · intro _ _ hmem
      simpa using (List.mem_filter.mp (hleft hmem)).2
  case case5 =>
    rintro unvisited symbol production rest occurrences direct passed hfound henters
      ⟨hlater, hgathered⟩
    rw [followOfOccurrences, hfound]
    dsimp only
    rw [dif_neg henters]
    have hmore : ∀ member ∈ (grammar.followOfOccurrences unvisited symbol occurrences).found,
        member ∈ direct ∪ (grammar.followOfOccurrences unvisited symbol occurrences).found :=
      fun member hmember => SymbolSet.mem_union.mpr (.inr hmember)
    refine ⟨hlater.mono hmore, (hgathered.mono hmore (List.Subset.refl _)).cons ?_ ?_⟩
    · rw [hfound]
      exact fun member hmember => SymbolSet.mem_union.mpr (.inl hmember)
    · -- an alternative that is not entered here has been visited before
      intro hpassed hkey hmem
      have hend : passed = true := by
        have := followOfRest_snd.mpr hpassed
        rwa [hfound] at this
      exact henters ⟨hend, hkey, hlater.left_subset hmem⟩

theorem exists_of_mem_followWithin (grammar : Grammar) :
    (∀ unvisited symbol, ∀ member ∈ (grammar.followWithin unvisited symbol).found,
      ∃ target, Relation.ReflTransGen grammar.EndsWith symbol target ∧
        grammar.DirectlyFollows target member) ∧
    (∀ unvisited symbol occurrences, occurrences ⊆ grammar.behind symbol →
      ∀ member ∈ (grammar.followOfOccurrences unvisited symbol occurrences).found,
        ∃ target, Relation.ReflTransGen grammar.EndsWith symbol target ∧
          grammar.DirectlyFollows target member) := by
  apply followWithin.mutual_induct grammar
  case case1 =>
    intro unvisited symbol hstart ih member hmember
    rw [followWithin, if_pos hstart] at hmember
    rcases SymbolSet.mem_insert.mp hmember with rfl | hmember
    · exact ⟨symbol, .refl, .inl ⟨hstart, rfl⟩⟩
    · exact ih (List.Subset.refl _) member hmember
  case case2 =>
    intro unvisited symbol hstart ih member hmember
    rw [followWithin, if_neg hstart] at hmember
    exact ih (List.Subset.refl _) member hmember
  case case3 =>
    intro unvisited symbol _ member hmember
    rw [followOfOccurrences] at hmember
    exact absurd hmember (SymbolSet.not_mem_empty member)
  case case4 =>
    intro unvisited symbol production rest occurrences direct passed hfound henters _ _ _
      ih _ ihLater hsubset member hmember
    rw [followOfOccurrences, hfound] at hmember
    dsimp only at hmember
    rw [dif_pos henters] at hmember
    obtain ⟨hhead, hsubset⟩ := List.cons_subset.mp hsubset
    rcases SymbolSet.mem_union.mp hmember with hmember | hlater
    · rcases SymbolSet.mem_union.mp hmember with hdirect | hthrough
      · exact ⟨symbol, .refl, .inr ⟨production, rest, hhead, by rwa [hfound]⟩⟩
      · obtain ⟨target, hway, htarget⟩ := ih member hthrough
        have hpassed : ∀ other ∈ rest, grammar.Passes other :=
          followOfRest_snd.mp (by rw [hfound]; exact henters.1)
        exact ⟨target, .head ⟨henters.2.1, production.index, rest, hhead, hpassed⟩ hway, htarget⟩
    · exact ihLater hsubset member hlater
  case case5 =>
    intro unvisited symbol production rest occurrences direct passed hfound henters ih hsubset
      member hmember
    rw [followOfOccurrences, hfound] at hmember
    dsimp only at hmember
    rw [dif_neg henters] at hmember
    obtain ⟨hhead, hsubset⟩ := List.cons_subset.mp hsubset
    rcases SymbolSet.mem_union.mp hmember with hdirect | hlater
    · exact ⟨symbol, .refl, .inr ⟨production, rest, hhead, by rwa [hfound]⟩⟩
    · exact ih hsubset member hlater

/-- What follows a symbol comes directly behind it or behind a key that it may be the end of, in any
number of steps. -/
theorem mem_follow {member : String} :
    member ∈ grammar.follow symbol ↔ ∃ target,
      Relation.ReflTransGen grammar.EndsWith symbol target ∧
        grammar.DirectlyFollows target member := by
  refine ⟨(exists_of_mem_followWithin grammar).1 _ _ member, ?_⟩
  rintro ⟨target, hway, hmember⟩
  obtain ⟨hexplores, hsymbol⟩ := (explores_followWithin grammar).1 grammar.productions symbol
  -- every key on the way is done with, for the alternative that leads to it has been visited
  have htarget : grammar.Explored (grammar.follow symbol)
      (grammar.followWithin grammar.productions symbol).left target := by
    clear hmember
    induction hway with
    | refl => exact hsymbol
    | tail _ hends ih =>
      obtain ⟨hne, index, rest, hbehind, hpassed⟩ := hends
      exact hexplores.explored _ (mem_productions_of_mem_behind hbehind)
        (ih.gathered.not_mem_left _ rest hbehind hpassed hne)
  rcases hmember with ⟨hstart, rfl⟩ | ⟨production, rest, hbehind, hrest⟩
  · exact htarget.start hstart
  · exact htarget.gathered.mem_found production rest hbehind member hrest

/-! ## The least solution -/

theorem Frozen.keptFollows_iff (h : grammar.Frozen) {member : String} :
    grammar.KeptFollows symbol member ↔
      grammar.isNonTerminal symbol = true ∧ member ∈ grammar.follow symbol := by
  unfold KeptFollows
  rw [h.followSet?_eq]
  split
  · next hsymbol => simp [hsymbol]
  · next hsymbol => simp [hsymbol]

theorem not_meets_emptyText (symbol : String) : ¬grammar.Meets symbol emptyText := by
  unfold Meets
  split
  · decide
  · simp

theorem emptyText_not_mem_follow (grammar : Grammar) (symbol : String) :
    emptyText ∉ grammar.follow symbol := by
  intro hmember
  obtain ⟨target, -, ⟨-, heq⟩ | ⟨production, rest, -, hrest⟩⟩ := mem_follow.mp hmember
  · exact absurd heq (by decide)
  · obtain ⟨_, next, _, -, -, hmeets⟩ := mem_followOfRest.mp hrest
    exact not_meets_emptyText next hmeets

/-- What follows a symbol is in every family that contains what FOLLOW sets have to. -/
theorem FollowsClosed.of_mem_follow {follows : String → String → Prop}
    (hclosed : grammar.FollowsClosed follows) (h : grammar.WellFormed)
    (hsymbol : grammar.isNonTerminal symbol = true) {member : String}
    (hmember : member ∈ grammar.follow symbol) : follows symbol member := by
  obtain ⟨target, hway, hdirect⟩ := mem_follow.mp hmember
  clear hmember
  induction hway using Relation.ReflTransGen.head_induction_on with
  | refl =>
    rcases hdirect with ⟨hstart, rfl⟩ | ⟨production, rest, hbehind, hrest⟩
    · exact hclosed.start target hstart
    · obtain ⟨alternative, hmem, left, rfl⟩ := h.exists_mem_behind_iff.mp ⟨_, hbehind⟩
      obtain ⟨passed, next, right, rfl, hpassed, hmeets⟩ := mem_followOfRest.mp hrest
      exact hclosed.behind _ _ hmem left target passed next right rfl hsymbol hpassed member hmeets
  | @head symbol key hends _ ih =>
    have hkey := h.isNonTerminal_of_endsWith hends
    obtain ⟨-, index, rest, hbehind, hpassed⟩ := hends
    obtain ⟨alternative, hmem, left, rfl⟩ := h.exists_mem_behind_iff.mp ⟨index, hbehind⟩
    exact hclosed.through key _ hmem left symbol rest rfl hsymbol hpassed member
      (ih hkey)

theorem Frozen.followsClosed (h : grammar.Frozen) : grammar.FollowsClosed grammar.KeptFollows := by
  refine ⟨fun symbol hstart => ?_, ?_, ?_⟩
  · have hsymbol : symbol ∈ grammar.nonTerminals := List.mem_of_head? hstart
    exact h.keptFollows_iff.mpr ⟨isNonTerminal_iff.mpr hsymbol,
      mem_follow.mpr ⟨symbol, .refl, .inl ⟨hstart, rfl⟩⟩⟩
  · intro key alternative hmem left symbol passed next right heq hsymbol hpassed member hmeets
    obtain ⟨index, hbehind⟩ :=
      h.wellFormed.exists_mem_behind_iff.mpr ⟨alternative, hmem, left, heq⟩
    have hmember : member ∈ (grammar.followOfRest (passed ++ next :: right)).1 :=
      mem_followOfRest.mpr ⟨passed, next, right, rfl, hpassed, hmeets⟩
    exact h.keptFollows_iff.mpr
      ⟨hsymbol, mem_follow.mpr ⟨symbol, .refl, .inr ⟨_, _, hbehind, hmember⟩⟩⟩
  · intro key alternative hmem left symbol passed heq hsymbol hpassed member hmember
    obtain ⟨-, hfollow⟩ := h.keptFollows_iff.mp hmember
    refine h.keptFollows_iff.mpr ⟨hsymbol, ?_⟩
    by_cases hsame : key = symbol
    · rwa [← hsame]
    · obtain ⟨index, hbehind⟩ :=
        h.wellFormed.exists_mem_behind_iff.mpr ⟨alternative, hmem, left, heq⟩
      obtain ⟨target, hway, hdirect⟩ := mem_follow.mp hfollow
      have hends : grammar.EndsWith symbol key := ⟨hsame, index, passed, hbehind, hpassed⟩
      exact mem_follow.mpr ⟨target, .head hends hway, hdirect⟩

/-- **The FOLLOW sets are the least solution.** Each non-terminal has one, together they contain all
that FOLLOW sets have to, every family that does so contains them, and the empty text is in none. -/
theorem Frozen.followSets_least (h : grammar.Frozen) :
    (∀ symbol, grammar.isNonTerminal symbol = true → (grammar.followSet? symbol).isSome = true) ∧
      grammar.FollowsClosed grammar.KeptFollows ∧
      (∀ follows, grammar.FollowsClosed follows → ∀ symbol member,
        grammar.KeptFollows symbol member → follows symbol member) ∧
      ∀ symbol, ¬grammar.KeptFollows symbol emptyText := by
  refine ⟨fun symbol hsymbol => ?_, h.followsClosed, fun follows hclosed symbol member hkept => ?_,
    fun symbol hkept => ?_⟩
  · rw [h.followSet?_eq, if_pos hsymbol]
    rfl
  · obtain ⟨hsymbol, hmember⟩ := h.keptFollows_iff.mp hkept
    exact hclosed.of_mem_follow h.wellFormed hsymbol hmember
  · exact grammar.emptyText_not_mem_follow symbol (h.keptFollows_iff.mp hkept).2

/-- Lists of letters, with a rest that may be empty, after each of which the key is reached again. -/
def letterLists : Grammar :=
  withSets {
    nonTerminals := ["list", "rest"]
    terminals := ["a", ";", "$", "#"]
    rules := [("list", [["a", "rest", "$"]]), ("rest", [[";", "list", "rest"], ["#"]])] }

theorem letterLists_frozen : letterLists.Frozen :=
  frozen_of_feedText "list rest # a ; # list -> a rest # rest -> ; list rest # rest -> # ##" rfl rfl

theorem followSets_least_letterLists : letterLists.Frozen ∧
    letterLists.KeptFollows "rest" ";" ∧
      (∀ follows, letterLists.FollowsClosed follows → follows "rest" ";") ∧
        ¬letterLists.KeptFollows "rest" emptyText := by
  have hkept : letterLists.KeptFollows "rest" ";" := by
    refine ⟨_, rfl, ?_⟩
    rw [SymbolSet.mem_iff, ← List.contains_iff_mem]
    -- evaluation goes by the equations of `List.lookup`, which come with `Primrec.List`
    cbv
  obtain ⟨-, -, hleast, hempty⟩ := letterLists_frozen.followSets_least
  exact ⟨letterLists_frozen, hkept, fun follows hclosed => hleast follows hclosed _ _ hkept,
    hempty "rest"⟩

end LineGrammar.Grammar
