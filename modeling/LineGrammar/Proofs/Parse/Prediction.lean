import LineGrammar.Proofs.Grammar.LookAhead
import LineGrammar.Proofs.Parse.Expectation

/-!
# Reading what is predicted

Of an LL(1) grammar, reading follows the derivation of the sentence that the tokens begin: each
symbol is read by the alternative that the derivation uses, since every other alternative that fits
takes fewer tokens (`exists_choose`), and a key that the derivation enters is free. So as many
terminals are read as there are tokens, and what is expected then stands for the rest of the word
(`LL1.serves_readSequence`).
-/

namespace LineGrammar.Grammar

open LineGrammar.Tree

variable {grammar : Grammar} {line offset : Nat} {free symbols : List String}
  {form behind body : List String} {word later : List String} {key symbol next : String}
  {token : Token} {tokens : List Token}

/-! ## The best of the alternatives that fit -/

theorem foldl_prefer_some (fits : List Fit) (current : Fit) :
    ∃ best, fits.foldl Fit.prefer (some current) = some best ∧
      current.stretch.consumed ≤ best.stretch.consumed ∧
      ∀ fit ∈ fits, fit.stretch.consumed ≤ best.stretch.consumed := by
  induction fits generalizing current with
  | nil => exact ⟨current, rfl, Nat.le_refl _, by simp⟩
  | cons fit fits ih =>
    rw [List.foldl_cons, Fit.prefer]
    by_cases hbetter : fit.isBetterThan current = true
    · obtain ⟨best, hbest, hfit, hfits⟩ := ih fit
      have hle : current.stretch.consumed ≤ fit.stretch.consumed := by
        simp only [Fit.isBetterThan, Bool.or_eq_true, decide_eq_true_eq, Bool.and_eq_true,
          beq_iff_eq] at hbetter
        omega
      rw [if_pos hbetter]
      exact ⟨best, hbest, Nat.le_trans hle hfit, List.forall_mem_cons.mpr ⟨hfit, hfits⟩⟩
    · obtain ⟨best, hbest, hcurrent, hfits⟩ := ih current
      have hle : fit.stretch.consumed ≤ current.stretch.consumed := by
        simp only [Fit.isBetterThan, Bool.or_eq_true, decide_eq_true_eq, Bool.and_eq_true,
          beq_iff_eq] at hbetter
        omega
      rw [if_neg hbetter]
      exact ⟨best, hbest, hcurrent, List.forall_mem_cons.mpr ⟨Nat.le_trans hle hcurrent, hfits⟩⟩

/-- Where some alternative fits, one of those is chosen that take the most tokens. -/
theorem exists_choose {fits : List Fit} {fit : Fit} (h : fit ∈ fits) :
    ∃ extension, Extension.choose fits = some extension ∧
      ∀ other ∈ fits, other.stretch.consumed ≤ extension.consumed := by
  cases fits with
  | nil => simp at h
  | cons first fits =>
    obtain ⟨best, hbest, hfirst, hfits⟩ := foldl_prefer_some fits first
    have hchoose : ∃ completion, Extension.choose (first :: fits) =
        some ⟨best.stretch.nodes, best.stretch.consumed, completion⟩ := by
      rw [Extension.choose, List.foldl_cons, Fit.prefer, hbest, Option.map_some]
      exact ⟨_, rfl⟩
    obtain ⟨completion, hchoose⟩ := hchoose
    exact ⟨_, hchoose, List.forall_mem_cons.mpr ⟨hfirst, hfits⟩⟩

theorem mem_readAlternatives {existing : List String} {alternatives : List Alternative} {fit : Fit} :
    fit ∈ (grammar.readAlternatives line free offset tokens existing alternatives).1 ↔
      ∃ alternative ∈ alternatives, existing <+: alternative ∧
        existing.length < alternative.length ∧ ∃ stretch,
          (grammar.readSequence line free offset tokens (alternative.drop existing.length)).1 =
            some stretch ∧
          fit = ⟨stretch, existing.length + stretch.settled, alternative.length⟩ := by
  induction alternatives with
  | nil => simp [readAlternatives]
  | cons alternative alternatives ih =>
    rw [readAlternatives]
    simp only [List.exists_mem_cons_iff, ← ih]
    split
    · next hlonger =>
      rw [Bool.and_eq_true, List.isPrefixOf_iff_prefix, decide_eq_true_iff] at hlonger
      split
      · next hread => simp [hread]
      · next stretch _ hread => simp [hread, hlonger]
    · next hlonger =>
      rw [Bool.and_eq_true, List.isPrefixOf_iff_prefix, decide_eq_true_iff] at hlonger
      constructor
      · exact .inr
      · rintro (⟨hbefore, hlength, -⟩ | hmem)
        · exact absurd ⟨hbefore, hlength⟩ hlonger
        · exact hmem

theorem choose_of_unique {existing unread : List String} {inner : Stretch}
    (hbody : existing ++ unread ∈ grammar.alternatives key) (hne : unread ≠ [])
    (hinner : (grammar.readSequence line free offset tokens unread).1 = some inner)
    (hunique : ∀ alternative ∈ grammar.alternatives key, existing <+: alternative → ∀ stretch,
      (grammar.readSequence line free offset tokens (alternative.drop existing.length)).1 =
        some stretch → inner.consumed ≤ stretch.consumed → alternative = existing ++ unread) :
    ∃ extension, Extension.choose (grammar.readAlternatives line free offset tokens existing
        (grammar.alternatives key)).1 = some extension ∧
      extension.nodes = inner.nodes ∧ extension.consumed = inner.consumed ∧
      extension.completion.Fits (existing.length + inner.settled)
        (existing.length + unread.length) := by
  have hlength : existing.length < (existing ++ unread).length := by
    rw [List.length_append]
    have := List.length_pos_iff.mpr hne
    omega
  have hfit : (⟨inner, existing.length + inner.settled, (existing ++ unread).length⟩ : Fit) ∈
      (grammar.readAlternatives line free offset tokens existing (grammar.alternatives key)).1 :=
    mem_readAlternatives.mpr ⟨_, hbody, List.prefix_append _ _, hlength, inner,
      by rwa [List.drop_left], rfl⟩
  obtain ⟨extension, hchoose, hmost⟩ := exists_choose hfit
  obtain ⟨fit, hmem, hnodes, hconsumed, hcompletion⟩ := choose_eq_some hchoose
  obtain ⟨alternative, halternative, hbefore, -, stretch, hread, rfl⟩ := mem_readAlternatives.mp hmem
  -- what is chosen takes as many tokens, so that it is this alternative
  have hmore : inner.consumed ≤ stretch.consumed := by
    have hle := hmost _ hfit
    rwa [hconsumed] at hle
  obtain rfl := hunique alternative halternative hbefore stretch hread hmore
  rw [List.drop_left, hinner] at hread
  obtain rfl := Option.some.inj hread
  rw [List.length_append] at hcompletion
  exact ⟨extension, hchoose, hnodes, hconsumed, hcompletion⟩

theorem readSequence_of_free (hne : symbol ≠ emptyText)
    (hterminal : grammar.isTerminal symbol = false) (hfree : symbol ∈ free) {later : List Token}
    {fits : List Fit} {furthest : Nat}
    (hfits : grammar.readAlternatives line (free.erase symbol) offset (token :: later) []
      (grammar.alternatives symbol) = (fits, furthest)) :
    grammar.readSequence line free offset (token :: later) (symbol :: symbols) =
      match Extension.choose fits with
      | none => (none, furthest)
      | some extension =>
        if extension.completion = .incomplete then
          (some ⟨[extension.toNode symbol line], extension.consumed, 0⟩, furthest)
        else
          let rest := grammar.readSequence line
            (if extension.consumed = 0 then free else grammar.ruleKeys)
            (offset + extension.consumed) ((token :: later).drop extension.consumed) symbols
          (rest.1.map (.cons (extension.toNode symbol line) extension.consumed),
            max furthest rest.2) := by
  rw [readSequence, if_neg hne]
  simp only [hterminal, hfree, hfits, dif_pos, if_false, Bool.false_eq_true]
  cases Extension.choose fits with
  | none => rfl
  | some extension =>
    dsimp only
    split
    · rfl
    · cases hconsumed : extension.consumed with
      | zero => simp
      | succ consumed => simp [Nat.add_assoc]

theorem readSequence_key (hne : symbol ≠ emptyText) (hterminal : grammar.isTerminal symbol = false)
    (hfree : symbol ∈ free) {later : List Token} {extension : Extension} (symbols : List String)
    (hchoose : Extension.choose (grammar.readAlternatives line (free.erase symbol) offset
      (token :: later) [] (grammar.alternatives symbol)).1 = some extension) :
    (grammar.readSequence line free offset (token :: later) (symbol :: symbols)).1 =
      if extension.completion = .incomplete then
        some ⟨[extension.toNode symbol line], extension.consumed, 0⟩
      else
        (grammar.readSequence line (if extension.consumed = 0 then free else grammar.ruleKeys)
          (offset + extension.consumed) ((token :: later).drop extension.consumed) symbols).1.map
            (.cons (extension.toNode symbol line) extension.consumed) := by
  rw [readSequence_of_free hne hterminal hfree rfl, hchoose]
  dsimp only
  split <;> rfl

/-! ## The tokens of a word -/

/-- The tokens belong to the first terminals of the word. -/
def Opens (grammar : Grammar) (tokens : List Token) (word : List String) : Prop :=
  ∃ terminals rest, word = terminals ++ rest ∧ List.Forall₂ grammar.Spells terminals tokens

theorem opens_nil (word : List String) : grammar.Opens [] word :=
  ⟨[], word, rfl, .nil⟩

theorem opens_cons_iff : grammar.Opens (token :: tokens) word ↔
    ∃ next rest, word = next :: rest ∧ grammar.Spells next token ∧ grammar.Opens tokens rest := by
  constructor
  · rintro ⟨_, rest, rfl, hspells⟩
    cases hspells with
    | @cons next _ terminals _ hfirst hrest =>
      exact ⟨next, terminals ++ rest, rfl, hfirst, terminals, rest, rfl, hrest⟩
  · rintro ⟨next, _, rfl, hfirst, terminals, rest, rfl, hrest⟩
    exact ⟨next :: terminals, rest, rfl, .cons hfirst hrest⟩

theorem Opens.drop (h : grammar.Opens tokens (word ++ later)) :
    grammar.Opens (tokens.drop (min word.length tokens.length)) later := by
  induction word generalizing tokens with
  | nil => simpa using h
  | cons terminal word ih =>
    cases tokens with
    | nil => exact opens_nil later
    | cons token tokens =>
      obtain ⟨next, rest, heq, -, hrest⟩ := opens_cons_iff.mp h
      obtain ⟨rfl, rfl⟩ := List.cons.inj heq
      simpa [Nat.succ_min_succ] using ih hrest

/-- The token belongs to one terminal only. -/
def Unmistakable (grammar : Grammar) (token : Token) : Prop :=
  ∀ terminal other, grammar.Spells terminal token → grammar.Spells other token → terminal = other

/-! ## The reading -/

/-- What has been read of symbols that stand for a word, where the tokens are that many: a terminal
for each of them, and what is still expected stands for the rest of the word. -/
structure Serves (grammar : Grammar) (form word : List String) (count : Nat) (stretch : Stretch) :
    Prop where
  consumed : stretch.consumed = min word.length count
  rest : ∃ pending, ExpectsAll grammar stretch.nodes pending ∧
    Derives grammar.Writes form
      (word.take count ++ (pending ++ form.drop stretch.nodes.length)) ∧
    grammar.Yields (pending ++ form.drop stretch.nodes.length) (word.drop count)

theorem serves_none (h : grammar.Yields form word) : grammar.Serves form word 0 .empty :=
  ⟨(Nat.min_zero _).symm, [], rfl, .refl form, h⟩

theorem Serves.empty {count : Nat} {stretch : Stretch} (h : grammar.Serves form word count stretch) :
    grammar.Serves (emptyText :: form) word count (.cons (.leaf emptyText none line) 0 stretch) := by
  obtain ⟨hconsumed, pending, hexpects, hderives, hyields⟩ := h
  refine ⟨?_, pending, ⟨[], pending, expects_of_closed rfl, hexpects, rfl⟩, ?_, hyields⟩
  · rw [Stretch.cons, Nat.zero_add, hconsumed]
  · exact .cons grammar.writes_emptyText hderives

theorem Serves.terminal {count : Nat} {stretch : Stretch}
    (h : grammar.Serves form word count stretch) :
    grammar.Serves (symbol :: form) (symbol :: word) (count + 1)
      (.cons (.leaf symbol (some token) line) 1 stretch) := by
  obtain ⟨hconsumed, pending, hexpects, hderives, hyields⟩ := h
  refine ⟨?_, pending, ⟨[], pending, expects_of_closed rfl, hexpects, rfl⟩, ?_, hyields⟩
  · rw [Stretch.cons, hconsumed, List.length_cons]
    dsimp only
    omega
  · exact hderives.append_left [symbol]

/-- A node that has read symbols which stand for the first part of a word, where the tokens are that
many. -/
structure ServesNode (grammar : Grammar) (form first : List String) (count : Nat) (node : Tree)
    (pending : List String) : Prop where
  expects : node.Expects grammar pending
  derives : Derives grammar.Writes form (first.take count ++ pending)
  yields : grammar.Yields pending (first.drop count)
  none : first.length < count → pending = []

theorem ServesNode.write {first : List String} {count : Nat} {node : Tree} {pending : List String}
    (h : grammar.ServesNode body first count node pending) (hbody : body ∈ grammar.alternatives key) :
    grammar.ServesNode [key] first count node pending :=
  ⟨h.expects, (Derives.of_writes (.inl hbody)).trans h.derives, h.yields, h.none⟩

theorem ServesNode.inside {first : List String} {count : Nat} {node : Tree} {pending : List String}
    (h : grammar.ServesNode [key] first count node pending) (hle : count ≤ first.length)
    (hrest : grammar.Yields form word) :
    grammar.Serves (key :: form) (first ++ word) count ⟨[node], count, 0⟩ := by
  refine ⟨?_, pending, ⟨pending, [], h.expects, rfl, (List.append_nil _).symm⟩, ?_, ?_⟩
  · rw [List.length_append]
    dsimp only
    omega
  · rw [List.take_append_of_le_length hle, ← List.append_assoc]
    exact h.derives.append_right form
  · rw [List.drop_append_of_le_length hle]
    exact h.yields.append hrest

theorem ServesNode.cons {first : List String} {count : Nat} {node : Tree} {pending : List String}
    {stretch : Stretch} (h : grammar.ServesNode [key] first count node pending)
    (hrest : grammar.Serves form word (count - min first.length count) stretch) :
    grammar.Serves (key :: form) (first ++ word) count
      (.cons node (min first.length count) stretch) := by
  obtain ⟨hconsumed, behind, hexpects, hderives, hyields⟩ := hrest
  refine ⟨?_, pending ++ behind, ⟨pending, behind, h.expects, hexpects, rfl⟩, ?_, ?_⟩
  · rw [Stretch.cons, hconsumed, List.length_append]
    dsimp only
    omega
  · have hboth := h.derives.append hderives
    by_cases hle : count ≤ first.length
    · rw [Nat.min_eq_right hle, Nat.sub_self, List.take_zero, List.nil_append] at hboth
      rw [List.take_append_of_le_length hle]
      simpa [Stretch.cons] using hboth
    · -- the key has been read to its end
      obtain rfl := h.none (Nat.lt_of_not_le hle)
      rw [Nat.min_eq_left (Nat.le_of_not_le hle)] at hboth
      rw [List.take_append]
      simpa [Stretch.cons] using hboth
  · have hboth := h.yields.append hyields
    rw [List.drop_append]
    by_cases hle : count ≤ first.length
    · rw [Nat.min_eq_right hle] at hboth
      rw [Nat.sub_eq_zero_of_le hle]
      simpa [Stretch.cons] using hboth
    · rw [Nat.min_eq_left (Nat.le_of_not_le hle)] at hboth
      simpa [Stretch.cons] using hboth

theorem ServesNode.readSequence {first : List String} {extension : Extension} {pending : List String}
    (h : grammar.ServesNode [key] first (token :: tokens).length (extension.toNode key line) pending)
    (hne : key ≠ emptyText) (hterminal : grammar.isTerminal key = false) (hfree : key ∈ free)
    (hchoose : Extension.choose (grammar.readAlternatives line (free.erase key) offset
      (token :: tokens) [] (grammar.alternatives key)).1 = some extension)
    (hconsumed : extension.consumed = min first.length (token :: tokens).length)
    (hinside : extension.completion = .incomplete → (token :: tokens).length ≤ first.length)
    (hyields : grammar.Yields form word)
    (hrest : ∃ stretch,
      (grammar.readSequence line (if extension.consumed = 0 then free else grammar.ruleKeys)
        (offset + extension.consumed) ((token :: tokens).drop extension.consumed) form).1 =
          some stretch ∧
        grammar.Serves form word ((token :: tokens).drop extension.consumed).length stretch) :
    ∃ stretch, (grammar.readSequence line free offset (token :: tokens) (key :: form)).1 = some stretch ∧
      grammar.Serves (key :: form) (first ++ word) (token :: tokens).length stretch := by
  rw [readSequence_key hne hterminal hfree form hchoose]
  by_cases hincomplete : extension.completion = .incomplete
  · have hle := hinside hincomplete
    rw [if_pos hincomplete, hconsumed, Nat.min_eq_right hle]
    exact ⟨_, rfl, h.inside hle hyields⟩
  · obtain ⟨stretch, hread, hserves⟩ := hrest
    rw [List.length_drop, hconsumed] at hserves
    rw [if_neg hincomplete, hread, hconsumed]
    exact ⟨_, rfl, h.cons hserves⟩

theorem Reads.settled_le_nodes {stretch : Stretch} (h : Reads grammar line tokens symbols stretch) :
    stretch.settled ≤ stretch.nodes.length := by
  induction h with
  | done => exact Nat.le_refl 0
  | empty _ ih => exact Nat.succ_le_succ ih
  | short => exact Nat.le_refl 0
  | terminal _ _ _ _ ih => exact Nat.succ_le_succ ih
  | inside => exact Nat.zero_le 1
  | symbol _ _ _ _ _ _ _ ih => exact Nat.succ_le_succ ih

theorem Serves.node {first : List String} {inner : Stretch} {completion : Completion}
    {existing : List Tree} (h : grammar.Serves form first tokens.length inner)
    (hreads : Reads grammar line tokens form inner) (hexisting : SettledAll existing)
    (hbody : existing.map (·.symbol) ++ form ∈ grammar.alternatives key)
    (hcompletion : completion.Fits (existing.length + inner.settled) (existing.length + form.length))
    (mark : Option Token) (row : Nat) :
    ∃ pending, grammar.ServesNode form first tokens.length
      ⟨key, mark, completion, false, row, existing ++ inner.nodes⟩ pending := by
  obtain ⟨hconsumed, pending, hexpects, hderives, hyields⟩ := h
  have hall : ExpectsAll grammar (existing ++ inner.nodes) pending :=
    expectsAll_append.mpr
      ⟨[], pending, (expectsAll_iff_of_settledAll hexisting).mpr rfl, hexpects, rfl⟩
  by_cases hcomplete : completion = .complete
  · have hfull : existing.length + inner.settled = existing.length + form.length :=
      hcompletion.mp hcomplete
    have hdrop : form.drop inner.nodes.length = [] := by
      have := hreads.settled_le_nodes
      exact List.drop_eq_nil_of_le (by omega)
    rw [hdrop, List.append_nil] at hderives hyields
    refine ⟨pending, .inr ⟨rfl, pending, hall, .inl ⟨hcomplete, rfl⟩⟩, hderives, hyields,
      fun hlt => ?_⟩
    refine (expectsAll_iff_of_settledAll (hreads.settled_of_lt ?_).2).mp hexpects
    omega
  · refine ⟨_, .inr ⟨rfl, pending, hall, .inr ⟨hcomplete, _, ?_, rfl⟩⟩, hderives, hyields,
      fun hlt => ?_⟩
    · rwa [List.map_append, List.append_assoc, hreads.symbols_append]
    · refine absurd (hcompletion.mpr (congrArg _ (hreads.settled_of_lt ?_).1)) hcomplete
      omega

namespace LL1

variable (hll : grammar.LL1) (h : grammar.WellFormed) (hempty : grammar.isTerminal emptyText = true)
include hll h hempty

/-- The alternative that the derivation uses is chosen, if it can be read. -/
theorem choose_of_serves {inner : Stretch} (hbody : body ∈ grammar.alternatives key)
    (hyields : grammar.Yields body word) (hbehind : grammar.Yields behind later)
    (hopens : grammar.Opens (token :: tokens) (word ++ later))
    (hstands : grammar.Stands (key :: behind))
    (htoken : grammar.Unmistakable token)
    (hinner : (grammar.readSequence line free offset (token :: tokens) body).1 = some inner)
    (hserves : grammar.Serves body word (token :: tokens).length inner) :
    ∃ extension, Extension.choose (grammar.readAlternatives line free offset (token :: tokens) []
        (grammar.alternatives key)).1 = some extension ∧
      extension.nodes = inner.nodes ∧ extension.consumed = inner.consumed ∧
      extension.completion.Fits (0 + inner.settled) (0 + body.length) := by
  obtain ⟨next, rest, heq, hspells, -⟩ := opens_cons_iff.mp hopens
  have hnext : (word ++ later).head? = some next := by rw [heq, List.head?_cons]
  refine choose_of_unique hbody (h.alternative_ne_nil hbody) hinner ?_
  intro alternative hmem _ stretch hread hmore
  have hreads := (reads_and_fitsReading grammar line).1 _ _ _ _ stretch hread
  obtain ⟨hbegins, hvanishes⟩ := hreads.begins_or_vanishes
  refine hll.eq_of_predicts h hempty hbody hyields hbehind hnext hstands ⟨hmem, ?_⟩
  by_cases hpos : 0 < stretch.consumed
  · obtain ⟨terminal, hterminal, hfirst, -⟩ := hbegins hpos
    obtain rfl := htoken terminal next hterminal hspells
    exact .inl hfirst
  · -- the derivation takes no token either
    have hnone : word = [] := by
      have hconsumed := hserves.consumed
      rw [List.length_cons] at hconsumed
      exact List.eq_nil_of_length_eq_zero (by omega)
    subst hnone
    have hkey : grammar.Yields [key] [] := .alternative hbody hyields .nil
    rw [List.nil_append] at heq
    rw [heq] at hbehind
    exact .inr ⟨hll.not_begins h hempty hkey hbehind hstands, hvanishes (by omega)⟩

theorem exists_chosen {first : List String} {inner : Stretch}
    (hbody : body ∈ grammar.alternatives key)
    (hfirst : grammar.Yields body first) (hbehind : grammar.Yields behind later)
    (hopens : grammar.Opens (token :: tokens) (first ++ later))
    (hstands : grammar.Stands (key :: behind))
    (htoken : grammar.Unmistakable token)
    (hinner : (grammar.readSequence line free offset (token :: tokens) body).1 = some inner)
    (hserves : grammar.Serves body first (token :: tokens).length inner) :
    ∃ extension pending, Extension.choose (grammar.readAlternatives line free offset
        (token :: tokens) [] (grammar.alternatives key)).1 = some extension ∧
      extension.consumed = min first.length (token :: tokens).length ∧
      grammar.ServesNode [key] first (token :: tokens).length (extension.toNode key line) pending ∧
      (extension.completion = .incomplete → (token :: tokens).length ≤ first.length) := by
  obtain ⟨extension, hchoose, hnodes, hconsumed, hcompletion⟩ :=
    hll.choose_of_serves h hempty hbody hfirst hbehind hopens hstands htoken hinner hserves
  have hreads := (reads_and_fitsReading grammar line).1 _ _ _ _ inner hinner
  have hfresh : SettledAll [] := trivial
  obtain ⟨pending, hnode⟩ := hserves.node hreads hfresh hbody hcompletion none line
  have hnode := hnode.write hbody
  refine ⟨extension, pending, hchoose, ?_, ?_, fun hincomplete => ?_⟩
  · rw [hconsumed, hserves.consumed]
  · rwa [Extension.toNode, hnodes]
  · by_contra hlt
    refine absurd (hcompletion.mpr (congrArg _ (hreads.settled_of_lt ?_).1)) (by simp [hincomplete])
    have := hserves.consumed
    omega

/-- Behind a key, what is faced is free: all keys are if the key has taken a token, and those that
were free for the key if it is written as the empty text. -/
theorem admits_behind {first : List String} {consumed : Nat} (hbody : body ∈ grammar.alternatives key)
    (hfirst : grammar.Yields body first) (hlater : grammar.Yields behind later)
    (hstands : grammar.Stands (key :: behind))
    (hadmits : ∀ next, (first ++ later).head? = some next → grammar.Admits next (key :: form) free)
    (hconsumed : consumed = min first.length (token :: tokens).length) (next : String)
    (hnext : later.head? = some next) :
    grammar.Admits next form (if consumed = 0 then free else grammar.ruleKeys) := by
  by_cases hnone : consumed = 0
  · have hfirstNil : first = [] := by
      rw [hnone, List.length_cons] at hconsumed
      exact List.eq_nil_of_length_eq_zero (by omega)
    subst hfirstNil
    have hkey : grammar.Yields [key] [] := .alternative hbody hfirst .nil
    obtain ⟨_, hword⟩ := List.head?_eq_some_iff.mp hnext
    rw [hword] at hlater
    rw [if_pos hnone]
    exact (hadmits next hnext).tail hkey.derives (hll.not_begins h hempty hkey hlater hstands)
  · rw [if_neg hnone]
    exact grammar.admits_ruleKeys next form

/-- **What is predicted is read.** Where the tokens begin a sentence, the symbols that are next in it
are read as far as the tokens go. -/
theorem serves_readSequence (hyields : grammar.Yields form word) :
    ∀ {behind later : List String} {tokens : List Token} {free : List String} {offset : Nat},
      grammar.Yields behind later → grammar.Opens tokens (word ++ later) →
      grammar.Stands (form ++ behind) → (∀ token ∈ tokens, grammar.Unmistakable token) →
      (∀ next, tokens ≠ [] → (word ++ later).head? = some next → grammar.Admits next form free) →
      ∃ stretch, (grammar.readSequence line free offset tokens form).1 = some stretch ∧
        grammar.Serves form word tokens.length stretch := by
  induction hyields with
  | nil =>
    intro behind later tokens free offset _ _ _ _ _
    refine ⟨.empty, by rw [readSequence], ⟨?_, [], rfl, ?_, ?_⟩⟩
    · exact (Nat.zero_min _).symm
    · rw [List.take_nil]
      exact .refl []
    · simpa using Yields.nil
  | @empty form word hrest ih =>
    intro behind later tokens free offset hbehind hopens hstands htokens hfree
    obtain ⟨stretch, hread, hserves⟩ := ih hbehind hopens hstands.tail htokens
      fun next hne hnext => (hfree next hne hnext).tail (.of_writes grammar.writes_emptyText)
        (h.not_begins_emptyText hempty
          ((hrest.append hbehind).isTerminal_of_mem next (List.mem_of_head? hnext)).2)
    refine ⟨.cons (.leaf emptyText none line) 0 stretch, ?_, hserves.empty⟩
    rw [readSequence.eq_def]
    dsimp only
    rw [if_pos rfl, hread]
    rfl
  | @terminal symbol form word hterminal hne hrest ih =>
    intro behind later tokens free offset hbehind hopens hstands htokens hfree
    cases tokens with
    | nil =>
      refine ⟨.empty, by rw [readSequence, if_neg hne], serves_none ?_⟩
      exact .terminal hterminal hne hrest
    | cons token tokens =>
      obtain ⟨next, rest, heq, hspells, hopens⟩ := opens_cons_iff.mp hopens
      obtain ⟨rfl, rfl⟩ := List.cons.inj heq
      obtain ⟨-, htokens⟩ := List.forall_mem_cons.mp htokens
      obtain ⟨stretch, hread, hserves⟩ : ∃ stretch,
          (grammar.readSequence line grammar.ruleKeys (offset + 1) tokens form).1 = some stretch ∧
            grammar.Serves form word tokens.length stretch :=
        ih hbehind hopens hstands.tail htokens fun next _ _ => grammar.admits_ruleKeys next form
      refine ⟨.cons (.leaf symbol (some token) line) 1 stretch, ?_, hserves.terminal⟩
      rw [readSequence, if_neg hne]
      simp only [hterminal, hspells.2.2, if_true, hread]
      rfl
  | @alternative key body form first word hbody hfirst hrest ihFirst ihRest =>
    intro behind later tokens free offset hbehind hopens hstands htokens hfree
    have hkey : grammar.isTerminal key = false := h.isTerminal_of_mem_alternatives hbody
    have hne : key ≠ emptyText := by
      rintro rfl
      exact absurd (hempty.symm.trans hkey) (by simp)
    cases tokens with
    | nil =>
      refine ⟨.empty, by rw [readSequence, if_neg hne], serves_none ?_⟩
      exact .alternative hbody hfirst hrest
    | cons token tokens =>
      have hlater : grammar.Yields (form ++ behind) (word ++ later) := hrest.append hbehind
      rw [List.append_assoc] at hopens hfree
      obtain ⟨next, rest, heq, -, -⟩ := opens_cons_iff.mp hopens
      have hnext : (first ++ (word ++ later)).head? = some next := by rw [heq, List.head?_cons]
      have hadmits := hfree next (by simp) hnext
      have hmem : key ∈ free :=
        hadmits key key (faces_cons form) .refl (mem_ruleKeys_of_mem_alternatives hbody)
      obtain ⟨inner, hinner, hserves⟩ := ihFirst hlater hopens (hstands.write hbody) htokens
        fun other _ hother => by
          obtain rfl : next = other := Option.some.inj (hnext.symm.trans hother)
          exact hll.admits_erase h hempty hadmits hbody hfirst hlater hnext hstands
      obtain ⟨extension, pending, hchoose, hcount, hnode, hinside⟩ := hll.exists_chosen h hempty hbody
        hfirst hlater hopens hstands (htokens token List.mem_cons_self) hinner hserves
      have hbehindKey :
          grammar.Opens ((token :: tokens).drop extension.consumed) (word ++ later) := by
        rw [hcount]
        exact hopens.drop
      refine hnode.readSequence hne hkey hmem hchoose hcount hinside hrest ?_
      refine ihRest hbehind hbehindKey hstands.tail ?_ ?_
      · exact fun other hother => htokens other (List.mem_of_mem_drop hother)
      · intro other _
        exact hll.admits_behind h hempty hbody hfirst hlater hstands
          (fun next => hfree next (by simp)) hcount other

end LL1

end LineGrammar.Grammar
