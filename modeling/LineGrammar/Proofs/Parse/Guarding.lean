import LineGrammar.Proofs.Parse.Taking
import Mathlib.Data.List.Perm.Subperm
import Mathlib.Data.List.ProdSigma
import Mathlib.Order.RelClasses

/-!
# The guard ends the reading

Nothing in the rules of a grammar keeps the reading of a symbol from coming back to that symbol. Here
it is written without any measure, and perhaps without an end (`Grammar.searchSequence`); the only
guard is the list of the symbols that are being read, each with the position of the token before
which it was entered. No symbol is entered twice before the same token.

Going on with a sequence leaves fewer tokens, or as many and fewer symbols; entering a symbol leaves
the same tokens and fewer keys that are not guarded there. So the tasks of a search are well-founded
(`Task.wellFounded_demands`), every search ends, and it comes to what `Grammar.readSequence` comes to
(`Task.settles`). What is being read at a time are keys with positions of the tokens, each at most
once (`Task.guarded_of_reflTransGen`), which bounds how deep a search goes (`Task.Guarded.length_le`).
-/

namespace LineGrammar

/-- What is written without a measure comes to an end, and to `expected` if the condition holds. -/
def EndsAs {α : Type} (condition : Prop) (found : Option α) (expected : α) : Prop :=
  ∃ result, found = some result ∧ (condition → result = expected)

namespace Grammar

mutual

/-- Reads symbols from left to right; none if that has no end. -/
def searchSequence (grammar : Grammar) (line : Nat) (active : List (String × Nat)) (offset : Nat)
    (tokens : List Token) : List String → Option (Option Stretch × Nat)
  | [] => some (some .empty, 0)
  | symbol :: symbols =>
    if symbol = emptyText then do
      let (rest, furthest) ← grammar |>.searchSequence line active offset tokens symbols
      some (rest.map (.cons (.leaf emptyText none line) 0), furthest)
    else
      match tokens with
      | [] => some (some .empty, 0)
      | token :: later =>
        if grammar.isTerminal symbol then
          if grammar.accepts symbol token then do
            let (rest, furthest) ← grammar |>.searchSequence line active (offset + 1) later symbols
            some (rest.map (.cons (.leaf symbol (some token) line) 1), furthest)
          else some (none, offset)
        else if (symbol, offset) ∈ active then some (none, 0)
        else do
          let (fits, furthest) ← grammar |>.searchAlternatives line ((symbol, offset) :: active) offset
            (token :: later) [] (grammar.alternatives symbol)
          match Extension.choose fits with
          | none => some (none, furthest)
          | some extension =>
            let node := extension.toNode symbol line
            if extension.completion = .incomplete then
              some (some ⟨[node], extension.consumed, 0⟩, furthest)
            else do
              let (rest, further) ← grammar |>.searchSequence line active
                (offset + extension.consumed) ((token :: later).drop extension.consumed) symbols
              some (rest.map (.cons node extension.consumed), max furthest further)
partial_fixpoint

/-- Reads the rest of each alternative that starts with the `existing` symbols and is longer; none if
that has no end. -/
def searchAlternatives (grammar : Grammar) (line : Nat) (active : List (String × Nat))
    (offset : Nat) (tokens : List Token) (existing : List String) :
    List Alternative → Option (List Fit × Nat)
  | [] => some ([], 0)
  | alternative :: alternatives => do
    let (fits, furthest) ←
      grammar |>.searchAlternatives line active offset tokens existing alternatives
    if existing.isPrefixOf alternative && existing.length < alternative.length then
      match ← grammar |>.searchSequence line active offset tokens
        (alternative.drop existing.length) with
      | (none, further) => some (fits, max further furthest)
      | (some stretch, further) =>
        some (⟨stretch, existing.length + stretch.settled, alternative.length⟩ :: fits,
          max further furthest)
    else some (fits, furthest)
partial_fixpoint

end

/-- Reads a symbol on from nodes that are there already; none if that has no end. Nothing is guarded
at first, and so the symbol itself may be entered once more. -/
def searchOn (grammar : Grammar) (line : Nat) (symbol : String) (existing : List Tree)
    (tokens : List Token) : Option (Option Extension × Nat) := do
  let (fits, furthest) ← grammar.searchAlternatives line [] 0 tokens (existing.map (·.symbol))
    (grammar.alternatives symbol)
  some (Extension.choose fits, furthest)

/-- The keys that may be entered before the token at a position. -/
def freeAt (grammar : Grammar) (active : List (String × Nat)) (offset : Nat) : List String :=
  grammar.ruleKeys.filter fun key => (key, offset) ∉ active

/-- A sequence of symbols that is to be read from some tokens. -/
structure Task where
  /-- The symbols that are being read around it, the latest first, and where each was entered. -/
  active : List (String × Nat)
  /-- The position of the first token. -/
  offset : Nat
  tokens : List Token
  symbols : List String

namespace Task

def search (grammar : Grammar) (line : Nat) (task : Task) : Option (Option Stretch × Nat) :=
  grammar.searchSequence line task.active task.offset task.tokens task.symbols

/-- What doing a task takes: to read an alternative of its first symbol, or what is left of it behind
that one. -/
inductive Demands (grammar : Grammar) (line : Nat) : Task → Task → Prop where
  | empty {active : List (String × Nat)} {offset : Nat} {tokens : List Token}
      {symbols : List String} :
      Demands grammar line ⟨active, offset, tokens, emptyText :: symbols⟩
        ⟨active, offset, tokens, symbols⟩
  | terminal {active : List (String × Nat)} {offset : Nat} {token : Token} {later : List Token}
      {symbol : String} {symbols : List String} (hne : symbol ≠ emptyText)
      (hterminal : grammar.isTerminal symbol = true)
      (haccepts : grammar.accepts symbol token = true) :
      Demands grammar line ⟨active, offset, token :: later, symbol :: symbols⟩
        ⟨active, offset + 1, later, symbols⟩
  | enter {active : List (String × Nat)} {offset : Nat} {token : Token} {later : List Token}
      {symbol : String} {symbols : List String} {alternative : Alternative}
      (hne : symbol ≠ emptyText) (hterminal : grammar.isTerminal symbol = false)
      (hactive : (symbol, offset) ∉ active) (halternative : alternative ∈ grammar.alternatives symbol)
      (hnonempty : alternative ≠ []) :
      Demands grammar line ⟨active, offset, token :: later, symbol :: symbols⟩
        ⟨(symbol, offset) :: active, offset, token :: later, alternative⟩
  | behind {active : List (String × Nat)} {offset : Nat} {token : Token} {later : List Token}
      {symbol : String} {symbols : List String} {fits : List Fit} {furthest : Nat}
      {extension : Extension} (hne : symbol ≠ emptyText)
      (hterminal : grammar.isTerminal symbol = false) (hactive : (symbol, offset) ∉ active)
      (hfits : grammar.searchAlternatives line ((symbol, offset) :: active) offset (token :: later) []
        (grammar.alternatives symbol) = some (fits, furthest))
      (hchoose : Extension.choose fits = some extension)
      (hcompletion : extension.completion ≠ .incomplete) :
      Demands grammar line ⟨active, offset, token :: later, symbol :: symbols⟩
        ⟨active, offset + extension.consumed, (token :: later).drop extension.consumed, symbols⟩

/-! ## The measure -/

/-- The tokens that are left, the keys that may be entered before the first of them, and the symbols
that are left. -/
def rank (grammar : Grammar) (task : Task) : Nat × Nat × Nat :=
  (task.tokens.length, (grammar.freeAt task.active task.offset).length, task.symbols.length)

variable {grammar : Grammar} {line : Nat} {task other : Task}

theorem freeAt_cons (active : List (String × Nat)) (symbol : String) (offset : Nat) :
    grammar.freeAt ((symbol, offset) :: active) offset =
      (grammar.freeAt active offset).filter (· ≠ symbol) := by
  unfold freeAt
  rw [List.filter_filter]
  apply List.filter_congr
  intro key _
  by_cases hkey : key = symbol <;> simp [hkey]

theorem mem_freeAt {active : List (String × Nat)} {key : String} {offset : Nat} :
    key ∈ grammar.freeAt active offset ↔ key ∈ grammar.ruleKeys ∧ (key, offset) ∉ active := by
  simp [freeAt]

theorem Demands.rank_lt (h : Demands grammar line task other) :
    Prod.Lex (· < ·) (Prod.Lex (· < ·) (· < ·)) (other.rank grammar) (task.rank grammar) := by
  cases h with
  | empty => exact .right _ (.right _ (Nat.lt_succ_self _))
  | terminal => exact .left _ _ (Nat.lt_succ_self _)
  | @enter active offset token later symbol symbols alternative hne _ hactive halternative =>
    refine .right _ (.left _ _ ?_)
    show (grammar.freeAt ((symbol, offset) :: active) offset).length < _
    rw [freeAt_cons]
    apply List.length_filter_lt_length_iff_exists.mpr
    exact ⟨symbol, mem_freeAt.mpr ⟨mem_ruleKeys_of_mem_alternatives halternative, hactive⟩, by simp⟩
  | @behind active offset token later symbol symbols fits furthest extension =>
    cases hconsumed : extension.consumed with
    | zero => exact .right _ (.right _ (Nat.lt_succ_self _))
    | succ consumed =>
      refine .left _ _ ?_
      show (later.drop consumed).length < _
      rw [List.length_drop, List.length_cons]
      omega

theorem wellFounded_demands (grammar : Grammar) (line : Nat) :
    WellFounded fun other task => Demands grammar line task other := by
  have hlex : WellFounded (InvImage (Prod.Lex (· < ·) (Prod.Lex (· < ·) (· < ·))) (rank grammar)) :=
    InvImage.wf _ (Nat.lt_wfRel.wf.prod_lex (Nat.lt_wfRel.wf.prod_lex Nat.lt_wfRel.wf))
  exact Subrelation.wf Demands.rank_lt hlex

/-! ## Searches end -/

theorem freeAt_of_lt {active : List (String × Nat)} {offset : Nat}
    (h : ∀ entry ∈ active, entry.2 < offset) : grammar.freeAt active offset = grammar.ruleKeys := by
  apply List.filter_eq_self.mpr
  intro key _
  simp only [decide_eq_true_eq]
  intro hmem
  exact absurd (h _ hmem) (Nat.lt_irrefl _)

theorem endsAs_searchAlternatives {condition : Prop} {active : List (String × Nat)} {offset : Nat}
    {tokens : List Token} {free existing : List String} {alternatives : List Alternative}
    (h : ∀ alternative ∈ alternatives, existing.length < alternative.length →
      EndsAs condition
        (grammar.searchSequence line active offset tokens (alternative.drop existing.length))
        (grammar.readSequence line free offset tokens (alternative.drop existing.length))) :
    EndsAs condition (grammar.searchAlternatives line active offset tokens existing alternatives)
      (grammar.readAlternatives line free offset tokens existing alternatives) := by
  induction alternatives with
  | nil => exact ⟨_, by rw [searchAlternatives], fun _ => by rw [readAlternatives]⟩
  | cons alternative alternatives ih =>
    obtain ⟨hfirst, hrest⟩ := List.forall_mem_cons.mp h
    obtain ⟨⟨fits, furthest⟩, hfits, hothers⟩ := ih hrest
    rw [searchAlternatives, hfits, readAlternatives]
    dsimp only [Option.bind_eq_bind, Option.bind_some]
    by_cases hlonger :
        (existing.isPrefixOf alternative && decide (existing.length < alternative.length)) = true
    · have hlength : existing.length < alternative.length :=
        of_decide_eq_true (Bool.and_eq_true_iff.mp hlonger).2
      obtain ⟨⟨stretch, further⟩, hstretch, hread⟩ := hfirst hlength
      rw [if_pos hlonger, if_pos hlonger, hstretch]
      cases stretch with
      | none => exact ⟨_, rfl, fun hcondition => by rw [← hothers hcondition, ← hread hcondition]⟩
      | some stretch =>
        exact ⟨_, rfl, fun hcondition => by rw [← hothers hcondition, ← hread hcondition]⟩
    · rw [if_neg hlonger, if_neg hlonger]
      exact ⟨_, rfl, fun hcondition => by rw [← hothers hcondition]⟩

/-- No key has two entries among the rules, and all symbols that are being read were entered at
positions up to that of the task. -/
structure Orderly (grammar : Grammar) (task : Task) : Prop where
  nodup : grammar.ruleKeys.Nodup
  le : ∀ entry ∈ task.active, entry.2 ≤ task.offset

/-- The search ends, and comes to what is read. -/
def Settles (grammar : Grammar) (line : Nat) (task : Task) : Prop :=
  EndsAs (task.Orderly grammar) (task.search grammar line)
    (grammar.readSequence line (grammar.freeAt task.active task.offset) task.offset task.tokens
      task.symbols)

section

variable {active : List (String × Nat)} {offset : Nat} {token : Token} {tokens later : List Token}
  {symbol : String} {symbols : List String}

theorem Orderly.forth {further : Nat} (h : Orderly grammar ⟨active, offset, tokens, symbols⟩)
    (hle : offset ≤ further) (rest : List Token) (behind : List String) :
    Orderly grammar ⟨active, further, rest, behind⟩ :=
  ⟨h.nodup, fun entry hentry => Nat.le_trans (h.le entry hentry) hle⟩

theorem Orderly.enter (h : Orderly grammar ⟨active, offset, tokens, symbol :: symbols⟩)
    (alternative : List String) :
    Orderly grammar ⟨(symbol, offset) :: active, offset, tokens, alternative⟩ :=
  ⟨h.nodup, List.forall_mem_cons.mpr ⟨Nat.le_refl _, h.le⟩⟩

/-- Once a token has been taken all keys may be entered again. -/
theorem Orderly.freeAt_of_lt {further : Nat} (h : Orderly grammar ⟨active, offset, tokens, symbols⟩)
    (hlt : offset < further) : grammar.freeAt active further = grammar.ruleKeys :=
  Task.freeAt_of_lt fun entry hentry => Nat.lt_of_le_of_lt (h.le entry hentry) hlt

theorem Orderly.freeAt_enter (h : Orderly grammar ⟨active, offset, tokens, symbols⟩)
    (symbol : String) :
    grammar.freeAt ((symbol, offset) :: active) offset =
      (grammar.freeAt active offset).erase symbol := by
  have hnodup : (grammar.freeAt active offset).Nodup := h.nodup.filter _
  rw [freeAt_cons, hnodup.erase_eq_filter]
  apply List.filter_congr
  intro key _
  by_cases hkey : key = symbol <;> simp [hkey]

theorem settles_emptyText (h : Settles grammar line ⟨active, offset, tokens, symbols⟩) :
    Settles grammar line ⟨active, offset, tokens, emptyText :: symbols⟩ := by
  obtain ⟨⟨rest, furthest⟩, hsearch, hread⟩ := h
  refine ⟨(rest.map (.cons (.leaf emptyText none line) 0), furthest), ?_, fun horderly => ?_⟩
  · dsimp only [search] at hsearch ⊢
    cases tokens <;> rw [searchSequence, if_pos rfl, hsearch] <;> rfl
  · dsimp only at hread ⊢
    rw [readSequence.eq_def]
    dsimp only
    rw [if_pos rfl, ← hread (horderly.forth (Nat.le_refl _) _ _)]

theorem settles_terminal (hne : symbol ≠ emptyText) (hterminal : grammar.isTerminal symbol = true)
    (h : grammar.accepts symbol token = true →
      Settles grammar line ⟨active, offset + 1, later, symbols⟩) :
    Settles grammar line ⟨active, offset, token :: later, symbol :: symbols⟩ := by
  unfold Settles search
  dsimp only
  rw [searchSequence, if_neg hne, if_pos hterminal, readSequence, if_neg hne]
  dsimp only
  rw [if_pos hterminal]
  split
  · next haccepts =>
    obtain ⟨⟨rest, furthest⟩, hsearch, hread⟩ := h haccepts
    dsimp only [search] at hsearch hread
    rw [hsearch]
    refine ⟨_, rfl, fun horderly => ?_⟩
    -- before the next token all keys are free
    rw [← horderly.freeAt_of_lt (Nat.lt_succ_self _), ← hread (horderly.forth (Nat.le_succ _) _ _)]
  · exact ⟨_, rfl, fun _ => rfl⟩

theorem settles_of_not_mem (hne : symbol ≠ emptyText) (hterminal : grammar.isTerminal symbol = false)
    (h : symbol ∉ grammar.freeAt active offset) :
    Settles grammar line ⟨active, offset, token :: later, symbol :: symbols⟩ := by
  refine ⟨(none, 0), ?_, fun _ => ?_⟩
  · dsimp only [search]
    rw [searchSequence, if_neg hne, if_neg (by simp [hterminal])]
    by_cases hactive : (symbol, offset) ∈ active
    · rw [if_pos hactive]
    · have hkey : symbol ∉ grammar.ruleKeys := fun hkey => h (mem_freeAt.mpr ⟨hkey, hactive⟩)
      have hnone : grammar.alternatives symbol = [] :=
        List.eq_nil_iff_forall_not_mem.mpr fun alternative hmem =>
          hkey (mem_ruleKeys_of_mem_alternatives hmem)
      rw [if_neg hactive, hnone, searchAlternatives]
      rfl
  · dsimp only
    rw [readSequence, if_neg hne]
    simp [hterminal, h]

theorem endsAs_enter
    (h : ∀ alternative ∈ grammar.alternatives symbol, alternative ≠ [] →
      Settles grammar line ⟨(symbol, offset) :: active, offset, tokens, alternative⟩) :
    EndsAs (Orderly grammar ⟨active, offset, tokens, symbol :: symbols⟩)
      (grammar.searchAlternatives line ((symbol, offset) :: active) offset tokens []
        (grammar.alternatives symbol))
      (grammar.readAlternatives line ((grammar.freeAt active offset).erase symbol) offset tokens []
        (grammar.alternatives symbol)) := by
  apply endsAs_searchAlternatives
  intro alternative halternative hlength
  obtain ⟨result, hsearch, hread⟩ := h alternative halternative (List.length_pos_iff.mp hlength)
  refine ⟨result, hsearch, fun horderly => ?_⟩
  rw [← horderly.freeAt_enter symbol]
  exact hread (horderly.enter alternative)

theorem settles_key (hne : symbol ≠ emptyText) (hterminal : grammar.isTerminal symbol = false)
    (hfree : symbol ∈ grammar.freeAt active offset)
    (ih : ∀ other, Demands grammar line ⟨active, offset, token :: later, symbol :: symbols⟩ other →
      Settles grammar line other) :
    Settles grammar line ⟨active, offset, token :: later, symbol :: symbols⟩ := by
  have hactive := (mem_freeAt.mp hfree).2
  have halternatives : ∀ alternative ∈ grammar.alternatives symbol, alternative ≠ [] →
      Settles grammar line ⟨(symbol, offset) :: active, offset, token :: later, alternative⟩ :=
    fun _ halternative hnonempty => ih _ (.enter hne hterminal hactive halternative hnonempty)
  obtain ⟨⟨fits, furthest⟩, hfits, hread⟩ := endsAs_enter halternatives
  unfold Settles search
  dsimp only
  rw [searchSequence, if_neg hne, if_neg (by simp [hterminal]), if_neg hactive, hfits]
  dsimp only [Option.bind_eq_bind, Option.bind_some]
  cases hchoose : Extension.choose fits with
  | none =>
    refine ⟨_, rfl, fun horderly => ?_⟩
    rw [readSequence_of_free hne hterminal hfree (hread horderly).symm, hchoose]
  | some extension =>
    dsimp only
    by_cases hincomplete : extension.completion = .incomplete
    · rw [if_pos hincomplete]
      refine ⟨_, rfl, fun horderly => ?_⟩
      rw [readSequence_of_free hne hterminal hfree (hread horderly).symm, hchoose]
      dsimp only
      rw [if_pos hincomplete]
    · obtain ⟨⟨rest, further⟩, hsearch, hrest⟩ :=
        ih _ (.behind hne hterminal hactive hfits hchoose hincomplete)
      dsimp only [search] at hsearch hrest
      rw [if_neg hincomplete, hsearch]
      refine ⟨_, rfl, fun horderly => ?_⟩
      have hkeys : grammar.freeAt active (offset + extension.consumed) =
          if extension.consumed = 0 then grammar.freeAt active offset else grammar.ruleKeys := by
        split
        · next hzero => rw [hzero, Nat.add_zero]
        · exact horderly.freeAt_of_lt (by omega)
      rw [readSequence_of_free hne hterminal hfree (hread horderly).symm, hchoose]
      dsimp only
      rw [if_neg hincomplete, ← hkeys, ← hrest (horderly.forth (Nat.le_add_right _ _) _ _)]

end

/-- Every search ends, and comes to what is read. -/
theorem settles (grammar : Grammar) (line : Nat) (task : Task) : task.Settles grammar line := by
  induction task using (wellFounded_demands grammar line).induction with
  | h task ih =>
    obtain ⟨active, offset, tokens, symbols⟩ := task
    cases symbols with
    | nil =>
      refine ⟨(some .empty, 0), ?_, fun _ => by rw [readSequence]⟩
      dsimp only [search]
      rw [searchSequence]
    | cons symbol symbols =>
      by_cases hempty : symbol = emptyText
      · subst hempty
        exact settles_emptyText (ih _ .empty)
      cases tokens with
      | nil =>
        refine ⟨(some .empty, 0), ?_, fun _ => by rw [readSequence, if_neg hempty]⟩
        dsimp only [search]
        rw [searchSequence, if_neg hempty]
      | cons token later =>
        cases hterminal : grammar.isTerminal symbol with
        | true =>
          exact settles_terminal hempty hterminal fun haccepts =>
            ih _ (.terminal hempty hterminal haccepts)
        | false =>
          by_cases hfree : symbol ∈ grammar.freeAt active offset
          · exact settles_key hempty hterminal hfree ih
          · exact settles_of_not_mem hempty hterminal hfree

/-! ## What is being read -/

/-- The symbols that are being read around a task are keys, entered before tokens of the list, and
none of them twice before the same token. -/
structure Guarded (grammar : Grammar) (tokens : List Token) (task : Task) : Prop where
  tokens_eq : task.tokens = tokens.drop task.offset
  nodup : task.active.Nodup
  mem : ∀ entry ∈ task.active, entry.1 ∈ grammar.ruleKeys ∧ entry.2 < tokens.length

theorem lt_length_of_drop {tokens later : List Token} {token : Token} {offset : Nat}
    (h : token :: later = tokens.drop offset) : offset < tokens.length := by
  have hlength := congrArg List.length h
  rw [List.length_cons, List.length_drop] at hlength
  omega

theorem Guarded.demands {tokens : List Token} (h : task.Guarded grammar tokens)
    (hdemands : Demands grammar line task other) : other.Guarded grammar tokens := by
  cases hdemands with
  | empty => exact ⟨h.tokens_eq, h.nodup, h.mem⟩
  | @terminal active offset token later =>
    refine ⟨?_, h.nodup, h.mem⟩
    show later = tokens.drop (offset + 1)
    rw [← List.tail_drop, ← h.tokens_eq, List.tail_cons]
  | @enter active offset token later symbol symbols alternative _ _ hactive halternative =>
    refine ⟨h.tokens_eq, List.nodup_cons.mpr ⟨hactive, h.nodup⟩, ?_⟩
    exact List.forall_mem_cons.mpr
      ⟨⟨mem_ruleKeys_of_mem_alternatives halternative, lt_length_of_drop h.tokens_eq⟩, h.mem⟩
  | @behind active offset token later symbol symbols fits furthest extension =>
    refine ⟨?_, h.nodup, h.mem⟩
    show (token :: later).drop extension.consumed = tokens.drop (offset + extension.consumed)
    rw [← List.drop_drop, ← h.tokens_eq]

theorem guarded_of_reflTransGen {tokens : List Token} {symbols : List String}
    (h : Relation.ReflTransGen (Demands grammar line) ⟨[], 0, tokens, symbols⟩ task) :
    task.Guarded grammar tokens := by
  induction h with
  | refl => exact ⟨rfl, List.nodup_nil, by simp⟩
  | tail _ hdemands ih => exact ih.demands hdemands

/-- No more symbols are being read at a time than there are keys, for each of the tokens. -/
theorem Guarded.length_le {tokens : List Token} (h : task.Guarded grammar tokens) :
    task.active.length ≤ grammar.ruleKeys.length * tokens.length := by
  have hsubset : task.active ⊆ grammar.ruleKeys ×ˢ List.range tokens.length := by
    intro entry hentry
    obtain ⟨hkey, hlt⟩ := h.mem entry hentry
    exact List.mem_product.mpr ⟨hkey, List.mem_range.mpr hlt⟩
  have hle := (List.subperm_of_subset h.nodup hsubset).length_le
  rwa [List.length_product, List.length_range] at hle

end Task

theorem endsAs_searchOn (grammar : Grammar) (line : Nat) (symbol : String) (existing : List Tree)
    (tokens : List Token) :
    EndsAs grammar.ruleKeys.Nodup (grammar.searchOn line symbol existing tokens)
      (grammar.readOn line symbol existing tokens) := by
  have hfree : grammar.freeAt [] 0 = grammar.ruleKeys := Task.freeAt_of_lt (by simp)
  have halternatives : EndsAs grammar.ruleKeys.Nodup
      (grammar.searchAlternatives line [] 0 tokens (existing.map (·.symbol))
        (grammar.alternatives symbol))
      (grammar.readAlternatives line grammar.ruleKeys 0 tokens (existing.map (·.symbol))
        (grammar.alternatives symbol)) := by
    apply Task.endsAs_searchAlternatives
    intro alternative _ _
    obtain ⟨result, hsearch, hread⟩ := Task.settles grammar line
      ⟨[], 0, tokens, alternative.drop (existing.map (·.symbol)).length⟩
    refine ⟨result, hsearch, fun hnodup => ?_⟩
    rw [← hfree]
    exact hread ⟨hnodup, by simp⟩
  obtain ⟨⟨fits, furthest⟩, hfits, hread⟩ := halternatives
  rw [searchOn, hfits, readOn]
  exact ⟨_, rfl, fun hnodup => by rw [← hread hnodup]⟩

end Grammar

end LineGrammar
