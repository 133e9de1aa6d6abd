import LineGrammar.Proofs.Grammar.FirstSets

/-!
# What the FIRST sets tell of the empty text

Inside of the walk for a FIRST set a symbol may be taken for one that cannot be empty, because it is
being walked further up. The answer for the symbol where the walk starts is right all the same: a
symbol that vanishes does so in some least number of steps, and then without the place where it
stands (`VanishesOutside.exists_avoid`). So `#` is in the FIRST set of a rule key exactly if the key
derives the empty text, and all else in it begins what the key derives (`Frozen.tellsFirst`). What
is missed is said in `Frozen.mem_firstSet_iff`.
-/

namespace LineGrammar.Grammar

variable {grammar : Grammar} {free inside : List Occurrence} {symbol key target : String}

/-- The ways to write a symbol, with the end of the input left out at the end of alternatives. An
alternative that is the end of the input alone is none of them. -/
def WritesFilled (grammar : Grammar) : Writing := fun symbol body =>
  grammar.WritesOpen symbol body ∧ (body ≠ [] ∨ symbol = emptyText)

/-- What a FIRST set tells of a rule key: whether it derives the empty text, as the status of the
walk says too, and terminals that forms derived from it begin with. -/
structure TellsFirst (grammar : Grammar) (key : String) (set : SymbolSet) : Prop where
  empty_iff : emptyText ∈ set ↔ Vanishes grammar.WritesFilled [key]
  alternative_iff : emptyText ∈ set ↔ ∃ alternative ∈ grammar.alternatives key,
    openBody alternative ≠ [] ∧
      ∀ other ∈ openBody alternative, other = emptyText ∨ Vanishes grammar.WritesFilled [other]
  status_iff : (grammar.first key).2 = .epsilon ↔ emptyText ∈ set
  begins : ∀ member ∈ set, member ≠ emptyText → grammar.isTerminal member = true ∧
    member ≠ endOfInput ∧ Begins grammar.WritesFilled [key] member

/-! ## The empty text -/

theorem BodyAt.exists_alternative {index : Nat} {body : List String}
    (h : grammar.BodyAt key index body) :
    ∃ alternative ∈ grammar.alternatives key, body = openBody alternative := by
  obtain ⟨alternatives, alternative, hlookup, hmem, rfl⟩ := h
  exact ⟨alternative, mem_alternatives_iff.mpr ⟨alternatives, hlookup, List.mem_of_getElem? hmem⟩,
    rfl⟩

theorem BodyAt.writesFilled {index : Nat} {body : List String} (h : grammar.BodyAt key index body)
    (hne : body ≠ []) : grammar.WritesFilled key body :=
  ⟨.inl h.exists_alternative, .inl hne⟩

theorem vanishing_emptyText (grammar : Grammar) : Vanishing grammar.WritesFilled emptyText :=
  .intro ⟨.inr ⟨rfl, rfl⟩, .inr rfl⟩ (by simp)

theorem VanishesOutside.vanishing {steps : Nat}
    (h : grammar.VanishesOutside inside steps symbol) : Vanishing grammar.WritesFilled symbol := by
  induction h with
  | empty => exact vanishing_emptyText grammar
  | alternative _ hbody hne _ _ ih => exact .intro (hbody.writesFilled hne) ih

theorem WellFormed.exists_vanishesOutside_nil (h : grammar.WellFormed)
    (hempty : grammar.isTerminal emptyText = true)
    (hsymbol : Vanishing grammar.WritesFilled symbol) :
    ∃ steps, grammar.VanishesOutside [] steps symbol := by
  induction hsymbol with
  | @intro symbol body hwrites _ ih =>
    obtain ⟨⟨alternative, hmem, rfl⟩ | ⟨rfl, -⟩, hfilled⟩ := hwrites
    · have hkey := h.isTerminal_eq_false hmem
      have hne : openBody alternative ≠ [] := by
        refine hfilled.resolve_right fun heq => ?_
        rw [heq, hempty] at hkey
        simp at hkey
      obtain ⟨index, hindex⟩ := exists_bodyAt hmem
      obtain ⟨steps, hsteps⟩ := VanishesOutside.exists_forall ih
      exact ⟨steps + 1, .alternative hkey hindex hne (by simp) hsteps⟩
    · exact ⟨0, .empty 0 hempty⟩

/-- The walk from a symbol ends with the status of the empty text exactly if the symbol derives it.
-/
theorem WellFormed.first_snd_iff (h : grammar.WellFormed)
    (hempty : grammar.isTerminal emptyText = true) :
    (grammar.first symbol).2 = .epsilon ↔ Vanishing grammar.WritesFilled symbol := by
  constructor
  · intro hstatus
    have hapart : Apart grammar.occurrences [] := ⟨h.nodup_occurrences, by simp⟩
    obtain ⟨steps, hsteps⟩ := Grammar.exists_vanishesOutside hstatus hapart
    exact hsteps.vanishing
  · intro hvanishing
    obtain ⟨steps, hsteps⟩ := h.exists_vanishesOutside_nil hempty hvanishing
    exact hsteps.firstWithin_snd fun place hplace _ => hplace

theorem firstOfAll_snd (found : SymbolSet) (nullable : Bool) :
    emptyText ∈ (firstOfAll found nullable).1 ↔ (firstOfAll found nullable).2 = .epsilon := by
  unfold firstOfAll
  cases nullable with
  | true => simp
  | false =>
    have hstatus : (if found.erase emptyText = ∅ then FirstStatus.nonTerminal else .terminal) ≠
        .epsilon := by
      split <;> simp
    simp [hstatus]

theorem emptyText_mem_firstWithin (hkey : grammar.isTerminal key = false) :
    emptyText ∈ (grammar.firstWithin free key).1 ↔
      (grammar.firstWithin free key).2 = .epsilon := by
  rw [firstWithin, if_neg (by simp [hkey])]
  cases grammar.rules.lookup key with
  | none => simp
  | some alternatives => exact firstOfAll_snd _ _

theorem vanishing_key_iff (hkey : key ≠ emptyText) :
    Vanishing grammar.WritesFilled key ↔ ∃ alternative ∈ grammar.alternatives key,
      openBody alternative ≠ [] ∧
        ∀ other ∈ openBody alternative, other = emptyText ∨ Vanishes grammar.WritesFilled [other] := by
  constructor
  · intro hvanishing
    obtain @⟨_, body, ⟨⟨alternative, hmem, rfl⟩ | ⟨heq, -⟩, hfilled⟩, hbody⟩ := hvanishing
    · exact ⟨alternative, hmem, hfilled.resolve_right hkey,
        fun other hother => .inr (vanishes_singleton (hbody other hother))⟩
    · exact absurd heq hkey
  · rintro ⟨alternative, hmem, hne, hbody⟩
    refine .intro ⟨.inl ⟨alternative, hmem, rfl⟩, .inl hne⟩ fun other hother => ?_
    rcases hbody other hother with rfl | hvanishes
    · exact vanishing_emptyText grammar
    · exact vanishes_iff.mp hvanishes other List.mem_cons_self

/-! ## The terminals -/

/-- Only terminals are found, and never the end of the input. -/
theorem isTerminal_of_mem_firstWithin (hempty : target ≠ emptyText)
    (h : target ∈ (grammar.firstWithin free symbol).1) :
    grammar.isTerminal target = true ∧ target ≠ endOfInput := by
  induction hcount : free.length using Nat.strong_induction_on generalizing free symbol with
  | _ count ih =>
    cases hterminal : grammar.isTerminal symbol with
    | true =>
      rw [firstWithin, if_pos hterminal, firstOfTerminal] at h
      split at h
      · simp at h
      · next hend =>
        obtain rfl : target = symbol := by
          split at h <;> exact SymbolSet.mem_singleton.mp h
        exact ⟨hterminal, hend⟩
    | false =>
      obtain ⟨index, body, -, hfound⟩ := (mem_firstWithin hterminal hempty).mp h
      obtain ⟨left, first, right, -, -, hfree, hfirst⟩ := mem_firstOfBody.mp hfound
      have hpos := List.length_pos_of_mem hfree
      exact ih _ (by rw [List.length_erase_of_mem hfree]; omega) hfirst rfl

theorem LeadsTo.beginning {steps : Nat} (h : grammar.LeadsTo target steps inside symbol) :
    Beginning grammar.WritesFilled target [symbol] := by
  induction h with
  | here => exact .here
  | @down steps inside key symbol index left right _ hbody hleft _ ih =>
    refine .inside (hbody.writesFilled (by simp)) (beginning_append.mpr (.inr ⟨?_, ?_⟩))
    · refine vanishes_iff.mpr fun other hother => ?_
      obtain ⟨count, hcount⟩ := hleft other hother
      exact hcount.vanishing
    · have hbegins : Beginning grammar.WritesFilled target ([symbol] ++ right) :=
        beginning_append.mpr (.inl ih)
      exact hbegins

/-- **Nullability is exact, and FIRST is sound.** The FIRST set of a rule key has `#` exactly if the
key derives the empty text, and each other member is a terminal that some form derived from the key
begins with. -/
theorem Frozen.tellsFirst (h : grammar.Frozen) (hempty : grammar.isTerminal emptyText = true)
    (hkey : key ∈ grammar.ruleKeys) :
    ∃ set, grammar.firstSet? key = some set ∧ grammar.TellsFirst key set := by
  have hnonTerminal := h.wellFormed.mem_nonTerminals key hkey
  have hterminal : grammar.isTerminal key = false := by
    by_contra hyes
    have hmem := isTerminal_iff.mp (by simpa using hyes)
    exact h.wellFormed.not_mem_nonTerminals key hmem hnonTerminal
  have hne : key ≠ emptyText := by
    rintro rfl
    rw [hempty] at hterminal
    simp at hterminal
  have hstatus : emptyText ∈ (grammar.first key).1 ↔ (grammar.first key).2 = .epsilon :=
    emptyText_mem_firstWithin hterminal
  have hvanishing : (grammar.first key).2 = .epsilon ↔ Vanishing grammar.WritesFilled key :=
    h.wellFormed.first_snd_iff hempty
  refine ⟨(grammar.first key).1, ?_, ?_, ?_, hstatus.symm, ?_⟩
  · rw [h.firstSet?_eq, if_pos (isNonTerminal_iff.mpr hnonTerminal)]
  · have hform : Vanishes grammar.WritesFilled [key] ↔ Vanishing grammar.WritesFilled key := by
      simp [vanishes_iff]
    exact hstatus.trans (hvanishing.trans hform.symm)
  · exact hstatus.trans (hvanishing.trans (vanishing_key_iff hne))
  · intro member hmember hneEmpty
    obtain ⟨hdeclared, hneEnd⟩ := isTerminal_of_mem_firstWithin hneEmpty hmember
    obtain ⟨steps, hway⟩ :=
      (h.wellFormed.mem_first_iff hdeclared hneEnd hneEmpty).mp hmember
    exact ⟨hdeclared, hneEnd, begins_iff.mpr hway.beginning⟩

/-- A key that is empty by way of another one, which comes first in itself. -/
theorem tellsFirst_detour : detour.Frozen ∧ detour.isTerminal emptyText = true ∧
    "A" ∈ detour.ruleKeys ∧ ∃ set, detour.firstSet? "A" = some set ∧ detour.TellsFirst "A" set :=
  ⟨detour_frozen, rfl, by decide, detour_frozen.tellsFirst rfl (by decide)⟩

end LineGrammar.Grammar
