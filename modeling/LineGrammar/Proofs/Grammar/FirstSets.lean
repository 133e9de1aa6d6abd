import LineGrammar.Proofs.Grammar.Derivation
import LineGrammar.Proofs.Grammar.Freezing
import Mathlib.Computability.Primrec.List
import Mathlib.Data.Nat.Find

/-!
# What the FIRST sets find

The walk for a FIRST set goes down from a symbol to what may come first in its alternatives. It does
not enter an occurrence that it is inside of already, and it gets past a symbol only if that may
stand for the empty text without these occurrences (`VanishesOutside`). So it finds a terminal
exactly if there is a way down to it (`LeadsTo`) on which each symbol that is passed over vanishes
outside of the occurrences that the way is inside of (`mem_first_iff`).

Where a key may stand for the empty text and also comes first in itself, it may be that a symbol
vanishes only by way of these occurrences. Then a terminal is missed (`not_mem_firstSet_detour`).
Where there is no such key, none is (`Frozen.mem_firstSet_iff`).
-/

namespace LineGrammar.Grammar

variable {grammar : Grammar} {free inside : List Occurrence} {symbol key target : String}
  {place : Occurrence} {body : List String}

/-- The ways to write a symbol, with the end of the input left out at the end of alternatives. -/
def WritesOpen (grammar : Grammar) : Writing := fun symbol body =>
  (∃ alternative ∈ grammar.alternatives symbol, body = openBody alternative) ∨
    symbol = emptyText ∧ body = []

/-- The alternative of a key with this number has this body. -/
def BodyAt (grammar : Grammar) (key : String) (index : Nat) (body : List String) : Prop :=
  ∃ alternatives alternative, grammar.rules.lookup key = some alternatives ∧
    alternatives[index]? = some alternative ∧ body = openBody alternative

/-- A symbol may stand for the empty text, in so many steps, without the use of some occurrences. -/
inductive VanishesOutside (grammar : Grammar) (inside : List Occurrence) : Nat → String → Prop where
  | empty (steps : Nat) (h : grammar.isTerminal emptyText = true) :
      VanishesOutside grammar inside steps emptyText
  | alternative {steps : Nat} {key : String} {index : Nat} {body : List String}
      (hkey : grammar.isTerminal key = false) (hbody : grammar.BodyAt key index body)
      (hne : body ≠ []) (houtside : ∀ position < body.length, ⟨key, index, position⟩ ∉ inside)
      (hvanish : ∀ other ∈ body, VanishesOutside grammar inside steps other) :
      VanishesOutside grammar inside (steps + 1) key

/-- A way down from a symbol to the target, in so many steps, that is inside of some occurrences
already: it enters an alternative past symbols that vanish outside of these. -/
inductive LeadsTo (grammar : Grammar) (target : String) :
    Nat → List Occurrence → String → Prop where
  | here (inside : List Occurrence) : LeadsTo grammar target 0 inside target
  | down {steps : Nat} {inside : List Occurrence} {key symbol : String} {index : Nat}
      {left right : List String} (hkey : grammar.isTerminal key = false)
      (hbody : grammar.BodyAt key index (left ++ symbol :: right))
      (hleft : ∀ other ∈ left, ∃ count, grammar.VanishesOutside inside count other)
      (hrest : LeadsTo grammar target steps (⟨key, index, left.length⟩ :: inside) symbol) :
      LeadsTo grammar target (steps + 1) inside key

/-! ## One step of the walk -/

/-- The walk gets past the symbol at a place. -/
def PassesAt (grammar : Grammar) (free : List Occurrence) (place : Occurrence) (symbol : String) :
    Prop :=
  place ∈ free ∧ (grammar.firstWithin (free.erase place) symbol).2 = .epsilon

theorem firstOfBody_snd {index start : Nat} :
    (grammar.firstOfBody free ⟨key, index, start⟩ body).2 = true ↔
      ∀ position symbol, body[position]? = some symbol →
        grammar.PassesAt free ⟨key, index, start + position⟩ symbol := by
  induction body generalizing start with
  | nil => simp [firstOfBody]
  | cons first rest ih =>
    rw [← Nat.and_forall_add_one]
    simp only [List.getElem?_cons_zero, List.getElem?_cons_succ, Option.some.injEq, forall_eq',
      Nat.add_zero, ← Nat.add_assoc, Nat.add_right_comm start _ 1]
    rw [← ih, firstOfBody, PassesAt]
    split
    · next hfree =>
      rcases hfound : grammar.firstWithin (free.erase ⟨key, index, start⟩) first with ⟨found, status⟩
      cases status <;> simp [hfree]
    · next hfree => simp [hfree]

theorem mem_firstOfBody {index start : Nat} :
    target ∈ (grammar.firstOfBody free ⟨key, index, start⟩ body).1 ↔
      ∃ left symbol right, body = left ++ symbol :: right ∧
        (∀ position other, left[position]? = some other →
          grammar.PassesAt free ⟨key, index, start + position⟩ other) ∧
        ⟨key, index, start + left.length⟩ ∈ free ∧
        target ∈ (grammar.firstWithin (free.erase ⟨key, index, start + left.length⟩) symbol).1 := by
  induction body generalizing start with
  | nil => simp [firstOfBody]
  | cons first rest ih =>
    -- the target is found at the first symbol, or behind it if the walk gets past
    have hsplit : (∃ left symbol right, first :: rest = left ++ symbol :: right ∧
        (∀ position other, left[position]? = some other →
          grammar.PassesAt free ⟨key, index, start + position⟩ other) ∧
        ⟨key, index, start + left.length⟩ ∈ free ∧ target ∈
          (grammar.firstWithin (free.erase ⟨key, index, start + left.length⟩) symbol).1) ↔
        (⟨key, index, start⟩ ∈ free ∧
          target ∈ (grammar.firstWithin (free.erase ⟨key, index, start⟩) first).1) ∨
        (grammar.PassesAt free ⟨key, index, start⟩ first ∧
          target ∈ (grammar.firstOfBody free ⟨key, index, start + 1⟩ rest).1) := by
      rw [ih]
      constructor
      · rintro ⟨left, symbol, right, heq, hleft, hfound⟩
        cases left with
        | nil =>
          obtain ⟨rfl, -⟩ := List.cons.inj heq
          exact .inl hfound
        | cons _ left =>
          obtain ⟨rfl, rfl⟩ := List.cons.inj heq
          refine .inr ⟨hleft 0 _ rfl, left, symbol, right, rfl, fun position other hother => ?_, ?_⟩
          · rw [Nat.add_right_comm]
            exact hleft (position + 1) other hother
          · rw [Nat.add_right_comm]
            exact hfound
      · rintro (hfound | ⟨hpasses, left, symbol, right, rfl, hleft, hfound⟩)
        · exact ⟨[], first, rest, rfl, by simp, hfound⟩
        · rw [Nat.add_right_comm] at hfound
          refine ⟨first :: left, symbol, right, rfl, fun position other hother => ?_, hfound⟩
          cases position with
          | zero =>
            obtain rfl := Option.some.inj hother
            exact hpasses
          | succ position =>
            have hpasses := hleft position other hother
            rwa [Nat.add_right_comm] at hpasses
    rw [hsplit, firstOfBody, PassesAt]
    split
    · next hfree =>
      rcases hfound : grammar.firstWithin (free.erase ⟨key, index, start⟩) first with ⟨found, status⟩
      cases status <;> simp [hfree]
    · next hfree => simp [hfree]

theorem firstOfAlternatives_snd {index : Nat} {alternatives : List Alternative} :
    (grammar.firstOfAlternatives free key index alternatives).2 = true ↔
      ∃ number alternative, alternatives[number]? = some alternative ∧ openBody alternative ≠ [] ∧
        (grammar.firstOfBody free ⟨key, index + number, 0⟩ (openBody alternative)).2 = true := by
  induction alternatives generalizing index with
  | nil => simp [firstOfAlternatives]
  | cons first rest ih =>
    rw [← Nat.or_exists_add_one]
    simp only [List.getElem?_cons_zero, List.getElem?_cons_succ, Option.some.injEq,
      exists_eq_left', Nat.add_zero, ← Nat.add_assoc, Nat.add_right_comm index _ 1]
    rw [← ih, firstOfAlternatives]
    simp

theorem mem_firstOfAlternatives {index : Nat} {alternatives : List Alternative} :
    target ∈ (grammar.firstOfAlternatives free key index alternatives).1 ↔
      ∃ number alternative, alternatives[number]? = some alternative ∧
        target ∈ (grammar.firstOfBody free ⟨key, index + number, 0⟩ (openBody alternative)).1 := by
  induction alternatives generalizing index with
  | nil => simp [firstOfAlternatives]
  | cons first rest ih =>
    rw [← Nat.or_exists_add_one]
    simp only [List.getElem?_cons_zero, List.getElem?_cons_succ, Option.some.injEq,
      exists_eq_left', Nat.add_zero, ← Nat.add_assoc, Nat.add_right_comm index _ 1]
    rw [← ih, firstOfAlternatives]
    simp

theorem firstWithin_snd (hkey : grammar.isTerminal key = false) :
    (grammar.firstWithin free key).2 = .epsilon ↔ ∃ index body, grammar.BodyAt key index body ∧
      body ≠ [] ∧ (grammar.firstOfBody free ⟨key, index, 0⟩ body).2 = true := by
  rw [firstWithin, if_neg (by simp [hkey])]
  unfold BodyAt
  cases hlookup : grammar.rules.lookup key with
  | none => simp
  | some alternatives =>
    have hnullable : (firstOfAll (grammar.firstOfAlternatives free key 0 alternatives).1
        (grammar.firstOfAlternatives free key 0 alternatives).2).2 = .epsilon ↔
        (grammar.firstOfAlternatives free key 0 alternatives).2 = true := by
      unfold firstOfAll
      split
      · next hyes => simp [hyes]
      · next hno => dsimp only; split <;> simp [hno]
    dsimp only
    rw [hnullable, firstOfAlternatives_snd]
    simp only [Nat.zero_add]
    constructor
    · rintro ⟨index, alternative, hmem, hne, hbody⟩
      exact ⟨index, _, ⟨alternatives, alternative, rfl, hmem, rfl⟩, hne, hbody⟩
    · rintro ⟨index, _, ⟨_, alternative, heq, hmem, rfl⟩, hne, hbody⟩
      obtain rfl := Option.some.inj heq
      exact ⟨index, alternative, hmem, hne, hbody⟩

theorem mem_firstWithin (hkey : grammar.isTerminal key = false) (htarget : target ≠ emptyText) :
    target ∈ (grammar.firstWithin free key).1 ↔ ∃ index body, grammar.BodyAt key index body ∧
      target ∈ (grammar.firstOfBody free ⟨key, index, 0⟩ body).1 := by
  rw [firstWithin, if_neg (by simp [hkey])]
  unfold BodyAt
  cases hlookup : grammar.rules.lookup key with
  | none => simp
  | some alternatives =>
    have hfound : target ∈ (firstOfAll (grammar.firstOfAlternatives free key 0 alternatives).1
        (grammar.firstOfAlternatives free key 0 alternatives).2).1 ↔
        target ∈ (grammar.firstOfAlternatives free key 0 alternatives).1 := by
      unfold firstOfAll
      split <;> simp [htarget]
    dsimp only
    rw [hfound, mem_firstOfAlternatives]
    simp only [Nat.zero_add]
    constructor
    · rintro ⟨index, alternative, hmem, hbody⟩
      exact ⟨index, _, ⟨alternatives, alternative, rfl, hmem, rfl⟩, hbody⟩
    · rintro ⟨index, _, ⟨_, alternative, heq, hmem, rfl⟩, hbody⟩
      obtain rfl := Option.some.inj heq
      exact ⟨index, alternative, hmem, hbody⟩

theorem BodyAt.unique {index : Nat} {other : List String} (h : grammar.BodyAt key index body)
    (hother : grammar.BodyAt key index other) : body = other := by
  obtain ⟨alternatives, alternative, hlookup, hmem, rfl⟩ := h
  obtain ⟨others, another, hlookup', hmem', rfl⟩ := hother
  obtain rfl := Option.some.inj (hlookup.symm.trans hlookup')
  obtain rfl := Option.some.inj (hmem.symm.trans hmem')
  rfl

theorem BodyAt.mem_occurrences {index position : Nat} (h : grammar.BodyAt key index body)
    (hposition : position < body.length) : ⟨key, index, position⟩ ∈ grammar.occurrences := by
  obtain ⟨alternatives, alternative, hlookup, hmem, rfl⟩ := h
  have hlength : (openBody alternative).length ≤ alternative.length := by
    unfold openBody
    split <;> simp
  unfold occurrences
  simp only [List.mem_flatMap, List.mem_map, List.mem_range]
  exact ⟨_, mem_of_lookup hlookup, (alternative, index),
    List.mem_zipIdx_iff_getElem?.mpr hmem, position, Nat.lt_of_lt_of_le hposition hlength, rfl⟩

theorem WellFormed.nodup_occurrences (h : grammar.WellFormed) : grammar.occurrences.Nodup := by
  unfold occurrences
  rw [List.nodup_flatMap]
  refine ⟨fun ⟨key, alternatives⟩ _ => ?_, ?_⟩
  · rw [List.nodup_flatMap]
    refine ⟨fun ⟨alternative, index⟩ _ => ?_, ?_⟩
    · exact List.nodup_range.map fun _ _ heq => (Occurrence.mk.inj heq).2.2
    · -- the numbers of the alternatives of a key differ
      have hnumbers : (alternatives.zipIdx.map Prod.snd).Nodup := by
        rw [List.zipIdx_map_snd]
        exact List.nodup_range'
      refine (List.pairwise_map.mp hnumbers).imp fun hne place hplace hother => hne ?_
      simp only [List.mem_map] at hplace hother
      obtain ⟨_, -, rfl⟩ := hplace
      obtain ⟨_, -, heq⟩ := hother
      exact (Occurrence.mk.inj heq).2.1.symm
  · refine (List.pairwise_map.mp h.nodup_ruleKeys).imp fun hne place hplace hother => hne ?_
    simp only [List.mem_flatMap, List.mem_map] at hplace hother
    obtain ⟨_, -, _, -, rfl⟩ := hplace
    obtain ⟨_, -, _, -, heq⟩ := hother
    exact (Occurrence.mk.inj heq).1.symm

/-! ## Symbols that vanish -/

namespace VanishesOutside

variable {steps more : Nat}

theorem mono_steps (h : grammar.VanishesOutside inside steps symbol) (hle : steps ≤ more) :
    grammar.VanishesOutside inside more symbol := by
  induction h generalizing more with
  | empty _ hempty => exact .empty more hempty
  | alternative hkey hbody hne houtside _ ih =>
    obtain ⟨more, rfl⟩ : ∃ before, more = before + 1 := ⟨more - 1, by omega⟩
    exact .alternative hkey hbody hne houtside fun other hother => ih other hother (by omega)

theorem mono_inside {others : List Occurrence} (h : grammar.VanishesOutside inside steps symbol)
    (hsub : ∀ place ∈ others, place ∈ inside) : grammar.VanishesOutside others steps symbol := by
  induction h with
  | empty steps hempty => exact .empty steps hempty
  | alternative hkey hbody hne houtside _ ih =>
    exact .alternative hkey hbody hne
      (fun position hposition hmem => houtside position hposition (hsub _ hmem)) ih

/-- If the symbol at a place does not vanish in fewer steps, a symbol vanishes without that place. -/
theorem avoid {index position : Nat} {first : String} (hbody : grammar.BodyAt key index body)
    (hfirst : body[position]? = some first)
    (h : grammar.VanishesOutside inside steps symbol)
    (hleast : ∀ fewer < steps, ¬grammar.VanishesOutside inside fewer first) :
    grammar.VanishesOutside (⟨key, index, position⟩ :: inside) steps symbol := by
  induction h with
  | empty steps hempty => exact .empty steps hempty
  | @alternative steps other otherIndex otherBody hkey hother hne houtside hvanish ih =>
    refine .alternative hkey hother hne (fun otherPosition hposition hmem => ?_)
      fun symbol hsymbol => ih symbol hsymbol fun fewer hfewer => hleast fewer (by omega)
    rcases List.mem_cons.mp hmem with heq | hmem
    · -- the place would be used: then its symbol vanishes in one step less
      obtain ⟨rfl, rfl, rfl⟩ := Occurrence.mk.inj heq
      obtain rfl := hbody.unique hother
      exact hleast steps (Nat.lt_succ_self steps) (hvanish first (List.mem_of_getElem? hfirst))
    · exact houtside otherPosition hposition hmem

theorem exists_avoid {index position : Nat} (hbody : grammar.BodyAt key index body)
    (hsymbol : body[position]? = some symbol) (h : grammar.VanishesOutside inside steps symbol) :
    ∃ count, grammar.VanishesOutside (⟨key, index, position⟩ :: inside) count symbol := by
  classical
  have hex : ∃ count, grammar.VanishesOutside inside count symbol := ⟨steps, h⟩
  exact ⟨Nat.find hex, avoid hbody hsymbol (Nat.find_spec hex) fun fewer hfewer =>
    Nat.find_min hex hfewer⟩

theorem exists_forall (h : ∀ other ∈ body, ∃ count, grammar.VanishesOutside inside count other) :
    ∃ count, ∀ other ∈ body, grammar.VanishesOutside inside count other := by
  induction body with
  | nil => exact ⟨0, by simp⟩
  | cons first rest ih =>
    rw [List.forall_mem_cons] at h
    obtain ⟨count, hfirst⟩ := h.1
    obtain ⟨most, hrest⟩ := ih h.2
    exact ⟨max count most, List.forall_mem_cons.mpr ⟨hfirst.mono_steps (le_max_left _ _),
      fun other hother => (hrest other hother).mono_steps (le_max_right _ _)⟩⟩

end VanishesOutside

/-- Of the occurrences, all are free that a walk is not inside of. -/
def Covers (grammar : Grammar) (free inside : List Occurrence) : Prop :=
  ∀ place ∈ grammar.occurrences, place ∉ inside → place ∈ free

theorem Covers.erase (h : grammar.Covers free inside) (place : Occurrence) :
    grammar.Covers (free.erase place) (place :: inside) := by
  intro other hother hinside
  rw [List.mem_cons, not_or] at hinside
  exact (List.mem_erase_of_ne hinside.1).mpr (h other hother hinside.2)

/-- The walk gets past a symbol that vanishes outside of the occurrences it is inside of. -/
theorem VanishesOutside.firstWithin_snd {steps : Nat}
    (h : grammar.VanishesOutside inside steps symbol) (hcovers : grammar.Covers free inside) :
    (grammar.firstWithin free symbol).2 = .epsilon := by
  induction hcount : free.length using Nat.strong_induction_on
    generalizing free inside steps symbol with
  | _ count ih =>
    cases h with
    | empty _ hempty =>
      rw [firstWithin, if_pos hempty, firstOfTerminal, if_neg (by decide), if_pos rfl]
    | @alternative steps _ index body hkey hbody hne houtside hvanish =>
      refine (Grammar.firstWithin_snd hkey).mpr ⟨index, body, hbody, hne, firstOfBody_snd.mpr ?_⟩
      intro position other hother
      rw [Nat.zero_add]
      have hposition : position < body.length := (List.getElem?_eq_some_iff.mp hother).1
      have hfree : ⟨symbol, index, position⟩ ∈ free :=
        hcovers _ (hbody.mem_occurrences hposition) (houtside position hposition)
      obtain ⟨_, havoid⟩ := (hvanish other (List.mem_of_getElem? hother)).exists_avoid hbody hother
      refine ⟨hfree, ih _ ?_ havoid (hcovers.erase _) rfl⟩
      have hpos := List.length_pos_of_mem hfree
      rw [List.length_erase_of_mem hfree]
      omega

/-- The walk is inside of no occurrence that is free. -/
def Apart (free inside : List Occurrence) : Prop :=
  free.Nodup ∧ ∀ place ∈ free, place ∉ inside

theorem Apart.erase (h : Apart free inside) (place : Occurrence) :
    Apart (free.erase place) (place :: inside) := by
  refine ⟨h.1.erase place, fun other hother => ?_⟩
  rw [h.1.mem_erase_iff] at hother
  rw [List.mem_cons, not_or]
  exact ⟨hother.1, h.2 other hother.2⟩

theorem exists_vanishesOutside (h : (grammar.firstWithin free symbol).2 = .epsilon)
    (hapart : Apart free inside) : ∃ steps, grammar.VanishesOutside inside steps symbol := by
  induction hcount : free.length using Nat.strong_induction_on generalizing free inside symbol with
  | _ count ih =>
    cases hterminal : grammar.isTerminal symbol with
    | true =>
      rw [firstWithin, if_pos hterminal, firstOfTerminal] at h
      split at h
      · simp at h
      · split at h
        · next heq => exact ⟨0, heq ▸ .empty 0 (heq ▸ hterminal)⟩
        · simp at h
    | false =>
      obtain ⟨index, body, hbody, hne, hpasses⟩ := (Grammar.firstWithin_snd hterminal).mp h
      rw [firstOfBody_snd] at hpasses
      simp only [Nat.zero_add] at hpasses
      have hvanish : ∀ other ∈ body, ∃ steps, grammar.VanishesOutside inside steps other := by
        intro other hother
        obtain ⟨position, hposition⟩ := List.getElem?_of_mem hother
        obtain ⟨hfree, hstatus⟩ := hpasses position other hposition
        have hpos := List.length_pos_of_mem hfree
        obtain ⟨steps, hsteps⟩ := ih _ (by rw [List.length_erase_of_mem hfree]; omega) hstatus
          (hapart.erase _) rfl
        exact ⟨steps, hsteps.mono_inside fun place hplace => List.mem_cons_of_mem _ hplace⟩
      obtain ⟨steps, hsteps⟩ := VanishesOutside.exists_forall hvanish
      refine ⟨steps + 1, .alternative hterminal hbody hne (fun position hposition => ?_) hsteps⟩
      exact hapart.2 _ (hpasses position _ (List.getElem?_eq_getElem hposition)).1

/-! ## Ways down to a terminal -/

namespace LeadsTo

variable {steps : Nat}

theorem mono_inside {others : List Occurrence} (h : grammar.LeadsTo target steps inside symbol)
    (hsub : ∀ place ∈ others, place ∈ inside) : grammar.LeadsTo target steps others symbol := by
  induction h generalizing others with
  | here inside => exact .here others
  | down hkey hbody hleft _ ih =>
    refine .down hkey hbody (fun other hother => ?_) (ih fun place hplace => ?_)
    · obtain ⟨count, hcount⟩ := hleft other hother
      exact ⟨count, hcount.mono_inside hsub⟩
    · exact List.mem_cons.mpr ((List.mem_cons.mp hplace).imp_right (hsub place))

theorem mem_firstWithin (htarget : grammar.isTerminal target = true) (hend : target ≠ endOfInput)
    (hempty : target ≠ emptyText) (h : grammar.LeadsTo target steps inside symbol)
    (hleast : ∀ fewer < steps, ¬grammar.LeadsTo target fewer inside symbol)
    (hinside : ∀ place ∈ inside, ∀ fewer ≤ steps, ¬grammar.LeadsTo target fewer inside place.key)
    (hcovers : grammar.Covers free inside) : target ∈ (grammar.firstWithin free symbol).1 := by
  classical
  induction steps using Nat.strong_induction_on generalizing free inside symbol with
  | _ steps ih =>
    cases h with
    | here =>
      rw [firstWithin, if_pos htarget, firstOfTerminal, if_neg hend, if_neg hempty]
      exact SymbolSet.mem_singleton.mpr rfl
    | @down steps _ _ first index left right hkey hbody hleft hrest =>
      -- the way is inside of no occurrence of the key, or a shorter one would start there
      have hfree : ∀ position ≤ left.length, ⟨symbol, index, position⟩ ∈ free := by
        intro position hposition
        refine hcovers _ (hbody.mem_occurrences (by simp; omega)) fun hmem => ?_
        exact hinside _ hmem (steps + 1) (Nat.le_refl _) (.down hkey hbody hleft hrest)
      refine (Grammar.mem_firstWithin hkey hempty).mpr ⟨index, _, hbody, mem_firstOfBody.mpr
        ⟨left, first, right, rfl, fun position other hother => ?_, ?_, ?_⟩⟩
      · rw [Nat.zero_add]
        have hposition : position < left.length := (List.getElem?_eq_some_iff.mp hother).1
        obtain ⟨_, hvanish⟩ := hleft other (List.mem_of_getElem? hother)
        obtain ⟨_, havoid⟩ := hvanish.exists_avoid hbody
          (by rw [List.getElem?_append_left hposition]; exact hother)
        exact ⟨hfree position (Nat.le_of_lt hposition), havoid.firstWithin_snd (hcovers.erase _)⟩
      · rw [Nat.zero_add]
        exact hfree left.length (Nat.le_refl _)
      · rw [Nat.zero_add]
        have hex : ∃ count,
            grammar.LeadsTo target count (⟨symbol, index, left.length⟩ :: inside) first :=
          ⟨steps, hrest⟩
        have hle : Nat.find hex ≤ steps := Nat.find_min' hex hrest
        refine ih (Nat.find hex) (by omega) (Nat.find_spec hex)
          (fun fewer hfewer => Nat.find_min hex hfewer) (fun place hplace fewer hfewer hway => ?_)
          (hcovers.erase _)
        have hshorter : grammar.LeadsTo target fewer inside place.key :=
          hway.mono_inside fun place hplace => List.mem_cons_of_mem _ hplace
        rcases List.mem_cons.mp hplace with rfl | hplace
        · exact hleast fewer (by omega) hshorter
        · exact hinside place hplace fewer (by omega) hshorter

end LeadsTo

theorem exists_leadsTo (hempty : target ≠ emptyText)
    (h : target ∈ (grammar.firstWithin free symbol).1) (hapart : Apart free inside) :
    ∃ steps, grammar.LeadsTo target steps inside symbol := by
  induction hcount : free.length using Nat.strong_induction_on generalizing free inside symbol with
  | _ count ih =>
    cases hterminal : grammar.isTerminal symbol with
    | true =>
      rw [firstWithin, if_pos hterminal, firstOfTerminal] at h
      split at h
      · simp at h
      · split at h
        · next heq => exact absurd (SymbolSet.mem_singleton.mp h) (heq ▸ hempty)
        · exact ⟨0, SymbolSet.mem_singleton.mp h ▸ .here inside⟩
    | false =>
      obtain ⟨index, body, hbody, hfound⟩ := (mem_firstWithin hterminal hempty).mp h
      obtain ⟨left, first, right, rfl, hleft, hfree, hfirst⟩ := mem_firstOfBody.mp hfound
      simp only [Nat.zero_add] at hleft hfree hfirst
      have hpos := List.length_pos_of_mem hfree
      obtain ⟨steps, hsteps⟩ := ih _ (by rw [List.length_erase_of_mem hfree]; omega) hfirst
        (hapart.erase _) rfl
      refine ⟨steps + 1, .down hterminal hbody (fun other hother => ?_) hsteps⟩
      obtain ⟨position, hposition⟩ := List.getElem?_of_mem hother
      obtain ⟨-, hstatus⟩ := hleft position other hposition
      obtain ⟨count, hvanish⟩ := exists_vanishesOutside hstatus (hapart.erase _)
      exact ⟨count, hvanish.mono_inside fun place hplace => List.mem_cons_of_mem _ hplace⟩

theorem WellFormed.mem_first_iff (h : grammar.WellFormed)
    (htarget : grammar.isTerminal target = true) (hend : target ≠ endOfInput)
    (hempty : target ≠ emptyText) :
    target ∈ (grammar.first symbol).1 ↔ ∃ steps, grammar.LeadsTo target steps [] symbol := by
  classical
  constructor
  · intro hfound
    exact exists_leadsTo hempty hfound ⟨h.nodup_occurrences, by simp⟩
  · intro hex
    exact (Nat.find_spec hex).mem_firstWithin htarget hend hempty
      (fun fewer hfewer => Nat.find_min hex hfewer) (by simp) fun place hplace _ => hplace

/-! ## Keys that come first in themselves -/

/-- Some text of the key begins where the other symbol does: what stands in front of it vanishes. -/
def ComesFirst (grammar : Grammar) (key other : String) : Prop :=
  ∃ left right, grammar.WritesOpen key (left ++ other :: right) ∧ Vanishes grammar.WritesOpen left

/-- Each alternative has a symbol besides the end of the input at its end. -/
def NoneBlank (grammar : Grammar) : Prop :=
  ∀ key, ∀ alternative ∈ grammar.alternatives key, openBody alternative ≠ []

/-- A key that may stand for the empty text does not come first in itself. -/
def NoEmptyReturn (grammar : Grammar) : Prop :=
  ∀ key, Vanishing grammar.WritesOpen key → ¬Relation.TransGen grammar.ComesFirst key key

theorem comesFirst_of_vanishes (hwrites : grammar.WritesOpen key body)
    (hbody : Vanishes grammar.WritesOpen body) (hsymbol : symbol ∈ body) :
    grammar.ComesFirst key symbol := by
  obtain ⟨left, right, rfl⟩ := List.append_of_mem hsymbol
  exact ⟨left, right, hwrites, (vanishes_append.mp hbody).1⟩

theorem exists_comesFirst (h : Beginning grammar.WritesOpen target body) :
    ∃ left symbol right, body = left ++ symbol :: right ∧ Vanishes grammar.WritesOpen left ∧
      Relation.ReflTransGen grammar.ComesFirst symbol target := by
  induction h with
  | here => exact ⟨[], target, _, rfl, .refl _, .refl⟩
  | inside hwrites _ ih =>
    obtain ⟨left, symbol, right, rfl, hleft, hway⟩ := ih
    exact ⟨[], _, _, rfl, .refl _, .head ⟨left, right, hwrites, hleft⟩ hway⟩
  | past hsymbol _ ih =>
    obtain ⟨left, symbol, right, rfl, hleft, hway⟩ := ih
    exact ⟨_ :: left, symbol, right, rfl, vanishes_cons.mpr ⟨hsymbol, hleft⟩, hway⟩

theorem exists_bodyAt {alternative : Alternative} (h : alternative ∈ grammar.alternatives key) :
    ∃ index, grammar.BodyAt key index (openBody alternative) := by
  obtain ⟨alternatives, hlookup, hmem⟩ := mem_alternatives_iff.mp h
  obtain ⟨index, hindex⟩ := List.getElem?_of_mem hmem
  exact ⟨index, alternatives, alternative, hlookup, hindex, rfl⟩

theorem WellFormed.isTerminal_eq_false (h : grammar.WellFormed) {alternative : Alternative}
    (hmem : alternative ∈ grammar.alternatives key) : grammar.isTerminal key = false := by
  cases hterminal : grammar.isTerminal key with
  | false => rfl
  | true =>
    rw [h.alternatives_eq_nil hterminal] at hmem
    simp at hmem

/-- A symbol vanishes outside of the occurrences of keys that are not met on the way. -/
theorem WellFormed.exists_vanishesOutside (h : grammar.WellFormed)
    (hempty : grammar.isTerminal emptyText = true) (hblank : grammar.NoneBlank)
    (hsymbol : Vanishing grammar.WritesOpen symbol)
    (hinside : ∀ place ∈ inside, Vanishing grammar.WritesOpen place.key →
      ¬Relation.ReflTransGen grammar.ComesFirst symbol place.key) :
    ∃ steps, grammar.VanishesOutside inside steps symbol := by
  induction hsymbol with
  | @intro symbol body hwrites hbody ih =>
    rcases hwrites with ⟨alternative, hmem, rfl⟩ | ⟨rfl, -⟩
    · have hvanishing : Vanishing grammar.WritesOpen symbol :=
        .intro (.inl ⟨alternative, hmem, rfl⟩) hbody
      have hfirst : ∀ other ∈ openBody alternative, grammar.ComesFirst symbol other :=
        fun other => comesFirst_of_vanishes (.inl ⟨alternative, hmem, rfl⟩) (vanishes_iff.mpr hbody)
      obtain ⟨index, hindex⟩ := exists_bodyAt hmem
      obtain ⟨steps, hsteps⟩ := VanishesOutside.exists_forall fun other hother =>
        ih other hother fun place hplace hkey hway =>
          hinside place hplace hkey (.head (hfirst other hother) hway)
      refine ⟨steps + 1, .alternative (h.isTerminal_eq_false hmem) hindex (hblank _ _ hmem)
        (fun position _ hplace => ?_) hsteps⟩
      exact hinside _ hplace hvanishing .refl
    · exact ⟨0, .empty 0 hempty⟩

/-- Where no key that may stand for the empty text comes first in itself, every way down by what
comes first is one of the walk. -/
theorem WellFormed.exists_leadsTo (h : grammar.WellFormed)
    (hempty : grammar.isTerminal emptyText = true) (hblank : grammar.NoneBlank)
    (hreturn : grammar.NoEmptyReturn)
    (hway : Relation.ReflTransGen grammar.ComesFirst symbol target)
    (hinside : ∀ place ∈ inside, Relation.TransGen grammar.ComesFirst place.key symbol) :
    ∃ steps, grammar.LeadsTo target steps inside symbol := by
  induction hway using Relation.ReflTransGen.head_induction_on generalizing inside with
  | refl => exact ⟨0, .here inside⟩
  | @head key symbol hfirst _ ih =>
    obtain ⟨left, right, hwrites, hleft⟩ := hfirst
    obtain ⟨alternative, hmem, hbody⟩ := hwrites.resolve_right (by simp)
    obtain ⟨index, hindex⟩ := exists_bodyAt hmem
    rw [← hbody] at hindex
    obtain ⟨steps, hsteps⟩ := @ih (⟨key, index, left.length⟩ :: inside) fun place hplace => by
      have hstep : grammar.ComesFirst key symbol := ⟨left, right, hwrites, hleft⟩
      rcases List.mem_cons.mp hplace with rfl | hplace
      · exact .single hstep
      · exact (hinside place hplace).tail hstep
    refine ⟨steps + 1, .down (h.isTerminal_eq_false hmem) hindex (fun other hother => ?_) hsteps⟩
    refine h.exists_vanishesOutside hempty hblank (vanishes_iff.mp hleft other hother) ?_
    -- a key met there would vanish and come first in itself
    intro place hplace hkey hback
    obtain ⟨before, between, rfl⟩ := List.append_of_mem hother
    have hother : grammar.ComesFirst key other :=
      ⟨before, between ++ symbol :: right, by simpa using hwrites, (vanishes_append.mp hleft).1⟩
    exact hreturn place.key hkey (((hinside place hplace).tail hother).trans_left hback)

/-- The kept FIRST sets, as a family told by their members. -/
def KeptFirst (grammar : Grammar) (symbol member : String) : Prop :=
  ∃ set, grammar.firstSet? symbol = some set ∧ member ∈ set

/-- **What the FIRST sets hold.** A terminal is in the FIRST set of a non-terminal exactly if there
is a way down to it that gets past symbols without what it is inside of. This is so for all that
texts of the non-terminal begin with, unless a key that may stand for the empty text comes first in
itself, or some alternative is the end of the input alone. -/
theorem Frozen.mem_firstSet_iff (h : grammar.Frozen)
    (hempty : grammar.isTerminal emptyText = true) (hsymbol : grammar.isNonTerminal symbol = true)
    (htarget : grammar.isTerminal target = true) (hne : target ≠ endOfInput)
    (hneEmpty : target ≠ emptyText) :
    (grammar.KeptFirst symbol target ↔ ∃ steps, grammar.LeadsTo target steps [] symbol) ∧
      (grammar.NoneBlank → grammar.NoEmptyReturn → Begins grammar.WritesOpen [symbol] target →
        grammar.KeptFirst symbol target) := by
  have hkept : grammar.KeptFirst symbol target ↔ ∃ steps, grammar.LeadsTo target steps [] symbol := by
    rw [← h.wellFormed.mem_first_iff htarget hne hneEmpty]
    unfold KeptFirst
    rw [h.firstSet?_eq, if_pos hsymbol]
    simp
  refine ⟨hkept, fun hblank hreturn hbegins => hkept.mpr ?_⟩
  obtain ⟨left, first, right, heq, -, hway⟩ := exists_comesFirst (begins_iff.mp hbegins)
  obtain ⟨-, rfl, -⟩ : left = [] ∧ symbol = first ∧ [] = right := by
    cases left <;> simp_all
  exact h.wellFormed.exists_leadsTo hempty hblank hreturn hway (by simp)

/-- A letter that may be left out, and one behind it. -/
def optionalLetter : Grammar :=
  withSets {
    nonTerminals := ["S", "A"]
    terminals := ["a", "b", "$", "#"]
    rules := [("S", [["A", "b", "$"]]), ("A", [["a"], ["#"]])] }

theorem optionalLetter_frozen : optionalLetter.Frozen :=
  frozen_of_feedText "S A # a b # S -> A b # A -> a # A -> # ##" rfl rfl

theorem noEmptyReturn_optionalLetter : optionalLetter.NoEmptyReturn := by
  let height (symbol : String) : Nat := if symbol = "S" then 2 else if symbol = "A" then 1 else 0
  have hrules : ∀ rule ∈ optionalLetter.rules, ∀ alternative ∈ rule.2,
      ∀ other ∈ openBody alternative, height other < height rule.1 := by decide
  have hbelow : ∀ key other, optionalLetter.ComesFirst key other → height other < height key := by
    rintro key other ⟨left, right, ⟨alternative, hmem, heq⟩ | ⟨-, heq⟩, -⟩
    · obtain ⟨alternatives, hlookup, hmem⟩ := mem_alternatives_iff.mp hmem
      exact hrules _ (mem_of_lookup hlookup) _ hmem other (by simp [← heq])
    · simp at heq
  intro key _ hreturn
  have hlt : Relation.TransGen (fun key other => height other < height key) key key :=
    Relation.TransGen.mono hbelow _ _ hreturn
  rw [Relation.transGen_eq_self] at hlt
  exact lt_irrefl _ hlt

theorem mem_firstSet_optionalLetter : optionalLetter.Frozen ∧ optionalLetter.NoneBlank ∧
    optionalLetter.NoEmptyReturn ∧ Begins optionalLetter.WritesOpen ["S"] "b" ∧
      optionalLetter.KeptFirst "S" "b" := by
  have hrules : ∀ rule ∈ optionalLetter.rules, ∀ alternative ∈ rule.2,
      openBody alternative ≠ [] := by decide
  have hblank : optionalLetter.NoneBlank := fun key alternative hmem =>
    let ⟨_, hlookup, hmem⟩ := mem_alternatives_iff.mp hmem
    hrules _ (mem_of_lookup hlookup) alternative hmem
  have hbegins : Begins optionalLetter.WritesOpen ["S"] "b" := by
    refine ⟨[], .cons (.inl ⟨["A", "b", "$"], by decide, rfl⟩) ?_⟩
    exact .cons (.inl ⟨["#"], by decide, rfl⟩) (.cons (.inr ⟨rfl, rfl⟩) (.refl _))
  exact ⟨optionalLetter_frozen, hblank, noEmptyReturn_optionalLetter, hbegins,
    (optionalLetter_frozen.mem_firstSet_iff rfl rfl rfl (by decide) (by decide)).2 hblank
      noEmptyReturn_optionalLetter hbegins⟩

/-- A key that may be the empty text, and comes first in itself by way of another such key. -/
def detour : Grammar :=
  withSets {
    nonTerminals := ["A", "B"]
    terminals := ["t", "$", "#"]
    rules := [("A", [["B", "$"]]), ("B", [["A", "t"], ["#"]])] }

theorem detour_frozen : detour.Frozen :=
  frozen_of_feedText "A B # t # A -> B # B -> A t # B -> # ##" rfl rfl

/-- The text `t` may stand for `A`, where the first `B` is an `A` and a `t`, and that `A` is empty
by another `B`. The walk for `A` is inside of the first `B` and does not enter the other one. -/
theorem not_mem_firstSet_detour : detour.Frozen ∧ Begins detour.WritesOpen ["A"] "t" ∧
    ¬detour.KeptFirst "A" "t" := by
  have hA : detour.WritesOpen "A" ["B"] := .inl ⟨["B", "$"], by decide, rfl⟩
  have hB : detour.WritesOpen "B" ["A", "t"] := .inl ⟨["A", "t"], by decide, rfl⟩
  have hEmpty : detour.WritesOpen "B" ["#"] := .inl ⟨["#"], by decide, rfl⟩
  refine ⟨detour_frozen, ⟨[], ?_⟩, ?_⟩
  · exact .cons hA (.cons hB (.cons hA (.cons hEmpty (.cons (.inr ⟨rfl, rfl⟩) (.refl _)))))
  · rintro ⟨set, hset, hmem⟩
    -- evaluation goes by the equations of `List.lookup`, which come with `Primrec.List`
    have hnone : (detour.firstSet? "A").any (fun set => set.members.contains "t") = false := by cbv
    rw [hset, Option.any_some] at hnone
    rw [SymbolSet.mem_iff, ← List.contains_iff_mem, hnone] at hmem
    cases hmem

end LineGrammar.Grammar
