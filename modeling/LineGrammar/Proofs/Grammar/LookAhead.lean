import LineGrammar.Proofs.Grammar.Freezing
import LineGrammar.Proofs.Grammar.Derivation

/-!
# Looking one terminal ahead

`Yields` says which words of terminals symbols stand for, `Stands` what may stand to the right in a
form that is derived from the start symbol. A grammar is LL(1) if the next terminal tells which
alternative of a key to take (`LL1`).

Of an LL(1) grammar, symbols that are written as the empty text do not begin with the terminal behind
them (`LL1.not_begins`), and the alternative that a derivation uses is the one that the next terminal
predicts (`LL1.eq_of_predicts`). So there is no way down by predicted alternatives from a key back to
itself as long as no terminal is passed (`LL1.acc_of_faces`).
-/

namespace LineGrammar

section

variable {writes : Writing} {symbol first : String} {right : List String}

theorem begins_cons : Begins writes (symbol :: right) first ↔
    Begins writes [symbol] first ∨ Vanishes writes [symbol] ∧ Begins writes right first := by
  rw [← begins_append, List.singleton_append]

theorem vanishes_cons_iff : Vanishes writes (symbol :: right) ↔
    Vanishes writes [symbol] ∧ Vanishes writes right := by
  rw [← vanishes_append, List.singleton_append]

theorem not_begins_nil : ¬Begins writes [] first := fun h => by
  cases begins_iff.mp h

theorem begins_singleton : Begins writes [symbol] first ↔
    symbol = first ∨ ∃ body, writes symbol body ∧ Begins writes body first := by
  constructor
  · intro h
    cases begins_iff.mp h with
    | here => exact .inl rfl
    | inside hwrites hbody => exact .inr ⟨_, hwrites, begins_iff.mpr hbody⟩
    | past _ hnil => exact absurd (begins_iff.mpr hnil) not_begins_nil
  · rintro (rfl | ⟨body, hwrites, hbody⟩)
    · exact ⟨[], .refl _⟩
    · exact begins_cons_of_writes hwrites hbody

end

namespace Grammar

variable {grammar : Grammar} {form behind left right body : List String} {word later : List String}
  {key symbol next : String}

/-! ## Words of terminals -/

/-- The symbols stand for a word of terminals, that of the empty text for no terminal. -/
inductive Yields (grammar : Grammar) : List String → List String → Prop where
  | nil : Yields grammar [] []
  | empty {form word : List String} (hrest : Yields grammar form word) :
      Yields grammar (emptyText :: form) word
  | terminal {symbol : String} {form word : List String}
      (hterminal : grammar.isTerminal symbol = true) (hne : symbol ≠ emptyText)
      (hrest : Yields grammar form word) : Yields grammar (symbol :: form) (symbol :: word)
  | alternative {key : String} {body form first word : List String}
      (hbody : body ∈ grammar.alternatives key) (hfirst : Yields grammar body first)
      (hrest : Yields grammar form word) : Yields grammar (key :: form) (first ++ word)

namespace Yields

theorem append (hleft : grammar.Yields left word) (hright : grammar.Yields right later) :
    grammar.Yields (left ++ right) (word ++ later) := by
  induction hleft with
  | nil => exact hright
  | empty _ ih => exact .empty ih
  | terminal hterminal hne _ ih => exact .terminal hterminal hne ih
  | alternative hbody hfirst _ _ ih =>
    rw [List.append_assoc]
    exact .alternative hbody hfirst ih

theorem append_iff : grammar.Yields (left ++ right) word ↔
    ∃ first last, word = first ++ last ∧ grammar.Yields left first ∧ grammar.Yields right last := by
  constructor
  · intro h
    induction left generalizing word with
    | nil => exact ⟨[], word, rfl, .nil, h⟩
    | cons symbol left ih =>
      cases h with
      | empty hrest =>
        obtain ⟨first, last, rfl, hleft, hright⟩ := ih hrest
        exact ⟨first, last, rfl, .empty hleft, hright⟩
      | terminal hterminal hne hrest =>
        obtain ⟨first, last, rfl, hleft, hright⟩ := ih hrest
        exact ⟨symbol :: first, last, rfl, .terminal hterminal hne hleft, hright⟩
      | @alternative _ body _ begun _ hbody hfirst hrest =>
        obtain ⟨first, last, rfl, hleft, hright⟩ := ih hrest
        exact ⟨begun ++ first, last, (List.append_assoc ..).symm, .alternative hbody hfirst hleft,
          hright⟩
  · rintro ⟨first, last, rfl, hleft, hright⟩
    exact hleft.append hright

theorem derives (h : grammar.Yields form word) : Derives grammar.Writes form word := by
  induction h with
  | nil => exact .refl []
  | empty _ ih => exact .cons grammar.writes_emptyText ih
  | @terminal symbol _ _ _ _ _ ih => exact ih.append_left [symbol]
  | alternative hbody _ _ ihFirst ihRest => exact .cons (.inl hbody) (ihFirst.append ihRest)

theorem eq_nil_of_nil (h : grammar.Yields [] word) : word = [] := by
  cases h with
  | nil => rfl

theorem isTerminal_of_mem (h : grammar.Yields form word) :
    ∀ terminal ∈ word, grammar.isTerminal terminal = true ∧ terminal ≠ emptyText := by
  induction h with
  | nil => simp
  | empty _ ih => exact ih
  | terminal hterminal hne _ ih => exact List.forall_mem_cons.mpr ⟨⟨hterminal, hne⟩, ih⟩
  | alternative _ _ _ ihFirst ihRest => exact List.forall_mem_append.mpr ⟨ihFirst, ihRest⟩

theorem of_terminals
    (h : ∀ terminal ∈ word, grammar.isTerminal terminal = true ∧ terminal ≠ emptyText) :
    grammar.Yields word word := by
  induction word with
  | nil => exact .nil
  | cons terminal word ih =>
    obtain ⟨⟨hterminal, hne⟩, hrest⟩ := List.forall_mem_cons.mp h
    exact .terminal hterminal hne (ih hrest)

theorem of_derives (h : Derives grammar.Writes form word)
    (hword : ∀ terminal ∈ word, grammar.isTerminal terminal = true ∧ terminal ≠ emptyText) :
    grammar.Yields form word := by
  induction h using Relation.ReflTransGen.head_induction_on with
  | refl => exact of_terminals hword
  | head hstep _ ih =>
    obtain @⟨symbol, body, left, right, hwrites⟩ := hstep
    rw [List.append_assoc] at ih
    obtain ⟨first, last, rfl, hleft, hrest⟩ := append_iff.mp ih
    obtain ⟨middle, last, rfl, hbody, hright⟩ := append_iff.mp hrest
    refine hleft.append ?_
    rcases hwrites with hmem | ⟨rfl, rfl⟩
    · exact .alternative hmem hbody hright
    · obtain rfl := hbody.eq_nil_of_nil
      exact .empty hright

end Yields

/-! ## What stands to the right -/

/-- Some form that is derived from the start symbol ends with these symbols. -/
def Stands (grammar : Grammar) (form : List String) : Prop :=
  ∃ start left, grammar.start? = some start ∧ Derives grammar.Writes [start] (left ++ form)

namespace Stands

theorem of_append (h : grammar.Stands (left ++ right)) : grammar.Stands right := by
  obtain ⟨start, before, hstart, hderives⟩ := h
  rw [← List.append_assoc] at hderives
  exact ⟨start, before ++ left, hstart, hderives⟩

theorem tail (h : grammar.Stands (symbol :: form)) : grammar.Stands form := by
  rw [← List.singleton_append] at h
  exact h.of_append

theorem derives (h : grammar.Stands form) (hderives : Derives grammar.Writes form behind) :
    grammar.Stands behind := by
  obtain ⟨start, before, hstart, hform⟩ := h
  exact ⟨start, before, hstart, hform.trans (hderives.append_left before)⟩

theorem write (h : grammar.Stands (key :: behind)) (hbody : body ∈ grammar.alternatives key) :
    grammar.Stands (body ++ behind) :=
  h.derives ((Derives.of_writes (.inl hbody)).append_right behind)

end Stands

/-- The terminal stands behind the key in some form that is derived from the start symbol, or it is
the end of the input and the key is the last symbol of such a form. -/
def Follows (grammar : Grammar) (key next : String) : Prop :=
  (∃ behind, grammar.Stands (key :: next :: behind)) ∨ next = endOfInput ∧ grammar.Stands [key]

theorem Stands.follows (h : grammar.Stands (key :: behind))
    (hbehind : grammar.Yields behind (next :: later)) : grammar.Follows key next :=
  .inl ⟨later, h.derives (hbehind.derives.append_left [key])⟩

/-! ## LL(1) -/

/-- The next terminal tells which alternative of a key to take: two of them do not begin with the
same terminal, nor do both vanish, and if one vanishes, the other one does not begin with a terminal
that follows the key. -/
structure LL1 (grammar : Grammar) : Prop where
  first_first : ∀ key body other next, body ∈ grammar.alternatives key →
    other ∈ grammar.alternatives key → grammar.isTerminal next = true → next ≠ emptyText →
    Begins grammar.Writes body next → Begins grammar.Writes other next → body = other
  empty_empty : ∀ key body other, body ∈ grammar.alternatives key →
    other ∈ grammar.alternatives key → Vanishes grammar.Writes body →
    Vanishes grammar.Writes other → body = other
  empty_first : ∀ key body other next, body ∈ grammar.alternatives key →
    other ∈ grammar.alternatives key → grammar.isTerminal next = true → next ≠ emptyText →
    Vanishes grammar.Writes body → Begins grammar.Writes other next → grammar.Follows key next →
    body = other

/-- The alternative to take for the key when this terminal is next. -/
def Predicts (grammar : Grammar) (next key : String) (body : List String) : Prop :=
  body ∈ grammar.alternatives key ∧ (Begins grammar.Writes body next ∨
    ¬Begins grammar.Writes [key] next ∧ Vanishes grammar.Writes body)

/-- The symbol is one of those that are read before the next terminal has been passed. -/
def Faces (grammar : Grammar) (next : String) (form : List String) (symbol : String) : Prop :=
  ∃ left right, form = left ++ symbol :: right ∧ Vanishes grammar.Writes left ∧
    ¬Begins grammar.Writes left next

/-- The symbol is entered from the key before the next terminal has been passed. -/
def Enters (grammar : Grammar) (next key symbol : String) : Prop :=
  ∃ body, grammar.Predicts next key body ∧ grammar.Faces next body symbol

/-- The keys are free that are read before the next terminal has been passed. -/
def Admits (grammar : Grammar) (next : String) (form free : List String) : Prop :=
  ∀ faced entered, grammar.Faces next form faced →
    Relation.ReflTransGen (grammar.Enters next) faced entered → entered ∈ grammar.ruleKeys →
      entered ∈ free

theorem faces_cons (right : List String) : grammar.Faces next (symbol :: right) symbol :=
  ⟨[], right, rfl, .refl [], not_begins_nil⟩

theorem Faces.cons_of_vanishes (h : grammar.Faces next form symbol)
    (hkey : Vanishes grammar.Writes [key]) (hnext : ¬Begins grammar.Writes [key] next) :
    grammar.Faces next (key :: form) symbol := by
  obtain ⟨left, right, rfl, hleft, hbegins⟩ := h
  refine ⟨key :: left, right, rfl, vanishes_cons_iff.mpr ⟨hkey, hleft⟩, fun h => ?_⟩
  rcases begins_cons.mp h with h | ⟨-, h⟩
  · exact hnext h
  · exact hbegins h

theorem admits_ruleKeys (grammar : Grammar) (next : String) (form : List String) :
    grammar.Admits next form grammar.ruleKeys :=
  fun _ _ _ _ hentered => hentered

theorem Admits.tail {free : List String} (h : grammar.Admits next (key :: form) free)
    (hkey : Vanishes grammar.Writes [key]) (hnext : ¬Begins grammar.Writes [key] next) :
    grammar.Admits next form free :=
  fun faced entered hfaced => h faced entered (hfaced.cons_of_vanishes hkey hnext)

theorem Faces.cons_cases (h : grammar.Faces next (key :: form) symbol) : symbol = key ∨
    Vanishes grammar.Writes [key] ∧ ¬Begins grammar.Writes [key] next ∧
      grammar.Faces next form symbol := by
  obtain ⟨left, right, heq, hleft, hbegins⟩ := h
  cases left with
  | nil => exact .inl (List.cons.inj heq).1.symm
  | cons first left =>
    obtain ⟨rfl, rfl⟩ := List.cons.inj heq
    obtain ⟨hkey, hrest⟩ := vanishes_cons_iff.mp hleft
    refine .inr ⟨hkey, fun h => hbegins (begins_cons.mpr (.inl h)), left, right, rfl, hrest, ?_⟩
    exact fun h => hbegins (begins_cons.mpr (.inr ⟨hkey, h⟩))

namespace WellFormed

variable (h : grammar.WellFormed)
include h

theorem isTerminal_of_mem_alternatives (hbody : body ∈ grammar.alternatives key) :
    grammar.isTerminal key = false := by
  cases hterminal : grammar.isTerminal key with
  | false => rfl
  | true => simp [h.alternatives_eq_nil hterminal] at hbody

theorem not_writes (hterminal : grammar.isTerminal symbol = true) (hne : symbol ≠ emptyText) :
    ¬grammar.Writes symbol body := by
  rintro (hmem | ⟨rfl, -⟩)
  · simp [h.alternatives_eq_nil hterminal] at hmem
  · exact hne rfl

theorem not_vanishes_of_isTerminal (hterminal : grammar.isTerminal symbol = true)
    (hne : symbol ≠ emptyText) : ¬Vanishes grammar.Writes [symbol] := by
  intro hvanishes
  obtain ⟨hsymbol, -⟩ := vanishes_cons.mp hvanishes
  cases hsymbol with
  | intro hwrites _ => exact h.not_writes hterminal hne hwrites

theorem not_begins_emptyText (hempty : grammar.isTerminal emptyText = true)
    (hne : next ≠ emptyText) : ¬Begins grammar.Writes [emptyText] next := by
  rw [begins_singleton]
  rintro (rfl | ⟨body, hmem | ⟨-, rfl⟩, hbegins⟩)
  · exact hne rfl
  · simp [h.alternatives_eq_nil hempty] at hmem
  · exact not_begins_nil hbegins

theorem begins_key_iff (hbody : body ∈ grammar.alternatives key)
    (hnext : grammar.isTerminal next = true) (hempty : grammar.isTerminal emptyText = true) :
    Begins grammar.Writes [key] next ↔
      ∃ other ∈ grammar.alternatives key, Begins grammar.Writes other next := by
  have hkey := h.isTerminal_of_mem_alternatives hbody
  rw [begins_singleton]
  constructor
  · rintro (rfl | ⟨other, hmem | ⟨rfl, -⟩, hbegins⟩)
    · exact absurd (hnext.symm.trans hkey) (by simp)
    · exact ⟨other, hmem, hbegins⟩
    · exact absurd (hempty.symm.trans hkey) (by simp)
  · rintro ⟨other, hmem, hbegins⟩
    exact .inr ⟨other, .inl hmem, hbegins⟩

end WellFormed

theorem not_transGen_self {relation : String → String → Prop} (h : Acc relation symbol) :
    ¬Relation.TransGen relation symbol symbol := by
  intro hself
  induction h.transGen with
  | intro symbol _ ih => exact ih symbol hself h hself

namespace LL1

variable (hll : grammar.LL1) (h : grammar.WellFormed) (hempty : grammar.isTerminal emptyText = true)
include hll h hempty

theorem not_begins (hform : grammar.Yields form []) (hbehind : grammar.Yields behind (next :: later))
    (hstands : grammar.Stands (form ++ behind)) : ¬Begins grammar.Writes form next := by
  obtain ⟨hnext, hne⟩ := hbehind.isTerminal_of_mem next List.mem_cons_self
  generalize hnone : ([] : List String) = none at hform
  induction hform generalizing behind with
  | nil => exact not_begins_nil
  | empty _ ih =>
    rw [begins_cons, begins_singleton]
    rintro ((rfl | ⟨body, hmem | ⟨-, rfl⟩, hbegins⟩) | ⟨-, hbegins⟩)
    · exact hne rfl
    · simp [h.alternatives_eq_nil hempty] at hmem
    · exact not_begins_nil hbegins
    · exact ih hbehind (hstands.tail) hnone hbegins
  | terminal => simp at hnone
  | @alternative key body form _ _ hbody hfirst hrest ihFirst ihRest =>
    obtain ⟨rfl, rfl⟩ := List.append_eq_nil_iff.mp hnone.symm
    rw [begins_cons, h.begins_key_iff hbody hnext hempty]
    rintro (⟨other, hother, hbegins⟩ | ⟨-, hbegins⟩)
    · have hlater : grammar.Yields (form ++ behind) (next :: later) := hrest.append hbehind
      obtain rfl := hll.empty_first key body other next hbody hother hnext hne hfirst.derives hbegins
        (hstands.follows hlater)
      exact ihFirst hlater (hstands.write hbody) rfl hbegins
    · exact ihRest hbehind (hstands.tail) rfl hbegins

/-- The alternative that a derivation uses is the one that the next terminal predicts. -/
theorem eq_of_predicts {other : List String} (hbody : body ∈ grammar.alternatives key)
    (hyields : grammar.Yields body word) (hbehind : grammar.Yields behind later)
    (hnext : (word ++ later).head? = some next) (hstands : grammar.Stands (key :: behind))
    (hother : grammar.Predicts next key other) : other = body := by
  obtain ⟨hmem, hpredicts⟩ := hother
  cases word with
  | nil =>
    obtain ⟨later, rfl⟩ := List.head?_eq_some_iff.mp hnext
    obtain ⟨hterminal, hne⟩ := hbehind.isTerminal_of_mem next List.mem_cons_self
    rcases hpredicts with hbegins | ⟨-, hvanishes⟩
    · exact (hll.empty_first key body other next hbody hmem hterminal hne hyields.derives hbegins
        (hstands.follows hbehind)).symm
    · exact hll.empty_empty key other body hmem hbody hvanishes hyields.derives
  | cons first word =>
    obtain rfl : first = next := by simpa using hnext
    obtain ⟨hterminal, hne⟩ := hyields.isTerminal_of_mem first List.mem_cons_self
    have hbegins : Begins grammar.Writes body first := ⟨word, hyields.derives⟩
    rcases hpredicts with hother | ⟨hnot, -⟩
    · exact hll.first_first key other body first hmem hbody hterminal hne hother hbegins
    · exact absurd ((h.begins_key_iff hbody hterminal hempty).mpr ⟨body, hbody, hbegins⟩) hnot

/-- Of the symbols that a derivation faces, none leads back to itself before the next terminal has
been passed. -/
theorem acc_of_faces (hform : grammar.Yields form word) (hbehind : grammar.Yields behind later)
    (hnext : (word ++ later).head? = some next) (hstands : grammar.Stands (form ++ behind))
    (hfaces : grammar.Faces next form symbol) :
    Acc (fun entered key => grammar.Enters next key entered) symbol := by
  -- a terminal has no alternatives that could be entered
  have hterminal : ∀ terminal, grammar.isTerminal terminal = true →
      Acc (fun entered key => grammar.Enters next key entered) terminal := by
    refine fun terminal hterminal => .intro terminal ?_
    rintro entered ⟨body, ⟨hmem, -⟩, -⟩
    simp [h.alternatives_eq_nil hterminal] at hmem
  induction hform generalizing behind later symbol with
  | nil =>
    obtain ⟨left, right, heq, -⟩ := hfaces
    simp at heq
  | empty _ ih =>
    rcases hfaces.cons_cases with rfl | ⟨-, -, hrest⟩
    · exact hterminal _ hempty
    · exact ih hbehind hnext (hstands.tail) hrest
  | terminal hsymbol hne _ ih =>
    rcases hfaces.cons_cases with rfl | ⟨hvanishes, -⟩
    · exact hterminal _ hsymbol
    · exact absurd hvanishes (h.not_vanishes_of_isTerminal hsymbol hne)
  | @alternative key body form first word hbody hfirst hrest ihFirst ihRest =>
    rcases hfaces.cons_cases with rfl | ⟨-, hnot, hfaces⟩
    · have hlater := hrest.append hbehind
      rw [List.append_assoc] at hnext
      refine .intro symbol ?_
      rintro entered ⟨other, hpredicts, hentered⟩
      obtain rfl := hll.eq_of_predicts h hempty hbody hfirst hlater hnext hstands hpredicts
      exact ihFirst hlater hnext (hstands.write hbody) hentered
    · -- the key is written as the empty text, since it does not begin with the next terminal
      cases first with
      | nil => exact ihRest hbehind hnext hstands.tail hfaces
      | cons terminal first =>
        obtain rfl : terminal = next := by simpa using hnext
        refine absurd (begins_cons_of_writes (.inl hbody) ?_) hnot
        exact ⟨first, hfirst.derives⟩

theorem predicts (hbody : body ∈ grammar.alternatives key) (hyields : grammar.Yields body word)
    (hbehind : grammar.Yields behind later) (hnext : (word ++ later).head? = some next)
    (hstands : grammar.Stands (key :: behind)) : grammar.Predicts next key body := by
  refine ⟨hbody, ?_⟩
  cases word with
  | nil =>
    obtain ⟨later, rfl⟩ := List.head?_eq_some_iff.mp hnext
    have hkey : grammar.Yields [key] [] := .alternative hbody hyields .nil
    exact .inr ⟨hll.not_begins h hempty hkey hbehind hstands, hyields.derives⟩
  | cons first word =>
    obtain rfl : first = next := by simpa using hnext
    exact .inl ⟨word, hyields.derives⟩

theorem admits_erase {free : List String} (hadmits : grammar.Admits next (key :: form) free)
    (hbody : body ∈ grammar.alternatives key) (hyields : grammar.Yields body word)
    (hbehind : grammar.Yields behind later) (hnext : (word ++ later).head? = some next)
    (hstands : grammar.Stands (key :: behind)) : grammar.Admits next body (free.erase key) := by
  intro faced entered hfaced hway hentered
  have henters : grammar.Enters next key faced :=
    ⟨body, hll.predicts h hempty hbody hyields hbehind hnext hstands, hfaced⟩
  have hmem : entered ∈ free := hadmits key entered (faces_cons form) (.head henters hway) hentered
  have hne : entered ≠ key := by
    rintro rfl
    have hkey : grammar.Yields [entered] (word ++ []) := .alternative hbody hyields .nil
    rw [List.append_nil] at hkey
    have hacc := hll.acc_of_faces h hempty hkey hbehind hnext hstands (faces_cons [])
    have hback : Relation.TransGen (grammar.Enters next) entered entered := .head' henters hway
    exact not_transGen_self hacc (Relation.transGen_swap.mp hback)
  exact (List.mem_erase_of_ne hne).mpr hmem

end LL1

end Grammar

end LineGrammar
