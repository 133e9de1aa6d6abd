import LineGrammar.Grammar
import Mathlib.Data.List.Basic
import Mathlib.Logic.Relation

/-!
# Derivations

A sentential form is a list of symbols. Given the ways to write each symbol, a form derives another
one by writing out one symbol after another. The ways to write a symbol are a parameter, since a
grammar is read in more than one way: as it stands (`Grammar.Writes`), or with the end of the input
left out at the end of alternatives.

A form may stand for the empty text (`Vanishes`), and it may begin with a symbol (`Begins`). Both
can be followed down from the form, alternative by alternative (`vanishes_iff`, `begins_iff`).
-/

namespace LineGrammar

/-- The ways to write each symbol. -/
abbrev Writing := String → List String → Prop

/-- One symbol of a form is written out. -/
inductive Rewrites (writes : Writing) : List String → List String → Prop where
  | intro {symbol : String} {body : List String} (left right : List String)
      (h : writes symbol body) : Rewrites writes (left ++ symbol :: right) (left ++ body ++ right)

/-- A form becomes another one by writing out symbols. -/
def Derives (writes : Writing) : List String → List String → Prop :=
  Relation.ReflTransGen (Rewrites writes)

/-- The form may stand for the empty text. -/
def Vanishes (writes : Writing) (form : List String) : Prop :=
  Derives writes form []

/-- A form that is derived from this one begins with the symbol. -/
def Begins (writes : Writing) (form : List String) (symbol : String) : Prop :=
  ∃ rest, Derives writes form (symbol :: rest)

section

variable {writes others : Writing} {form other left right : List String} {symbol first : String}
  {body : List String}

namespace Derives

protected theorem refl (form : List String) : Derives writes form form :=
  Relation.ReflTransGen.refl

protected theorem trans {middle : List String} (h : Derives writes form middle)
    (hmiddle : Derives writes middle other) : Derives writes form other :=
  Relation.ReflTransGen.trans h hmiddle

theorem of_writes (h : writes symbol body) : Derives writes [symbol] body := by
  have hstep := Rewrites.intro [] [] h
  rw [List.nil_append, List.nil_append, List.append_nil] at hstep
  exact .single hstep

theorem append_left (before : List String) (h : Derives writes form other) :
    Derives writes (before ++ form) (before ++ other) := by
  refine Relation.ReflTransGen.lift (before ++ ·) ?_ _ _ h
  rintro _ _ ⟨left, right, hwrites⟩
  have hstep := Rewrites.intro (before ++ left) right hwrites
  simpa only [List.append_assoc] using hstep

theorem append_right (behind : List String) (h : Derives writes form other) :
    Derives writes (form ++ behind) (other ++ behind) := by
  refine Relation.ReflTransGen.lift (· ++ behind) ?_ _ _ h
  rintro _ _ ⟨left, right, hwrites⟩
  have hstep := Rewrites.intro left (right ++ behind) hwrites
  simpa only [List.append_assoc, List.cons_append, Function.onFun] using hstep

theorem append (hleft : Derives writes left form) (hright : Derives writes right other) :
    Derives writes (left ++ right) (form ++ other) :=
  (hleft.append_right right).trans (hright.append_left form)

theorem cons (h : writes symbol body) (hbody : Derives writes (body ++ right) other) :
    Derives writes (symbol :: right) other :=
  ((of_writes h).append_right right).trans hbody

theorem mono (hmono : ∀ symbol body, writes symbol body → others symbol body)
    (h : Derives writes form other) : Derives others form other := by
  refine Relation.ReflTransGen.mono ?_ _ _ h
  rintro _ _ ⟨left, right, hwrites⟩
  exact .intro left right (hmono _ _ hwrites)

end Derives

/-! ## The empty text -/

/-- The symbol may stand for the empty text, by way of symbols that may do so. -/
inductive Vanishing (writes : Writing) : String → Prop where
  | intro {symbol : String} {body : List String} (h : writes symbol body)
      (hbody : ∀ other ∈ body, Vanishing writes other) : Vanishing writes symbol

theorem vanishes_of_forall (h : ∀ symbol ∈ form, Vanishes writes [symbol]) :
    Vanishes writes form := by
  induction form with
  | nil => exact .refl _
  | cons first rest ih =>
    exact (h first List.mem_cons_self).append
      (ih fun symbol hsymbol => h symbol (List.mem_cons_of_mem _ hsymbol))

theorem vanishes_singleton (h : Vanishing writes symbol) : Vanishes writes [symbol] := by
  induction h with
  | intro hwrites _ ih => exact (Derives.of_writes hwrites).trans (vanishes_of_forall ih)

theorem vanishes_iff : Vanishes writes form ↔ ∀ symbol ∈ form, Vanishing writes symbol := by
  refine ⟨fun h => ?_, fun h => vanishes_of_forall fun symbol hsymbol =>
    vanishes_singleton (h symbol hsymbol)⟩
  unfold Vanishes Derives at h
  induction h using Relation.ReflTransGen.head_induction_on with
  | refl => simp
  | head hstep _ ih =>
    obtain @⟨symbol, body, left, right, hwrites⟩ := hstep
    have hsymbol : Vanishing writes symbol :=
      .intro hwrites fun other hother => ih other (by simp [hother])
    intro other hother
    rcases List.mem_append.mp hother with hleft | hright
    · exact ih other (by simp [hleft])
    · rcases List.mem_cons.mp hright with rfl | hright
      · exact hsymbol
      · exact ih other (by simp [hright])

theorem vanishes_append : Vanishes writes (left ++ right) ↔
    Vanishes writes left ∧ Vanishes writes right := by
  simp only [vanishes_iff, List.mem_append, or_imp, forall_and]

theorem vanishes_cons : Vanishes writes (symbol :: right) ↔
    Vanishing writes symbol ∧ Vanishes writes right := by
  simp only [vanishes_iff, List.mem_cons, forall_eq_or_imp]

/-! ## The first symbol -/

/-- The form begins with a symbol, by way of the first of its symbols that does not vanish. -/
inductive Beginning (writes : Writing) (first : String) : List String → Prop where
  | here {right : List String} : Beginning writes first (first :: right)
  | inside {symbol : String} {body right : List String} (h : writes symbol body)
      (hbody : Beginning writes first body) : Beginning writes first (symbol :: right)
  | past {symbol : String} {right : List String} (h : Vanishing writes symbol)
      (hright : Beginning writes first right) : Beginning writes first (symbol :: right)

theorem beginning_append : Beginning writes first (left ++ right) ↔
    Beginning writes first left ∨ Vanishes writes left ∧ Beginning writes first right := by
  induction left with
  | nil =>
    have hnil : ¬Beginning writes first [] := fun h => by cases h
    have hempty : Vanishes writes [] := .refl _
    simp [hnil, hempty]
  | cons symbol left ih =>
    rw [List.cons_append, vanishes_cons]
    constructor
    · intro h
      cases h with
      | here => exact .inl .here
      | inside hwrites hbody => exact .inl (.inside hwrites hbody)
      | past hsymbol hrest =>
        rcases ih.mp hrest with hleft | ⟨hleft, hright⟩
        · exact .inl (.past hsymbol hleft)
        · exact .inr ⟨⟨hsymbol, hleft⟩, hright⟩
    · rintro (hleft | ⟨⟨hsymbol, hleft⟩, hright⟩)
      · cases hleft with
        | here => exact .here
        | inside hwrites hbody => exact .inside hwrites hbody
        | past hsymbol hrest => exact .past hsymbol (ih.mpr (.inl hrest))
      · exact .past hsymbol (ih.mpr (.inr ⟨hleft, hright⟩))

theorem begins_iff : Begins writes form first ↔ Beginning writes first form := by
  constructor
  · rintro ⟨rest, h⟩
    unfold Derives at h
    induction h using Relation.ReflTransGen.head_induction_on with
    | refl => exact .here
    | head hstep _ ih =>
      obtain @⟨symbol, body, left, right, hwrites⟩ := hstep
      rw [List.append_assoc] at ih
      rcases beginning_append.mp ih with hleft | ⟨hleft, hmiddle⟩
      · exact beginning_append.mpr (.inl hleft)
      · refine beginning_append.mpr (.inr ⟨hleft, ?_⟩)
        rcases beginning_append.mp hmiddle with hbody | ⟨hbody, hright⟩
        · exact .inside hwrites hbody
        · exact .past (.intro hwrites (vanishes_iff.mp hbody)) hright
  · intro h
    induction h with
    | here => exact ⟨_, .refl _⟩
    | inside hwrites _ ih =>
      obtain ⟨rest, hbody⟩ := ih
      exact ⟨_, .cons hwrites (hbody.append_right _)⟩
    | @past symbol right hsymbol _ ih =>
      obtain ⟨rest, hright⟩ := ih
      exact ⟨rest, (vanishes_singleton hsymbol).append hright⟩

theorem begins_append : Begins writes (left ++ right) first ↔
    Begins writes left first ∨ Vanishes writes left ∧ Begins writes right first := by
  simp only [begins_iff, beginning_append]

theorem begins_cons_of_writes (h : writes symbol body) (hbody : Begins writes body first) :
    Begins writes (symbol :: right) first :=
  begins_iff.mpr (.inside h (begins_iff.mp hbody))

end

/-! ## The derivations of a grammar -/

namespace Grammar

/-- The ways to write a symbol, as the rules stand: the alternatives of it, and nothing for the
symbol of the empty text. -/
def Writes (grammar : Grammar) : Writing := fun symbol body =>
  body ∈ grammar.alternatives symbol ∨ symbol = emptyText ∧ body = []

theorem writes_emptyText (grammar : Grammar) : grammar.Writes emptyText [] :=
  .inr ⟨rfl, rfl⟩

/-- The ways to write a symbol, as a list. -/
def writings (grammar : Grammar) (symbol : String) : List (List String) :=
  grammar.alternatives symbol ++ if symbol = emptyText then [[]] else []

theorem mem_writings_iff {grammar : Grammar} {symbol : String} {body : List String} :
    body ∈ grammar.writings symbol ↔ grammar.Writes symbol body := by
  unfold writings Writes
  by_cases h : symbol = emptyText <;> simp [h]

/-- Forms among which writing out any symbol leads back are all that is derived from one of them. -/
theorem mem_of_derives {grammar : Grammar} {forms : List (List String)} {form other : List String}
    (hclosed : ∀ form ∈ forms, ∀ position < form.length,
      ∀ body ∈ grammar.writings (form.getD position emptyText),
        form.take position ++ body ++ form.drop (position + 1) ∈ forms)
    (h : Derives grammar.Writes form other) (hform : form ∈ forms) : other ∈ forms := by
  induction h with
  | refl => exact hform
  | tail _ hstep ih =>
    obtain @⟨symbol, body, left, right, hwrites⟩ := hstep
    have hmem := hclosed _ ih left.length (by simp) body (by simpa [mem_writings_iff] using hwrites)
    simpa using hmem

end Grammar

end LineGrammar
