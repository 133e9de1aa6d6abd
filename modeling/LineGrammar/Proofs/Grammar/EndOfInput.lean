import LineGrammar.Proofs.Grammar.LookAhead

/-!
# The end of the input

A grammar is frozen with the end of the input behind each alternative of the start symbol. If the
start symbol stands in no alternative, what other forms derive does not change
(`derives_freeze_iff`), and each text of the start symbol has the end of the input behind it. Looking
ahead, this is the same as to let the end of the input follow the start symbol, so that the frozen
rules are LL(1) if the written ones are (`LL1.freeze`).
-/

namespace LineGrammar

section

variable {writes others : Writing} {form other : List String} {symbol : String}

theorem Derives.eq_append_of_last (hlast : ∀ body, ¬writes symbol body)
    (h : Derives writes (form ++ [symbol]) other) :
    ∃ before, other = before ++ [symbol] ∧ Derives writes form before := by
  induction h with
  | refl => exact ⟨form, rfl, .refl form⟩
  | tail _ hstep ih =>
    obtain ⟨before, heq, hbefore⟩ := ih
    obtain @⟨written, body, left, right, hwrites⟩ := hstep
    rcases List.eq_nil_or_concat right with rfl | ⟨right, last, rfl⟩
    · obtain ⟨-, hsame⟩ := List.append_inj' heq rfl
      obtain rfl : written = symbol := by simpa using hsame
      exact absurd hwrites (hlast body)
    · rw [List.concat_eq_append, ← List.cons_append, ← List.append_assoc] at heq
      obtain ⟨rfl, hsame⟩ := List.append_inj' heq rfl
      obtain rfl : last = symbol := by simpa using hsame
      refine ⟨left ++ body ++ right, ?_, hbefore.tail (.intro left right hwrites)⟩
      rw [List.concat_eq_append, ← List.append_assoc]

theorem rewrites_singleton_iff : Rewrites writes [symbol] other ↔ writes symbol other := by
  constructor
  · intro h
    generalize hform : [symbol] = form at h
    obtain @⟨written, body, left, right, hwrites⟩ := h
    obtain ⟨rfl, hwritten⟩ := List.append_eq_singleton_iff.mp hform.symm |>.resolve_right (by simp)
    obtain ⟨rfl, rfl⟩ := List.cons.inj hwritten
    simpa using hwrites
  · intro h
    simpa using Rewrites.intro [] [] h

theorem Derives.of_forall {same : String → Prop}
    (hsame : ∀ symbol body, same symbol → writes symbol body →
      others symbol body ∧ ∀ inner ∈ body, same inner)
    (hform : ∀ symbol ∈ form, same symbol) (h : Derives writes form other) :
    Derives others form other := by
  suffices hboth : Derives others form other ∧ ∀ symbol ∈ other, same symbol from hboth.1
  induction h with
  | refl => exact ⟨.refl form, hform⟩
  | tail _ hstep ih =>
    obtain ⟨hderives, hall⟩ := ih
    obtain @⟨symbol, body, left, right, hwrites⟩ := hstep
    obtain ⟨hother, hbody⟩ := hsame symbol body (hall symbol (by simp)) hwrites
    refine ⟨hderives.tail (.intro left right hother), fun inner hinner => ?_⟩
    rcases List.mem_append.mp hinner with hinner | hright
    · rcases List.mem_append.mp hinner with hleft | hbodyMem
      · exact hall inner (by simp [hleft])
      · exact hbody inner hbodyMem
    · exact hall inner (by simp [hright])

end

namespace Grammar

variable {written : Grammar} {form other body behind : List String} {word : List String}
  {key next start : String} {alternative : Alternative}

/-! ## The alternatives -/

theorem getLast?_terminated (alternative : Alternative) :
    (terminated alternative).getLast? = some endOfInput := by
  unfold terminated
  split
  · assumption
  · simp

theorem exists_terminated_eq (alternative : Alternative) :
    ∃ inner, terminated alternative = inner ++ [endOfInput] := by
  obtain ⟨inner, hinner⟩ := List.getLast?_eq_some_iff.mp (getLast?_terminated alternative)
  exact ⟨inner, hinner⟩

theorem alternatives_freeze (written : Grammar) (key : String) :
    written.freeze.alternatives key =
      if some key = written.start? then (written.alternatives key).map terminated
      else written.alternatives key := by
  have hlookup : ∀ entries : List (String × List Alternative),
      (entries.map fun (entry : String × List Alternative) =>
        (entry.1, if some entry.1 = written.start? then entry.2.map terminated else entry.2)).lookup
          key = (entries.lookup key).map fun alternatives =>
            if some key = written.start? then alternatives.map terminated else alternatives := by
    intro entries
    induction entries with
    | nil => rfl
    | cons entry entries ih =>
      rw [List.map_cons, List.lookup_cons, List.lookup_cons, ih]
      by_cases heq : key = entry.1
      · rw [heq, beq_self_eq_true]
        rfl
      · rw [beq_eq_false_iff_ne.mpr heq]
  have hrules : written.freeze.rules = written.rules.map fun entry =>
      (entry.1, if some entry.1 = written.start? then entry.2.map terminated else entry.2) := rfl
  rw [alternatives, alternatives, hrules, hlookup]
  cases written.rules.lookup key with
  | none => split <;> rfl
  | some alternatives => split <;> simp_all

theorem mem_alternatives_freeze_start (hstart : written.start? = some start) :
    body ∈ written.freeze.alternatives start ↔
      ∃ alternative ∈ written.alternatives start, body = terminated alternative := by
  rw [alternatives_freeze, if_pos hstart.symm, List.mem_map]
  simp only [eq_comm]

theorem mem_alternatives_freeze (hkey : written.start? ≠ some key) :
    body ∈ written.freeze.alternatives key ↔ body ∈ written.alternatives key := by
  rw [alternatives_freeze, if_neg hkey.symm]

/-- The start symbol stands in no alternative. -/
def StartsOnce (written : Grammar) : Prop :=
  ∀ start, written.start? = some start → ∀ key, ∀ body ∈ written.alternatives key, start ∉ body

section

variable (h : written.freeze.WellFormed) (hempty : written.isTerminal emptyText = true)
  (hend : written.isTerminal endOfInput = true) (honce : written.StartsOnce)
  (hstart : written.start? = some start)

include h hstart in
theorem start_ne_of_isTerminal (hnext : written.isTerminal next = true) : start ≠ next := by
  rintro rfl
  exact h.not_mem_nonTerminals start (isTerminal_iff.mp hnext) (List.mem_of_head? hstart)

include h hend honce hstart in
theorem start_not_mem_terminated (halternative : alternative ∈ written.alternatives key) :
    start ∉ terminated alternative := by
  have hinner := honce start hstart key alternative halternative
  have hne := start_ne_of_isTerminal h hstart hend
  unfold terminated
  split
  · exact hinner
  · simp [hinner, hne]

include honce hstart in
theorem derives_freeze_iff (hform : start ∉ form) :
    Derives written.freeze.Writes form other ↔ Derives written.Writes form other := by
  have hinner : ∀ symbol body, written.Writes symbol body → ∀ inner ∈ body, inner ≠ start := by
    rintro symbol body (hbody | ⟨-, rfl⟩) inner hinner rfl
    · exact honce inner hstart symbol body hbody hinner
    · simp at hinner
  have hwrites : ∀ symbol body, symbol ≠ start →
      (written.freeze.Writes symbol body ↔ written.Writes symbol body) := by
    intro symbol body hne
    have hkey : written.start? ≠ some symbol := by
      rw [hstart]
      exact fun heq => hne (Option.some.inj heq).symm
    rw [Writes, Writes, mem_alternatives_freeze hkey]
  have hsame : ∀ symbol ∈ form, symbol ≠ start := by
    rintro symbol hsymbol rfl
    exact hform hsymbol
  constructor
  · refine Derives.of_forall (fun symbol body hne hbody => ?_) hsame
    have hwritten := (hwrites symbol body hne).mp hbody
    exact ⟨hwritten, hinner symbol body hwritten⟩
  · refine Derives.of_forall (fun symbol body hne hbody => ?_) hsame
    exact ⟨(hwrites symbol body hne).mpr hbody, hinner symbol body hbody⟩

include h hend hstart in
theorem not_writes_endOfInput (body : List String) : ¬written.Writes endOfInput body := by
  rintro (hbody | ⟨hempty, -⟩)
  · have hkey : written.start? ≠ some endOfInput := by
      rw [hstart]
      exact fun heq => start_ne_of_isTerminal h hstart hend (Option.some.inj heq)
    have hnone : written.freeze.alternatives endOfInput = [] := h.alternatives_eq_nil hend
    rw [← mem_alternatives_freeze hkey, hnone] at hbody
    simp at hbody
  · exact absurd hempty (by decide)

include h hend honce hstart in
theorem begins_terminated (halternative : alternative ∈ written.alternatives start)
    (hbegins : Begins written.freeze.Writes (terminated alternative) next) :
    Begins written.Writes alternative next ∨
      Vanishes written.Writes alternative ∧ next = endOfInput := by
  obtain ⟨rest, hderives⟩ := hbegins
  rw [derives_freeze_iff honce hstart (start_not_mem_terminated h hend honce hstart halternative)]
    at hderives
  have hbegins : Begins written.Writes (terminated alternative) next := ⟨rest, hderives⟩
  unfold terminated at hbegins
  split at hbegins
  · exact .inl hbegins
  · rcases begins_append.mp hbegins with hfirst | ⟨hvanishes, hlast⟩
    · exact .inl hfirst
    · rcases begins_singleton.mp hlast with rfl | ⟨body, hwrites, -⟩
      · exact .inr ⟨hvanishes, rfl⟩
      · exact absurd hwrites (not_writes_endOfInput h hend hstart body)

include h hend in
theorem not_vanishes_terminated (alternative : Alternative) :
    ¬Vanishes written.freeze.Writes (terminated alternative) := by
  obtain ⟨inner, hinner⟩ := exists_terminated_eq alternative
  rw [hinner, vanishes_append]
  rintro ⟨-, hlast⟩
  exact h.not_vanishes_of_isTerminal hend (by decide) hlast

include h hempty hend honce hstart in
/-- What stands to the right of a key also does so as the rules were written, but for the end of the
input behind it. -/
theorem stands_of_freeze (hkey : key ≠ start) (hkeyEnd : key ≠ endOfInput)
    (hstands : written.freeze.Stands (key :: behind)) :
    written.Stands (key :: behind) ∨
      ∃ inner, behind = inner ++ [endOfInput] ∧ written.Stands (key :: inner) := by
  obtain ⟨first, left, hfirst, hderives⟩ := hstands
  obtain rfl : start = first := Option.some.inj (hstart.symm.trans hfirst)
  rcases Relation.ReflTransGen.cases_head hderives with heq | ⟨middle, hstep, hrest⟩
  · obtain ⟨-, hsame⟩ := List.append_eq_singleton_iff.mp heq.symm |>.resolve_right (by simp)
    exact absurd (List.cons.inj hsame).1 hkey
  · have hwrites := rewrites_singleton_iff.mp hstep
    obtain ⟨alternative, halternative, rfl⟩ : ∃ alternative ∈ written.alternatives start,
        middle = terminated alternative := by
      rcases hwrites with hbody | ⟨hsame, -⟩
      · exact (mem_alternatives_freeze_start hstart).mp hbody
      · exact absurd hsame (start_ne_of_isTerminal h hstart hempty)
    have hwritten : Derives written.Writes (terminated alternative) (left ++ key :: behind) :=
      (derives_freeze_iff honce hstart
        (start_not_mem_terminated h hend honce hstart halternative)).mp hrest
    have hsource : Derives written.Writes [start] alternative := .of_writes (.inl halternative)
    unfold terminated at hwritten
    split at hwritten
    · exact .inl ⟨start, left, hstart, hsource.trans hwritten⟩
    · obtain ⟨before, heq, hbefore⟩ :=
        hwritten.eq_append_of_last (not_writes_endOfInput h hend hstart)
      rcases List.eq_nil_or_concat behind with rfl | ⟨inner, last, rfl⟩
      · obtain ⟨-, hsame⟩ := List.append_inj' heq rfl
        exact absurd (List.cons.inj hsame).1 hkeyEnd
      · rw [List.concat_eq_append, ← List.cons_append, ← List.append_assoc] at heq
        obtain ⟨rfl, hsame⟩ := List.append_inj' heq rfl
        obtain rfl : last = endOfInput := (List.cons.inj hsame).1
        exact .inr ⟨inner, List.concat_eq_append, start, left, hstart, hsource.trans hbefore⟩

include h hempty hend honce hstart in
theorem follows_of_freeze (hkey : key ≠ start) (hkeyEnd : key ≠ endOfInput)
    (hfollows : written.freeze.Follows key next) : written.Follows key next := by
  rcases hfollows with ⟨behind, hstands⟩ | ⟨rfl, hstands⟩
  · rcases stands_of_freeze h hempty hend honce hstart hkey hkeyEnd hstands with
      hwritten | ⟨inner, heq, hwritten⟩
    · exact .inl ⟨behind, hwritten⟩
    · cases inner with
      | nil =>
        obtain ⟨rfl, -⟩ := List.cons.inj heq
        exact .inr ⟨rfl, hwritten⟩
      | cons symbol inner =>
        obtain ⟨rfl, -⟩ := List.cons.inj heq
        exact .inl ⟨inner, hwritten⟩
  · rcases stands_of_freeze h hempty hend honce hstart hkey hkeyEnd hstands with
      hwritten | ⟨inner, heq, -⟩
    · exact .inr ⟨rfl, hwritten⟩
    · simp at heq

end

theorem WellFormed.exists_start (h : written.WellFormed) (hbody : body ∈ written.alternatives key) :
    ∃ start, written.start? = some start := by
  have hmem := h.mem_nonTerminals key (mem_ruleKeys_of_mem_alternatives hbody)
  cases hnonTerminals : written.nonTerminals with
  | nil => simp [hnonTerminals] at hmem
  | cons start rest => exact ⟨start, by rw [start?, hnonTerminals, List.head?_cons]⟩

/-- Where two alternatives of the start symbol begin with the same terminal, one of them perhaps by
way of the end of the input, the written ones are told apart by what follows the start symbol. -/
theorem LL1.eq_of_begins_terminated (hll : written.LL1) (h : written.freeze.WellFormed)
    (hend : written.isTerminal endOfInput = true) (honce : written.StartsOnce)
    (hstart : written.start? = some start) (hbody : body ∈ written.alternatives start)
    (hother : other ∈ written.alternatives start) (hnext : written.isTerminal next = true)
    (hne : next ≠ emptyText) (hbegins : Begins written.freeze.Writes (terminated body) next)
    (hbeginsOther : Begins written.freeze.Writes (terminated other) next) : body = other := by
  have hfollows : written.Follows start endOfInput := .inr ⟨rfl, start, [], hstart, .refl [start]⟩
  rcases begins_terminated h hend honce hstart hbody hbegins with hfirst | ⟨hvanishes, rfl⟩
  · rcases begins_terminated h hend honce hstart hother hbeginsOther with hsecond | ⟨hvanishes, rfl⟩
    · exact hll.first_first start body other next hbody hother hnext hne hfirst hsecond
    · exact (hll.empty_first start other body _ hother hbody hnext hne hvanishes hfirst hfollows).symm
  · rcases begins_terminated h hend honce hstart hother hbeginsOther with hsecond | ⟨hnone, -⟩
    · exact hll.empty_first start body other _ hbody hother hnext hne hvanishes hsecond hfollows
    · exact hll.empty_empty start body other hbody hother hvanishes hnone

theorem StartsOnce.written_of_freeze (honce : written.StartsOnce)
    (hstart : written.start? = some start) (hkey : key ≠ start) (hbody : body ∈ written.freeze.alternatives key) :
    body ∈ written.alternatives key ∧
      ∀ form, Derives written.freeze.Writes body form ↔ Derives written.Writes body form := by
  have hne : written.start? ≠ some key := by
    rw [hstart]
    exact fun heq => hkey (Option.some.inj heq).symm
  have hwritten := (mem_alternatives_freeze hne).mp hbody
  exact ⟨hwritten, fun form => derives_freeze_iff honce hstart (honce start hstart key body hwritten)⟩

/-- **The frozen rules are LL(1) if the written ones are.** -/
protected theorem LL1.freeze (hll : written.LL1) (h : written.freeze.WellFormed)
    (hempty : written.isTerminal emptyText = true) (hend : written.isTerminal endOfInput = true)
    (honce : written.StartsOnce) : written.freeze.LL1 := by
  -- no alternative of the start symbol vanishes
  have hvanishing : ∀ start key body, written.start? = some start →
      body ∈ written.freeze.alternatives key → Vanishes written.freeze.Writes body → key ≠ start := by
    rintro start key body hstart hbody hvanishes rfl
    obtain ⟨alternative, -, rfl⟩ := (mem_alternatives_freeze_start hstart).mp hbody
    exact not_vanishes_terminated h hend alternative hvanishes
  refine ⟨?_, ?_, ?_⟩
  · intro key body other next hbody hother hnext hne hbegins hbeginsOther
    obtain ⟨start, hstart⟩ : ∃ start, written.start? = some start := h.exists_start hbody
    by_cases hkey : key = start
    · subst hkey
      obtain ⟨alternative, halternative, rfl⟩ := (mem_alternatives_freeze_start hstart).mp hbody
      obtain ⟨second, hsecond, rfl⟩ := (mem_alternatives_freeze_start hstart).mp hother
      exact congrArg terminated (hll.eq_of_begins_terminated h hend honce hstart halternative hsecond
        hnext hne hbegins hbeginsOther)
    · obtain ⟨hbody, hderives⟩ := honce.written_of_freeze hstart hkey hbody
      obtain ⟨hother, hderivesOther⟩ := honce.written_of_freeze hstart hkey hother
      exact hll.first_first key body other next hbody hother hnext hne
        (hbegins.imp fun rest => (hderives _).mp) (hbeginsOther.imp fun rest => (hderivesOther _).mp)
  · intro key body other hbody hother hvanishes hvanishesOther
    obtain ⟨start, hstart⟩ : ∃ start, written.start? = some start := h.exists_start hbody
    have hkey := hvanishing start key body hstart hbody hvanishes
    obtain ⟨hbody, hderives⟩ := honce.written_of_freeze hstart hkey hbody
    obtain ⟨hother, hderivesOther⟩ := honce.written_of_freeze hstart hkey hother
    exact hll.empty_empty key body other hbody hother ((hderives []).mp hvanishes)
      ((hderivesOther []).mp hvanishesOther)
  · intro key body other next hbody hother hnext hne hvanishes hbegins hfollows
    obtain ⟨start, hstart⟩ : ∃ start, written.start? = some start := h.exists_start hbody
    have hkey := hvanishing start key body hstart hbody hvanishes
    obtain ⟨hbody, hderives⟩ := honce.written_of_freeze hstart hkey hbody
    obtain ⟨hother, hderivesOther⟩ := honce.written_of_freeze hstart hkey hother
    have hkeyEnd : key ≠ endOfInput := by
      rintro rfl
      exact not_writes_endOfInput h hend hstart body (.inl hbody)
    exact hll.empty_first key body other next hbody hother hnext hne ((hderives []).mp hvanishes)
      (hbegins.imp fun rest => (hderivesOther _).mp)
      (follows_of_freeze h hempty hend honce hstart hkey hkeyEnd hfollows)

theorem exists_yields_freeze (h : written.freeze.WellFormed)
    (hempty : written.isTerminal emptyText = true) (hend : written.isTerminal endOfInput = true)
    (honce : written.StartsOnce) (hstart : written.start? = some start)
    (hword : ∀ terminal ∈ word, written.isTerminal terminal = true ∧ terminal ≠ emptyText)
    (hderives : Derives written.Writes [start] word) :
    ∃ rest, written.freeze.Yields [start] (word ++ rest) := by
  rcases Relation.ReflTransGen.cases_head hderives with rfl | ⟨middle, hstep, hrest⟩
  · exact absurd rfl (start_ne_of_isTerminal h hstart (hword start (by simp)).1)
  · rcases rewrites_singleton_iff.mp hstep with halternative | ⟨hsame, -⟩
    · have hbody : terminated middle ∈ written.freeze.alternatives start :=
        (mem_alternatives_freeze_start hstart).mpr ⟨middle, halternative, rfl⟩
      have hfrozen : written.freeze.Yields middle word :=
        .of_derives ((derives_freeze_iff honce hstart
          (honce start hstart start middle halternative)).mpr hrest) hword
      obtain ⟨rest, hall⟩ : ∃ rest, written.freeze.Yields (terminated middle) (word ++ rest) := by
        unfold terminated
        split
        · exact ⟨[], by rwa [List.append_nil]⟩
        · exact ⟨[endOfInput], hfrozen.append (.terminal hend (by decide) .nil)⟩
      refine ⟨rest, ?_⟩
      rw [← List.append_nil (word ++ rest)]
      exact .alternative hbody hall .nil
    · exact absurd hsame (start_ne_of_isTerminal h hstart hempty)

end Grammar

end LineGrammar
