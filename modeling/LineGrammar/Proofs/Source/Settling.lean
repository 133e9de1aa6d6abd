import LineGrammar.Proofs.Source.Language

/-!
# What evaluating comes to

With enough rounds allowed, a command ends or fails, or never does either. Its outcome is told by
those of its parts, in one rule for each way in which it can go.
-/

namespace LineGrammar.Source.Command

/-- Evaluating comes to this outcome, as soon as enough rounds are allowed. -/
def Settles (command : Command) (memory : Memory) (outcome : Outcome) : Prop :=
  ∃ rounds, ∀ more ≥ rounds, command.evaluate more memory = outcome

theorem Settles.unique {command : Command} {memory : Memory} {outcome other : Outcome}
    (h : command.Settles memory outcome) (hother : command.Settles memory other) :
    outcome = other := by
  obtain ⟨rounds, h⟩ := h
  obtain ⟨others, hother⟩ := hother
  rw [← h (max rounds others) (Nat.le_max_left _ _), hother _ (Nat.le_max_right _ _)]

namespace Settles

variable {first second body other : Command} {test : Condition} {memory next : Memory}
  {outcome : Outcome} {lines : List String}

theorem skip (memory : Memory) : Command.skip.Settles memory (.ends memory []) :=
  ⟨0, fun _ _ => rfl⟩

theorem sequence_fails (h : first.Settles memory .fails) :
    (sequence first second).Settles memory .fails := by
  obtain ⟨rounds, h⟩ := h
  refine ⟨rounds, fun more hmore => ?_⟩
  rw [evaluate, h more hmore]
  rfl

theorem sequence (hfirst : first.Settles memory (.ends next lines))
    (hsecond : second.Settles next outcome) :
    (sequence first second).Settles memory (outcome.after lines) := by
  obtain ⟨rounds, hfirst⟩ := hfirst
  obtain ⟨others, hsecond⟩ := hsecond
  refine ⟨max rounds others, fun more hmore => ?_⟩
  rw [evaluate, hfirst more (by omega)]
  show (second.evaluate more next).after lines = _
  rw [hsecond more (by omega)]

theorem of_skip_sequence (h : (Command.sequence .skip second).Settles memory outcome) :
    second.Settles memory outcome := by
  obtain ⟨rounds, h⟩ := h
  refine ⟨rounds, fun more hmore => ?_⟩
  rw [← h more hmore, evaluate]
  exact (Outcome.after_nil _).symm

theorem of_sequence_skip (h : (Command.sequence first .skip).Settles memory outcome) :
    first.Settles memory outcome := by
  obtain ⟨rounds, h⟩ := h
  refine ⟨rounds, fun more hmore => ?_⟩
  rw [← h more hmore, evaluate]
  cases first.evaluate more memory with
  | ends next lines => exact congrArg _ (List.append_nil _).symm
  | _ => rfl

theorem conditional_fails (h : test.holds? memory = none) :
    (conditional test body).Settles memory .fails :=
  ⟨0, fun more _ => by rw [evaluate, h]⟩

theorem conditional_true (h : test.holds? memory = some true)
    (hbody : body.Settles memory outcome) : (conditional test body).Settles memory outcome := by
  obtain ⟨rounds, hbody⟩ := hbody
  refine ⟨rounds, fun more hmore => ?_⟩
  rw [evaluate, h]
  exact hbody more hmore

theorem conditional_false (h : test.holds? memory = some false) :
    (conditional test body).Settles memory (.ends memory []) :=
  ⟨0, fun more _ => by rw [evaluate, h]⟩

theorem choice_fails (h : test.holds? memory = none) :
    (choice test body other).Settles memory .fails :=
  ⟨0, fun more _ => by rw [evaluate, h]⟩

theorem choice_true (h : test.holds? memory = some true) (hbody : body.Settles memory outcome) :
    (choice test body other).Settles memory outcome := by
  obtain ⟨rounds, hbody⟩ := hbody
  refine ⟨rounds, fun more hmore => ?_⟩
  rw [evaluate, h]
  exact hbody more hmore

theorem choice_false (h : test.holds? memory = some false)
    (hother : other.Settles memory outcome) : (choice test body other).Settles memory outcome := by
  obtain ⟨rounds, hother⟩ := hother
  refine ⟨rounds, fun more hmore => ?_⟩
  rw [evaluate, h]
  exact hother more hmore

end Settles

/-! ## Loops -/

/-- The rounds of a loop come to this outcome, as soon as enough of them are allowed, and enough of
the loops in its body. -/
def WhileSettles (test : Condition) (body : Command) (memory : Memory) (outcome : Outcome) : Prop :=
  ∃ rounds, ∀ more ≥ rounds, ∀ count ≥ rounds,
    whileRounds (fun memory => test.holds? memory) (body.evaluate more) count memory = outcome

/-- The same for a loop that tests after each round. -/
def RepeatSettles (body : Command) (test : Condition) (memory : Memory) (outcome : Outcome) :
    Prop :=
  ∃ rounds, ∀ more ≥ rounds, ∀ count ≥ rounds,
    repeatRounds (body.evaluate more) (fun memory => test.holds? memory) count memory = outcome

section

variable {body : Command} {test : Condition} {memory next : Memory} {outcome : Outcome}
  {lines : List String}

theorem WhileSettles.settles (h : WhileSettles test body memory outcome) :
    (whileLoop test body).Settles memory outcome := by
  obtain ⟨rounds, h⟩ := h
  exact ⟨rounds, fun more hmore => h more hmore more hmore⟩

theorem RepeatSettles.settles (h : RepeatSettles body test memory outcome) :
    (repeatLoop body test).Settles memory outcome := by
  obtain ⟨rounds, h⟩ := h
  exact ⟨rounds, fun more hmore => h more hmore more hmore⟩

theorem WhileSettles.fails (h : test.holds? memory = none) :
    WhileSettles test body memory .fails := by
  refine ⟨1, fun more _ count hcount => ?_⟩
  obtain ⟨count, rfl⟩ := Nat.exists_eq_add_of_le' hcount
  rw [whileRounds, h]

theorem WhileSettles.ends (h : test.holds? memory = some false) :
    WhileSettles test body memory (.ends memory []) := by
  refine ⟨1, fun more _ count hcount => ?_⟩
  obtain ⟨count, rfl⟩ := Nat.exists_eq_add_of_le' hcount
  rw [whileRounds, h]

theorem WhileSettles.body_fails (h : test.holds? memory = some true)
    (hbody : body.Settles memory .fails) : WhileSettles test body memory .fails := by
  obtain ⟨rounds, hbody⟩ := hbody
  refine ⟨rounds + 1, fun more hmore count hcount => ?_⟩
  obtain ⟨count, rfl⟩ := Nat.exists_eq_add_of_le' (Nat.le_trans (Nat.le_add_left 1 rounds) hcount)
  rw [whileRounds, h]
  show (body.evaluate more memory).andThen _ = _
  rw [hbody more (by omega)]
  rfl

theorem WhileSettles.round (h : test.holds? memory = some true)
    (hbody : body.Settles memory (.ends next lines)) (hrest : WhileSettles test body next outcome) :
    WhileSettles test body memory (outcome.after lines) := by
  obtain ⟨rounds, hbody⟩ := hbody
  obtain ⟨others, hrest⟩ := hrest
  refine ⟨max rounds others + 1, fun more hmore count hcount => ?_⟩
  obtain ⟨count, rfl⟩ := Nat.exists_eq_add_of_le' (Nat.le_trans (Nat.le_add_left 1 _) hcount)
  rw [whileRounds, h]
  show (body.evaluate more memory).andThen _ = _
  rw [hbody more (by omega)]
  show Outcome.after lines _ = _
  rw [hrest more (by omega) count (by omega)]

theorem RepeatSettles.body_fails (hbody : body.Settles memory .fails) :
    RepeatSettles body test memory .fails := by
  obtain ⟨rounds, hbody⟩ := hbody
  refine ⟨rounds + 1, fun more hmore count hcount => ?_⟩
  obtain ⟨count, rfl⟩ := Nat.exists_eq_add_of_le' (Nat.le_trans (Nat.le_add_left 1 rounds) hcount)
  rw [repeatRounds, hbody more (by omega)]
  rfl

theorem RepeatSettles.fails (hbody : body.Settles memory (.ends next lines))
    (h : test.holds? next = none) : RepeatSettles body test memory .fails := by
  obtain ⟨rounds, hbody⟩ := hbody
  refine ⟨rounds + 1, fun more hmore count hcount => ?_⟩
  obtain ⟨count, rfl⟩ := Nat.exists_eq_add_of_le' (Nat.le_trans (Nat.le_add_left 1 rounds) hcount)
  rw [repeatRounds, hbody more (by omega)]
  dsimp only [Outcome.andThen]
  rw [h]
  rfl

theorem RepeatSettles.ends (hbody : body.Settles memory (.ends next lines))
    (h : test.holds? next = some true) :
    RepeatSettles body test memory (.ends next lines) := by
  obtain ⟨rounds, hbody⟩ := hbody
  refine ⟨rounds + 1, fun more hmore count hcount => ?_⟩
  obtain ⟨count, rfl⟩ := Nat.exists_eq_add_of_le' (Nat.le_trans (Nat.le_add_left 1 rounds) hcount)
  rw [repeatRounds, hbody more (by omega)]
  dsimp only [Outcome.andThen]
  rw [h]
  show Outcome.ends next (lines ++ []) = _
  rw [List.append_nil]

theorem RepeatSettles.round (hbody : body.Settles memory (.ends next lines))
    (h : test.holds? next = some false) (hrest : RepeatSettles body test next outcome) :
    RepeatSettles body test memory (outcome.after lines) := by
  obtain ⟨rounds, hbody⟩ := hbody
  obtain ⟨others, hrest⟩ := hrest
  refine ⟨max rounds others + 1, fun more hmore count hcount => ?_⟩
  obtain ⟨count, rfl⟩ := Nat.exists_eq_add_of_le' (Nat.le_trans (Nat.le_add_left 1 _) hcount)
  rw [repeatRounds, hbody more (by omega)]
  dsimp only [Outcome.andThen]
  rw [h]
  show Outcome.after lines _ = _
  rw [hrest more (by omega) count (by omega)]

end

end LineGrammar.Source.Command
