import LineGrammar.Proofs.Program.Breakdown

/-!
# The limit of a run

A run takes statements one after the other: until there is no next one, until one fails, or until it
has taken as many as its limit allows and there is one more (`exists_end`). What it comes to does
not depend on the limit, so that a run with a larger one goes the same way and only goes on where
the other was cut short (`limit_cuts_short`).
-/

namespace LineGrammar

namespace Program

variable {program : Program} {store : Store}

theorem step_ne_stepLimitExceeded {id : StatementId} {limit : Nat} :
    program.step store id ≠ .error (.stepLimitExceeded limit) := by
  intro h
  by_cases hleast : program.DividesLeast store id
  · cases (step_eq_breakdown.mpr hleast).symm.trans h
  · exact survives_step hleast _ h

/-! ## What a run comes to -/

/-- However many statements a run may take, it ends: it comes to no next one, to one that fails, or
to one that it may not take. -/
theorem exists_end (program : Program) (steps : Nat) (place : Option StatementId) (store : Store) :
    (∃ count ≤ steps, ∃ after, program.Comes count place store none after) ∨
      (∃ count < steps, ∃ id after error, program.Comes count place store (some id) after ∧
        program.step after id = .error error) ∨
      ∃ id after, program.Comes steps place store (some id) after := by
  induction steps generalizing place store with
  | zero =>
    cases place with
    | none => exact .inl ⟨0, Nat.le_refl 0, store, .refl none store⟩
    | some id => exact .inr (.inr ⟨id, store, .refl (some id) store⟩)
  | succ steps ih =>
    cases place with
    | none => exact .inl ⟨0, Nat.zero_le _, store, .refl none store⟩
    | some id =>
      cases hstep : program.step store id with
      | error error => exact .inr (.inl ⟨0, Nat.succ_pos _, id, store, error, .refl _ _, hstep⟩)
      | ok effect =>
        rcases ih effect.next effect.store with ⟨count, hcount, after, hcomes⟩ |
          ⟨count, hcount, last, after, error, hcomes, hfails⟩ | ⟨last, after, hcomes⟩
        · exact .inl ⟨count + 1, Nat.succ_le_succ hcount, after, .step hstep hcomes⟩
        · exact .inr (.inl ⟨count + 1, Nat.succ_lt_succ hcount, last, after, error,
            .step hstep hcomes, hfails⟩)
        · exact .inr (.inr ⟨last, after, .step hstep hcomes⟩)

theorem exists_runFrom_of_comes {count : Nat} {place last : Option StatementId} {after : Store}
    (h : program.Comes count place store last after) :
    ∃ lines : List String, ∀ limit rest output,
      program.runFrom limit (count + rest) place store output =
        program.runFrom limit rest last after (output ++ lines) := by
  induction h with
  | refl =>
    refine ⟨[], fun limit rest output => ?_⟩
    rw [Nat.zero_add, Array.appendList_nil]
  | @step count id store after effect last hstep hrest ih =>
    obtain ⟨lines, hlines⟩ := ih
    refine ⟨effect.output ++ lines, fun limit rest output => ?_⟩
    have happend : output ++ effect.output ++ lines = output ++ (effect.output ++ lines) :=
      Array.ext' (by simp)
    rw [Nat.add_right_comm, runFrom, hstep]
    dsimp only
    rw [hlines, happend]

theorem execute_of_finished {count : Nat} {after : Store}
    (h : program.Comes count program.entry store none after) :
    ∃ lines, ∀ limit ≥ count, program.execute store limit = (after, .ok lines) := by
  obtain ⟨lines, hlines⟩ := exists_runFrom_of_comes h
  refine ⟨lines, fun limit hlimit => ?_⟩
  obtain ⟨rest, rfl⟩ := Nat.exists_eq_add_of_le hlimit
  unfold execute
  rw [hlines]
  cases rest <;> simp [runFrom, Except.map]

theorem execute_of_failed {count : Nat} {id : StatementId} {after : Store} {error : ExecutionError}
    (h : program.Comes count program.entry store (some id) after)
    (hfails : program.step after id = .error error) {limit : Nat} (hlimit : count < limit) :
    program.execute store limit = (after, .error error) := by
  obtain ⟨lines, hlines⟩ := exists_runFrom_of_comes h
  obtain ⟨rest, rfl⟩ := Nat.exists_eq_add_of_lt hlimit
  unfold execute
  rw [Nat.add_assoc, hlines, runFrom, hfails]
  rfl

theorem execute_of_cut {limit : Nat} {id : StatementId} {after : Store}
    (h : program.Comes limit program.entry store (some id) after) :
    program.execute store limit = (after, .error (.stepLimitExceeded limit)) := by
  obtain ⟨lines, hlines⟩ := exists_runFrom_of_comes h
  have hrun := hlines limit 0 #[]
  rw [Nat.add_zero] at hrun
  unfold execute
  rw [hrun]
  rfl

/-! ## Limits -/

/-- How a run with this limit ends: the statements that it takes come to no next one; or to one that
fails, which is among those that it may take; or they are as many as it may take, and there is one
more. -/
inductive Ends (program : Program) (store : Store) (limit : Nat) :
    Store × Except ExecutionError (List String) → Prop
  | finished {count : Nat} {after : Store} {lines : List String} (hcount : count ≤ limit)
    (hcomes : program.Comes count program.entry store none after) :
    Ends program store limit (after, .ok lines)
  | failed {count : Nat} {id : StatementId} {after : Store} {error : ExecutionError}
    (hcount : count < limit) (hcomes : program.Comes count program.entry store (some id) after)
    (hfails : program.step after id = .error error) :
    Ends program store limit (after, .error error)
  | cut {id : StatementId} {after : Store}
    (hcomes : program.Comes limit program.entry store (some id) after) :
    Ends program store limit (after, .error (.stepLimitExceeded limit))

theorem ends_execute (program : Program) (store : Store) (limit : Nat) :
    program.Ends store limit (program.execute store limit) := by
  rcases program.exists_end limit program.entry store with ⟨count, hcount, after, hcomes⟩ |
    ⟨count, hcount, id, after, error, hcomes, hfails⟩ | ⟨id, after, hcomes⟩
  · obtain ⟨lines, hlines⟩ := execute_of_finished hcomes
    rw [hlines limit hcount]
    exact .finished hcount hcomes
  · rw [execute_of_failed hcomes hfails hcount]
    exact .failed hcount hcomes hfails
  · rw [execute_of_cut hcomes]
    exact .cut hcomes

/-- **The limit only cuts runs short.** A run that is not cut short does the same with any larger
limit. A run is cut short exactly if it takes as many statements as its limit without an end or an
error and there is one more, and then it leaves the store that these statements leave. So every run
ends. -/
theorem limit_cuts_short (program : Program) (store : Store) (limit : Nat) :
    (∀ more ≥ limit,
      (∀ given, (program.execute store limit).2 ≠ .error (.stepLimitExceeded given)) →
        program.execute store more = program.execute store limit) ∧
      ((∃ given, (program.execute store limit).2 = .error (.stepLimitExceeded given)) ↔
        ∃ id after, program.Comes limit program.entry store (some id) after) ∧
      (∀ id after, program.Comes limit program.entry store (some id) after →
        program.execute store limit = (after, .error (.stepLimitExceeded limit))) ∧
      program.Ends store limit (program.execute store limit) := by
  refine ⟨fun more hmore hwhole => ?_, ⟨?_, ?_⟩, fun id after => execute_of_cut,
    ends_execute program store limit⟩
  · rcases program.exists_end limit program.entry store with ⟨count, hcount, after, hcomes⟩ |
      ⟨count, hcount, id, after, error, hcomes, hfails⟩ | ⟨id, after, hcomes⟩
    · obtain ⟨lines, hlines⟩ := execute_of_finished hcomes
      rw [hlines limit hcount, hlines more (Nat.le_trans hcount hmore)]
    · rw [execute_of_failed hcomes hfails hcount,
        execute_of_failed hcomes hfails (Nat.lt_of_lt_of_le hcount hmore)]
    · exact absurd (congrArg Prod.snd (execute_of_cut hcomes)) (hwhole limit)
  · rintro ⟨given, hgiven⟩
    have hends := ends_execute program store limit
    generalize program.execute store limit = result at hgiven hends
    cases hends with
    | finished => cases hgiven
    | failed _ _ hfails =>
      obtain rfl := Except.error.inj hgiven
      exact absurd hfails step_ne_stepLimitExceeded
    | cut hcomes => exact ⟨_, _, hcomes⟩
  · rintro ⟨id, after, hcomes⟩
    exact ⟨limit, congrArg Prod.snd (execute_of_cut hcomes)⟩

def twoLines : Program :=
  ⟨#[⟨.print (some (.ofConstant (.int 1))), some 1⟩, ⟨.print (some (.ofConstant (.int 2))), none⟩],
    some 0⟩

def selfJump : Program :=
  ⟨#[⟨.goto (some 0), none⟩], some 0⟩

theorem limit_cuts_short_twoLines :
    ((∀ given, (twoLines.execute {} 2).2 ≠ .error (.stepLimitExceeded given)) ∧
        twoLines.execute {} 5 = twoLines.execute {} 2) ∧
      selfJump.Comes 3 selfJump.entry {} (some 0) {} ∧
        selfJump.execute {} 3 = ({}, .error (.stepLimitExceeded 3)) := by
  have hlines : (twoLines.execute {} 2).2 = .ok ["1", "2"] := rfl
  have hwhole : ∀ given, (twoLines.execute {} 2).2 ≠ .error (.stepLimitExceeded given) := by
    intro given hgiven
    cases hlines.symm.trans hgiven
  have hjump : selfJump.step {} 0 = .ok ⟨{}, [], some 0⟩ := rfl
  have hcomes : selfJump.Comes 3 selfJump.entry {} (some 0) {} :=
    .step hjump (.step hjump (.step hjump (.refl _ _)))
  exact ⟨⟨hwhole, (limit_cuts_short twoLines {} 2).1 5 (by decide) hwhole⟩, hcomes,
    (limit_cuts_short selfJump {} 3).2.2.1 0 {} hcomes⟩

end Program

end LineGrammar
