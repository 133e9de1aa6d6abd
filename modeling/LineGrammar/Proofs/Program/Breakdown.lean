import LineGrammar.Proofs.Number.Digits
import LineGrammar.Proofs.Program.Flow

/-!
# What breaks a run down

Arithmetic on whole numbers gives the exact result or says why there is none. One division does
neither: that of the least number by minus one, whose remainder is taken before its quotient. It is
also all that breaks down a statement, and so a run that comes to such a statement.
-/

namespace LineGrammar

/-! ## Errors -/

/-- The errors that single statements report: all but the breakdown, which is no report, and the
limit, which whole runs have. -/
def ExecutionError.IsPlain : ExecutionError → Prop
  | .breakdown => False
  | .stepLimitExceeded _ => False
  | _ => True

namespace Program

theorem bind_eq_error {α β : Type} {first : Except ExecutionError α}
    {next : α → Except ExecutionError β} {error : ExecutionError} :
    (first >>= next) = .error error ↔
      first = .error error ∨ ∃ value, first = .ok value ∧ next value = .error error := by
  cases first with
  | error other =>
    constructor
    · rintro ⟨⟩
      exact .inl rfl
    · rintro (⟨⟨⟩⟩ | ⟨value, ⟨⟩, -⟩)
      rfl
  | ok value =>
    constructor
    · intro h
      exact .inr ⟨value, rfl, h⟩
    · rintro (⟨⟨⟩⟩ | ⟨other, ⟨⟩, h⟩)
      exact h

/-- The computation gives a result or reports a plain error. -/
def Survives {α : Type} (result : Except ExecutionError α) : Prop :=
  ∀ error, result = .error error → error.IsPlain

namespace Survives

variable {α β : Type}

theorem ok (value : α) : Survives (.ok value : Except ExecutionError α) := by
  rintro error ⟨⟩

theorem error {error : ExecutionError} (h : error.IsPlain) :
    Survives (.error error : Except ExecutionError α) := by
  rintro other ⟨⟩
  exact h

theorem bind {first : Except ExecutionError α} {next : α → Except ExecutionError β}
    (hfirst : Survives first) (hnext : ∀ value, first = .ok value → Survives (next value)) :
    Survives (first >>= next) := by
  intro error h
  rcases bind_eq_error.mp h with h | ⟨value, hvalue, h⟩
  · exact hfirst error h
  · exact hnext value hvalue error h

end Survives

end Program

/-! ## Whole numbers -/

/-- The number is one of 64 bits. -/
def FitsInt64 (n : Int) : Prop :=
  Int64.minValue.toInt ≤ n ∧ n ≤ Int64.maxValue.toInt

theorem fitsInt64_toInt (value : Int64) : FitsInt64 value.toInt :=
  ⟨Int64.minValue_le_toInt value, Int64.toInt_le value⟩

theorem int64?_eq_none {n : Int} : Number.int64? n = none ↔ ¬FitsInt64 n := by
  simp [Number.int64?, FitsInt64]

namespace ArithmeticOp

open Program (Survives)

/-- The operator makes this whole number of two others. A division does so if nothing is left. -/
inductive Makes : ArithmeticOp → Int → Int → Int → Prop
  | add (left right : Int) : Makes .add left right (left + right)
  | sub (left right : Int) : Makes .sub left right (left - right)
  | mul (left right : Int) : Makes .mul left right (left * right)
  | div {left right quotient : Int} (hright : right ≠ 0) (hleft : quotient * right = left) :
    Makes .div left right quotient

namespace Makes

variable {operator : ArithmeticOp} {left right result other : Int}

theorem unique (h : operator.Makes left right result) (h' : operator.Makes left right other) :
    result = other := by
  cases h with
  | add | sub | mul => cases h'; rfl
  | div hright hleft =>
    cases h' with
    | div _ hleft' => exact Int.eq_of_mul_eq_mul_right hright (hleft.trans hleft'.symm)

theorem ne_zero (h : Makes .div left right result) : right ≠ 0 := by
  cases h with
  | div hright _ => exact hright

theorem dvd (h : Makes .div left right result) : right ∣ left := by
  cases h with
  | div _ hleft => exact hleft ▸ Int.dvd_mul_left result right

theorem tdiv (hright : right ≠ 0) (hdvd : right ∣ left) :
    Makes .div left right (left.tdiv right) :=
  .div hright (Int.tdiv_mul_cancel hdvd)

end Makes

/-- What the result of an operation on whole numbers has to be: the exact one if it fits, an error
that tells why there is none, or a fraction. -/
structure Exact (operator : ArithmeticOp) (left right : Int64)
    (result : Except ExecutionError Value) : Prop where
  fits : ∀ value : Int64, result = .ok (.int value) ↔
    operator.Makes left.toInt right.toInt value.toInt
  overflows : result = .error (.overflow operator) ↔
    ∃ n, operator.Makes left.toInt right.toInt n ∧ ¬FitsInt64 n
  byZero : result = .error .divisionByZero ↔ operator = .div ∧ right = 0
  fraction : ∀ value : Float, result = .ok (.real value) ↔
    (operator = .div ∧ right ≠ 0 ∧ ¬right.toInt ∣ left.toInt) ∧
      value = Number.ofInt left.toInt / Number.ofInt right.toInt

/-- The operation divides the least number by minus one. -/
def DividesLeast (operator : ArithmeticOp) (left right : Int64) : Prop :=
  operator = .div ∧ left = Int64.minValue ∧ right = -1

variable {operator : ArithmeticOp} {left right : Int64} {n : Int}

theorem exact_wholeResult (h : operator.Makes left.toInt right.toInt n) :
    operator.Exact left right (operator.wholeResult n) := by
  have hnonzero : ¬(operator = .div ∧ right = 0) := by
    rintro ⟨rfl, rfl⟩
    exact h.ne_zero rfl
  have hwhole : ¬(operator = .div ∧ right ≠ 0 ∧ ¬right.toInt ∣ left.toInt) := by
    rintro ⟨rfl, -, hrest⟩
    exact hrest h.dvd
  unfold wholeResult
  cases hvalue : Number.int64? n with
  | some value =>
    obtain rfl : value.toInt = n := int64?_eq_some.mp hvalue
    refine ⟨fun other => ⟨?_, fun hother => ?_⟩, ⟨?_, ?_⟩, by simp [hnonzero], by simp [hwhole]⟩
    · rintro ⟨⟩
      exact h
    · rw [Int64.toInt_inj.mp (h.unique hother)]
    · rintro ⟨⟩
    · rintro ⟨n, hmakes, hlarge⟩
      exact absurd (h.unique hmakes ▸ fitsInt64_toInt value) hlarge
  | none =>
    have hlarge := int64?_eq_none.mp hvalue
    refine ⟨fun other => ⟨?_, fun hother => ?_⟩, ⟨fun _ => ⟨n, h, hlarge⟩, fun _ => rfl⟩,
      by simp [hnonzero], by simp [hwhole]⟩
    · rintro ⟨⟩
    · exact absurd (h.unique hother ▸ fitsInt64_toInt other) hlarge

theorem toInt_eq_zero {value : Int64} : value.toInt = 0 ↔ value = 0 := by
  rw [← Int64.toInt_zero, Int64.toInt_inj]

theorem toInt_eq_neg_one {value : Int64} : value.toInt = -1 ↔ value = -1 := by
  rw [show (-1 : Int) = (-1 : Int64).toInt from rfl, Int64.toInt_inj]

theorem exact_divideWhole (h : ¬DividesLeast .div left right) :
    div.Exact left right (divideWhole left right) := by
  unfold divideWhole
  split
  next hzero =>
    obtain rfl := toInt_eq_zero.mp hzero
    constructor
    · intro value
      exact ⟨by rintro ⟨⟩, fun hmakes => absurd rfl hmakes.ne_zero⟩
    · exact ⟨by rintro ⟨⟩, fun ⟨n, hmakes, _⟩ => absurd rfl hmakes.ne_zero⟩
    · simp
    · simp
  next hzero =>
    rw [if_neg (fun ⟨hleft, hright⟩ => h ⟨rfl, hleft, toInt_eq_neg_one.mp hright⟩)]
    split
    next hrest => exact exact_wholeResult (.tdiv hzero (Int.dvd_iff_tmod_eq_zero.mpr hrest))
    next hrest =>
      have hdvd : ¬right.toInt ∣ left.toInt := fun hdvd => hrest (Int.dvd_iff_tmod_eq_zero.mp hdvd)
      have hright : right ≠ 0 := fun hright => hzero (toInt_eq_zero.mpr hright)
      constructor
      · intro value
        exact ⟨by rintro ⟨⟩, fun hmakes => absurd hmakes.dvd hdvd⟩
      · exact ⟨by rintro ⟨⟩, fun ⟨n, hmakes, _⟩ => absurd hmakes.dvd hdvd⟩
      · simp [hright]
      · simp [hright, hdvd, eq_comm]

theorem exact_applyWhole (h : ¬operator.DividesLeast left right) :
    operator.Exact left right (operator.applyWhole left right) := by
  cases operator with
  | add => exact exact_wholeResult (.add _ _)
  | sub => exact exact_wholeResult (.sub _ _)
  | mul => exact exact_wholeResult (.mul _ _)
  | div => exact exact_divideWhole h

theorem applyWhole_of_dividesLeast (h : operator.DividesLeast left right) :
    operator.applyWhole left right = .error .breakdown := by
  obtain ⟨rfl, rfl, rfl⟩ := h
  rfl

theorem makes_of_dividesLeast (h : operator.DividesLeast left right) :
    ∃ n, operator.Makes left.toInt right.toInt n ∧ ¬FitsInt64 n := by
  obtain ⟨rfl, rfl, rfl⟩ := h
  refine ⟨2 ^ 63, .div (by decide) (by decide), ?_⟩
  rintro ⟨-, h⟩
  revert h
  decide

theorem survives_wholeResult (operator : ArithmeticOp) (n : Int) :
    Survives (operator.wholeResult n) := by
  unfold wholeResult
  split
  · exact .ok _
  · exact .error trivial

theorem survives_applyWhole (h : ¬operator.DividesLeast left right) :
    Survives (operator.applyWhole left right) := by
  cases operator with
  | add | sub | mul => exact survives_wholeResult _ _
  | div =>
    change Survives (divideWhole left right)
    unfold divideWhole
    split
    next => exact .error trivial
    next =>
      rw [if_neg fun ⟨hleft, hright⟩ => h ⟨rfl, hleft, toInt_eq_neg_one.mp hright⟩]
      split
      next => exact survives_wholeResult _ _
      next => exact .ok _

theorem survives_applyReal (operator : ArithmeticOp) (left right : Float) :
    Survives (operator.applyReal left right) := by
  cases operator with
  | add | sub | mul => exact .ok _
  | div =>
    dsimp only [applyReal]
    split
    · exact .error trivial
    · exact .ok _

theorem survives_applyText (operator : ArithmeticOp) (left right : Value) :
    Survives (operator.applyText left right) := by
  cases operator with
  | add => exact .ok _
  | sub | mul | div => exact .error trivial

theorem survives_apply {textual : Bool} {left right : Value}
    (h : ¬(textual = false ∧ operator = .div ∧ left = .int Int64.minValue ∧ right = .int (-1))) :
    Survives (operator.apply textual left right) := by
  unfold apply
  split
  next => exact survives_applyText _ _ _
  next htextual =>
    split
    next left right =>
      refine survives_applyWhole fun ⟨hop, hleft, hright⟩ => h ?_
      exact ⟨Bool.eq_false_iff.mpr htextual, hop, congrArg _ hleft, congrArg _ hright⟩
    next =>
      split
      next => exact survives_applyReal _ _ _
      next => exact survives_applyText _ _ _

end ArithmeticOp

/-! ## Statements -/

namespace Program

variable (store : Store) (statement : StatementId)

theorem survives_demand {α : Type} (defect : Defect) (part : Option α) :
    Survives (demand statement defect part) := by
  cases part with
  | none => exact .error trivial
  | some part => exact .ok part

theorem survives_readSlot (id : VariableId) (index : Nat) :
    Survives (readSlot store statement id index) := by
  unfold readSlot
  split
  · exact .error trivial
  · split
    · exact .error trivial
    · exact .ok _

theorem survives_readOperand (operand : Operand) :
    Survives (readOperand store statement operand) := by
  unfold readOperand
  split
  · exact .ok _
  · exact survives_readSlot store statement _ 0

theorem survives_indexOf (index : Option Operand) : Survives (indexOf store statement index) := by
  cases index with
  | none => exact .ok 0
  | some operand =>
    refine .bind (survives_readOperand store statement operand) fun value _ => ?_
    split
    · exact .ok _
    · exact .error trivial

theorem survives_read (access : Access) : Survives (read store statement access) := by
  refine .bind (survives_indexOf store statement access.index) fun index _ => ?_
  split
  · exact survives_readSlot store statement _ index
  · split
    · exact .error trivial
    · exact .ok _

theorem survives_write (access : Access) (value : Value) :
    Survives (write store statement access value) := by
  refine .bind (survives_indexOf store statement access.index) fun index _ => ?_
  split
  · exact .error trivial
  · split
    · exact .ok _
    · exact .error trivial

theorem survives_comparisonHolds (left right : Access) (relation : Relation) :
    Survives (comparisonHolds store statement left right relation) := by
  refine .bind (survives_read store statement left) fun leftValue _ => ?_
  refine .bind (survives_read store statement right) fun rightValue _ => ?_
  split
  · exact .ok _
  · exact .error trivial

/-- The operands of an assignment are the least number, to be divided, and minus one. -/
structure ReadsLeast (left right : Access) : Prop where
  left_number : isText store left = false
  right_number : isText store right = false
  left_eq : read store statement left = .ok (.int Int64.minValue)
  right_eq : read store statement right = .ok (.int (-1))

variable {store : Store} {statement : StatementId}

theorem survives_assigned {left : Access} {right : Option Access} {operator : Option ArithmeticOp}
    (h : ¬(operator = some .div ∧ ∃ divisor, right = some divisor ∧
      ReadsLeast store statement left divisor)) :
    Survives (assigned store statement left right operator) := by
  unfold assigned
  cases operator with
  | none => exact survives_read store statement left
  | some operator =>
    refine .bind (survives_demand statement _ right) fun divisor hdivisor => ?_
    refine .bind (survives_read store statement left) fun leftValue hleft => ?_
    refine .bind (survives_read store statement divisor) fun rightValue hright => ?_
    refine ArithmeticOp.survives_apply ?_
    rintro ⟨htext, rfl, rfl, rfl⟩
    obtain ⟨hlefttext, hrighttext⟩ := Bool.or_eq_false_iff.mp htext
    exact h ⟨rfl, divisor, demand_eq_ok.mp hdivisor, hlefttext, hrighttext, hleft, hright⟩

theorem assigned_of_readsLeast {left right : Access} (h : ReadsLeast store statement left right) :
    assigned store statement left (some right) (some .div) = .error .breakdown := by
  have htext : (isText store left || isText store right) = false := by
    rw [h.left_number, h.right_number, Bool.or_false]
  refine bind_eq_error.mpr (.inr ⟨right, rfl, ?_⟩)
  refine bind_eq_error.mpr (.inr ⟨_, h.left_eq, ?_⟩)
  refine bind_eq_error.mpr (.inr ⟨_, h.right_eq, ?_⟩)
  rw [htext]
  rfl

/-- The statement divides the least number by minus one. -/
def DividesLeast (program : Program) (store : Store) (id : StatementId) : Prop :=
  ∃ target left right next, ReadsLeast store id left right ∧
    program.statements[id]? =
      some ⟨.assign (some target) (some left) (some right) (some .div), next⟩

/-- A statement that does not divide the least number by minus one has a result or a plain error. -/
theorem survives_step {program : Program} {id : StatementId}
    (h : ¬program.DividesLeast store id) : Survives (program.step store id) := by
  refine .bind (survives_demand id _ _) fun ⟨action, next⟩ hstatement => ?_
  have hfound := demand_eq_ok.mp hstatement
  cases action with
  | skip => exact .ok _
  | print access =>
    refine .bind (survives_demand id _ access) fun access _ => ?_
    exact .bind (survives_read store id access) fun value _ => .ok _
  | assign target left right operator =>
    refine .bind (survives_demand id _ target) fun target htarget => ?_
    refine .bind (survives_demand id _ left) fun left hleft => ?_
    obtain rfl := demand_eq_ok.mp htarget
    obtain rfl := demand_eq_ok.mp hleft
    refine .bind (survives_assigned ?_) fun value _ => ?_
    · rintro ⟨rfl, divisor, rfl, hreads⟩
      exact h ⟨target, left, divisor, next, hreads, hfound⟩
    · exact .bind (survives_write store id target value) fun after _ => .ok _
  | branch left right relation onTrue onFalse =>
    refine .bind (survives_demand id _ left) fun left _ => ?_
    refine .bind (survives_demand id _ right) fun right _ => ?_
    refine .bind (survives_demand id _ relation) fun relation _ => ?_
    refine .bind (survives_demand id _ onTrue) fun onTrue _ => ?_
    refine .bind (survives_demand id _ onFalse) fun onFalse _ => ?_
    exact .bind (survives_comparisonHolds store id left right relation) fun holds _ => .ok _
  | goto target => exact .bind (survives_demand id _ target) fun target _ => .ok _
  | call function argument =>
    dsimp only
    split
    · exact .error trivial
    · exact .ok _
    · split
      · exact .ok _
      · exact .bind (survives_read store id _) fun value _ => .ok _

theorem step_eq_breakdown {program : Program} {id : StatementId} :
    program.step store id = .error .breakdown ↔ program.DividesLeast store id := by
  constructor
  · intro h
    by_contra hleast
    exact survives_step hleast .breakdown h
  · rintro ⟨target, left, right, next, hreads, hfound⟩
    unfold step
    rw [hfound]
    show (assigned store id left (some right) (some .div) >>= _) = _
    rw [assigned_of_readsLeast hreads]
    rfl

/-! ## Runs -/

/-- A run comes in so many statements from one place, with one store, to another. -/
inductive Comes (program : Program) :
    Nat → Option StatementId → Store → Option StatementId → Store → Prop
  | refl (place : Option StatementId) (store : Store) : Comes program 0 place store place store
  | step {count : Nat} {id : StatementId} {store after : Store} {effect : Effect}
    {place : Option StatementId} (hstep : program.step store id = .ok effect)
    (hrest : Comes program count effect.next effect.store place after) :
    Comes program (count + 1) (some id) store place after

/-- The run comes, before it has used up its statements, to one that divides the least number by
minus one. -/
def ComesToBreak (program : Program) (steps : Nat) (place : Option StatementId) (store : Store) :
    Prop :=
  ∃ count, count < steps ∧ ∃ id after,
    program.Comes count place store (some id) after ∧ program.DividesLeast after id

theorem exists_comes_succ {program : Program} {steps : Nat} {id : StatementId}
    {reached : Store → StatementId → Prop} :
    (∃ count, count < steps + 1 ∧ ∃ last after,
        program.Comes count (some id) store (some last) after ∧ reached after last) ↔
      reached store id ∨ ∃ effect, program.step store id = .ok effect ∧
        ∃ count, count < steps ∧ ∃ last after,
          program.Comes count effect.next effect.store (some last) after ∧ reached after last := by
  constructor
  · rintro ⟨count, hcount, last, after, hcomes, hlast⟩
    cases hcomes with
    | refl => exact .inl hlast
    | @step count _ _ _ effect _ hstep hrest =>
      exact .inr ⟨effect, hstep, count, by omega, last, after, hrest, hlast⟩
  · rintro (h | ⟨effect, hstep, count, hcount, last, after, hrest, hlast⟩)
    · exact ⟨0, by omega, id, store, .refl _ _, h⟩
    · exact ⟨count + 1, by omega, last, after, .step hstep hrest, hlast⟩

theorem comesToBreak_succ {program : Program} {steps : Nat} {id : StatementId} :
    program.ComesToBreak (steps + 1) (some id) store ↔
      program.DividesLeast store id ∨ ∃ effect, program.step store id = .ok effect ∧
        program.ComesToBreak steps effect.next effect.store :=
  exists_comes_succ

theorem runFrom_eq_breakdown {program : Program} {limit steps : Nat} {place : Option StatementId}
    {output : Array String} :
    (program.runFrom limit steps place store output).2 = .error .breakdown ↔
      program.ComesToBreak steps place store := by
  induction steps generalizing place store output with
  | zero =>
    refine ⟨fun h => ?_, fun ⟨count, hcount, _⟩ => absurd hcount (by omega)⟩
    cases place <;> cases h
  | succ steps ih =>
    cases place with
    | none =>
      constructor
      · rintro ⟨⟩
      · rintro ⟨count, -, id, after, hcomes, -⟩
        cases hcomes
    | some id =>
      rw [comesToBreak_succ, ← step_eq_breakdown, runFrom]
      cases hstep : program.step store id with
      | error error => simp
      | ok effect => simp [ih]

/-- Arithmetic is exact, and a run ends with a result or an error, unless the least number is
divided by minus one. -/
theorem breaks_iff_dividesLeast (operator : ArithmeticOp) (left right : Int64) (program : Program)
    (store : Store) (id : StatementId) (limit : Nat) :
    (operator.Exact left right (operator.apply false (.int left) (.int right)) ↔
        ¬operator.DividesLeast left right) ∧
      (program.step store id = .error .breakdown ↔ program.DividesLeast store id) ∧
      ((program.execute store limit).2 = .error .breakdown ↔
        program.ComesToBreak limit program.entry store) := by
  refine ⟨⟨fun hexact hleast => ?_, fun h => ?_⟩, step_eq_breakdown, ?_⟩
  · have hoverflow := hexact.overflows.mpr (ArithmeticOp.makes_of_dividesLeast hleast)
    have hbreak : operator.apply false (.int left) (.int right) = .error .breakdown :=
      ArithmeticOp.applyWhole_of_dividesLeast hleast
    rw [hbreak] at hoverflow
    cases hoverflow
  · exact ArithmeticOp.exact_applyWhole h
  · have hrun : (program.runFrom limit limit program.entry store #[]).2 = .error .breakdown ↔
        program.ComesToBreak limit program.entry store := runFrom_eq_breakdown
    rw [← hrun]
    show (Except.map _ (program.runFrom limit limit program.entry store #[]).2 = _) ↔ _
    cases (program.runFrom limit limit program.entry store #[]).2 <;> simp [Except.map]

/-- The exact quotient of the least number and minus one does not fit, and dividing them is no
overflow: a program of that one statement breaks down. -/
theorem not_exact_leastByMinusOne :
    ¬ArithmeticOp.div.Exact Int64.minValue (-1)
        (ArithmeticOp.div.apply false (.int Int64.minValue) (.int (-1))) ∧
      (execute ⟨#[⟨.assign (some (.ofVariable 0)) (some (.ofConstant (.int Int64.minValue)))
        (some (.ofConstant (.int (-1)))) (some .div), none⟩], some 0⟩ {} 1).2 =
          .error .breakdown := by
  refine ⟨fun hexact => ?_, rfl⟩
  have hoverflow := hexact.overflows.mpr (ArithmeticOp.makes_of_dividesLeast ⟨rfl, rfl, rfl⟩)
  cases hoverflow

end Program

end LineGrammar
