import LineGrammar.Proofs.Number.Digits
import LineGrammar.Value
import Mathlib.Data.List.TakeWhile

/-!
# Digits behind a sign

A 64-bit whole number is read where a text is nothing but an optional sign and digits that write it
(`readInt64?_eq_some_iff`), among others where the text is what is written for the number
(`writes_intText`). The longest beginning of any text that is an optional sign and digits, perhaps
none, is its `Value.leadingDigits` (`isLongestBeginning_leadingDigits`).
-/

namespace LineGrammar.Number

def IsSign (sign : List Char) : Prop :=
  sign = [] ∨ sign = ['-'] ∨ sign = ['+']

/-- The whole number that digits behind a sign write. -/
def signedValue (sign digits : List Char) : Int :=
  if sign = ['-'] then -(ofDigits digits : Int) else ofDigits digits

/-- The text is an optional sign and digits, and they write a number of 64 bits. -/
def Writes (text : List Char) (value : Int64) : Prop :=
  ∃ sign digits, IsSign sign ∧ IsDigits digits ∧ text = sign ++ digits ∧
    value.toInt = signedValue sign digits

variable {text sign digits front behind : List Char} {value : Int64}

theorem isDigit_or_sign (hsign : IsSign sign) (hdigits : ∀ c ∈ digits, c.isDigit = true) :
    ∀ c ∈ sign ++ digits, c.isDigit = true ∨ c = '-' ∨ c = '+' := by
  intro c hc
  rcases List.mem_append.mp hc with hc | hc
  · rcases hsign with rfl | rfl | rfl
    · cases hc
    · exact .inr (.inl (List.mem_singleton.mp hc))
    · exact .inr (.inr (List.mem_singleton.mp hc))
  · exact .inl (hdigits c hc)

/-! ## Whole texts -/

theorem splitSign_append (hsign : IsSign sign) (hdigits : IsDigits digits) :
    splitSign (sign ++ digits) = (decide (sign = ['-']), digits) := by
  rcases hsign with rfl | rfl | rfl
  · exact splitSign_digits hdigits
  · rfl
  · rfl

theorem exists_sign (text : List Char) :
    ∃ sign, IsSign sign ∧ text = sign ++ (splitSign text).2 := by
  unfold splitSign
  split
  · exact ⟨['-'], .inr (.inl rfl), rfl⟩
  · exact ⟨['+'], .inr (.inr rfl), rfl⟩
  · exact ⟨[], .inl rfl, rfl⟩

theorem isDigits_of_readInt64? (h : readInt64? text = some value) :
    IsDigits (splitSign text).2 := by
  obtain ⟨n, hn, -⟩ := Option.bind_eq_some_iff.mp h
  unfold readInt? at hn
  generalize splitSign text = split at hn ⊢
  obtain ⟨negative, digits⟩ := split
  obtain ⟨size, hsize, -⟩ := Option.map_eq_some_iff.mp hn
  unfold readNat? at hsize
  split at hsize
  · next hboth => exact ⟨hboth.1, List.all_eq_true.mp hboth.2⟩
  · cases hsize

theorem readInt?_append (hsign : IsSign sign) (hdigits : IsDigits digits) :
    readInt? (sign ++ digits) = some (signedValue sign digits) := by
  unfold readInt? signedValue
  rw [splitSign_append hsign hdigits]
  dsimp only
  rw [readNat?_digits hdigits]
  simp

theorem readInt64?_eq_some_iff : readInt64? text = some value ↔ Writes text value := by
  constructor
  · intro hread
    obtain ⟨sign, hsign, htext⟩ := exists_sign text
    have hdigits := isDigits_of_readInt64? hread
    generalize (splitSign text).2 = digits at htext hdigits
    subst htext
    rw [readInt64?, readInt?_append hsign hdigits] at hread
    exact ⟨sign, digits, hsign, hdigits, rfl, int64?_eq_some.mp hread⟩
  · rintro ⟨sign, digits, hsign, hdigits, rfl, hvalue⟩
    rw [readInt64?, readInt?_append hsign hdigits]
    exact int64?_eq_some.mpr hvalue

theorem readInt64?_eq_none_iff : readInt64? text = none ↔ ∀ value, ¬Writes text value := by
  rw [Option.eq_none_iff_forall_ne_some]
  exact forall_congr' fun value => not_congr readInt64?_eq_some_iff

/-- What is written for a number writes it, also for the least one. -/
theorem writes_intText (value : Int64) : Writes (intText value.toInt) value := by
  by_cases hnegative : value.toInt < 0
  · refine ⟨['-'], natText value.toInt.natAbs, .inr (.inl rfl), isDigits_natText _, ?_, ?_⟩
    · rw [intText, if_pos hnegative]
      rfl
    · rw [signedValue, if_pos rfl, ofDigits_natText]
      omega
  · refine ⟨[], natText value.toInt.natAbs, .inl rfl, isDigits_natText _, ?_, ?_⟩
    · rw [intText, if_neg hnegative]
      rfl
    · rw [signedValue, if_neg (by simp), ofDigits_natText]
      omega

/-! ## Beginnings of texts -/

/-- The text begins with this, which is an optional sign and digits, perhaps none. -/
def IsBeginning (text front : List Char) : Prop :=
  front <+: text ∧
    ∃ sign digits, IsSign sign ∧ (∀ c ∈ digits, c.isDigit = true) ∧ front = sign ++ digits

/-- Any other such beginning is shorter. -/
def IsLongestBeginning (text front : List Char) : Prop :=
  IsBeginning text front ∧ ∀ other, IsBeginning text other → other <+: front

theorem prefix_takeWhile_isDigit (hdigits : ∀ c ∈ digits, c.isDigit = true) :
    digits <+: (digits ++ behind).takeWhile Char.isDigit := by
  rw [List.takeWhile_append_of_pos hdigits]
  exact List.prefix_append _ _

theorem isBeginning_leadingDigits (text : List Char) :
    IsBeginning text (Value.leadingDigits text) := by
  cases text with
  | nil => exact ⟨List.prefix_rfl, [], [], .inl rfl, by simp, rfl⟩
  | cons c rest =>
    have hprefix : rest.takeWhile Char.isDigit <+: rest := List.takeWhile_prefix _
    have hrest : ∀ d ∈ rest.takeWhile Char.isDigit, d.isDigit = true :=
      fun d hd => List.mem_takeWhile_imp hd
    by_cases hc : c.isDigit || c == '-' || c == '+'
    · rw [Value.leadingDigits, if_pos hc]
      refine ⟨List.cons_prefix_cons.mpr ⟨rfl, hprefix⟩, ?_⟩
      simp only [Bool.or_eq_true, beq_iff_eq] at hc
      rcases hc with (hdigit | rfl) | rfl
      · exact ⟨[], _, .inl rfl, List.forall_mem_cons.mpr ⟨hdigit, hrest⟩, rfl⟩
      · exact ⟨['-'], _, .inr (.inl rfl), hrest, rfl⟩
      · exact ⟨['+'], _, .inr (.inr rfl), hrest, rfl⟩
    · rw [Value.leadingDigits, if_neg hc]
      exact ⟨List.nil_prefix, [], [], .inl rfl, by simp, rfl⟩

theorem isLongestBeginning_leadingDigits (text : List Char) :
    IsLongestBeginning text (Value.leadingDigits text) := by
  refine ⟨isBeginning_leadingDigits text, ?_⟩
  rintro front ⟨⟨behind, rfl⟩, sign, digits, hsign, hdigits, rfl⟩
  rcases hsign with rfl | rfl | rfl
  · cases digits with
    | nil => exact List.nil_prefix
    | cons c digits =>
      obtain ⟨hc, hrest⟩ := List.forall_mem_cons.mp hdigits
      have hleading : Value.leadingDigits (c :: digits ++ behind) =
          c :: (digits ++ behind).takeWhile Char.isDigit := if_pos (by simp [hc])
      rw [List.nil_append, hleading]
      exact List.cons_prefix_cons.mpr ⟨rfl, prefix_takeWhile_isDigit hrest⟩
  · exact List.cons_prefix_cons.mpr ⟨rfl, prefix_takeWhile_isDigit hdigits⟩
  · exact List.cons_prefix_cons.mpr ⟨rfl, prefix_takeWhile_isDigit hdigits⟩

theorem IsLongestBeginning.eq (h : IsLongestBeginning text front) :
    front = Value.leadingDigits text :=
  ((isLongestBeginning_leadingDigits text).2 front h.1).eq_of_length_le
    (h.2 _ (isBeginning_leadingDigits text)).length_le

end LineGrammar.Number
