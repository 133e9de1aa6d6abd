import LineGrammar.Number.Reading
import LineGrammar.Number.Writing
import LineGrammar.Text.Blank

/-!
# Decimal digits

Digits alone are read as the number that they write, if it is one of 64 bits (`readInt64?_eq_some`),
and the digits that are written for a number are read as that number (`ofDigits_natText`).
-/

namespace LineGrammar

theorem int64?_eq_some {n : Int} {value : Int64} :
    Number.int64? n = some value ↔ value.toInt = n := by
  constructor
  · intro h
    unfold Number.int64? at h
    split at h
    · obtain rfl := Option.some.inj h
      have hmax : Int64.maxValue.toInt = 2 ^ 63 - 1 := Int64.toInt_maxValue
      exact Int64.toInt_ofInt_of_le (by simp_all) (by omega)
    · simp at h
  · rintro rfl
    unfold Number.int64?
    rw [if_pos, Int64.ofInt_toInt]
    exact ⟨Int64.minValue_le_toInt value, Int64.toInt_le value⟩

theorem Text.not_isBlank_of_isDigit {c : Char} (h : c.isDigit = true) : ¬isBlank c = true := by
  obtain ⟨hlow, hhigh⟩ : 0x30 ≤ c.toNat ∧ c.toNat ≤ 0x39 := Char.isDigit_iff_toNat.mp h
  simp [isBlank]
  omega

namespace Number

def IsDigits (text : List Char) : Prop :=
  text ≠ [] ∧ ∀ c ∈ text, c.isDigit = true

/-! ## Reading -/

theorem splitSign_digits {digits : List Char} (h : IsDigits digits) :
    splitSign digits = (false, digits) := by
  obtain ⟨first, rest, rfl⟩ := List.exists_cons_of_ne_nil h.1
  have hfirst : first.isDigit = true := h.2 first List.mem_cons_self
  unfold splitSign
  split
  · next heq =>
    obtain ⟨rfl, -⟩ := List.cons.inj heq
    exact absurd hfirst (by decide)
  · next heq =>
    obtain ⟨rfl, -⟩ := List.cons.inj heq
    exact absurd hfirst (by decide)
  · rfl

theorem readNat?_digits {digits : List Char} (h : IsDigits digits) :
    readNat? digits = some (ofDigits digits) := by
  unfold readNat?
  rw [if_pos ⟨h.1, List.all_eq_true.mpr h.2⟩]

theorem readInt64?_eq_some {digits : List Char} (h : IsDigits digits) {value : Int64} :
    readInt64? digits = some value ↔ value.toInt = ofDigits digits := by
  have hread : readInt? digits = some (ofDigits digits : Int) := by
    unfold readInt?
    rw [splitSign_digits h]
    dsimp only
    rw [readNat?_digits h]
    rfl
  unfold readInt64?
  rw [hread]
  exact int64?_eq_some

/-! ## Writing -/

theorem isDigits_natText (n : Nat) : IsDigits (natText n) :=
  ⟨Nat.toDigits_ne_nil, fun _ hc => Nat.isDigit_of_mem_toDigits (by decide) (by decide) hc⟩

theorem ofDigits_natText (n : Nat) : ofDigits (natText n) = n :=
  Nat.ofDigitChars_toDigits (by decide) (by decide)

theorem intText_ofNat (n : Nat) : intText n = natText n := by
  unfold intText
  rw [if_neg (by omega), Int.natAbs_natCast]

end Number

end LineGrammar
