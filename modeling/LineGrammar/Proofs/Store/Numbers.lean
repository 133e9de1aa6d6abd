import LineGrammar.Proofs.Number.Signed
import LineGrammar.Proofs.Store.Running

/-!
# Texts as numbers

Every text is read as some number. One that writes a 64-bit whole number is read as that, with any
blanks around it; so a number that is stored in a text variable can be got back
(`Value.exists_setValue?_int`). One that writes neither a whole number nor a finite real one is read
as the whole number that it begins with. Where that ends can be found by counting characters instead
of bytes, since all that is counted takes a single byte (`Value.readCut?_eq`).
-/

namespace LineGrammar

namespace Text

variable {before text behind : List Char}

theorem dropWhile_isBlank_append (hbefore : ∀ c ∈ before, isBlank c = true)
    (htext : ∀ c ∈ text, isBlank c = false) (hne : text ≠ []) :
    (before ++ text ++ behind).dropWhile isBlank = text ++ behind := by
  obtain ⟨c, rest, rfl⟩ := List.exists_cons_of_ne_nil hne
  have hc : isBlank c = false := htext c List.mem_cons_self
  rw [List.append_assoc, List.dropWhile_append_of_pos hbefore]
  exact List.dropWhile_cons_of_neg (by simp [hc])

theorem trim_append (hbefore : ∀ c ∈ before, isBlank c = true)
    (htext : ∀ c ∈ text, isBlank c = false) (hne : text ≠ [])
    (hbehind : ∀ c ∈ behind, isBlank c = true) : trim (before ++ text ++ behind) = text := by
  have hback : (behind.reverse ++ text.reverse ++ []).dropWhile isBlank = text.reverse ++ [] :=
    dropWhile_isBlank_append (by simpa using hbehind) (by simpa using htext) (by simpa using hne)
  rw [List.append_nil, List.append_nil] at hback
  rw [trim, dropWhile_isBlank_append hbefore htext hne, List.reverse_append]
  rw [hback, List.reverse_reverse]

end Text

namespace Value

open Number

section

variable {before behind text front : List Char} {value : Int64}

/-! ## What texts are read as -/

theorem readNumber_of_writes (h : Writes (Text.trim text) value) : readNumber text = int value := by
  unfold readNumber
  dsimp only
  rw [readInt64?_eq_some_iff.mpr h]

theorem toInt?_of_writes (h : Writes (Text.trim text) value) :
    (Value.text (String.ofList text)).toInt? = some (int value) := by
  unfold toInt? readWhole?
  dsimp only
  rw [String.toList_ofList, readInt64?_eq_some_iff.mpr h]
  rfl

theorem trim_of_writes (h : Writes text value) (hbefore : ∀ c ∈ before, Text.isBlank c = true)
    (hbehind : ∀ c ∈ behind, Text.isBlank c = true) :
    Text.trim (before ++ text ++ behind) = text := by
  obtain ⟨sign, digits, hsign, ⟨hne, hdigits⟩, rfl, -⟩ := h
  refine Text.trim_append hbefore ?_ (List.append_ne_nil_of_right_ne_nil sign hne) hbehind
  intro c hc
  rcases isDigit_or_sign hsign hdigits c hc with hdigit | rfl | rfl
  · exact eq_false_of_ne_true (Text.not_isBlank_of_isDigit hdigit)
  · decide
  · decide

theorem writes_trim_intText (value : Int64) (hbefore : ∀ c ∈ before, Text.isBlank c = true)
    (hbehind : ∀ c ∈ behind, Text.isBlank c = true) :
    Writes (Text.trim (before ++ intText value.toInt ++ behind)) value := by
  rw [trim_of_writes (writes_intText value) hbefore hbehind]
  exact writes_intText value

/-- A text that writes neither a whole number of 64 bits nor a finite real number is read as the
number that it begins with, if that has 64 bits, else as zero. -/
theorem readNumber_eq (hwhole : ∀ value, ¬Writes (Text.trim text) value)
    (hreal : ∀ x, readReal? (Text.trim text) = some x → isFinite x = false) :
    readNumber text = int ((readInt64? (leadingDigits (Text.trim text))).getD 0) := by
  have hnot : (readReal? (Text.trim text)).filter isFinite = none :=
    Option.filter_eq_none_iff.mpr fun x hx => by simp [hreal x hx]
  unfold readNumber
  dsimp only
  rw [readInt64?_eq_none_iff.mpr hwhole, hnot]

/-! ## Byte indices -/

/-- The part of a text in front of a byte index; none where that is not between characters. -/
def sliceTo? (text : String) (index : Nat) : Option String :=
  if h : (⟨index⟩ : String.Pos.Raw).IsValid text then
    some (text.sliceTo (text.pos ⟨index⟩ h)).copy
  else none

/-- The characters of a text, each with the byte index at which it starts. -/
def charIndices (start : Nat) : List Char → List (Nat × Char)
  | [] => []
  | c :: text => (start, c) :: charIndices (start + c.utf8Size) text

/-- May a character that starts at this byte index be in a whole number? -/
def isLeading : Nat × Char → Bool
  | (start, c) => c.isDigit || start == 0 && (c == '-' || c == '+')

/-- Reads a text as a number, as `readNumber` does, but cuts off the number that it begins with at a
byte index. As that it takes how many characters there are in front; none where it would cut a
character into pieces. -/
def readCut? (text : String) : Option Value :=
  let trimmed := String.ofList (Text.trim text.toList)
  match readInt64? trimmed.toList with
  | some value => some (int value)
  | none =>
    match (readReal? trimmed.toList).filter isFinite with
    | some value => some (real value)
    | none =>
      let index := ((charIndices 0 trimmed.toList).takeWhile isLeading).length
      (sliceTo? trimmed index).map fun front => int ((readInt64? front.toList).getD 0)

theorem sliceTo?_append (front behind : String) :
    sliceTo? (front ++ behind) front.utf8ByteSize = some front := by
  have hvalid : (⟨front.utf8ByteSize⟩ : String.Pos.Raw).IsValid (front ++ behind) :=
    String.Pos.Raw.isValid_iff_exists_append.mpr ⟨front, behind, rfl, rfl⟩
  have hsplits : ((front ++ behind).pos ⟨front.utf8ByteSize⟩ hvalid).Splits front behind :=
    ⟨rfl, rfl⟩
  rw [sliceTo?, dif_pos hvalid, hsplits.copy_sliceTo_eq]

theorem map_takeWhile_charIndices {start : Nat} (hstart : 0 < start) (text : List Char) :
    ((charIndices start text).takeWhile isLeading).map Prod.snd = text.takeWhile Char.isDigit := by
  induction text generalizing start with
  | nil => rfl
  | cons c text ih =>
    have hleading : isLeading (start, c) = c.isDigit := by
      simp [isLeading, Nat.ne_of_gt hstart]
    rw [charIndices, List.takeWhile_cons, List.takeWhile_cons, hleading]
    split
    · rw [List.map_cons, ih (Nat.add_pos_left hstart _)]
    · rfl

theorem map_takeWhile_charIndices_zero (text : List Char) :
    ((charIndices 0 text).takeWhile isLeading).map Prod.snd = leadingDigits text := by
  cases text with
  | nil => rfl
  | cons c text =>
    have hleading : isLeading (0, c) = (c.isDigit || c == '-' || c == '+') := by
      simp [isLeading, Bool.or_assoc]
    rw [charIndices, List.takeWhile_cons, hleading, leadingDigits]
    split
    · rw [List.map_cons, map_takeWhile_charIndices (by simpa using c.utf8Size_pos)]
    · rfl

theorem utf8ByteSize_ofList (h : ∀ c ∈ text, c.utf8Size = 1) :
    (String.ofList text).utf8ByteSize = text.length := by
  induction text with
  | nil => rfl
  | cons c text ih =>
    obtain ⟨hc, hrest⟩ := List.forall_mem_cons.mp h
    rw [String.ofList_cons, String.utf8ByteSize_append, String.utf8ByteSize_singleton, hc, ih hrest,
      List.length_cons, Nat.add_comm]

theorem utf8Size_of_isBeginning (h : IsBeginning text front) : ∀ c ∈ front, c.utf8Size = 1 := by
  obtain ⟨-, sign, digits, hsign, hdigits, rfl⟩ := h
  intro c hc
  rcases isDigit_or_sign hsign hdigits c hc with hdigit | rfl | rfl
  · obtain ⟨-, hhigh⟩ : 0x30 ≤ c.toNat ∧ c.toNat ≤ 0x39 := Char.isDigit_iff_toNat.mp hdigit
    exact Char.utf8Size_eq_one_iff.mpr (UInt32.le_iff_toNat_le.mpr (Nat.le_trans hhigh (by decide)))
  · rfl
  · rfl

theorem sliceTo?_leading (text : List Char) :
    sliceTo? (String.ofList text) ((charIndices 0 text).takeWhile isLeading).length =
      some (String.ofList (leadingDigits text)) := by
  have hbegins := isBeginning_leadingDigits text
  have hcount : ((charIndices 0 text).takeWhile isLeading).length =
      (String.ofList (leadingDigits text)).utf8ByteSize := by
    rw [utf8ByteSize_ofList (utf8Size_of_isBeginning hbegins), ← map_takeWhile_charIndices_zero,
      List.length_map]
  obtain ⟨behind, hbehind⟩ := hbegins.1
  have htext : String.ofList text = String.ofList (leadingDigits text) ++ String.ofList behind := by
    rw [← String.ofList_append, hbehind]
  rw [hcount, htext]
  exact sliceTo?_append _ _

/-- No character is cut into pieces. -/
theorem readCut?_eq (text : String) : readCut? text = some (Value.text text).toNumber := by
  unfold readCut? toNumber readNumber
  dsimp only
  rw [String.toList_ofList, sliceTo?_leading]
  cases readInt64? (Text.trim text.toList) with
  | some value => rfl
  | none =>
    cases (readReal? (Text.trim text.toList)).filter isFinite with
    | some value => rfl
    | none =>
      dsimp only
      rw [Option.map_some, String.toList_ofList]

end

/-! ## Texts that are stored -/

/-- A variable of texts takes any number, as the text that is written for it. -/
theorem exists_setValue?_int {store : Store} {id : VariableId} {var : Variable}
    (hvar : store.get? id = some var) (htype : store.lowestType var.type = stringType)
    (index : Nat) (value : Int64) :
    ∃ after, store.setValue? id (int value) index = some after ∧
      after.value? id index = some (text (int value).display) := by
  have hbasic : store.cellOf var = ⟨some stringType, var.values⟩ := by
    unfold Store.cellOf
    rw [(Store.basicType_eq_some (by simp)).mpr htype]
  have hset := Store.setValue?_eq hvar (int value) index
  rw [hbasic] at hset
  refine ⟨_, hset, ?_⟩
  rw [Store.value?, Store.get?_withValues, if_pos rfl, hvar]
  exact Store.getElem?_setSlot _ _ _ _

/-- Texts are read as numbers, all of them, and never at an index inside of a character. What is
written for a number of 64 bits is read as that number, with any blanks around it, and so it is
where it has been stored in a variable of texts. A text that writes neither such a number nor a
finite real one is read as the number that it begins with: as what its longest beginning writes that
is an optional sign and digits, and as zero if that writes no number of 64 bits. -/
theorem reads_numbers :
    (∀ written : String, readCut? written = some (text written).toNumber) ∧
    (∀ (value : Int64) (before behind : List Char),
      (∀ c ∈ before ++ behind, Text.isBlank c = true) →
      (text (String.ofList (before ++ (int value).display.toList ++ behind))).toNumber =
        int value) ∧
    (∀ (store : Store) (id : VariableId) (var : Variable) (index : Nat) (value : Int64),
      store.get? id = some var → store.lowestType var.type = stringType →
      ∃ after written, store.setValue? id (int value) index = some after ∧
        after.value? id index = some (text written) ∧
          (text written).convert? intType = some (int value)) ∧
    ∀ written : String, (∀ value, ¬Writes (Text.trim written.toList) value) →
      (∀ x, readReal? (Text.trim written.toList) = some x → isFinite x = false) →
      ∃ front, IsLongestBeginning (Text.trim written.toList) front ∧
        (∀ value, Writes front value → (text written).toNumber = int value) ∧
        ((∀ value, ¬Writes front value) → (text written).toNumber = int 0) := by
  refine ⟨readCut?_eq, ?_, ?_, ?_⟩
  · intro value before behind hblank
    obtain ⟨hbefore, hbehind⟩ := List.forall_mem_append.mp hblank
    rw [toNumber, display, String.toList_ofList, String.toList_ofList]
    exact readNumber_of_writes (writes_trim_intText value hbefore hbehind)
  · intro store id var index value hvar htype
    obtain ⟨after, hset, hstored⟩ := exists_setValue?_int hvar htype index value
    have hwrites := writes_trim_intText value (List.forall_mem_nil _) (List.forall_mem_nil _)
    rw [List.nil_append, List.append_nil] at hwrites
    exact ⟨after, _, hset, hstored, (if_pos rfl).trans (toInt?_of_writes hwrites)⟩
  · intro written hwhole hreal
    refine ⟨_, isLongestBeginning_leadingDigits _, fun value hvalue => ?_, fun hnone => ?_⟩
    · refine (readNumber_eq hwhole hreal).trans ?_
      rw [readInt64?_eq_some_iff.mpr hvalue]
      rfl
    · refine (readNumber_eq hwhole hreal).trans ?_
      rw [readInt64?_eq_none_iff.mpr hnone]
      rfl

/-- A store with a variable of texts, declared by another name of their type. -/
def namedTexts : Store where
  vars := #[⟨"s", "NAME", #[text ""], false⟩]
  names := [("s", 0)]
  types := [("NAME", .alias stringType), (stringType, .primitive)]

theorem reads_numbers_least :
    (text (String.ofList
        (['\u3000', '\n'] ++ (int Int64.minValue).display.toList ++ [' ']))).toNumber =
      int Int64.minValue ∧
      (∃ after written, namedTexts.setValue? 0 (int Int64.minValue) 2 = some after ∧
        after.value? 0 2 = some (text written) ∧
          (text written).convert? intType = some (int Int64.minValue)) ∧
      (text " -12é3").toNumber = int (-12) ∧ (text "+é3").toNumber = int 0 := by
  obtain ⟨-, hread, hstored, hleading⟩ := reads_numbers
  have hnotReal (written : String) (h : (readReal? (Text.trim written.toList)).isNone = true) :
      ∀ x, readReal? (Text.trim written.toList) = some x → isFinite x = false := by
    intro x hx
    rw [hx] at h
    cases h
  refine ⟨hread _ _ _ (List.all_eq_true.mp (by decide)), ?_, ?_, ?_⟩
  · exact hstored namedTexts 0 _ 2 Int64.minValue rfl (by decide +kernel)
  · obtain ⟨front, hfront, hwritten, -⟩ := hleading " -12é3"
      (readInt64?_eq_none_iff.mp (by decide +kernel)) (hnotReal _ (by decide +kernel))
    refine hwritten (-12) (readInt64?_eq_some_iff.mp ?_)
    rw [hfront.eq]
    decide +kernel
  · obtain ⟨front, hfront, -, hnone⟩ := hleading "+é3"
      (readInt64?_eq_none_iff.mp (by decide +kernel)) (hnotReal _ (by decide +kernel))
    refine hnone (readInt64?_eq_none_iff.mp ?_)
    rw [hfront.eq]
    decide +kernel

end Value

end LineGrammar
