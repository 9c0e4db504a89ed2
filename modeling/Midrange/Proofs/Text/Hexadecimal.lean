import Mathlib.Logic.Function.Basic
import Midrange.Text.Format
import Midrange.Text.Lines

namespace Midrange.Text

variable {width value : Nat} {c : Char}

theorem toNat_of_hexDigitValue? (hvalue : hexDigitValue? c = some value) :
    (48 ≤ c.toNat ∧ c.toNat ≤ 57 ∧ value = c.toNat - 48) ∨
      (97 ≤ c.toNat ∧ c.toNat ≤ 102 ∧ value = c.toNat - 97 + 10) ∨
      (65 ≤ c.toNat ∧ c.toNat ≤ 70 ∧ value = c.toNat - 65 + 10) := by
  unfold hexDigitValue? at hvalue
  split at hvalue
  case isTrue hrange =>
    obtain rfl := Option.some.inj hvalue
    exact Or.inl ⟨hrange.1, hrange.2, rfl⟩
  split at hvalue
  case isTrue hrange =>
    obtain rfl := Option.some.inj hvalue
    exact Or.inr (Or.inl ⟨hrange.1, hrange.2, rfl⟩)
  split at hvalue
  case isTrue hrange =>
    obtain rfl := Option.some.inj hvalue
    exact Or.inr (Or.inr ⟨hrange.1, hrange.2, rfl⟩)
  cases hvalue

theorem hexDigitValue?_lt (hvalue : hexDigitValue? c = some value) : value < 16 := by
  have hcases := toNat_of_hexDigitValue? hvalue
  omega

/-- No digit is a blank. -/
theorem isAsciiBlank_of_hexDigitValue? (hvalue : hexDigitValue? c = some value) :
    isAsciiBlank c = false := by
  have hcases := toNat_of_hexDigitValue? hvalue
  have hspace : c ≠ ' ' := by
    rintro rfl
    cases hvalue
  have hcontrol : ¬ c ≤ '\r' := by
    intro hle
    have hnat : c.toNat ≤ 13 := hle
    omega
  simp only [isAsciiBlank, Bool.or_eq_false_iff, beq_eq_false_iff_ne, Bool.and_eq_false_iff,
    decide_eq_false_iff_not]
  exact ⟨hspace, Or.inr hcontrol⟩

/-- The number that hexadecimal digits stand for, the most significant first. -/
def hexValue (digits : List Char) : Nat :=
  digits.foldl (fun value c => 16 * value + (hexDigitValue? c).getD 0) 0

private theorem hexDigitValue?_digitChar :
    ∀ digit < 16, hexDigitValue? (Nat.digitChar digit).toUpper = some digit := by
  decide

private theorem hexDigits_of_lt (hless : value < 16) :
    hexDigits value = [(Nat.digitChar value).toUpper] := by
  rw [hexDigits, Nat.toDigits_of_lt_base hless]
  rfl

private theorem hexDigits_of_le (hle : 16 ≤ value) :
    hexDigits value = hexDigits (value / 16) ++ [(Nat.digitChar (value % 16)).toUpper] := by
  rw [hexDigits, Nat.toDigits_of_base_le (by decide) hle, List.map_append]
  rfl

theorem hexValue_append (digits : List Char) (c : Char) :
    hexValue (digits ++ [c]) = 16 * hexValue digits + (hexDigitValue? c).getD 0 := by
  simp [hexValue]

/-- Hexadecimal digits read back as the number that they were made from. -/
theorem hexValue_hexDigits (value : Nat) : hexValue (hexDigits value) = value := by
  induction value using Nat.strongRecOn with
  | ind value ih =>
    by_cases hless : value < 16
    · rw [hexDigits_of_lt hless]
      simp [hexValue, hexDigitValue?_digitChar value hless]
    · have hdigit := hexDigitValue?_digitChar (value % 16) (Nat.mod_lt _ (by decide))
      rw [hexDigits_of_le (by omega), hexValue_append, ih _ (by omega), hdigit, Option.getD_some]
      omega

/-- Zeros in front do not change the number. -/
theorem hexValue_zeroPadded (width : Nat) (digits : List Char) :
    hexValue (zeroPadded width digits) = hexValue digits := by
  have hzeros (count : Nat) : hexValue (List.replicate count '0') = 0 := by
    induction count with
    | zero => rfl
    | succ count ih => rw [List.replicate_succ', hexValue_append, ih]; rfl
  have hpadded := hzeros (width - digits.length)
  rw [hexValue] at hpadded
  rw [zeroPadded, hexValue, List.foldl_append, hpadded, hexValue]

theorem exists_digit_of_mem_hexDigits (hmem : c ∈ hexDigits value) :
    ∃ digit < 16, c = (Nat.digitChar digit).toUpper := by
  induction value using Nat.strongRecOn with
  | ind value ih =>
    by_cases hless : value < 16
    · rw [hexDigits_of_lt hless, List.mem_singleton] at hmem
      exact ⟨value, hless, hmem⟩
    · rw [hexDigits_of_le (by omega), List.mem_append, List.mem_singleton] at hmem
      obtain hmem | hlast := hmem
      · exact ih _ (by omega) hmem
      · exact ⟨value % 16, Nat.mod_lt _ (by decide), hlast⟩

/-- No digit is a minus sign. -/
theorem minus_not_mem_hexDigits (value : Nat) : '-' ∉ hexDigits value := by
  intro hmem
  obtain ⟨digit, hless, hdigit⟩ := exists_digit_of_mem_hexDigits hmem
  have hnone : ∀ digit < 16, '-' ≠ (Nat.digitChar digit).toUpper := by decide
  exact hnone digit hless hdigit

theorem minus_not_mem_zeroPadded (width value : Nat) :
    '-' ∉ zeroPadded width (hexDigits value) := by
  simp [zeroPadded, minus_not_mem_hexDigits]

/-- What holds of a minus sign and of every digit holds of all characters of a number in
    hexadecimal. -/
theorem forall_mem_hexadecimal {p : Char → Prop} (hminus : p '-')
    (hdigit : ∀ digit < 16, p (Nat.digitChar digit).toUpper) (width : Nat) (value : Int) :
    ∀ c ∈ (hexadecimal width value).toList, p c := by
  have hpadded (width value : Nat) : ∀ c ∈ zeroPadded width (hexDigits value), p c := by
    intro c hmem
    obtain hzero | hmem := List.mem_append.mp hmem
    · rw [List.eq_of_mem_replicate hzero]
      exact hdigit 0 (by decide)
    · obtain ⟨digit, hless, rfl⟩ := exists_digit_of_mem_hexDigits hmem
      exact hdigit digit hless
  unfold hexadecimal
  split
  · rw [String.toList_ofList, List.forall_mem_cons]
    exact ⟨hminus, hpadded _ _⟩
  · rw [String.toList_ofList]
    exact hpadded _ _

/-- The number that a run of hexadecimal digits spells. -/
def readHexDigits? (digits : List Char) : Option Nat :=
  if digits ≠ [] ∧ digits.all fun c => (hexDigitValue? c).isSome then some (hexValue digits)
  else none

/-- The number that hexadecimal digits spell, which a minus sign may lead. -/
def readHexadecimal? : List Char → Option Int
  | '-' :: digits => (readHexDigits? digits).map fun value : Nat => -(value : Int)
  | digits => (readHexDigits? digits).map Int.ofNat

private theorem readHexDigits?_zeroPadded (width value : Nat) :
    readHexDigits? (zeroPadded width (hexDigits value)) = some value := by
  have hvalue := (hexValue_zeroPadded width _).trans (hexValue_hexDigits value)
  have hnonempty : zeroPadded width (hexDigits value) ≠ [] := by
    have hdigits : hexDigits value ≠ [] := by simp [hexDigits]
    simp [zeroPadded, hdigits]
  have hdigits : (zeroPadded width (hexDigits value)).all (fun c => (hexDigitValue? c).isSome) =
      true := by
    rw [List.all_eq_true]
    intro c hmem
    obtain hzero | hmem := List.mem_append.mp hmem
    · rw [List.eq_of_mem_replicate hzero]
      rfl
    · obtain ⟨digit, hless, rfl⟩ := exists_digit_of_mem_hexDigits hmem
      rw [hexDigitValue?_digitChar digit hless]
      rfl
  rw [readHexDigits?, if_pos ⟨hnonempty, hdigits⟩, hvalue]

/-- A number is read back from its hexadecimal form, whatever the width. -/
theorem readHexadecimal?_hexadecimal (width : Nat) (value : Int) :
    readHexadecimal? (hexadecimal width value).toList = some value := by
  have hunsigned {digits : List Char} (hminus : '-' ∉ digits) :
      readHexadecimal? digits = (readHexDigits? digits).map Int.ofNat := by
    unfold readHexadecimal?
    split
    · exact absurd List.mem_cons_self hminus
    · rfl
  unfold hexadecimal
  split
  case isTrue hnegative =>
    rw [String.toList_ofList, readHexadecimal?, readHexDigits?_zeroPadded, Option.map_some,
      Option.some.injEq]
    omega
  case isFalse hpositive =>
    rw [String.toList_ofList, hunsigned (minus_not_mem_zeroPadded _ _), readHexDigits?_zeroPadded,
      Option.map_some, Option.some.injEq, Int.ofNat_eq_natCast]
    omega

/-- Numbers in hexadecimal differ, whatever the width. -/
theorem hexadecimal_injective (width : Nat) : Function.Injective (hexadecimal width) := by
  intro left right heq
  have hread := congrArg (fun text => readHexadecimal? text.toList) heq
  simpa only [readHexadecimal?_hexadecimal, Option.some.injEq] using hread

end Midrange.Text
