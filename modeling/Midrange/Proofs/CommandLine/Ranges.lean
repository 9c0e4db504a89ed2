import Midrange.CommandLine.Settings
import Midrange.Proofs.Text.Numeral

namespace Midrange.CommandLine

open Text

variable {first second : List Char}

theorem rangeNumber_of_denotes {text : List Char} {number : Nat} (hdenotes : Denotes text number) :
    rangeNumber text = .ok (number : Int) := by
  rw [rangeNumber, hdenotes.readNumeral_eq]

/-- A text is cut at its first dash, and the parts are read apart. -/
theorem readRange_of_parts (hdash : '-' ∉ first) :
    readRange (String.ofList (first ++ '-' :: second)) = do
      let start ← rangeNumber first
      let stop ← rangeNumber second
      if stop ≤ start then .error (.empty (String.ofList (first ++ '-' :: second)))
      else return (start, stop) := by
  have hfirst : ∀ c ∈ first, decide (c ≠ '-') = true :=
    fun c hmem => decide_eq_true fun hc => hdash (hc ▸ hmem)
  have htake : (first ++ '-' :: second).takeWhile (· ≠ '-') = first := by
    rw [List.takeWhile_append_of_pos hfirst]
    simp
  have hdrop : (first ++ '-' :: second).dropWhile (· ≠ '-') = '-' :: second := by
    rw [List.dropWhile_append_of_pos hfirst]
    simp
  simp only [readRange, String.toList_ofList, htake, hdrop]

/-- In each notation a number is read for what it is, blanks around it or not, and two such numbers
    around a dash are a range unless the second one is not the higher one. -/
theorem notations_read_as_numbers :
    (∀ text number, Denotes text number → readNumeral text = .ok (number : Int)) ∧
    ∀ first second start stop, Denotes first start → Denotes second stop →
      readRange (String.ofList (first ++ '-' :: second)) =
        if start < stop then .ok ((start : Int), (stop : Int))
        else .error (.empty (String.ofList (first ++ '-' :: second))) := by
  refine ⟨fun text number => Denotes.readNumeral_eq,
    fun first second start stop hfirst hsecond => ?_⟩
  rw [readRange_of_parts hfirst.dash_not_mem, rangeNumber_of_denotes hfirst,
    rangeNumber_of_denotes hsecond]
  change (if (stop : Int) ≤ start then Except.error _
    else Except.ok ((start : Int), (stop : Int))) = _
  by_cases hless : start < stop
  · rw [if_neg (by omega), if_pos hless]
  · rw [if_pos (by omega), if_neg hless]

theorem notations_read_as_numbers_dollar_suffixed :
    Denotes ['$', '1', 'F'] 31 ∧ Denotes [' ', '0', '2', '0', 'h'] 32 ∧
    readNumeral ['$', '1', 'F'] = .ok 31 ∧
      readRange (String.ofList ['$', '1', 'F', '-', ' ', '0', '2', '0', 'h']) = .ok (31, 32) := by
  have hdollar : Spelling ['$', '1', 'F'] 31 :=
    .dollar ⟨by decide, [1, 15], .cons rfl (.cons rfl .nil), by decide⟩
  have hsuffixed : Spelling (['0', '2', '0'] ++ ['h']) 32 :=
    .suffixed (by decide) (Or.inl rfl) ⟨by decide, [0, 2, 0],
      .cons rfl (.cons rfl (.cons rfl .nil)), by decide⟩
  have hfirst : Denotes ['$', '1', 'F'] 31 :=
    ⟨[], _, [], rfl, by decide, by decide, hdollar, fun _ => by decide⟩
  have hsecond : Denotes [' ', '0', '2', '0', 'h'] 32 :=
    ⟨[' '], _, [], rfl, by decide, by decide, hsuffixed, fun _ => by decide⟩
  exact ⟨hfirst, hsecond, notations_read_as_numbers.1 _ _ hfirst,
    notations_read_as_numbers.2 _ _ _ _ hfirst hsecond⟩

end Midrange.CommandLine
