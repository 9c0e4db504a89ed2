import Mathlib.Data.List.Induction
import Mathlib.Order.Bounds.Basic
import Midrange.Image.HexFile
import Midrange.Proofs.Image.Record

namespace Midrange

open Record (Carries Broken)

namespace HexFile

/-- The lines of a file without the blanks around them. -/
def linesOf (text : String) : List (List Char) :=
  (Text.lines text.toList).map (Text.trim Text.isBlank)

/-- A line carries the record that ends a file. -/
def EndsFile (line : List Char) : Prop :=
  ∃ record, Carries line record ∧ record.kind = 1

/-- A line sets what the addresses on the lines behind it are relative to. -/
inductive Extends (line : List Char) : Nat → Prop where
  | segment {address high low : Nat} (hcarries : Carries line ⟨address, 2, [high, low]⟩) :
      Extends line ((0x100 * high + low) * 0x10)
  | linear {address high low : Nat} (hcarries : Carries line ⟨address, 4, [high, low]⟩) :
      Extends line ((0x100 * high + low) * 0x10000)

/-- What addresses are relative to behind some lines, as set by the last line that sets it, and zero
    before any. -/
inductive Based : List (List Char) → Nat → Prop where
  | start : Based [] 0
  | extended {before : List (List Char)} {line : List Char} {upper : Nat}
      (hextends : Extends line upper) : Based (before ++ [line]) upper
  | kept {before : List (List Char)} {line : List Char} {upper : Nat} (hbased : Based before upper)
      (hnone : ∀ other, ¬ Extends line other) : Based (before ++ [line]) upper

/-- Behind some lines, a line puts a byte of its data at a byte address. -/
def Lands (before : List (List Char)) (line : List Char) (byteAddress : Int) (value : Nat) : Prop :=
  ∃ upper record, Based before upper ∧ Carries line record ∧ record.kind = 0 ∧
    ∃ index : Nat, record.data[index]? = some value ∧
      ((upper + record.address : Nat) : Int) + index = byteAddress

/-- Some line puts a byte at a byte address. -/
def Landed (lines : List (List Char)) (byteAddress : Int) : Prop :=
  ∃ before line after value, lines = before ++ line :: after ∧ Lands before line byteAddress value

/-- The last byte that lines put at a byte address. -/
inductive Last : List (List Char) → Int → Nat → Prop where
  | here {before : List (List Char)} {line : List Char} {byteAddress : Int} {value : Nat}
      (hlands : Lands before line byteAddress value) : Last (before ++ [line]) byteAddress value
  | earlier {before : List (List Char)} {line : List Char} {byteAddress : Int} {value : Nat}
      (hlast : Last before byteAddress value)
      (hnone : ∀ other, ¬ Lands before line byteAddress other) :
      Last (before ++ [line]) byteAddress value

/-- What a half of a word is: the last byte that lines put there, and zero if there is none. -/
def Half (lines : List (List Char)) (byteAddress : Int) (value : Nat) : Prop :=
  Last lines byteAddress value ∨ ¬ Landed lines byteAddress ∧ value = 0

/-- What is wrong with a line where addresses are relative to some base: it carries no record, or
    one of an unknown kind, or one that sets the base without just two bytes, or one with a byte
    beyond the last word. -/
inductive Malformed (upper : Nat) (line : List Char) : Prop where
  | broken (hbroken : Broken line)
  | unknown {record : Record} (hcarries : Carries line record) (hkind : 5 < record.kind)
  | extension {record : Record} (hcarries : Carries line record)
      (hkind : record.kind = 2 ∨ record.kind = 4) (hlength : record.data.length ≠ 2)
  | beyond {record : Record} (hcarries : Carries line record) (hkind : record.kind = 0)
      {index : Nat} (hindex : index < record.data.length)
      (hbeyond : 0x2200 ≤ (upper + record.address + index) / 2)

/-- The line at a place is neither blank nor well-formed, and no line in front of it ends the
    file. -/
def Wrong (lines : List (List Char)) (place : Nat) : Prop :=
  ∃ line upper, lines[place]? = some line ∧ line ≠ [] ∧
    (∀ earlier ∈ lines.take place, ¬ EndsFile earlier) ∧
    Based (lines.take place) upper ∧ Malformed upper line

variable {before lines : List (List Char)} {line : List Char} {byteAddress : Int}
  {value upper other : Nat} {record : Record}

theorem malformed_iff (hcarries : Carries line record) : Malformed upper line ↔
    5 < record.kind ∨ (record.kind = 2 ∨ record.kind = 4) ∧ record.data.length ≠ 2 ∨
      record.kind = 0 ∧ ∃ index < record.data.length,
        0x2200 ≤ (upper + record.address + index) / 2 := by
  constructor
  · intro hmalformed
    cases hmalformed with
    | broken hbroken => exact absurd hcarries hbroken.not_carries
    | unknown hcarries' hkind =>
      obtain rfl := hcarries.unique hcarries'
      exact Or.inl hkind
    | extension hcarries' hkind hlength =>
      obtain rfl := hcarries.unique hcarries'
      exact Or.inr (Or.inl ⟨hkind, hlength⟩)
    | beyond hcarries' hkind hindex hbeyond =>
      obtain rfl := hcarries.unique hcarries'
      exact Or.inr (Or.inr ⟨hkind, _, hindex, hbeyond⟩)
  · rintro (hkind | ⟨hkind, hlength⟩ | ⟨hkind, index, hindex, hbeyond⟩)
    · exact .unknown hcarries hkind
    · exact .extension hcarries hkind hlength
    · exact .beyond hcarries hkind hindex hbeyond

theorem endsFile_iff (hcarries : Carries line record) : EndsFile line ↔ record.kind = 1 := by
  constructor
  · rintro ⟨record', hcarries', hkind⟩
    rwa [hcarries.unique hcarries']
  · exact fun hkind => ⟨record, hcarries, hkind⟩

theorem Extends.unique (hextends : Extends line upper) (hother : Extends line other) :
    upper = other := by
  cases hextends with
  | segment hcarries =>
    cases hother with
    | segment hcarries' =>
      cases hcarries.unique hcarries'
      rfl
    | linear hcarries' => cases hcarries.unique hcarries'
  | linear hcarries =>
    cases hother with
    | segment hcarries' => cases hcarries.unique hcarries'
    | linear hcarries' =>
      cases hcarries.unique hcarries'
      rfl

theorem based_concat_iff : Based (before ++ [line]) upper ↔
    Extends line upper ∨ Based before upper ∧ ∀ other, ¬ Extends line other := by
  constructor
  · intro hbased
    generalize hlines : before ++ [line] = lines at hbased
    cases hbased with
    | start => simp at hlines
    | extended hextends =>
      obtain ⟨rfl, rfl⟩ := List.append_singleton_inj.mp hlines
      exact Or.inl hextends
    | kept hbased hnone =>
      obtain ⟨rfl, rfl⟩ := List.append_singleton_inj.mp hlines
      exact Or.inr ⟨hbased, hnone⟩
  · rintro (hextends | ⟨hbased, hnone⟩)
    · exact .extended hextends
    · exact .kept hbased hnone

theorem Based.unique (hbased : Based lines upper) (hother : Based lines other) : upper = other := by
  induction hbased with
  | start =>
    generalize hlines : ([] : List (List Char)) = lines at hother
    cases hother with
    | start => rfl
    | extended | kept => simp at hlines
  | extended hextends =>
    obtain hextends' | ⟨_, hnone⟩ := based_concat_iff.mp hother
    · exact hextends.unique hextends'
    · exact absurd hextends (hnone _)
  | kept _ hnone ih =>
    obtain hextends | ⟨hbased, _⟩ := based_concat_iff.mp hother
    · exact absurd hextends (hnone _)
    · exact ih hbased

theorem landed_concat_iff : Landed (before ++ [line]) byteAddress ↔
    Landed before byteAddress ∨ ∃ value, Lands before line byteAddress value := by
  constructor
  · rintro ⟨before', line', after, value, hlines, hlands⟩
    obtain rfl | ⟨after, last, hafter⟩ := List.eq_nil_or_concat after
    · obtain ⟨rfl, rfl⟩ := List.append_singleton_inj.mp hlines
      exact Or.inr ⟨value, hlands⟩
    · rw [hafter, List.concat_eq_append, ← List.cons_append, ← List.append_assoc] at hlines
      obtain ⟨rfl, -⟩ := List.append_singleton_inj.mp hlines
      exact Or.inl ⟨before', line', after, value, rfl, hlands⟩
  · rintro (⟨before', line', after, value, rfl, hlands⟩ | ⟨value, hlands⟩)
    · exact ⟨before', line', after ++ [line], value, by simp, hlands⟩
    · exact ⟨before, line, [], value, rfl, hlands⟩

theorem last_concat_iff : Last (before ++ [line]) byteAddress value ↔
    Lands before line byteAddress value ∨
    Last before byteAddress value ∧ ∀ other, ¬ Lands before line byteAddress other := by
  constructor
  · intro hlast
    generalize hlines : before ++ [line] = lines at hlast
    cases hlast with
    | here hlands =>
      obtain ⟨rfl, rfl⟩ := List.append_singleton_inj.mp hlines
      exact Or.inl hlands
    | earlier hlast hnone =>
      obtain ⟨rfl, rfl⟩ := List.append_singleton_inj.mp hlines
      exact Or.inr ⟨hlast, hnone⟩
  · rintro (hlands | ⟨hlast, hnone⟩)
    · exact .here hlands
    · exact .earlier hlast hnone

theorem not_last_nil : ¬ Last [] byteAddress value := by
  intro hlast
  generalize hlines : ([] : List (List Char)) = lines at hlast
  cases hlast <;> simp at hlines

theorem not_landed_nil : ¬ Landed [] byteAddress := by
  rintro ⟨before, line, after, value, hlines, _⟩
  simp at hlines

/-- Wherever bytes are put, one of them is the last. -/
theorem exists_last_iff : (∃ value, Last lines byteAddress value) ↔ Landed lines byteAddress := by
  induction lines using List.reverseRecOn with
  | nil => exact iff_of_false (fun ⟨_, hlast⟩ => not_last_nil hlast) not_landed_nil
  | append_singleton before line ih =>
    rw [landed_concat_iff, ← ih]
    by_cases hlands : ∃ value, Lands before line byteAddress value
    · obtain ⟨value, hvalue⟩ := hlands
      exact iff_of_true ⟨value, .here hvalue⟩ (Or.inr ⟨value, hvalue⟩)
    · simp only [last_concat_iff, hlands, or_false]
      rw [not_exists] at hlands
      simp [hlands]

end HexFile

end Midrange
