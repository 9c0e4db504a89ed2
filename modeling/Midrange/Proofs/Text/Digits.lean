import Mathlib.Data.List.Forall2
import Mathlib.Data.List.Induction
import Mathlib.Data.Nat.Digits.Defs
import Midrange.Proofs.Text.Lines
import Midrange.Proofs.Text.Fields
import Midrange.Text.Numeral

namespace Midrange.Text

/-- The value of a digit of ASCII that is below the base. -/
def Radix.plainDigit? (radix : Radix) (c : Char) : Option Nat :=
  (hexDigitValue? c).filter (· < radix.size)

/-- Digits of ASCII spell a number by their places, the most significant one first. -/
def Radix.Spells (radix : Radix) (digits : List Char) (value : Nat) : Prop :=
  digits ≠ [] ∧ ∃ values,
    List.Forall₂ (fun c value => radix.plainDigit? c = some value) digits values ∧
    Nat.ofDigits radix.size values.reverse = value

/-- Digits of any script. Any two next to each other may have one underscore between them. -/
inductive Run (radix : Radix) : List Char → List Nat → Prop where
  | last {c : Char} {value : Nat} (hvalue : radix.digit? c = some value) : Run radix [c] [value]
  | digit {c : Char} {value : Nat} {rest : List Char} {values : List Nat}
      (hvalue : radix.digit? c = some value) (hrest : Run radix rest values) :
      Run radix (c :: rest) (value :: values)
  | underscore {c : Char} {value : Nat} {rest : List Char} {values : List Nat}
      (hvalue : radix.digit? c = some value) (hrest : Run radix rest values) :
      Run radix (c :: '_' :: rest) (value :: values)

/-- What may lead the digits of a hexadecimal number: a zero of any script and an x, behind which an
    underscore may stand. -/
inductive Lead : Radix → List Char → Prop where
  | absent (radix : Radix) : Lead radix []
  | marked {first mark : Char} (hfirst : decimalValue? first = some 0)
      (hmark : mark = 'x' ∨ mark = 'X') : Lead .hexadecimal [first, mark]
  | parted {first mark : Char} (hfirst : decimalValue? first = some 0)
      (hmark : mark = 'x' ∨ mark = 'X') : Lead .hexadecimal [first, mark, '_']

/-- The sign of a number, and the factor that it stands for. -/
inductive Sign : List Char → Int → Prop where
  | absent : Sign [] 1
  | plus : Sign ['+'] 1
  | minus : Sign ['-'] (-1)

/-- A number of a base with all that is tolerated in it. -/
def Lenient (radix : Radix) (text : List Char) (value : Int) : Prop :=
  ∃ front sign lead run back factor values, text = front ++ sign ++ lead ++ run ++ back ∧
    (∀ c ∈ front, isNumeralBlank c = true) ∧ (∀ c ∈ back, isNumeralBlank c = true) ∧
    Sign sign factor ∧ Lead radix lead ∧ Run radix run values ∧
    (radix = .decimal → values.length ≤ decimalDigitLimit) ∧
    value = factor * Nat.ofDigits radix.size values.reverse

/-- The characters that mark a number, and those that may stand among its digits. -/
def marks : List Char :=
  ['_', '+', '-', 'x', 'X', '$', 'h', 'H']

variable {radix : Radix} {c : Char} {text rest : List Char} {values : List Nat}

section Digits

variable {value : Nat}

/-- What holds of each code of ASCII holds of its character. -/
theorem forall_ascii {p : Char → Prop} (hall : ∀ code < 0x80, p (Char.ofNat code))
    (hascii : c.toNat < 0x80) : p c := by
  have hchar := hall c.toNat hascii
  rwa [Char.ofNat_toNat] at hchar

theorem exists_first_of_decimalValue? (hvalue : decimalValue? c = some value) :
    ∃ first ∈ decimalZeros, c.toNat = first + value ∧ value < 10 := by
  obtain ⟨first, hfound, rfl⟩ := Option.map_eq_some_iff.mp hvalue
  have hrun := List.find?_some hfound
  simp only [Bool.and_eq_true, decide_eq_true_eq] at hrun
  exact ⟨first, List.mem_of_find?_eq_some hfound, by omega, by omega⟩

/-- No digit is a blank, whatever its script. -/
theorem isBlank_of_decimalValue? (hvalue : decimalValue? c = some value) : isBlank c = false := by
  have hnone : ∀ first ∈ decimalZeros, ∀ value < 10,
      isBlank (Char.ofNat (first + value)) = false := by
    decide +kernel
  obtain ⟨first, hfirst, hcode, hless⟩ := exists_first_of_decimalValue? hvalue
  have hblank := hnone first hfirst value hless
  rwa [← hcode, Char.ofNat_toNat] at hblank

namespace Radix

theorem isBlank_of_digit? (hvalue : radix.digit? c = some value) : isBlank c = false := by
  unfold digit? at hvalue
  split at hvalue
  · next hdecimal => exact isBlank_of_decimalValue? hdecimal
  · exact isBlank_of_hexDigitValue? hvalue
  · cases hvalue

theorem hexDigitValue?_of_plainDigit? (hvalue : radix.plainDigit? c = some value) :
    hexDigitValue? c = some value := by
  rw [plainDigit?, Option.filter_eq_some_iff] at hvalue
  exact hvalue.1

theorem toNat_lt_of_plainDigit? (hvalue : radix.plainDigit? c = some value) : c.toNat < 0x80 := by
  have hcases := toNat_of_hexDigitValue? (hexDigitValue?_of_plainDigit? hvalue)
  omega

/-- Of the digits of all scripts the plain ones are those of ASCII. -/
theorem digit?_of_ascii (hascii : c.toNat < 0x80) : radix.digit? c = radix.plainDigit? c := by
  refine forall_ascii (p := fun c => radix.digit? c = radix.plainDigit? c) ?_ hascii
  cases radix <;> decide +kernel

theorem digit?_of_plainDigit? (hvalue : radix.plainDigit? c = some value) :
    radix.digit? c = some value :=
  (digit?_of_ascii (toNat_lt_of_plainDigit? hvalue)).trans hvalue

end Radix

theorem isDigit_of_ascii (hascii : c.toNat < 0x80) :
    isDigit c = (Radix.decimal.plainDigit? c).isSome :=
  forall_ascii (p := fun c => isDigit c = (Radix.decimal.plainDigit? c).isSome)
    (by decide +kernel) hascii

end Digits

/-- None of the marks is a digit itself. -/
theorem not_mark_of_digit? {value : Nat} (hvalue : radix.digit? c = some value) : c ∉ marks := by
  have hnone : ∀ c ∈ marks, radix.digit? c = none := by cases radix <;> decide
  intro hmark
  rw [hnone c hmark] at hvalue
  cases hvalue

theorem digitsValue_eq_ofDigits (values : List Nat) :
    digitsValue radix values = Nat.ofDigits radix.size values.reverse := by
  induction values using List.reverseRecOn with
  | nil => rfl
  | append_singleton values value ih =>
    rw [digitsValue, List.foldl_append, ← digitsValue, ih, List.reverse_append,
      List.reverse_singleton, List.singleton_append, Nat.ofDigits_cons, List.foldl_cons,
      List.foldl_nil]
    simp [Nat.mul_comm, Nat.add_comm]

namespace Run

theorem exists_head (hrun : Run radix text values) :
    ∃ c rest value, text = c :: rest ∧ radix.digit? c = some value := by
  cases hrun with
  | last hvalue => exact ⟨_, _, _, rfl, hvalue⟩
  | digit hvalue => exact ⟨_, _, _, rfl, hvalue⟩
  | underscore hvalue => exact ⟨_, _, _, rfl, hvalue⟩

/-- A run of digits begins with none of the marks. -/
theorem head_not_mark (hrun : Run radix (c :: rest) values) : c ∉ marks := by
  obtain ⟨_, _, value, heq, hvalue⟩ := hrun.exists_head
  obtain ⟨rfl, rfl⟩ := List.cons.inj heq
  exact not_mark_of_digit? hvalue

/-- Each character of a run is a digit or an underscore. -/
theorem forall_mem (hrun : Run radix text values) :
    ∀ c ∈ text, c = '_' ∨ ∃ value, radix.digit? c = some value := by
  induction hrun with
  | last hvalue => exact List.forall_mem_singleton.mpr (Or.inr ⟨_, hvalue⟩)
  | digit hvalue _ ih => exact List.forall_mem_cons.mpr ⟨Or.inr ⟨_, hvalue⟩, ih⟩
  | underscore hvalue _ ih =>
    exact List.forall_mem_cons.mpr ⟨Or.inr ⟨_, hvalue⟩, List.forall_mem_cons.mpr ⟨Or.inl rfl, ih⟩⟩

end Run

theorem digitRun?_eq_some_iff : digitRun? radix text = some values ↔ Run radix text values := by
  constructor
  · intro hrun
    induction text using digitRun?.induct generalizing values with
    | case1 => cases hrun
    | case2 c =>
      obtain ⟨value, hvalue, rfl⟩ := Option.map_eq_some_iff.mp hrun
      exact .last hvalue
    | case3 c rest ih =>
      simp only [digitRun?, Option.bind_eq_bind, Option.bind_eq_some_iff, Option.pure_def,
        Option.some.injEq] at hrun
      obtain ⟨value, hvalue, more, hrest, rfl⟩ := hrun
      exact .underscore hvalue (ih hrest)
    | case4 c rest hlast hparted ih =>
      rw [digitRun?] at hrun
      · simp only [Option.bind_eq_bind, Option.bind_eq_some_iff, Option.pure_def,
          Option.some.injEq] at hrun
        obtain ⟨value, hvalue, more, hrest, rfl⟩ := hrun
        exact .digit hvalue (ih hrest)
      · exact hlast
      · exact hparted
  · intro hrun
    induction hrun with
    | last hvalue => simp [digitRun?, hvalue]
    | underscore hvalue _ ih => simp [digitRun?, hvalue, ih]
    | @digit c value rest values hvalue hrest ih =>
      rw [digitRun?]
      · simp [hvalue, ih]
      · rintro rfl
        obtain ⟨_, _, _, hnil, _⟩ := hrest.exists_head
        cases hnil
      · rintro more rfl
        exact hrest.head_not_mark List.mem_cons_self

/-- The digits of a number without its sign, behind what leads them. -/
def unled (radix : Radix) (text : List Char) : List Char :=
  match radix, text with
  | .hexadecimal, first :: mark :: rest =>
    if decimalValue? first = some 0 ∧ (mark = 'x' ∨ mark = 'X') then
      match rest with
      | '_' :: digits => digits
      | digits => digits
    else text
  | _, _ => text

theorem magnitude?_eq (radix : Radix) (text : List Char) : magnitude? radix text =
    (digitRun? radix (unled radix text)).bind fun digits =>
      if radix = .decimal ∧ decimalDigitLimit < digits.length then none
      else some (digitsValue radix digits) :=
  rfl

theorem exists_lead_unled (radix : Radix) (text : List Char) :
    ∃ lead, text = lead ++ unled radix text ∧ Lead radix lead := by
  unfold unled
  split
  · next first mark rest =>
    split
    · next hmarked =>
      split
      · exact ⟨_, rfl, .parted hmarked.1 hmarked.2⟩
      · exact ⟨_, rfl, .marked hmarked.1 hmarked.2⟩
    · exact ⟨[], rfl, .absent _⟩
  · exact ⟨[], rfl, .absent _⟩

/-- No run of digits looks led, since its second character is no mark. -/
theorem Run.unled_eq {run : List Char} (hrun : Run radix run values) : unled radix run = run := by
  unfold unled
  split
  · next first mark rest =>
    refine if_neg fun hmarked => ?_
    obtain hscore | ⟨value, hvalue⟩ := hrun.forall_mem mark (by simp)
    · obtain rfl | rfl := hmarked.2 <;> cases hscore
    · obtain rfl | rfl := hmarked.2 <;> exact not_mark_of_digit? hvalue (by decide)
  · rfl

theorem Lead.unled_append {lead run : List Char} (hlead : Lead radix lead)
    (hrun : Run radix run values) : unled radix (lead ++ run) = run := by
  cases hlead with
  | absent => exact hrun.unled_eq
  | parted hfirst hmark => exact if_pos ⟨hfirst, hmark⟩
  | marked hfirst hmark =>
    refine (if_pos ⟨hfirst, hmark⟩).trans ?_
    split
    · next digits hscore =>
      obtain rfl : run = '_' :: digits := hscore
      exact absurd List.mem_cons_self hrun.head_not_mark
    · rfl

/-- A number without its sign is a run of digits behind what may lead them. -/
theorem magnitude?_eq_some_iff {value : Nat} : magnitude? radix text = some value ↔
    ∃ lead run values, text = lead ++ run ∧ Lead radix lead ∧ Run radix run values ∧
      (radix = .decimal → values.length ≤ decimalDigitLimit) ∧
      Nat.ofDigits radix.size values.reverse = value := by
  simp only [magnitude?_eq, Option.bind_eq_some_iff, digitRun?_eq_some_iff,
    Option.ite_none_left_eq_some, not_and, Nat.not_lt, Option.some.injEq, digitsValue_eq_ofDigits]
  constructor
  · rintro ⟨values, hrun, hlimit, hvalue⟩
    obtain ⟨lead, htext, hlead⟩ := exists_lead_unled radix text
    exact ⟨lead, _, values, htext, hlead, hrun, hlimit, hvalue⟩
  · rintro ⟨lead, run, values, rfl, hlead, hrun, hlimit, hvalue⟩
    rw [hlead.unled_append hrun]
    exact ⟨values, hrun, hlimit, hvalue⟩

/-- Each character of a number without its sign is a digit, or one of the marks that may stand among
    digits. -/
theorem forall_mem_led {lead run : List Char} (hlead : Lead radix lead)
    (hrun : Run radix run values) :
    ∀ c ∈ lead ++ run, c ∈ ['_', 'x', 'X'] ∨ ∃ value, radix.digit? c = some value := by
  have hrun : ∀ c ∈ run, c ∈ ['_', 'x', 'X'] ∨ ∃ value, radix.digit? c = some value := fun c hmem =>
    (hrun.forall_mem c hmem).imp_left fun hscore => by simp [hscore]
  have hfirst {first : Char} (hzero : decimalValue? first = some 0) :
      Radix.hexadecimal.digit? first = some 0 := by
    simp [Radix.digit?, hzero]
  cases hlead with
  | absent => exact hrun
  | marked hzero hmark =>
    refine List.forall_mem_cons.mpr ⟨Or.inr ⟨0, hfirst hzero⟩,
      List.forall_mem_cons.mpr ⟨Or.inl ?_, hrun⟩⟩
    obtain rfl | rfl := hmark <;> decide
  | parted hzero hmark =>
    refine List.forall_mem_cons.mpr ⟨Or.inr ⟨0, hfirst hzero⟩, List.forall_mem_cons.mpr ⟨Or.inl ?_,
      List.forall_mem_cons.mpr ⟨Or.inl List.mem_cons_self, hrun⟩⟩⟩
    obtain rfl | rfl := hmark <;> decide

/-- A number has no blank within it, and a sign only in front. -/
theorem isBlank_and_unsigned_of_led {lead run : List Char} (hlead : Lead radix lead)
    (hrun : Run radix run values) : ∀ c ∈ lead ++ run, isBlank c = false ∧ c ≠ '+' ∧ c ≠ '-' := by
  intro c hmem
  obtain hmark | ⟨value, hvalue⟩ := forall_mem_led hlead hrun c hmem
  · have hmarks : ∀ c ∈ ['_', 'x', 'X'], isBlank c = false ∧ c ≠ '+' ∧ c ≠ '-' := by decide
    exact hmarks c hmark
  · refine ⟨Radix.isBlank_of_digit? hvalue, ?_, ?_⟩
    · rintro rfl
      exact not_mark_of_digit? hvalue (by decide)
    · rintro rfl
      exact not_mark_of_digit? hvalue (by decide)

theorem isNumeralBlank_of_isBlank (hblank : isBlank c = false) : isNumeralBlank c = false := by
  rw [isBlank_eq_isNumeralBlank_or_isSeparator, Bool.or_eq_false_iff] at hblank
  exact hblank.1

private theorem exists_magnitude_of_map {signed : Int → Int} {value : Int}
    (hread : (magnitude? radix text >>= fun number => pure (number : Int)).map signed =
      some value) :
    ∃ number : Nat, magnitude? radix text = some number ∧ signed number = value := by
  obtain ⟨_, hbound, hvalue⟩ := Option.map_eq_some_iff.mp hread
  obtain ⟨number, hnumber, hcast⟩ := Option.bind_eq_some_iff.mp hbound
  obtain rfl := Option.some.inj hcast
  exact ⟨number, hnumber, hvalue⟩

/-- Blanks around a number are passed over, and one sign in front of it tells whether it is
    negative. -/
theorem integer?_eq_some_iff {value : Int} : integer? radix text = some value ↔
    Lenient radix text value := by
  constructor
  · intro hread
    obtain ⟨front, back, htext, hfront, hback⟩ := exists_of_trim isNumeralBlank text
    have hparts : ∃ sign body factor, ∃ number : Nat, trim isNumeralBlank text = sign ++ body ∧
        Sign sign factor ∧ magnitude? radix body = some number ∧ value = factor * number := by
      unfold integer? at hread
      split at hread
      · next rest htrim =>
        obtain ⟨number, hnumber, rfl⟩ := exists_magnitude_of_map hread
        exact ⟨['-'], rest, -1, number, htrim, .minus, hnumber, by omega⟩
      · next rest htrim =>
        obtain ⟨number, hnumber, rfl⟩ := exists_magnitude_of_map hread
        exact ⟨['+'], rest, 1, number, htrim, .plus, hnumber, by omega⟩
      · obtain ⟨number, hnumber, rfl⟩ := exists_magnitude_of_map hread
        exact ⟨[], _, 1, number, rfl, .absent, hnumber, by omega⟩
    obtain ⟨sign, body, factor, number, htrim, hsign, hnumber, rfl⟩ := hparts
    obtain ⟨lead, run, values, rfl, hlead, hrun, hlimit, rfl⟩ := magnitude?_eq_some_iff.mp hnumber
    rw [htrim] at htext
    exact ⟨front, sign, lead, run, back, factor, values, by simpa using htext, hfront, hback, hsign,
      hlead, hrun, hlimit, rfl⟩
  · rintro ⟨front, sign, lead, run, back, factor, values, rfl, hfront, hback, hsign, hlead, hrun,
      hlimit, rfl⟩
    have hled := isBlank_and_unsigned_of_led hlead hrun
    have hsolid : ∀ c ∈ sign ++ (lead ++ run), isNumeralBlank c = false := by
      refine List.forall_mem_append.mpr ⟨?_,
        fun c hmem => isNumeralBlank_of_isBlank (hled c hmem).1⟩
      cases hsign <;> decide
    have htrim : trim isNumeralBlank (front ++ sign ++ lead ++ run ++ back) =
        sign ++ (lead ++ run) := by
      rw [← trim_append hfront hsolid hback]
      simp
    have hnumber : magnitude? radix (lead ++ run) = some (Nat.ofDigits radix.size values.reverse) :=
      magnitude?_eq_some_iff.mpr ⟨lead, run, values, rfl, hlead, hrun, hlimit, rfl⟩
    rw [integer?, htrim]
    cases hsign with
    | minus => simp [hnumber]
    | plus => simp [hnumber]
    | absent =>
      split
      · next rest hrest => exact absurd rfl (hled '-' (hrest ▸ List.mem_cons_self)).2.2
      · next rest hrest => exact absurd rfl (hled '+' (hrest ▸ List.mem_cons_self)).2.1
      · simp [hnumber]

section Plain

variable {digits : List Char} {number : Nat}

/-- A character of ASCII that is neither a blank nor a sign nor an underscore. -/
def Regular (c : Char) : Prop :=
  c.toNat < 0x80 ∧ isBlank c = false ∧ c ∉ ['+', '-', '_']

instance : DecidablePred Regular :=
  fun c => inferInstanceAs (Decidable (c.toNat < 0x80 ∧ isBlank c = false ∧ c ∉ ['+', '-', '_']))

theorem regular_of_plainDigit? (hdigit : (radix.plainDigit? c).isSome) : Regular c := by
  obtain ⟨value, hvalue⟩ := Option.isSome_iff_exists.mp hdigit
  have hread := Radix.digit?_of_plainDigit? hvalue
  have hmarks : ['+', '-', '_'] ⊆ marks := by decide
  exact ⟨Radix.toNat_lt_of_plainDigit? hvalue, Radix.isBlank_of_digit? hread,
    fun hmem => not_mark_of_digit? hread (hmarks hmem)⟩

namespace Radix.Spells

theorem forall_mem (hdigits : radix.Spells digits number) :
    ∀ c ∈ digits, (radix.plainDigit? c).isSome := by
  obtain ⟨-, values, hvalues, -⟩ := hdigits
  induction hvalues with
  | nil => exact List.forall_mem_nil _
  | cons hvalue _ ih => exact List.forall_mem_cons.mpr ⟨Option.isSome_of_mem hvalue, ih⟩

theorem exists_run (hdigits : radix.Spells digits number) : ∃ values, Run radix digits values ∧
    values.length = digits.length ∧ Nat.ofDigits radix.size values.reverse = number := by
  obtain ⟨hsome, values, hvalues, hnumber⟩ := hdigits
  refine ⟨values, ?_, hvalues.length_eq.symm, hnumber⟩
  clear hnumber
  induction hvalues with
  | nil => exact absurd rfl hsome
  | @cons c value rest values hvalue hrest ih =>
    cases hrest with
    | nil => exact .last (digit?_of_plainDigit? hvalue)
    | cons => exact .digit (digit?_of_plainDigit? hvalue) (ih (List.cons_ne_nil _ _))

theorem mark_not_mem (hdigits : radix.Spells digits number) (hmark : c ∈ marks) : c ∉ digits := by
  intro hmem
  obtain ⟨value, hvalue⟩ := Option.isSome_iff_exists.mp (hdigits.forall_mem c hmem)
  exact not_mark_of_digit? (digit?_of_plainDigit? hvalue) hmark

theorem regular (hdigits : radix.Spells digits number) : ∀ c ∈ digits, Regular c :=
  fun c hmem => regular_of_plainDigit? (hdigits.forall_mem c hmem)

/-- Plain digits are read, behind whatever may lead them. -/
theorem lenient {lead : List Char} (hlead : Lead radix lead) (hdigits : radix.Spells digits number)
    (hlimit : radix = .decimal → digits.length ≤ decimalDigitLimit) :
    Lenient radix (lead ++ digits) number := by
  obtain ⟨values, hrun, hlength, hnumber⟩ := hdigits.exists_run
  refine ⟨[], [], lead, digits, [], 1, values, by simp, by simp, by simp, .absent, hlead,
    hrun, ?_, ?_⟩
  · rwa [hlength]
  · rw [hnumber]
    simp

end Radix.Spells

/-- A run of regular characters consists of plain digits. -/
theorem Run.spells {values : List Nat} (hrun : Run radix digits values)
    (hregular : ∀ c ∈ digits, Regular c) :
    radix.Spells digits (Nat.ofDigits radix.size values.reverse) := by
  refine ⟨?_, values, ?_, rfl⟩
  · obtain ⟨c, rest, -, rfl, -⟩ := hrun.exists_head
    exact List.cons_ne_nil c rest
  · induction hrun with
    | last hvalue =>
      rw [Radix.digit?_of_ascii (hregular _ List.mem_cons_self).1] at hvalue
      exact .cons hvalue .nil
    | digit hvalue _ ih =>
      rw [List.forall_mem_cons] at hregular
      rw [Radix.digit?_of_ascii hregular.1.1] at hvalue
      exact .cons hvalue (ih hregular.2)
    | underscore => exact absurd (hregular '_' (by simp)) (by decide)

/-- If regular characters lead a number, then a zero of ASCII and a mark do. -/
theorem Lead.eq_of_regular {lead : List Char} (hlead : Lead radix lead)
    (hregular : ∀ c ∈ lead, Regular c) :
    lead = [] ∨ radix = .hexadecimal ∧ ∃ mark, (mark = 'x' ∨ mark = 'X') ∧ lead = ['0', mark] := by
  cases hlead with
  | absent => exact Or.inl rfl
  | @marked first mark hzero hmark =>
    have hdigit : Radix.hexadecimal.digit? first = some 0 := by simp [Radix.digit?, hzero]
    rw [Radix.digit?_of_ascii (hregular first List.mem_cons_self).1] at hdigit
    have hcode := toNat_of_hexDigitValue? (Radix.hexDigitValue?_of_plainDigit? hdigit)
    have hfirst : first = '0' := Char.toNat_inj.mp (by rw [show '0'.toNat = 48 from rfl]; omega)
    exact Or.inr ⟨rfl, mark, hmark, by rw [hfirst]⟩
  | parted => exact absurd (hregular '_' (by simp)) (by decide)

/-- A number of regular characters has plain digits, and no more than `0x` in front of them. -/
theorem Lenient.exists_spells {value : Int} (hnumber : Lenient radix text value)
    (hregular : ∀ c ∈ text, Regular c) :
    ∃ number : Nat, value = number ∧ (radix.Spells text number ∨ radix = .hexadecimal ∧
      ∃ mark digits, (mark = 'x' ∨ mark = 'X') ∧ text = '0' :: mark :: digits ∧
        radix.Spells digits number) := by
  obtain ⟨front, sign, lead, run, back, factor, values, rfl, hfront, hback, hsign, hlead, hrun,
    hlimit, rfl⟩ := hnumber
  have hnone {blanks : List Char} (hblanks : ∀ c ∈ blanks, isNumeralBlank c = true)
      (hin : ∀ c ∈ blanks, Regular c) : blanks = [] := by
    refine List.eq_nil_iff_forall_not_mem.mpr fun c hmem => ?_
    have hblank := hblanks c hmem
    rw [isNumeralBlank_of_isBlank (hin c hmem).2.1] at hblank
    cases hblank
  obtain rfl := hnone hfront fun c hmem => hregular c (by simp [hmem])
  obtain rfl := hnone hback fun c hmem => hregular c (by simp [hmem])
  cases hsign with
  | plus => exact absurd (hregular '+' (by simp)) (by decide)
  | minus => exact absurd (hregular '-' (by simp)) (by decide)
  | absent =>
    simp only [List.nil_append, List.append_nil, List.forall_mem_append] at hregular ⊢
    have hdigits := hrun.spells hregular.2
    refine ⟨_, one_mul _, ?_⟩
    obtain rfl | ⟨hradix, mark, hmark, rfl⟩ := hlead.eq_of_regular hregular.1
    · exact Or.inl hdigits
    · exact Or.inr ⟨hradix, mark, run, hmark, rfl, hdigits⟩

end Plain

end Midrange.Text
