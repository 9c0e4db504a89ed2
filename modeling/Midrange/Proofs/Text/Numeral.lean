import Midrange.Proofs.Text.Digits

namespace Midrange.Text

/-- Whether a text starts as a hexadecimal number does that has its mark in front. -/
def Marked (text : List Char) : Prop :=
  ∃ mark rest, (mark = 'x' ∨ mark = 'X') ∧ text = '0' :: mark :: rest

/-- The base that the marks of a text choose, and the digits that are left to be read. -/
inductive Chooses : List Char → Radix → List Char → Prop where
  | marked {text : List Char} (hmarked : Marked text) : Chooses text .hexadecimal text
  | dollar (digits : List Char) : Chooses ('$' :: digits) .hexadecimal digits
  | suffixed {first suffix : Char} {rest : List Char} (hmarked : ¬ Marked (first :: rest))
      (hfirst : isDigit first = true) (hsuffix : suffix = 'h' ∨ suffix = 'H') :
      Chooses (first :: rest ++ [suffix]) .hexadecimal (first :: rest)
  | decimal {text : List Char} (hsome : text ≠ []) (hdigits : ∀ c ∈ text, isDigit c = true) :
      Chooses text .decimal text

variable {text : List Char}

theorem isDigit_of_mark : ∀ c ∈ ['$', 'x', 'X', 'h', 'H'], isDigit c = false := by
  decide

theorem suffixed_iff :
    (text.getLast?.any (fun c => c == 'h' || c == 'H') && text.head?.any isDigit) = true ↔
    ∃ first rest suffix, text = first :: rest ++ [suffix] ∧ isDigit first = true ∧
      (suffix = 'h' ∨ suffix = 'H') := by
  constructor
  · intro htext
    rw [Bool.and_eq_true] at htext
    obtain ⟨hlast, hhead⟩ := htext
    obtain rfl | ⟨front, suffix, rfl⟩ := text.eq_nil_or_concat
    · cases hlast
    · have hsuffix : suffix = 'h' ∨ suffix = 'H' := by simpa using hlast
      cases front with
      | nil =>
        have hdigit : isDigit suffix = true := hhead
        rw [isDigit_of_mark suffix (by obtain rfl | rfl := hsuffix <;> decide)] at hdigit
        cases hdigit
      | cons first rest => exact ⟨first, rest, suffix, List.concat_eq_append, hhead, hsuffix⟩
  · rintro ⟨first, rest, suffix, rfl, hfirst, hsuffix⟩
    rw [List.getLast?_concat, List.cons_append, List.head?_cons, Option.any_some,
      Option.any_some, hfirst]
    obtain rfl | rfl := hsuffix <;> rfl

theorem not_marked_of_isDigit (hdigits : ∀ c ∈ text, isDigit c = true) : ¬ Marked text := by
  rintro ⟨mark, rest, hmark, rfl⟩
  have hdigit := hdigits mark (by simp)
  obtain rfl | rfl := hmark <;> cases hdigit

/-- A suffix is no mark, and so it does not decide whether there is one. -/
theorem marked_concat_iff {suffix : Char} (hsuffix : suffix = 'h' ∨ suffix = 'H') :
    Marked (text ++ [suffix]) ↔ Marked text := by
  constructor
  · rintro ⟨mark, rest, hmark, heq⟩
    obtain rfl | ⟨rest, last, rfl⟩ := rest.eq_nil_or_concat
    · obtain rfl : suffix = mark := by simpa using congrArg List.getLast? heq
      obtain rfl | rfl := hmark <;> exact absurd hsuffix (by decide)
    · have hends : text ++ [suffix] = ('0' :: mark :: rest) ++ [last] := by simpa using heq
      exact ⟨mark, rest, hmark, (List.append_inj' hends rfl).1⟩
  · rintro ⟨mark, rest, hmark, rfl⟩
    exact ⟨mark, rest ++ [suffix], hmark, rfl⟩

/-- What comes of digits that are read in a base. -/
def counted (radix : Radix) (digits : List Char) : Except NumeralFault Int :=
  match integer? radix digits with
  | some value => .ok value
  | none => .error .malformed

theorem counted_eq_ok_iff {radix : Radix} {digits : List Char} {value : Int} :
    counted radix digits = .ok value ↔ Lenient radix digits value := by
  rw [← integer?_eq_some_iff, counted]
  cases integer? radix digits <;> simp

/-- A text gives a number exactly if its marks choose a base, and what they leave is read in that
    base. -/
theorem readNumeral_eq_ok_iff {value : Int} : readNumeral text = .ok value ↔
    ∃ radix digits, Chooses (trim isBlank text) radix digits ∧ Lenient radix digits value := by
  unfold readNumeral
  generalize trim isBlank text = body
  dsimp only
  constructor
  · intro hread
    split at hread
    · exact ⟨_, _, .marked ⟨_, _, Or.inl rfl, rfl⟩, counted_eq_ok_iff.mp hread⟩
    · exact ⟨_, _, .marked ⟨_, _, Or.inr rfl, rfl⟩, counted_eq_ok_iff.mp hread⟩
    · exact ⟨_, _, .dollar _, counted_eq_ok_iff.mp hread⟩
    · next hlower hupper hdollar =>
      split at hread
      · next hsuffixed =>
        obtain ⟨first, rest, suffix, rfl, hfirst, hsuffix⟩ := suffixed_iff.mp hsuffixed
        have hmarked : ¬ Marked (first :: rest) := by
          rw [← marked_concat_iff hsuffix]
          rintro ⟨mark, more, rfl | rfl, hmore⟩
          · exact hlower more hmore
          · exact hupper more hmore
        rw [List.dropLast_concat] at hread
        exact ⟨_, _, .suffixed hmarked hfirst hsuffix, counted_eq_ok_iff.mp hread⟩
      · split at hread
        · next hdigits =>
          rw [Bool.and_eq_true, List.all_eq_true] at hdigits
          exact ⟨_, _, .decimal (by simpa using hdigits.1) hdigits.2, counted_eq_ok_iff.mp hread⟩
        · cases hread
  · rintro ⟨radix, digits, hchooses, hlenient⟩
    rw [← counted_eq_ok_iff] at hlenient
    cases hchooses with
    | marked hmarked => obtain ⟨mark, rest, rfl | rfl, rfl⟩ := hmarked <;> exact hlenient
    | dollar => exact hlenient
    | @suffixed first suffix rest hmarked hfirst hsuffix =>
      rw [← marked_concat_iff hsuffix] at hmarked
      split
      · next more heq => exact absurd ⟨_, more, Or.inl rfl, heq⟩ hmarked
      · next more heq => exact absurd ⟨_, more, Or.inr rfl, heq⟩ hmarked
      · next more heq =>
        obtain rfl := (List.cons.inj heq).1
        cases hfirst
      · rw [if_pos (suffixed_iff.mpr ⟨first, rest, suffix, rfl, hfirst, hsuffix⟩),
          List.dropLast_concat]
        exact hlenient
    | decimal hsome hdigits =>
      have hmarked := not_marked_of_isDigit hdigits
      have hsuffixed : ¬ (body.getLast?.any (fun c => c == 'h' || c == 'H') &&
          body.head?.any isDigit) := by
        rw [suffixed_iff]
        rintro ⟨first, rest, suffix, rfl, -, hsuffix⟩
        have hdigit := hdigits suffix (by simp)
        obtain rfl | rfl := hsuffix <;> cases hdigit
      split
      · next more => exact absurd ⟨_, more, Or.inl rfl, rfl⟩ hmarked
      · next more => exact absurd ⟨_, more, Or.inr rfl, rfl⟩ hmarked
      · next more => exact absurd (hdigits '$' List.mem_cons_self) (by decide)
      · rw [if_neg hsuffixed, if_pos (by simpa [hsome] using hdigits)]
        exact hlenient

/-- The notations for addresses as they are meant. The digits behind `0x` and `$` and in front of
    `h` are hexadecimal, and a number in front of `h` begins with a decimal digit. -/
inductive Spelling : List Char → Nat → Prop where
  | marked {mark : Char} {digits : List Char} {value : Nat} (hmark : mark = 'x' ∨ mark = 'X')
      (hdigits : Radix.hexadecimal.Spells digits value) : Spelling ('0' :: mark :: digits) value
  | dollar {digits : List Char} {value : Nat} (hdigits : Radix.hexadecimal.Spells digits value) :
      Spelling ('$' :: digits) value
  | suffixed {first suffix : Char} {rest : List Char} {value : Nat}
      (hfirst : (Radix.decimal.plainDigit? first).isSome) (hsuffix : suffix = 'h' ∨ suffix = 'H')
      (hdigits : Radix.hexadecimal.Spells (first :: rest) value) :
      Spelling (first :: rest ++ [suffix]) value
  | decimal {digits : List Char} {value : Nat} (hdigits : Radix.decimal.Spells digits value) :
      Spelling digits value

/-- A text that consists of decimal digits has no more of them than are read. -/
def WithinLimit (text : List Char) : Prop :=
  (∀ c ∈ text, (Radix.decimal.plainDigit? c).isSome) → text.length ≤ decimalDigitLimit

/-- A text without all that only tolerance lets pass within a number. -/
structure Strict (text : List Char) : Prop where
  regular : ∀ c ∈ text, Regular c
  unmarked : '$' ∈ text → 'x' ∉ text ∧ 'X' ∉ text

section Spelling

variable {c : Char} {radix : Radix} {digits : List Char} {number : Nat}

theorem Radix.Spells.not_marked (hdigits : radix.Spells digits number) : ¬ Marked digits := by
  rintro ⟨mark, rest, hmark, rfl⟩
  refine hdigits.mark_not_mem (c := mark) ?_ (by simp)
  obtain rfl | rfl := hmark <;> decide

/-- No notation needs anything that is only tolerated. -/
theorem Spelling.strict (hspelling : Spelling text number) : Strict text := by
  cases hspelling with
  | @marked mark digits _ hmark hdigits =>
    refine ⟨List.forall_mem_cons.mpr ⟨by decide, List.forall_mem_cons.mpr ⟨?_, hdigits.regular⟩⟩,
      fun hdollar => ?_⟩
    · obtain rfl | rfl := hmark <;> decide
    · have hnone : '$' ∉ digits := hdigits.mark_not_mem (by decide)
      rw [List.mem_cons, List.mem_cons, or_iff_left hnone] at hdollar
      obtain rfl | rfl := hmark <;> exact absurd hdollar (by decide)
  | dollar hdigits =>
    refine ⟨List.forall_mem_cons.mpr ⟨by decide, hdigits.regular⟩, fun _ => ?_⟩
    have hlower := hdigits.mark_not_mem (c := 'x') (by decide)
    have hupper := hdigits.mark_not_mem (c := 'X') (by decide)
    simp [hlower, hupper]
  | suffixed hfirst hsuffix hdigits =>
    refine ⟨List.forall_mem_append.mpr ⟨hdigits.regular, List.forall_mem_singleton.mpr ?_⟩,
      fun hdollar => ?_⟩
    · obtain rfl | rfl := hsuffix <;> decide
    · rw [List.mem_append, or_iff_right (hdigits.mark_not_mem (by decide)),
        List.mem_singleton] at hdollar
      obtain rfl | rfl := hsuffix <;> exact absurd hdollar (by decide)
  | decimal hdigits =>
    exact ⟨hdigits.regular, fun hdollar => absurd hdollar (hdigits.mark_not_mem (by decide))⟩

/-- What is spelled in one of the notations is read, unless it has too many decimal digits. -/
theorem Spelling.exists_chooses (hspelling : Spelling text number) (hlimit : WithinLimit text) :
    ∃ radix digits, Chooses text radix digits ∧ Lenient radix digits number := by
  cases hspelling with
  | @marked mark digits _ hmark hdigits =>
    have hzero : decimalValue? '0' = some 0 := rfl
    exact ⟨_, _, .marked ⟨mark, digits, hmark, rfl⟩, hdigits.lenient (.marked hzero hmark) nofun⟩
  | dollar hdigits => exact ⟨_, _, .dollar _, hdigits.lenient (.absent _) nofun⟩
  | @suffixed first suffix rest _ hfirst hsuffix hdigits =>
    refine ⟨_, _, .suffixed ?_ ?_ hsuffix, hdigits.lenient (.absent _) nofun⟩
    · exact hdigits.not_marked
    · rwa [isDigit_of_ascii (regular_of_plainDigit? hfirst).1]
  | decimal hdigits =>
    refine ⟨_, _, .decimal hdigits.1 (fun c hmem => ?_),
      hdigits.lenient (.absent _) fun _ => hlimit hdigits.forall_mem⟩
    rw [isDigit_of_ascii (hdigits.regular c hmem).1]
    exact hdigits.forall_mem c hmem

/-- What is read of a text without anything that is only tolerated is spelled in one of the
    notations. -/
theorem Strict.exists_spelling {value : Int} (hstrict : Strict text)
    (hchooses : Chooses text radix digits) (hnumber : Lenient radix digits value) :
    ∃ number : Nat, Spelling text number ∧ value = number := by
  obtain ⟨hregular, hunmarked⟩ := hstrict
  cases hchooses with
  | marked hmarked =>
    obtain ⟨number, rfl, hdigits | ⟨-, mark, more, hmark, rfl, hdigits⟩⟩ :=
      hnumber.exists_spells hregular
    · exact absurd hmarked hdigits.not_marked
    · exact ⟨number, .marked hmark hdigits, rfl⟩
  | dollar =>
    rw [List.forall_mem_cons] at hregular
    obtain ⟨hlower, hupper⟩ := hunmarked List.mem_cons_self
    obtain ⟨number, rfl, hdigits | ⟨-, mark, more, rfl | rfl, rfl, hdigits⟩⟩ :=
      hnumber.exists_spells hregular.2
    · exact ⟨number, .dollar hdigits, rfl⟩
    · exact absurd (by simp) hlower
    · exact absurd (by simp) hupper
  | suffixed hmarked hfirst hsuffix =>
    rw [List.forall_mem_append] at hregular
    obtain ⟨number, rfl, hdigits | ⟨-, mark, more, hmark, heq, -⟩⟩ :=
      hnumber.exists_spells hregular.1
    · rw [isDigit_of_ascii (hregular.1 _ List.mem_cons_self).1] at hfirst
      exact ⟨number, .suffixed hfirst hsuffix hdigits, rfl⟩
    · exact absurd ⟨mark, more, hmark, heq⟩ hmarked
  | decimal =>
    obtain ⟨number, rfl, hdigits | ⟨hradix, -⟩⟩ := hnumber.exists_spells hregular
    · exact ⟨number, .decimal hdigits, rfl⟩
    · cases hradix

/-- A number in one of the notations, with blanks around it. -/
def Denotes (text : List Char) (number : Nat) : Prop :=
  ∃ front spelling back, text = front ++ spelling ++ back ∧ (∀ c ∈ front, isBlank c = true) ∧
    (∀ c ∈ back, isBlank c = true) ∧ Spelling spelling number ∧ WithinLimit spelling

theorem Denotes.readNumeral_eq (hdenotes : Denotes text number) :
    readNumeral text = .ok (number : Int) := by
  obtain ⟨front, spelling, back, rfl, hfront, hback, hspelling, hlimit⟩ := hdenotes
  rw [readNumeral_eq_ok_iff,
    trim_append hfront (fun c hmem => (hspelling.strict.regular c hmem).2.1) hback]
  exact hspelling.exists_chooses hlimit

theorem Denotes.dash_not_mem (hdenotes : Denotes text number) : '-' ∉ text := by
  obtain ⟨front, spelling, back, rfl, hfront, hback, hspelling, -⟩ := hdenotes
  simp only [List.mem_append, not_or]
  exact ⟨⟨fun hmem => absurd (hfront '-' hmem) (by decide),
    fun hmem => absurd (hspelling.strict.regular '-' hmem) (by decide)⟩,
    fun hmem => absurd (hback '-' hmem) (by decide)⟩

end Spelling

/-- A text is read exactly if its marks choose a base and what they leave is a number of this base,
    with all that is tolerated in it. If it is read, then it is spelled in one of the notations and
    gives the number that it spells, exactly if nothing in it is only tolerated. -/
theorem readNumeral_keeps_notation_iff (text : List Char) (value : Int) :
    (readNumeral text = .ok value ↔
      ∃ radix digits, Chooses (trim isBlank text) radix digits ∧ Lenient radix digits value) ∧
    (readNumeral text = .ok value →
      ((∃ number : Nat, Spelling (trim isBlank text) number ∧ value = number) ↔
        Strict (trim isBlank text))) := by
  refine ⟨readNumeral_eq_ok_iff, fun hread => ⟨?_, fun hstrict => ?_⟩⟩
  · rintro ⟨number, hspelling, -⟩
    exact hspelling.strict
  · obtain ⟨radix, digits, hchooses, hnumber⟩ := readNumeral_eq_ok_iff.mp hread
    exact hstrict.exists_spelling hchooses hnumber

theorem readNumeral_keeps_notation_iff_underscore : readNumeral "0x1_0".toList = .ok 16 ∧
    ((∃ number : Nat, Spelling (trim isBlank "0x1_0".toList) number ∧ (16 : Int) = number) ↔
      Strict (trim isBlank "0x1_0".toList)) :=
  have hread : readNumeral "0x1_0".toList = .ok 16 := by rfl
  ⟨hread, (readNumeral_keeps_notation_iff _ _).2 hread⟩

/-- Behind a dollar a sign is read, which no notation has. -/
theorem negative_read_behind_dollar : readNumeral "$-1".toList = .ok (-1) ∧
    ∀ number, ¬ Spelling (trim isBlank "$-1".toList) number := by
  refine ⟨by rfl, fun number hspelling => ?_⟩
  exact absurd (hspelling.strict.regular '-' (by decide)) (by decide)

end Midrange.Text
