import Midrange.Proofs.Text.Hexadecimal
import Midrange.Text.Format
import Midrange.Text.Lines

namespace Midrange.Text

variable {c : Char} {run rest : List Char} {text more : String}

/-- What is asked of a text is decided on its own characters, and not on all the characters there
    are. -/
instance (priority := 2000) decidableForallMem (p : Char → Prop) [DecidablePred p]
    (text : List Char) : Decidable (∀ c ∈ text, p c) :=
  List.decidableBAll p text

theorem isLineBreak_iff : isLineBreak c = true ↔
    (0xa ≤ c.toNat ∧ c.toNat ≤ 0xd) ∨ (0x1c ≤ c.toNat ∧ c.toNat ≤ 0x1e) ∨ c.toNat = 0x85 ∨
      c.toNat = 0x2028 ∨ c.toNat = 0x2029 := by
  simp [isLineBreak, Char.le_def, UInt32.le_iff_toNat_le, ← Char.toNat_inj, or_assoc]

theorem isBlank_iff : isBlank c = true ↔
    c.toNat = 0x20 ∨ (0x9 ≤ c.toNat ∧ c.toNat ≤ 0xd) ∨ (0x1c ≤ c.toNat ∧ c.toNat ≤ 0x1f) ∨
      c.toNat = 0x85 ∨ c.toNat = 0xa0 ∨ c.toNat = 0x1680 ∨
      (0x2000 ≤ c.toNat ∧ c.toNat ≤ 0x200a) ∨ c.toNat = 0x2028 ∨ c.toNat = 0x2029 ∨
      c.toNat = 0x202f ∨ c.toNat = 0x205f ∨ c.toNat = 0x3000 := by
  simp [isBlank, isAsciiBlank, isSeparator, isWideBlank, Char.le_def, UInt32.le_iff_toNat_le,
    ← Char.toNat_inj, or_assoc]

/-- The first mark in a text tells what stands in front of it, and what behind it. -/
theorem eq_of_append_mark {mark : Char} {left right behind behind' : List Char}
    (hleft : mark ∉ left) (hright : mark ∉ right)
    (heq : left ++ mark :: behind = right ++ mark :: behind') :
    left = right ∧ behind = behind' := by
  have hword {word : List Char} (rest : List Char) (hword : mark ∉ word) :
      (word ++ mark :: rest).takeWhile (· ≠ mark) = word := by
    have hall : ∀ c ∈ word, decide (c ≠ mark) = true :=
      fun c hmem => decide_eq_true fun hmark => hword (hmark ▸ hmem)
    rw [List.takeWhile_append_of_pos hall]
    simp
  have hsame : left = right := by
    rw [← hword behind hleft, heq, hword behind' hright]
  subst hsame
  exact ⟨rfl, (List.cons.inj (List.append_cancel_left heq)).2⟩

/-- What ends a line parts fields as well. -/
theorem isLineBreak_of_isBlank (hblank : isBlank c = false) : isLineBreak c = false := by
  rw [← Bool.not_eq_true, isBlank_iff] at hblank
  rw [← Bool.not_eq_true, isLineBreak_iff]
  omega

/-- The characters of ASCII that show are no blanks. -/
theorem isBlank_of_ascii (hlow : 0x20 < c.toNat) (hhigh : c.toNat < 0x7f) : isBlank c = false := by
  rw [← Bool.not_eq_true, isBlank_iff]
  omega

theorem isBlank_of_hexDigitValue? {value : Nat} (hvalue : hexDigitValue? c = some value) :
    isBlank c = false := by
  have hcases := toNat_of_hexDigitValue? hvalue
  exact isBlank_of_ascii (by omega) (by omega)

/-- Blanks in front of a text are passed over. -/
theorem fields_blanks_append {blanks : List Char} (hblanks : ∀ c ∈ blanks, isBlank c = true)
    (rest : List Char) : fields (blanks ++ rest) = fields rest := by
  induction blanks with
  | nil => rfl
  | cons c blanks ih =>
    rw [List.forall_mem_cons] at hblanks
    rw [List.cons_append, fields_cons_of_isBlank hblanks.1, ih hblanks.2]

private theorem fields_cons_blank {blank : Char} (hsolid : isBlank c = false)
    (hblank : isBlank blank = true) (rest : List Char) :
    fields (c :: blank :: rest) = [c] :: fields rest := by
  have hskip := fields_cons_of_isBlank hblank rest
  cases hrest : fields rest <;> simp [fields, hsolid, hblank, hrest]

private theorem fields_cons_solid {next : Char} {runs : List (List Char)}
    (hsolid : isBlank c = false) (hnext : isBlank next = false)
    (hrest : fields (next :: rest) = run :: runs) :
    fields (c :: next :: rest) = (c :: run) :: runs := by
  simp only [fields.eq_def (c :: next :: rest), hsolid, hrest, hnext, Bool.false_eq_true, if_false]

/-- The first field of a text ends at the first blank. -/
theorem fields_append_blank {blank : Char} (hrun : run ≠ []) (hsolid : ∀ c ∈ run, isBlank c = false)
    (hblank : isBlank blank = true) (rest : List Char) :
    fields (run ++ blank :: rest) = run :: fields rest := by
  induction run with
  | nil => exact absurd rfl hrun
  | cons c run ih =>
    rw [List.forall_mem_cons] at hsolid
    cases run with
    | nil => exact fields_cons_blank hsolid.1 hblank rest
    | cons next run =>
      exact fields_cons_solid hsolid.1 (hsolid.2 next List.mem_cons_self)
        (ih (List.cons_ne_nil next run) hsolid.2)

/-- A text without blanks is one field. -/
theorem fields_of_solid (hrun : run ≠ []) (hsolid : ∀ c ∈ run, isBlank c = false) :
    fields run = [run] := by
  induction run with
  | nil => exact absurd rfl hrun
  | cons c run ih =>
    rw [List.forall_mem_cons] at hsolid
    cases run with
    | nil => simp [fields, hsolid.1]
    | cons next run =>
      exact fields_cons_solid hsolid.1 (hsolid.2 next List.mem_cons_self)
        (ih (List.cons_ne_nil next run) hsolid.2)

/-- A number in hexadecimal has no blanks in it. -/
theorem solid_hexadecimal (width : Nat) (value : Int) :
    ∀ c ∈ (hexadecimal width value).toList, isBlank c = false :=
  forall_mem_hexadecimal (by decide) (by decide) width value

/-- A text that can stand in front of a comment: it stays on its line and opens no comment
    itself. -/
def Plain (text : String) : Prop :=
  ∀ c ∈ text.toList, isLineBreak c = false ∧ c ≠ ';'

instance : DecidablePred Plain :=
  fun text => inferInstanceAs (Decidable (∀ c ∈ text.toList, isLineBreak c = false ∧ c ≠ ';'))

theorem Plain.append (htext : Plain text) (hmore : Plain more) : Plain (text ++ more) := by
  intro c hmem
  rw [String.toList_append, List.mem_append] at hmem
  exact hmem.elim (htext c) (hmore c)

theorem Plain.padRight (htext : Plain text) (width : Nat) : Plain (padRight width text) := by
  refine htext.append fun c hmem => ?_
  rw [String.toList_ofList] at hmem
  rw [List.eq_of_mem_replicate hmem]
  decide

theorem plain_hexadecimal (width : Nat) (value : Int) : Plain (hexadecimal width value) :=
  forall_mem_hexadecimal (by decide) (by decide) width value

theorem plain_hexLiteral (width : Nat) (value : Int) : Plain (hexLiteral width value) :=
  Plain.append (by decide) (plain_hexadecimal width value)

/-- What holds of a minus sign and of every digit holds of all characters of a number in decimal. -/
theorem forall_mem_toString {p : Char → Prop} (hminus : p '-')
    (hdigit : ∀ c : Char, c.isDigit = true → p c) (value : Int) :
    ∀ c ∈ (toString value).toList, p c := by
  have hdigits (value : Nat) : ∀ c ∈ value.repr.toList, p c := by
    intro c hmem
    rw [Nat.toList_repr] at hmem
    exact hdigit c (Nat.isDigit_of_mem_toDigits (by decide) (by decide) hmem)
  rw [Int.toString_eq_repr, Int.repr_eq_if]
  split
  · exact hdigits _
  · intro c hmem
    rw [String.toList_append, List.mem_append] at hmem
    obtain hsign | hmem := hmem
    · obtain rfl : c = '-' := by simpa using hsign
      exact hminus
    · exact hdigits _ c hmem

/-- Numbers in decimal are plain as well. -/
theorem plain_toString (value : Int) : Plain (toString value) := by
  refine forall_mem_toString (by decide) (fun c hdigit => ?_) value
  have hdigit := Char.isDigit_iff_toNat.mp hdigit
  have hlow : 48 ≤ c.toNat := hdigit.1
  have hhigh : c.toNat ≤ 57 := hdigit.2
  refine ⟨isLineBreak_of_isBlank (isBlank_of_ascii (by omega) (by omega)), ?_⟩
  rintro rfl
  exact absurd hhigh (by decide)

end Midrange.Text
