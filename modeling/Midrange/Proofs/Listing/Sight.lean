import Mathlib.Data.List.TakeWhile
import Midrange.Listing
import Midrange.Proofs.Symbols.Allowed

namespace Midrange

/-- What a line in the body of a listing says to a reader of its text. -/
inductive Sight where
  | org (address : Int)
  | label (name : String)
  | word (address word : Int)
  deriving DecidableEq, Repr

namespace Sight

/-- The text in front of the colon that ends it. -/
def beforeColon? (text : List Char) : Option (List Char) :=
  if text.getLast? = some ':' then some text.dropLast else none

/-- Reads one line. A comment tells the address of a word and the word itself, whatever stands in
    front of it. A line without a comment sets the place or is a label. -/
def ofLine? (line : List Char) : Option Sight :=
  match Text.fields (line.dropWhile (· ≠ ';')) with
  | [';'] :: place :: value :: _ => do
    return word (← Text.readHexadecimal? (← beforeColon? place)) (← Text.readHexadecimal? value)
  | _ =>
    match Text.fields line with
    | [['o', 'r', 'g'], '0' :: 'x' :: digits] => (Text.readHexadecimal? digits).map org
    | [name] => (beforeColon? name).map fun name => label (String.ofList name)
    | _ => none

end Sight

namespace ListingLine

theorem plain_org (address : Int) : Text.Plain (org address).text :=
  Text.Plain.append (by decide) (Text.plain_hexLiteral 4 address)

/-- What stands in front of the comment of a word. -/
theorem plain_front {text : String} (htext : Text.Plain text) :
    Text.Plain (indent ++ Text.padRight 28 text) :=
  Text.Plain.append (by decide) (htext.padRight 28)

/-- A comment begins with an address and a word, and whatever is noted besides stands apart. -/
theorem toList_comment (address word : Int) (notes : List String) :
    (comment address word notes).toList =
      [';'] ++ ' ' :: ((Text.hexadecimal 4 address).toList ++ [':'] ++
        ' ' :: ((Text.hexadecimal 4 word).toList ++ notes.flatMap fun note =>
          ' ' :: ' ' :: note.toList)) := by
  have hjoined (first : String) : (String.intercalate "  " (first :: notes)).toList =
      first.toList ++ notes.flatMap fun note => ' ' :: ' ' :: note.toList := by
    induction notes generalizing first with
    | nil => simp
    | cons note notes ih => simp [String.intercalate_cons_cons, ih]
  rw [comment, hjoined]
  simp [toString]

theorem fields_comment (address word : Int) (notes : List String) :
    ∃ more, Text.fields (comment address word notes).toList =
      [';'] :: ((Text.hexadecimal 4 address).toList ++ [':']) :: (Text.hexadecimal 4 word).toList ::
        more := by
  have hplace : ∀ c ∈ (Text.hexadecimal 4 address).toList ++ [':'], Text.isBlank c = false := by
    rw [List.forall_mem_append]
    exact ⟨Text.solid_hexadecimal 4 address, by decide⟩
  have hvalue := Text.solid_hexadecimal 4 word
  have hnonempty : (Text.hexadecimal 4 word).toList ≠ [] := by
    intro hempty
    have hread := Text.readHexadecimal?_hexadecimal 4 word
    rw [hempty] at hread
    cases hread
  rw [toList_comment, Text.fields_append_blank (by decide) (by decide) rfl,
    Text.fields_append_blank (by simp) hplace rfl]
  cases notes with
  | nil =>
    rw [List.flatMap_nil, List.append_nil, Text.fields_of_solid hnonempty hvalue]
    exact ⟨[], rfl⟩
  | cons note notes =>
    rw [List.flatMap_cons, List.cons_append, Text.fields_append_blank hnonempty hvalue rfl]
    exact ⟨_, rfl⟩

end ListingLine

namespace Sight

variable {line : List Char}

theorem beforeColon?_append (text : List Char) : beforeColon? (text ++ [':']) = some text := by
  rw [beforeColon?, List.getLast?_concat, if_pos rfl, List.dropLast_concat]

private theorem dropWhile_of_no_comment (hcomment : ∀ c ∈ line, c ≠ ';') :
    line.dropWhile (· ≠ ';') = [] :=
  List.dropWhile_eq_nil_iff.mpr fun c hmem => decide_eq_true (hcomment c hmem)

theorem ofLine?_org (address : Int) :
    ofLine? (ListingLine.org address).text.toList = some (org address) := by
  have hnumber : ∀ c ∈ '0' :: 'x' :: (Text.hexadecimal 4 address).toList,
      Text.isBlank c = false := by
    rw [List.forall_mem_cons, List.forall_mem_cons]
    exact ⟨by decide, by decide, Text.solid_hexadecimal 4 address⟩
  have hline : (ListingLine.org address).text.toList = ListingLine.indent.toList ++
      ("org".toList ++ ' ' :: ("    ".toList ++
        '0' :: 'x' :: (Text.hexadecimal 4 address).toList)) := by
    simp only [ListingLine.text, Text.hexLiteral, String.toList_append, List.append_assoc]
    rfl
  have hfields : Text.fields (ListingLine.org address).text.toList =
      ["org".toList, '0' :: 'x' :: (Text.hexadecimal 4 address).toList] := by
    rw [hline, Text.fields_blanks_append (by decide),
      Text.fields_append_blank (by decide) (by decide) rfl, Text.fields_blanks_append (by decide),
      Text.fields_of_solid (List.cons_ne_nil _ _) hnumber]
  rw [ofLine?, dropWhile_of_no_comment fun c hmem => (ListingLine.plain_org address c hmem).2,
    hfields]
  exact congrArg (Option.map org) (Text.readHexadecimal?_hexadecimal 4 address)

theorem ofLine?_label {name : String}
    (hname : ∀ c ∈ name.toList, Text.isBlank c = false ∧ c ≠ ';') :
    ofLine? (ListingLine.label name).text.toList = some (label name) := by
  have hline : (ListingLine.label name).text.toList = name.toList ++ [':'] := by
    rw [ListingLine.text, String.toList_append]
    rfl
  have hsolid : ∀ c ∈ name.toList ++ [':'], Text.isBlank c = false ∧ c ≠ ';' := by
    rw [List.forall_mem_append]
    exact ⟨hname, by decide⟩
  have hfields : Text.fields (name.toList ++ [':']) = [name.toList ++ [':']] :=
    Text.fields_of_solid (by simp) fun c hmem => (hsolid c hmem).1
  rw [hline, ofLine?, dropWhile_of_no_comment fun c hmem => (hsolid c hmem).2, hfields]
  simp only [Text.fields, beforeColon?_append, Option.map_some, String.ofList_toList]

theorem ofLine?_word (address value : Int) {text : String} (htext : Text.Plain text)
    (notes : List String) :
    ofLine? (ListingLine.word address value text notes).text.toList =
      some (word address value) := by
  have hfront := ListingLine.plain_front htext
  have hcomment : (ListingLine.word address value text notes).text.toList.dropWhile (· ≠ ';') =
      (ListingLine.comment address value notes).toList := by
    rw [ListingLine.text, String.toList_append,
      List.dropWhile_append_of_pos fun c hmem => decide_eq_true (hfront c hmem).2,
      ListingLine.toList_comment]
    rfl
  obtain ⟨more, hfields⟩ := ListingLine.fields_comment address value notes
  rw [ofLine?, hcomment, hfields]
  simp [beforeColon?_append, Text.readHexadecimal?_hexadecimal]

end Sight

namespace ListingLine

/-- What a line in the body of a listing says. -/
def sight? : ListingLine → Option Sight
  | .org address => some (.org address)
  | .label name => some (.label name)
  | .word address value _ _ => some (.word address value)
  | _ => none

/-- A line of the body that stays on one line and that a reader tells apart from the others. -/
def Legible : ListingLine → Prop
  | .org _ => True
  | .label name => ∀ c ∈ name.toList, Text.isBlank c = false ∧ c ≠ ';'
  | .word _ _ text notes => Text.Plain text ∧ ∀ note ∈ notes, Text.Plain note
  | _ => False

variable {line : ListingLine}

theorem Legible.ofLine? (hlegible : line.Legible) :
    Sight.ofLine? line.text.toList = line.sight? := by
  cases line with
  | org address => exact Sight.ofLine?_org address
  | label name => exact Sight.ofLine?_label hlegible
  | word address value text notes => exact Sight.ofLine?_word address value hlegible.1 notes
  | remark | processor | blank | equate => exact absurd hlegible id

theorem isLineBreak_of_mem_comment (address value : Int) {notes : List String}
    (hnotes : ∀ note ∈ notes, Text.Plain note) :
    ∀ c ∈ (comment address value notes).toList, Text.isLineBreak c = false := by
  have hnumber (number : Int) :
      ∀ c ∈ (Text.hexadecimal 4 number).toList, Text.isLineBreak c = false :=
    fun c hmem => (Text.plain_hexadecimal 4 number c hmem).1
  have hnote : ∀ c ∈ notes.flatMap fun note => ' ' :: ' ' :: note.toList,
      Text.isLineBreak c = false := by
    rw [List.forall_mem_flatMap]
    intro note hnote
    rw [List.forall_mem_cons, List.forall_mem_cons]
    exact ⟨rfl, rfl, fun c hmem => (hnotes note hnote c hmem).1⟩
  simp only [toList_comment, List.forall_mem_append, List.forall_mem_cons]
  exact ⟨by decide, rfl, ⟨hnumber address, by decide⟩, rfl, hnumber value, hnote⟩

theorem Legible.isLineBreak (hlegible : line.Legible) :
    ∀ c ∈ line.text.toList, Text.isLineBreak c = false := by
  cases line with
  | org address => exact fun c hmem => (plain_org address c hmem).1
  | label name =>
    rw [text, String.toList_append, List.forall_mem_append]
    exact ⟨fun c hmem => Text.isLineBreak_of_isBlank (hlegible c hmem).1, by decide⟩
  | word address value text notes =>
    rw [ListingLine.text, String.toList_append, List.forall_mem_append]
    exact ⟨fun c hmem => (plain_front hlegible.1 c hmem).1,
      isLineBreak_of_mem_comment address value hlegible.2⟩
  | remark | processor | blank | equate => exact absurd hlegible id

theorem Legible.text_ne_nil (hlegible : line.Legible) : line.text.toList ≠ [] := by
  intro hempty
  have hread := hlegible.ofLine?
  rw [hempty] at hread
  cases line with
  | org | label | word => cases hread
  | remark | processor | blank | equate => exact hlegible

end ListingLine

namespace Instruction

variable {symbols : Symbols}

theorem plain_of_isName {name : String} (hname : Directive.isName name.toList = true) :
    Text.Plain name :=
  fun c hmem =>
    have hsolid := Symbols.solid_of_isName hname c hmem
    ⟨Text.isLineBreak_of_isBlank hsolid.1, hsolid.2⟩

theorem plain_registerText (hallowed : symbols.Allowed) (register : Int) :
    Text.Plain (registerText symbols register) := by
  unfold registerText
  cases hname : symbols.registerName? register with
  | none => exact Text.plain_hexLiteral 2 register
  | some name => exact plain_of_isName (hallowed.registers register name hname)

theorem plain_bitText (hallowed : symbols.Allowed) (register bit : Int) :
    Text.Plain (bitText symbols register bit) := by
  unfold bitText
  cases hname : (symbols.registerName? register).bind (symbols.bitName? · bit) with
  | none => exact Text.plain_toString bit
  | some name =>
    obtain ⟨owner, -, hbit⟩ := Option.bind_eq_some_iff.mp hname
    exact plain_of_isName (hallowed.bits owner bit name hbit)

theorem plain_operandText (hallowed : symbols.Allowed) (instruction : Instruction) :
    Text.Plain (instruction.operandText symbols) := by
  have hregister := plain_registerText hallowed
  unfold operandText
  cases instruction.operands with
  | bare => exact (by decide : Text.Plain "")
  | file field => exact hregister _
  | fileBit field bit =>
    exact ((hregister _).append (by decide)).append (plain_bitText hallowed _ bit)
  | fileDest field toFile =>
    refine ((hregister _).append (by decide)).append ?_
    cases toFile <;> decide
  | literal value => exact Text.plain_hexLiteral 2 value
  | branch offset =>
    intro c hmem
    have hsolid := Symbols.solid_nameOf hallowed.labels _ c hmem
    exact ⟨Text.isLineBreak_of_isBlank hsolid.1, hsolid.2⟩

/-- No instruction breaks its line or opens a comment, as long as the names do not. -/
theorem plain_text (hallowed : symbols.Allowed) (instruction : Instruction) :
    Text.Plain (instruction.text symbols) := by
  have hmnemonic : Text.Plain instruction.mnemonic.text := by
    cases instruction.mnemonic <;> decide
  unfold text
  simp only
  split
  · exact (hmnemonic.padRight 8).append (Text.plain_hexLiteral 4 _)
  · split
    · exact hmnemonic
    · exact (hmnemonic.padRight 8).append (plain_operandText hallowed instruction)

end Instruction

end Midrange
