import Midrange.Proofs.Instruction.Encoding
import Midrange.Proofs.Selection
import Midrange.Proofs.Symbols.Allowed

namespace Midrange

/-- The names of a table tell apart what they name where some bank is selected: they are such as
    hints may give, and no two registers of the bank share a name, nor two bits of a register, nor
    two addresses. -/
structure Symbols.TellsApart (symbols : Symbols) (selection : Selection) : Prop where
  allowed : symbols.Allowed
  registers : ∀ (field other : Int) (name : String),
    0 ≤ field ∧ field < bankSize → 0 ≤ other ∧ other < bankSize →
    symbols.registerName? (selection.register field) = some name →
    symbols.registerName? (selection.register other) = some name → field = other
  bits : ∀ (register : String) (bit other : Int) (name : String),
    symbols.bitName? register bit = some name → symbols.bitName? register other = some name →
    bit = other
  addresses : Function.Injective symbols.nameOf

/-- The names that are known before anything is given tell apart what they name. -/
theorem Symbols.tellsApart_standard (selection : Selection) : standard.TellsApart selection := by
  have hregisters : (registerRows.map fun row => (row.1 / 128, row.2)).Nodup := by
    decide +kernel
  have hbits : (bitRows.map fun row => (row.1.register, row.2)).Nodup := by
    decide +kernel
  refine ⟨allowed_standard, fun field other name hfield hother hname hname' => ?_,
    fun register bit other name hname hname' => ?_, nameOf_standard_injective⟩
  · simp only [bankSize] at hfield hother
    have hbank (field : Int) : selection.register field = field + 128 * selection.bank := rfl
    rw [hbank] at hname hname'
    have hsame :=
      List.inj_on_of_nodup_map hregisters (mem_registerRows hname) (mem_registerRows hname')
        (Prod.ext (by simp only; omega) rfl)
    have hnumber := congrArg Prod.fst hsame
    simp only at hnumber
    omega
  · exact congrArg (·.1.bit) (List.inj_on_of_nodup_map hbits (mem_bitRows hname)
      (mem_bitRows hname') rfl)

/-- Two words have the same operand fields of a layout: seven bits for a register, behind which
    stand the three of a bit number or the one for the destination, eight for a literal, and eleven
    for an address. -/
def Layout.SameFields (layout : Layout) (word other : Int) : Prop :=
  match layout with
  | .bare => True
  | .file => word % 128 = other % 128
  | .fileBit => word % 128 = other % 128 ∧ word / 128 % 8 = other / 128 % 8
  | .fileDest => word % 128 = other % 128 ∧ word / 128 % 2 = other / 128 % 2
  | .literal => word % 256 = other % 256
  | .branch => word % 2048 = other % 2048

theorem Text.hexLiteral_injective (width : Nat) : Function.Injective (hexLiteral width) :=
  fun _ _ heq => hexadecimal_injective width ((String.append_right_inj "0x").mp heq)

/-- A short text is followed by a space in its column. -/
theorem Text.toList_padRight_append {width : Nat} {name : String} (hlength : name.length < width)
    (more : String) : (padRight width name ++ more).toList =
      name.toList ++ ' ' :: (List.replicate (width - name.length - 1) ' ' ++ more.toList) := by
  obtain ⟨spaces, hspaces⟩ : ∃ spaces, width - name.length = spaces + 1 :=
    ⟨width - name.length - 1, by omega⟩
  simp [padRight, hspaces, List.replicate_succ]

namespace Instruction

variable {symbols : Symbols} {selection : Selection} {instruction other : Instruction}
  {register field field' bit bit' : Int}

/-- What is shown by its name, or else by a number, is told apart if both the names and the numbers
    do that, and no name looks like a number. -/
private theorem eq_of_getD_eq {α : Type} (named? : α → Option String) (number : α → String)
    {left right : α}
    (hnames : ∀ value name, named? value = some name → Directive.isName name.toList = true)
    (hnumbers : ∀ value, value = left ∨ value = right →
      Directive.isName (number value).toList = false)
    (hname : ∀ name, named? left = some name → named? right = some name → left = right)
    (hnumber : number left = number right → left = right)
    (heq : (named? left).getD (number left) = (named? right).getD (number right)) :
    left = right := by
  cases hleft : named? left with
  | none =>
    cases hright : named? right with
    | none =>
      rw [hleft, hright] at heq
      exact hnumber heq
    | some name =>
      rw [hleft, hright, Option.getD_none, Option.getD_some] at heq
      have hfalse := hnumbers left (Or.inl rfl)
      rw [heq, hnames right name hright] at hfalse
      cases hfalse
  | some name =>
    cases hright : named? right with
    | none =>
      rw [hleft, hright, Option.getD_none, Option.getD_some] at heq
      have hfalse := hnumbers right (Or.inr rfl)
      rw [← heq, hnames left name hleft] at hfalse
      cases hfalse
    | some name' =>
      rw [hleft, hright, Option.getD_some, Option.getD_some] at heq
      exact hname name hleft (heq ▸ hright)

/-- Registers of the selected bank are told apart. -/
theorem field_eq_of_registerText (hnames : symbols.TellsApart selection)
    (hfield : 0 ≤ field ∧ field < bankSize) (hfield' : 0 ≤ field' ∧ field' < bankSize)
    (htext : registerText symbols (selection.register field) =
      registerText symbols (selection.register field')) :
    field = field' := by
  refine eq_of_getD_eq (fun field => symbols.registerName? (selection.register field))
    (fun field => Text.hexLiteral 2 (selection.register field)) ?_ ?_ ?_ ?_ htext
  · exact fun field name hname => hnames.allowed.registers _ name hname
  · intro field _
    rw [Text.hexLiteral, String.toList_append]
    rfl
  · exact fun name => hnames.registers field field' name hfield hfield'
  · intro hnumber
    have hregister := Text.hexLiteral_injective 2 hnumber
    simp only [Selection.register] at hregister
    omega

private theorem toString_bit :
    ∀ bit bit' : Fin 8, Directive.isName (toString (bit.val : Int)).toList = false ∧
      (toString (bit.val : Int) = toString (bit'.val : Int) → bit = bit') := by
  decide +kernel

/-- The bits of a register are told apart. -/
theorem bit_eq_of_bitText (hnames : symbols.TellsApart selection) (hbit : 0 ≤ bit ∧ bit < 8)
    (hbit' : 0 ≤ bit' ∧ bit' < 8)
    (htext : bitText symbols register bit = bitText symbols register bit') : bit = bit' := by
  obtain ⟨number, rfl⟩ := Int.eq_ofNat_of_zero_le hbit.1
  obtain ⟨number', rfl⟩ := Int.eq_ofNat_of_zero_le hbit'.1
  have hnumbers := toString_bit ⟨number, by omega⟩ ⟨number', by omega⟩
  have hnumbers' := toString_bit ⟨number', by omega⟩ ⟨number, by omega⟩
  refine eq_of_getD_eq (fun bit => (symbols.registerName? register).bind (symbols.bitName? · bit))
    (fun bit : Int => toString bit) ?_ ?_ ?_ ?_ htext
  · intro bit name hname
    obtain ⟨owner, -, hbit⟩ := Option.bind_eq_some_iff.mp hname
    exact hnames.allowed.bits owner bit name hbit
  · rintro bit (rfl | rfl)
    · exact hnumbers.1
    · exact hnumbers'.1
  · intro name hname hname'
    obtain ⟨owner, howner, hbit⟩ := Option.bind_eq_some_iff.mp hname
    obtain ⟨owner', howner', hbit'⟩ := Option.bind_eq_some_iff.mp hname'
    obtain rfl := Option.some.inj (howner.symm.trans howner')
    exact hnames.bits owner _ _ name hbit hbit'
  · exact fun hnumber => congrArg (fun bit : Fin 8 => (bit.val : Int)) (hnumbers.2 hnumber)

private theorem space_not_mem_registerText (hallowed : symbols.Allowed) (register : Int) :
    ' ' ∉ (registerText symbols register).toList ++ [','] := by
  rw [List.mem_append, not_or]
  refine ⟨?_, by decide⟩
  unfold registerText
  cases hname : symbols.registerName? register with
  | none =>
    have hdigits := Text.solid_hexadecimal 2 register
    rw [Option.getD_none, Text.hexLiteral, String.toList_append, List.mem_append, not_or]
    exact ⟨by decide, fun hmem => absurd (hdigits ' ' hmem) (by decide)⟩
  | some name =>
    intro hmem
    exact absurd (Symbols.solid_of_isName (hallowed.registers register name hname) ' ' hmem).1
      (by decide)

/-- A register in front of a comma is told apart from whatever is shown behind. -/
private theorem eq_of_registerText_append (hallowed : symbols.Allowed) {register register' : Int}
    {more more' : String}
    (heq : registerText symbols register ++ ", " ++ more =
      registerText symbols register' ++ ", " ++ more') :
    registerText symbols register = registerText symbols register' ∧ more = more' := by
  have hchars (register : Int) (more : String) :
      (registerText symbols register ++ ", " ++ more).toList =
        ((registerText symbols register).toList ++ [',']) ++ ' ' :: more.toList := by
    simp
  have hsame := congrArg String.toList heq
  rw [hchars, hchars] at hsame
  obtain ⟨hregister, hmore⟩ := Text.eq_of_append_mark (space_not_mem_registerText hallowed register)
    (space_not_mem_registerText hallowed register') hsame
  exact ⟨String.toList_inj.mp (List.append_cancel_right hregister), String.toList_inj.mp hmore⟩

/-- Words of one row that show the same operands have the same operand fields. -/
theorem sameFields_of_operandText (hnames : symbols.TellsApart selection)
    {address address' word word' : Int} (hencoding : Encoding.ofWord word = Encoding.ofWord word')
    (htext : operandText symbols ⟨address, word, selection⟩ =
      operandText symbols ⟨address', word', selection⟩) :
    (Encoding.ofWord word).layout.SameFields word word' := by
  have hfield (word : Int) : 0 ≤ word % 128 ∧ word % 128 < bankSize := by
    simp only [bankSize]
    omega
  simp only [operandText, operands, encoding, hencoding] at htext ⊢
  cases hlayout : (Encoding.ofWord word').layout <;>
    simp only [hlayout, Operands.ofWord, Layout.SameFields] at htext ⊢
  case file => exact field_eq_of_registerText hnames (hfield word) (hfield word') htext
  case fileBit =>
    obtain ⟨hregister, hbit⟩ := eq_of_registerText_append hnames.allowed htext
    have hsame := field_eq_of_registerText hnames (hfield word) (hfield word') hregister
    rw [hsame] at hbit
    exact ⟨hsame, bit_eq_of_bitText hnames (by omega) (by omega) hbit⟩
  case fileDest =>
    obtain ⟨hregister, hdest⟩ := eq_of_registerText_append hnames.allowed htext
    have hflag : ∀ flag flag' : Bool,
        (if flag then "F" else "W") = (if flag' then "F" else "W") → flag = flag' := by
      decide
    have hdest := Bool.eq_iff_iff.mp (hflag _ _ hdest)
    simp only [beq_iff_eq] at hdest
    exact ⟨field_eq_of_registerText hnames (hfield word) (hfield word') hregister, by omega⟩
  case literal => exact Text.hexLiteral_injective 2 htext
  case branch =>
    have htarget := hnames.addresses htext
    simp only [Selection.target] at htarget
    exact (Int.add_left_inj _).mp htarget

/-- What stands behind the name of the operation: the word itself if it has no meaning, else its
    operands. -/
def shown (symbols : Symbols) (instruction : Instruction) : String :=
  if instruction.mnemonic = .unknown then Text.hexLiteral 4 instruction.word
  else instruction.operandText symbols

theorem text_eq (symbols : Symbols) (instruction : Instruction) : instruction.text symbols =
    if instruction.shown symbols = "" then instruction.mnemonic.text
    else Text.padRight 8 instruction.mnemonic.text ++ instruction.shown symbols := by
  unfold text shown
  by_cases hunknown : instruction.mnemonic = .unknown
  · have hliteral : Text.hexLiteral 4 instruction.word ≠ "" := by simp [Text.hexLiteral]
    simp only [if_pos hunknown, if_neg hliteral]
  · simp only [if_neg hunknown, String.isEmpty_iff]

/-- The name of the operation and what stands behind it are told apart. -/
theorem mnemonic_and_shown_eq_of_text (htext : instruction.text symbols = other.text symbols) :
    instruction.mnemonic.text = other.mnemonic.text ∧
    instruction.shown symbols = other.shown symbols := by
  have hcolumn (instruction : Instruction) :
      ' ' ∉ instruction.mnemonic.text.toList ∧ instruction.mnemonic.text.length < 8 :=
    have hname := Encoding.text_ofWord instruction.word instruction.word
    ⟨hname.1, hname.2.1⟩
  obtain ⟨hspace, hlength⟩ := hcolumn instruction
  obtain ⟨hspace', hlength'⟩ := hcolumn other
  have hpadded {name column more : String} (hname : ' ' ∉ name.toList) (hcolumn : column.length < 8)
      (heq : name = Text.padRight 8 column ++ more) : False := by
    rw [heq, Text.toList_padRight_append hcolumn] at hname
    exact hname (List.mem_append_right _ List.mem_cons_self)
  rw [text_eq, text_eq] at htext
  split at htext <;> split at htext
  · next hshown hshown' => exact ⟨htext, hshown.trans hshown'.symm⟩
  · exact (hpadded hspace hlength' htext).elim
  · exact (hpadded hspace' hlength htext.symm).elim
  · have hchars := congrArg String.toList htext
    rw [Text.toList_padRight_append hlength, Text.toList_padRight_append hlength'] at hchars
    obtain ⟨hname, hshown⟩ := Text.eq_of_append_mark hspace hspace' hchars
    have hmnemonic := String.toList_inj.mp hname
    rw [hmnemonic] at hshown
    exact ⟨hmnemonic, String.toList_inj.mp (List.append_cancel_left hshown)⟩

/-- A text in a listing loses nothing of the word but the bits that do not count: at most one row of
    the table covers a word, and words with the same text have the same row and the same operand
    fields, and are the same if they have no meaning. -/
theorem text_tells_encoding_and_operands :
    (∀ word : Int, Encoding.table.Pairwise fun row other =>
      ¬ (row.covers (.ofInt 14 word) = true ∧ other.covers (.ofInt 14 word) = true)) ∧
    ∀ (symbols : Symbols) (selection : Selection), symbols.TellsApart selection →
      ∀ address address' word word' : Int,
        text symbols ⟨address, word, selection⟩ = text symbols ⟨address', word', selection⟩ →
        Encoding.ofWord word = Encoding.ofWord word' ∧
        (Encoding.ofWord word).layout.SameFields word word' ∧
        ((Encoding.ofWord word).mnemonic = .unknown → word = word') := by
  refine ⟨fun word => Encoding.pairwise_covers _,
    fun symbols selection hnames address address' word word' htext => ?_⟩
  obtain ⟨hmnemonic, hshown⟩ := mnemonic_and_shown_eq_of_text htext
  have hencoding : Encoding.ofWord word = Encoding.ofWord word' :=
    (Encoding.text_ofWord word word').2.2 hmnemonic
  have hmeaning : (Encoding.ofWord word').mnemonic = (Encoding.ofWord word).mnemonic := by
    rw [hencoding]
  by_cases hunknown : (Encoding.ofWord word).mnemonic = .unknown
  · simp only [shown, mnemonic, encoding, hmeaning, hunknown, if_true] at hshown
    obtain rfl := Text.hexLiteral_injective 4 hshown
    refine ⟨rfl, ?_, fun _ => rfl⟩
    cases (Encoding.ofWord word).layout <;> simp [Layout.SameFields]
  · simp only [shown, mnemonic, encoding, hmeaning, hunknown, if_false] at hshown
    exact ⟨hencoding, sameFields_of_operandText hnames hencoding hshown,
      fun hnone => absurd hnone hunknown⟩

theorem text_tells_movlw : Symbols.standard.TellsApart {} ∧
    text .standard ⟨0, 0x3005, {}⟩ = text .standard ⟨1, 0x3105, {}⟩ ∧
    Encoding.ofWord 0x3005 = Encoding.ofWord 0x3105 ∧ (0x3005 : Int) % 256 = 0x3105 % 256 :=
  have hnames := Symbols.tellsApart_standard {}
  have htext : text .standard ⟨0, 0x3005, {}⟩ = text .standard ⟨1, 0x3105, {}⟩ := by decide +kernel
  have htold := text_tells_encoding_and_operands.2 _ _ hnames 0 1 0x3005 0x3105 htext
  have hlayout : (Encoding.ofWord 0x3005).layout = .literal := by decide +kernel
  ⟨hnames, htext, htold.1, by simpa only [hlayout, Layout.SameFields] using htold.2.1⟩

end Instruction

end Midrange
