import Midrange.Proofs.Symbols.History

namespace Midrange

namespace Symbols

variable {symbols : Symbols} {address : Int} {name : String}

theorem ensureLabels_append (symbols : Symbols) (first rest : List Int) :
    symbols.ensureLabels (first ++ rest) = (symbols.ensureLabels first).ensureLabels rest :=
  List.foldl_append ..

theorem label?_eq_some_iff : symbols.label? address = some name ↔
    symbols.isLabelled address = true ∧ symbols.nameOf address = name := by
  rw [nameOf, isLabelled, Std.TreeMap.contains_eq_isSome_getElem?, label?]
  cases symbols.labels[address]? <;> simp

theorem label?_ensureLabels_of_subset {fewer more : List Int} (hsubset : fewer ⊆ more)
    (hlabel : (symbols.ensureLabels fewer).label? address = some name) :
    (symbols.ensureLabels more).label? address = some name := by
  rw [label?_eq_some_iff, isLabelled_ensureLabels_iff, Depth.nameOf_ensureLabels] at hlabel ⊢
  exact ⟨hlabel.1.imp_left (@hsubset address), hlabel.2⟩

/-- Labels that are there already are not recorded once more. -/
theorem labels_ensureLabels_of_labelled {addresses : List Int}
    (hlabelled : ∀ address ∈ addresses, symbols.isLabelled address = true) :
    (symbols.ensureLabels addresses).labels.toList = symbols.labels.toList := by
  refine (Std.TreeMap.Equiv.of_forall_constGet?_eq fun address => ?_).toList_eq
  rw [getElem?_labels_ensureLabels]
  split
  · next hmem =>
    have hlabelled := hlabelled address hmem
    rw [isLabelled, Std.TreeMap.contains_eq_isSome_getElem?] at hlabelled
    rw [Option.or_of_isSome hlabelled]
  · exact Option.or_none

end Symbols

namespace Instruction

/-- How a branch appears among the references of a sweep. -/
def reference? (instruction : Instruction) : Option Reference := do
  return ⟨instruction.address, ← instruction.target?, ← instruction.mnemonic.branchKind?⟩

theorem operandText_ensureLabels (symbols : Symbols) (addresses : List Int) :
    operandText (symbols.ensureLabels addresses) = operandText symbols := by
  have hsame := Depth.sameCode_ensureLabels symbols addresses
  funext instruction
  simp only [operandText, registerText, bitText, Symbols.registerName?, Symbols.bitName?,
    hsame.registers, hsame.bits, Depth.nameOf_ensureLabels]

/-- The operand of a branch is the name of its target. -/
theorem operandText_of_target? {instruction : Instruction} {target : Int} (symbols : Symbols)
    (htarget : instruction.target? = some target) :
    instruction.operandText symbols = symbols.nameOf target := by
  obtain ⟨offset, hoffset, rfl⟩ := Option.map_eq_some_iff.mp htarget
  unfold operandText
  cases hoperands : instruction.operands <;> rw [hoperands] at hoffset <;> cases hoffset
  rfl

/-- The operands of an instruction that works on a register begin with the name of the register, if
    it has one. -/
theorem exists_operandText_of_register? {symbols : Symbols} {instruction : Instruction}
    {register : Int} {name : String} (hregister : instruction.register? = some register)
    (hname : symbols.registerName? register = some name) :
    ∃ more, instruction.operandText symbols = name ++ more := by
  have htext : registerText symbols register = name := by rw [registerText, hname, Option.getD_some]
  obtain ⟨field, hfield, rfl⟩ := Option.map_eq_some_iff.mp hregister
  unfold operandText
  cases hoperands : instruction.operands <;> rw [hoperands] at hfield <;> cases hfield
  case file => exact ⟨"", by simp only [htext, String.append_empty]⟩
  case fileBit bit => exact ⟨_, by simp only [htext, String.append_assoc]; rfl⟩
  case fileDest toFile => exact ⟨_, by simp only [htext, String.append_assoc]; rfl⟩

theorem text_ensureLabels (symbols : Symbols) (addresses : List Int) :
    text (symbols.ensureLabels addresses) = text symbols := by
  funext instruction
  simp only [text, operandText_ensureLabels]

theorem sequence_ensureLabels (symbols : Symbols) (addresses : List Int) (selection : Selection)
    (words : List (Int × Int)) :
    sequence (symbols.ensureLabels addresses) selection words =
      sequence symbols selection words := by
  have hafter := (Depth.sameCode_ensureLabels symbols addresses).after_eq
  induction words generalizing selection with
  | nil => rfl
  | cons word rest ih => simp only [sequence, hafter, ih]

theorem map_sequence (symbols : Symbols) (selection : Selection) (words : List (Int × Int)) :
    (sequence symbols selection words).map
      (fun instruction => (instruction.address, instruction.word)) = words := by
  induction words generalizing selection with
  | nil => rfl
  | cons word rest ih => simp only [sequence, List.map_cons, ih]

end Instruction

namespace Sweep

/-- Words that are decoded one after the other with a table that grows on the way. Data is passed
    over, and a branch records its target before it is shown. -/
def pass (symbols : Symbols) (selection : Selection) :
    List (Int × Int) → List (Instruction × String) × Symbols
  | [] => ([], symbols)
  | (address, word) :: rest =>
    if symbols.isData address then pass symbols selection rest
    else
      let instruction : Instruction := ⟨address, word, selection⟩
      let named := symbols.ensureLabels instruction.target?.toList
      let (shown, last) := pass named (instruction.after named) rest
      ((instruction, instruction.operandText named) :: shown, last)

/-- The labels that a pass records on the way show nowhere but in the table that it leaves. -/
theorem pass_eq (symbols : Symbols) (selection : Selection) (words : List (Int × Int)) :
    let instructions := Instruction.sequence symbols selection
      (words.filter fun (address, _) => !symbols.isData address)
    pass symbols selection words =
      (instructions.map fun instruction => (instruction, instruction.operandText symbols),
        label symbols instructions) := by
  induction words generalizing symbols selection with
  | nil => rfl
  | cons head rest ih =>
    obtain ⟨address, word⟩ := head
    cases hdata : symbols.isData address with
    | true => simpa [pass, hdata] using ih symbols selection
    | false =>
      let instruction : Instruction := ⟨address, word, selection⟩
      have hsame := Depth.sameCode_ensureLabels symbols instruction.target?.toList
      have htargets (instructions : List Instruction) :
          Instruction.targets (instruction :: instructions) =
          instruction.target?.toList ++ Instruction.targets instructions := by
        cases htarget : instruction.target? <;> simp [Instruction.targets, htarget]
      simp only [pass, hdata, Bool.false_eq_true, if_false, ih, hsame.after_eq, hsame.isData_eq,
        Instruction.sequence_ensureLabels, Instruction.operandText_ensureLabels, List.filter_cons,
        Bool.not_false, if_true, Instruction.sequence, List.map_cons, label, htargets,
        Symbols.ensureLabels_append, instruction]

theorem decode_ensureLabels (symbols : Symbols) (addresses : List Int) (image : Image) :
    decode (symbols.ensureLabels addresses) image = decode symbols image := by
  simp only [decode, (Depth.sameCode_ensureLabels symbols addresses).isData_eq,
    Instruction.sequence_ensureLabels]

end Sweep

end Midrange
