import Midrange.Proofs.Sweep

namespace Midrange

/-- What lies in program memory is neither the configuration word nor in data memory. -/
theorem Symbols.not_data_of_lt {address : Int} (hprogram : address < programLimit) :
    address ≠ configAddress ∧ dataMemory.covers address = false := by
  simp only [programLimit] at hprogram
  constructor
  · simp only [configAddress]
    omega
  · have hstart : ¬ dataMemory.start ≤ address := by
      simp only [dataMemory, dataMemoryStart]
      omega
    simp [DataBlock.covers, hstart]

namespace Instruction

variable {symbols : Symbols} {selection : Selection} {words : List (Int × Int)}
  {instruction : Instruction}

/-- Calls and `goto`s lead to an address, and nothing else does. -/
theorem isSome_target?_iff :
    instruction.target?.isSome = true ↔
    instruction.mnemonic = .call ∨ instruction.mnemonic = .goto := by
  have hbranch : instruction.target?.isSome = true ↔
      instruction.mnemonic.branchKind?.isSome = true := by
    constructor
    · intro hsome
      obtain ⟨target, htarget⟩ := Option.isSome_iff_exists.mp hsome
      obtain ⟨kind, hkind⟩ := exists_branchKind?_of_target? htarget
      exact Option.isSome_of_eq_some hkind
    · intro hsome
      obtain ⟨kind, hkind⟩ := Option.isSome_iff_exists.mp hsome
      exact Option.isSome_of_eq_some (target?_of_branchKind? hkind)
  rw [hbranch]
  cases instruction.mnemonic <;> simp [Mnemonic.branchKind?]

theorem isSome_register?_iff :
    instruction.register?.isSome = true ↔
    instruction.encoding.layout ∈ [.file, .fileBit, .fileDest] := by
  rw [register?, Option.isSome_map, operands]
  cases instruction.encoding.layout <;> simp [Operands.ofWord, Operands.register?]

/-- The eleven bits of a branch and the two of the page make an address of program memory. -/
theorem target?_mem_range {target : Int} (hvalid : instruction.selection.Valid)
    (htarget : instruction.target? = some target) :
    (0 ≤ target ∧ target < Symbols.programLimit) ∧
    target / pageSize = instruction.selection.page := by
  have heq := target?_eq_some htarget
  obtain ⟨-, hpage⟩ := hvalid
  simp only [pageSize, Symbols.programLimit] at heq ⊢
  omega

/-- The seven bits of a register and the two of the bank make the number of a register in one of the
    banks. -/
theorem register?_mem_range {register : Int} (hvalid : instruction.selection.Valid)
    (hregister : instruction.register? = some register) :
    (0 ≤ register ∧ register < 4 * bankSize) ∧
    register / bankSize = instruction.selection.bank := by
  have heq := register?_eq_some hregister
  obtain ⟨hbank, -⟩ := hvalid
  simp only [bankSize] at heq ⊢
  omega

/-- Along words that are passed one after the other, bank and page stay two-bit values. -/
theorem valid_of_mem_sequence (hvalid : selection.Valid)
    (hmem : instruction ∈ sequence symbols selection words) : instruction.selection.Valid := by
  induction words generalizing selection with
  | nil => cases hmem
  | cons head rest ih =>
    obtain ⟨address, word⟩ := head
    obtain rfl | hlater := List.mem_cons.mp hmem
    · exact hvalid
    · exact ih (valid_after symbols hvalid) hlater

/-- Whatever the names, the entry and the words that are passed from there on, bank and page are
    two-bit values in front of each word and behind it. Calls and `goto`s, and nothing else, lead to
    an address, which the word gives in the selected page. It lies in program memory, and so it is
    neither the configuration word nor in data memory. The instructions with a register field, and
    no others, work on a register, which the word gives in the selected bank. -/
theorem stays_in_range (symbols : Symbols) (start : Int) (words : List (Int × Int)) :
    let instructions := sequence symbols (.atEntry start) words
    instructions.map (fun instruction => (instruction.address, instruction.word)) = words ∧
    ∀ instruction ∈ instructions,
      instruction.selection.Valid ∧ (instruction.after symbols).Valid ∧
      (instruction.target?.isSome = true ↔
        instruction.mnemonic = .call ∨ instruction.mnemonic = .goto) ∧
      (∀ target, instruction.target? = some target →
        (0 ≤ target ∧ target < 0x2000) ∧
        target % pageSize = instruction.word % pageSize ∧
        target / pageSize = instruction.selection.page ∧
        target ≠ Symbols.configAddress ∧ Symbols.dataMemory.covers target = false) ∧
      (instruction.register?.isSome = true ↔
        instruction.encoding.layout ∈ [.file, .fileBit, .fileDest]) ∧
      ∀ register, instruction.register? = some register →
        (0 ≤ register ∧ register < 0x200) ∧
        register % bankSize = instruction.word % bankSize ∧
        register / bankSize = instruction.selection.bank := by
  intro instructions
  refine ⟨map_sequence symbols _ words, fun instruction hmem => ?_⟩
  have hvalid : instruction.selection.Valid :=
    valid_of_mem_sequence (Selection.valid_atEntry start) hmem
  refine ⟨hvalid, valid_after symbols hvalid, isSome_target?_iff, fun target htarget => ?_,
    isSome_register?_iff, fun register hregister => ?_⟩
  · obtain ⟨hrange, hpage⟩ := target?_mem_range hvalid htarget
    exact ⟨hrange, target?_mod htarget, hpage, Symbols.not_data_of_lt hrange.2⟩
  · obtain ⟨hrange, hbank⟩ := register?_mem_range hvalid hregister
    exact ⟨hrange, register?_mod hregister, hbank⟩

/-- An entry in front of all memory, and words that are too long or negative: they reach the last
    register and the last address of program memory. -/
theorem stays_in_range_last :
    let instructions :=
      sequence .standard (.atEntry (-1)) [(-1, 0x1683), (0, 0x1703), (1, 0x100FF), (2, -0x1001)]
    instructions.filterMap (·.register?) = [0x003, 0x083, 0x1FF] ∧ targets instructions = [0x1FFF] ∧
      ∃ branch ∈ instructions, branch.target? = some 0x1FFF ∧ (branch.after .standard).Valid ∧
        Symbols.dataMemory.covers 0x1FFF = false := by
  intro instructions
  obtain ⟨-, hall⟩ :=
    stays_in_range .standard (-1) [(-1, 0x1683), (0, 0x1703), (1, 0x100FF), (2, -0x1001)]
  have heq : instructions =
      [⟨-1, 0x1683, ⟨0, 3⟩⟩, ⟨0, 0x1703, ⟨1, 3⟩⟩, ⟨1, 0x100FF, ⟨3, 3⟩⟩, ⟨2, -0x1001, ⟨3, 3⟩⟩] := by
    decide +kernel
  have hmem : ⟨2, -0x1001, ⟨3, 3⟩⟩ ∈ instructions := by simp [heq]
  have htarget : (⟨2, -0x1001, ⟨3, 3⟩⟩ : Instruction).target? = some 0x1FFF := by decide +kernel
  obtain ⟨-, hvalid, -, hrange, -⟩ := hall _ hmem
  obtain ⟨-, -, -, -, hdata⟩ := hrange _ htarget
  have htargets : targets instructions = [0x1FFF] := by
    rw [heq]
    decide +kernel
  have hregisters : instructions.filterMap (·.register?) = [0x003, 0x083, 0x1FF] := by
    rw [heq]
    decide +kernel
  exact ⟨hregisters, htargets, _, hmem, htarget, hvalid, hdata⟩

end Instruction

end Midrange
