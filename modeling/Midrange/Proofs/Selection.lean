import Mathlib.Tactic.Common
import Midrange.Instruction.Basic
import Midrange.Proofs.Instruction.Encoding

namespace Midrange

namespace Selection

variable {selection written : Selection}

/-- Bank and page are two-bit values. -/
def Valid (selection : Selection) : Prop :=
  (0 ≤ selection.bank ∧ selection.bank < 4) ∧ 0 ≤ selection.page ∧ selection.page < 4

theorem valid_atEntry (address : Int) : (atEntry address).Valid :=
  ⟨by simp [atEntry], atEntry_page_mem_range address⟩

/-- A write to any bit keeps bank and page two-bit values. -/
theorem Valid.of_write? {register bit : String} {value : Bool} (hvalid : selection.Valid)
    (hwrite : selection.write? register bit value = some written) : written.Valid := by
  obtain ⟨hbank, hpage⟩ := hvalid
  unfold write? at hwrite
  split at hwrite
  · obtain rfl := Option.some.inj hwrite
    exact ⟨writeBit_mem_range false value selection.bank, hpage⟩
  · obtain rfl := Option.some.inj hwrite
    exact ⟨writeBit_mem_range true value selection.bank, hpage⟩
  · obtain rfl := Option.some.inj hwrite
    exact ⟨hbank, writeBit_mem_range false value selection.page⟩
  · obtain rfl := Option.some.inj hwrite
    exact ⟨hbank, writeBit_mem_range true value selection.page⟩
  · cases hwrite

end Selection

namespace Instruction

variable {symbols : Symbols} {instruction : Instruction}

/-- An instruction leaves the selection alone or writes one bit of it. -/
theorem after_eq_or_write? (symbols : Symbols) (instruction : Instruction) :
    instruction.after symbols = instruction.selection ∨
      ∃ register bit value,
        instruction.selection.write? register bit value = some (instruction.after symbols) := by
  have hafter := Option.getD_eq_iff.mp (rfl : _ = instruction.after symbols)
  obtain hwritten | ⟨-, hsame⟩ := hafter
  · right
    simp only [Option.bind_eq_bind, Option.bind_eq_some_iff] at hwritten
    obtain ⟨value, -, -, -, register, -, hwritten⟩ := hwritten
    split at hwritten
    · obtain ⟨bit, -, hwrite⟩ := Option.bind_eq_some_iff.mp hwritten
      exact ⟨register, bit, value, hwrite⟩
    · cases hwritten
  · exact Or.inl hsame.symm

theorem valid_after (symbols : Symbols) (hvalid : instruction.selection.Valid) :
    (instruction.after symbols).Valid := by
  obtain hsame | ⟨register, bit, value, hwrite⟩ := instruction.after_eq_or_write? symbols
  · rwa [hsame]
  · exact hvalid.of_write? hwrite

/-- The selection behind words that are passed one after the other. -/
def selectionBehind (symbols : Symbols) (selection : Selection) (words : List (Int × Int)) :
    Selection :=
  words.foldl (fun selection (address, word) => after symbols ⟨address, word, selection⟩) selection

theorem selectionBehind_append (symbols : Symbols) (selection : Selection)
    (words more : List (Int × Int)) :
    selectionBehind symbols selection (words ++ more) =
      selectionBehind symbols (selectionBehind symbols selection words) more :=
  List.foldl_append ..

/-- A branch leads to the address that the low bits of the word give in one of the four pages. -/
theorem target?_eq_some {target : Int} (htarget : instruction.target? = some target) :
    target = instruction.word % pageSize + pageSize * instruction.selection.page := by
  obtain ⟨offset, hoffset, rfl⟩ := Option.map_eq_some_iff.mp htarget
  unfold operands Operands.ofWord at hoffset
  split at hoffset <;> cases hoffset
  rfl

theorem target?_of_branchKind? {kind : BranchKind}
    (hkind : instruction.mnemonic.branchKind? = some kind) :
    instruction.target? =
      some (instruction.word % pageSize + pageSize * instruction.selection.page) := by
  have hlayout : instruction.encoding.layout = .branch := Encoding.layout_of_branchKind? hkind
  simp [target?, operands, hlayout, Operands.ofWord, Operands.branch?, Selection.target, pageSize]

/-- An instruction that leads to an address is a branch. -/
theorem exists_branchKind?_of_target? {target : Int} (htarget : instruction.target? = some target) :
    ∃ kind, instruction.mnemonic.branchKind? = some kind := by
  obtain ⟨offset, hoffset, -⟩ := Option.map_eq_some_iff.mp htarget
  refine Encoding.exists_branchKind?_of_layout ?_
  unfold operands Operands.ofWord at hoffset
  split at hoffset
  case h_6 hlayout => exact hlayout
  all_goals cases hoffset

/-- A register is the one that the low bits of the word give in one of the four banks. -/
theorem register?_eq_some {register : Int} (hregister : instruction.register? = some register) :
    register = instruction.word % bankSize + bankSize * instruction.selection.bank := by
  obtain ⟨field, hfield, rfl⟩ := Option.map_eq_some_iff.mp hregister
  unfold operands Operands.ofWord at hfield
  split at hfield <;> cases hfield <;> rfl

theorem target?_mod {target : Int} (htarget : instruction.target? = some target) :
    target % pageSize = instruction.word % pageSize := by
  have heq := target?_eq_some htarget
  simp only [pageSize] at heq ⊢
  omega

theorem register?_mod {register : Int} (hregister : instruction.register? = some register) :
    register % bankSize = instruction.word % bankSize := by
  have heq := register?_eq_some hregister
  simp only [bankSize] at heq ⊢
  omega

end Instruction

end Midrange
