import Mathlib.Data.Finset.Card
import Midrange.Depth.Stretch
import Midrange.Proofs.Selection

namespace Midrange.Depth

variable {code : Code} {departure : Departure} {start : Int}

/-- Symbols that agree on registers, bits and data, whatever the labels. -/
structure SameCode (left right : Symbols) : Prop where
  registers : left.registers = right.registers
  bits : left.bits = right.bits
  data : left.data = right.data

namespace SameCode

variable {left right : Symbols} (hsame : SameCode left right)

include hsame

theorem symm : SameCode right left :=
  ⟨hsame.registers.symm, hsame.bits.symm, hsame.data.symm⟩

theorem trans {other : Symbols} (hother : SameCode right other) : SameCode left other :=
  ⟨hsame.registers.trans hother.registers, hsame.bits.trans hother.bits,
    hsame.data.trans hother.data⟩

theorem after_eq (instruction : Instruction) :
    instruction.after left = instruction.after right := by
  simp only [Instruction.after, Symbols.registerName?, Symbols.bitName?, hsame.registers,
    hsame.bits]

theorem isData_eq : left.isData = right.isData := by
  funext address
  simp only [Symbols.isData, hsame.data]

theorem wordAt_eq (image : Image) (limit address : Int) :
    (⟨image, left, limit⟩ : Code).wordAt address =
      (⟨image, right, limit⟩ : Code).wordAt address := by
  simp only [Code.wordAt, hsame.isData_eq]

theorem follow_eq (image : Image) (limit : Int) (count : Nat) (address : Int)
    (selection : Selection) (inTable : Bool) :
    (⟨image, left, limit⟩ : Code).follow count address selection inTable =
      (⟨image, right, limit⟩ : Code).follow count address selection inTable := by
  induction count generalizing address selection inTable with
  | zero => simp only [Code.follow, hsame.wordAt_eq]
  | succ count ih => simp only [Code.follow, hsame.wordAt_eq, hsame.after_eq, ih]

/-- Where control goes from an address on does not depend on any label. -/
theorem stretch_eq (image : Image) (limit start : Int) :
    (⟨image, left, limit⟩ : Code).stretch start = (⟨image, right, limit⟩ : Code).stretch start :=
  hsame.follow_eq image limit image.size start (.atEntry start) false

end SameCode

theorem sameCode_addLabel (symbols : Symbols) (address : Int) (name : String) :
    SameCode symbols (symbols.addLabel address name) := by
  unfold Symbols.addLabel
  split <;> exact ⟨rfl, rfl, rfl⟩

theorem sameCode_ensureLabels (symbols : Symbols) (addresses : List Int) :
    SameCode (symbols.ensureLabels addresses) symbols := by
  unfold Symbols.ensureLabels
  induction addresses generalizing symbols with
  | nil => exact ⟨rfl, rfl, rfl⟩
  | cons address rest ih =>
    obtain ⟨hregisters, hbits, hdata⟩ := ih (symbols.ensureLabel address)
    exact ⟨hregisters, hbits, hdata⟩

theorem nameOf_ensureLabels (symbols : Symbols) (addresses : List Int) :
    (symbols.ensureLabels addresses).nameOf = symbols.nameOf := by
  unfold Symbols.ensureLabels
  induction addresses generalizing symbols with
  | nil => rfl
  | cons address rest ih => exact (ih _).trans (Symbols.nameOf_ensureLabel symbols address)

/-- Control meets a word below the end of the program that is present and no data. -/
theorem wordAt_eq_ok_iff {address word : Int} : code.wordAt address = .ok word ↔
    address < code.limit ∧ code.image.word? address = some word ∧
    code.symbols.isData address = false := by
  unfold Code.wordAt
  split
  · rename_i hlimit
    exact iff_of_false nofun fun hboth => absurd hboth.1 (Int.not_lt.mpr hlimit)
  · rename_i hlimit
    split
    · rename_i hfound
      simp [hfound]
    · rename_i found hfound
      cases hdata : code.symbols.isData address <;> simp [hfound, Int.not_le.mp hlimit]

theorem word?_of_wordAt {address word : Int} (hword : code.wordAt address = .ok word) :
    code.image.word? address = some word :=
  (wordAt_eq_ok_iff.mp hword).2.1

private theorem mem_departures_lead {address : Int} {departure? : Option Departure}
    {stretch : Stretch} : departure ∈ (stretch.lead address departure?).departures ↔
      departure? = some departure ∨ departure ∈ stretch.departures := by
  simp [Stretch.lead]

private theorem exists_instruction_of_mem_follow {count : Nat} {address : Int}
    {selection : Selection} {inTable : Bool} (hvalid : selection.Valid)
    (hmem : departure ∈ (code.follow count address selection inTable).departures) :
    ∃ instruction : Instruction, instruction.selection.Valid ∧
      code.image.word? instruction.address = some instruction.word ∧
      departure? instruction = some departure := by
  induction count generalizing address selection inTable with
  | zero =>
    unfold Code.follow at hmem
    split at hmem <;> simp [Stretch.halted] at hmem
  | succ count ih =>
    unfold Code.follow at hmem
    split at hmem
    · simp [Stretch.halted] at hmem
    · rename_i word hword
      simp only at hmem
      split at hmem
      · simp [Stretch.halted] at hmem
      · split at hmem
        · rw [mem_departures_lead] at hmem
          obtain hhere | hnone := hmem
          · exact ⟨_, hvalid, word?_of_wordAt hword, hhere⟩
          · simp [Stretch.halted] at hnone
        · rw [mem_departures_lead] at hmem
          obtain hhere | hlater := hmem
          · exact ⟨_, hvalid, word?_of_wordAt hword, hhere⟩
          · exact ih (Instruction.valid_after code.symbols hvalid) hlater

/-- Every departure of a stretch is offered by an instruction of the image that is met in some bank
    and some page. -/
theorem exists_instruction_of_mem_departures (hmem : departure ∈ (code.stretch start).departures) :
    ∃ instruction : Instruction, instruction.selection.Valid ∧
      code.image.word? instruction.address = some instruction.word ∧
      departure? instruction = some departure :=
  exists_instruction_of_mem_follow (Selection.valid_atEntry start) hmem

/-- Control passes nothing and departs nowhere, or else it passes the address where it starts. -/
theorem follow_eq_halted_or_lead (code : Code) (count : Nat) (address : Int) (selection : Selection)
    (inTable : Bool) :
    (∃ ending, code.follow count address selection inTable = .halted ending) ∨
      ∃ departure? rest,
        code.follow count address selection inTable = .lead address departure? rest := by
  cases count with
  | zero =>
    unfold Code.follow
    split <;> exact Or.inl ⟨_, rfl⟩
  | succ count =>
    unfold Code.follow
    split
    · exact Or.inl ⟨_, rfl⟩
    · simp only
      split
      · exact Or.inl ⟨_, rfl⟩
      · split <;> exact Or.inr ⟨_, _, rfl⟩

/-- The number of words of an image from an address on. -/
def wordsFrom (image : Image) (address : Int) : Nat :=
  (image.words.keys.toFinset.filter (address ≤ ·)).card

theorem wordsFrom_le_size (image : Image) (address : Int) :
    wordsFrom image address ≤ image.size := by
  have hkeys := List.toFinset_card_le image.words.keys
  rw [Std.TreeMap.length_keys] at hkeys
  exact (Finset.card_filter_le _ _).trans hkeys

theorem wordsFrom_lt {image : Image} {address word : Int}
    (hword : image.word? address = some word) :
    wordsFrom image (address + 1) < wordsFrom image address := by
  have hpresent : address ∈ image.words.keys.toFinset := by
    rw [List.mem_toFinset, Std.TreeMap.mem_keys, Std.TreeMap.mem_iff_isSome_getElem?]
    exact Option.isSome_iff_exists.mpr ⟨word, hword⟩
  refine Finset.card_lt_card
    ((Finset.ssubset_iff_of_subset fun place hplace => ?_).mpr ⟨address, ?_, ?_⟩)
  · rw [Finset.mem_filter] at hplace ⊢
    exact ⟨hplace.1, by omega⟩
  · exact Finset.mem_filter.mpr ⟨hpresent, Int.le_refl _⟩
  · rw [Finset.mem_filter]
    omega

/-- With fuel for all words that are left, control stops on its own, so that more fuel changes
    nothing. -/
private theorem follow_eq_of_le {count more : Nat} {address : Int} (selection : Selection)
    (inTable : Bool) (hcount : wordsFrom code.image address ≤ count) (hmore : count ≤ more) :
    code.follow more address selection inTable = code.follow count address selection inTable := by
  induction count generalizing more address selection inTable with
  | zero =>
    cases hword : code.wordAt address with
    | error ending => cases more <;> simp [Code.follow, hword]
    | ok word =>
      have hless := wordsFrom_lt (word?_of_wordAt hword)
      omega
  | succ count ih =>
    obtain ⟨more, rfl⟩ : ∃ rest, more = rest + 1 := ⟨more - 1, by omega⟩
    cases hword : code.wordAt address with
    | error ending => simp [Code.follow, hword]
    | ok word =>
      have hless := wordsFrom_lt (word?_of_wordAt hword)
      have hrest (selection : Selection) (inTable : Bool) :
          code.follow more (address + 1) selection inTable =
            code.follow count (address + 1) selection inTable :=
        ih selection inTable (by omega) (by omega)
      simp only [Code.follow, hword, hrest]

/-- The number of words of an image is fuel enough to follow it from any address. -/
theorem follow_eq_stretch {count : Nat} (hcount : code.image.size ≤ count) (start : Int) :
    code.follow count start (.atEntry start) false = code.stretch start :=
  follow_eq_of_le _ _ (wordsFrom_le_size code.image start) hcount

end Midrange.Depth
