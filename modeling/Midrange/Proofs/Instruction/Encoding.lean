import Mathlib.Data.List.Nodup
import Midrange.Instruction.Operands

namespace Midrange.Encoding

variable {row other : Encoding} {bits : BitVec 14} {word field bit : Int} {value : Bool}

private theorem eq_of_overlap : ∀ row ∈ table, ∀ other ∈ table,
    row.pattern &&& other.mask = other.pattern &&& row.mask → row = other := by
  decide +kernel

/-- No bits belong to two rows of the table. -/
theorem eq_of_covers (hrow : row ∈ table) (hother : other ∈ table)
    (hcovers : row.covers bits = true) (hcovers' : other.covers bits = true) : row = other := by
  have hpattern : bits &&& row.mask = row.pattern := eq_of_beq hcovers
  have hpattern' : bits &&& other.mask = other.pattern := eq_of_beq hcovers'
  refine eq_of_overlap row hrow other hother ?_
  rw [← hpattern, ← hpattern', BitVec.and_assoc, BitVec.and_assoc, BitVec.and_comm row.mask]

/-- No two rows of the table cover the same bits. -/
theorem pairwise_covers (bits : BitVec 14) :
    table.Pairwise fun row other => ¬ (row.covers bits = true ∧ other.covers bits = true) := by
  have hnodup : table.Nodup := by decide
  refine hnodup.pairwise_of_forall_ne fun row hrow other hother hne hboth => ?_
  exact hne (eq_of_covers hrow hother hboth.1 hboth.2)

/-- The name of the operation tells its row, and it fits into its column without a space. -/
theorem text_ofWord (word other : Int) : ' ' ∉ (ofWord word).mnemonic.text.toList ∧
    (ofWord word).mnemonic.text.length < 8 ∧
    ((ofWord word).mnemonic.text = (ofWord other).mnemonic.text → ofWord word = ofWord other) := by
  have hrows : ∀ row ∈ reserved :: table, ' ' ∉ row.mnemonic.text.toList ∧
      row.mnemonic.text.length < 8 ∧
      ∀ other ∈ reserved :: table, row.mnemonic.text = other.mnemonic.text → row = other := by
    decide +kernel
  have hmem (word : Int) : ofWord word ∈ reserved :: table := by
    obtain hrow | hreserved := ofBits_mem (.ofInt 14 word)
    · exact List.mem_cons_of_mem reserved hrow
    · exact List.mem_cons.mpr (Or.inl hreserved)
  obtain ⟨hspace, hlength, hinjective⟩ := hrows _ (hmem word)
  exact ⟨hspace, hlength, hinjective _ (hmem other)⟩

/-- The order of the table does not matter: bits stand for any row that covers them. -/
theorem ofBits_eq_of_covers (hrow : row ∈ table) (hcovers : row.covers bits = true) :
    ofBits bits = row := by
  have hsome : (table.find? (·.covers bits)).isSome := List.find?_isSome.mpr ⟨row, hrow, hcovers⟩
  obtain ⟨found, hfound⟩ := Option.isSome_iff_exists.mp hsome
  have hcovers' : found.covers bits = true := by simpa using List.find?_some hfound
  rw [ofBits, hfound, Option.getD_some,
    eq_of_covers (List.mem_of_find?_eq_some hfound) hrow hcovers' hcovers]

/-- An instruction that writes a single bit has a register and the number of a bit. -/
theorem layout_of_writtenBit? (hvalue : (ofWord word).mnemonic.writtenBit? = some value) :
    (ofWord word).layout = .fileBit := by
  have htable : ∀ row ∈ table, row.mnemonic.writtenBit?.isSome → row.layout = .fileBit := by decide
  obtain hmem | hreserved := ofBits_mem (.ofInt 14 word)
  · exact htable _ hmem (Option.isSome_of_eq_some hvalue)
  · rw [ofWord, hreserved] at hvalue
    cases hvalue

/-- An instruction that branches has the low bits of an address. -/
theorem layout_of_branchKind? {kind : BranchKind}
    (hkind : (ofWord word).mnemonic.branchKind? = some kind) : (ofWord word).layout = .branch := by
  have htable : ∀ row ∈ table, row.mnemonic.branchKind?.isSome → row.layout = .branch := by decide
  obtain hmem | hreserved := ofBits_mem (.ofInt 14 word)
  · exact htable _ hmem (Option.isSome_of_eq_some hkind)
  · rw [ofWord, hreserved] at hkind
    cases hkind

/-- Only the instructions that branch have the low bits of an address. -/
theorem exists_branchKind?_of_layout (hlayout : (ofWord word).layout = .branch) :
    ∃ kind, (ofWord word).mnemonic.branchKind? = some kind := by
  have htable : ∀ row ∈ table, row.layout = .branch → row.mnemonic.branchKind?.isSome := by decide
  obtain hmem | hreserved := ofBits_mem (.ofInt 14 word)
  · exact Option.isSome_iff_exists.mp (htable _ hmem hlayout)
  · rw [ofWord, hreserved] at hlayout
    cases hlayout

/-- The jump into a table adds to a register. -/
theorem mnemonic_of_isDispatch (hdispatch : isDispatch word = true) :
    (ofWord word).mnemonic = .addwf := by
  have hbits : BitVec.ofInt 14 word = 0x0782 := eq_of_beq hdispatch
  rw [ofWord, hbits]
  decide

/-- The word that writes one bit of a register. -/
def writeWord (value : Bool) (field bit : Int) : Int :=
  (if value then 0x1400 else 0x1000) + 0x80 * bit + field

/-- The word that writes a bit is decoded as such. -/
theorem writtenBit?_writeWord (value : Bool) (hfield : 0 ≤ field ∧ field < 128)
    (hbit : 0 ≤ bit ∧ bit < 8) :
    (ofWord (writeWord value field bit)).mnemonic.writtenBit? = some value := by
  have hrow : ∀ value : Bool, ∃ row ∈ table, row.mnemonic.writtenBit? = some value ∧
      row.mask = 0x3c00 ∧ row.pattern = .ofInt 14 (writeWord value 0 0) := by
    decide
  have hmasked : ∀ value : Bool, ∀ field : Fin 128, ∀ bit : Fin 8,
      BitVec.ofInt 14 (writeWord value field.val bit.val) &&& 0x3c00 =
        .ofInt 14 (writeWord value 0 0) := by
    decide +kernel
  obtain ⟨row, hmem, hvalue, hmask, hpattern⟩ := hrow value
  have hcovers : row.covers (.ofInt 14 (writeWord value field bit)) = true := by
    have hcovered := hmasked value ⟨field.toNat, by omega⟩ ⟨bit.toNat, by omega⟩
    simp only [Int.toNat_of_nonneg hfield.1, Int.toNat_of_nonneg hbit.1] at hcovered
    rw [covers, hmask, hpattern, hcovered, beq_self_eq_true]
  rw [ofWord, ofBits_eq_of_covers hmem hcovers, hvalue]

theorem field_writeWord (value : Bool) (bit : Int) (hfield : 0 ≤ field ∧ field < 128) :
    writeWord value field bit % 128 = field := by
  unfold writeWord
  split <;> omega

theorem bit_writeWord (value : Bool) (hfield : 0 ≤ field ∧ field < 128) (hbit : 0 ≤ bit ∧ bit < 8) :
    writeWord value field bit / 128 % 8 = bit := by
  unfold writeWord
  split <;> omega

end Midrange.Encoding
