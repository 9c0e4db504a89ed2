import Mathlib.Tactic.SplitIfs
import Midrange.Hints.Load
import Midrange.Proofs.Instruction.Encoding
import Midrange.Proofs.Selection

namespace Midrange

/-- The bits of the register file that select a bank or a page. -/
inductive SelectBit where
  | lowBank
  | highBank
  | lowPage
  | highPage
  deriving DecidableEq

namespace SelectBit

/-- Where the hardware keeps the select bits. Both of their registers stand at the same place in
    every bank. -/
def at? (field bit : Int) : Option SelectBit :=
  if field = 0x03 ∧ bit = 5 then some lowBank
  else if field = 0x03 ∧ bit = 6 then some highBank
  else if field = 0x0a ∧ bit = 3 then some lowPage
  else if field = 0x0a ∧ bit = 4 then some highPage
  else none

/-- The select bit that goes by the names of a register and a bit. -/
def named? (register bit : String) : Option SelectBit :=
  match register, bit with
  | "STATUS", "RP0" => some lowBank
  | "STATUS", "RP1" => some highBank
  | "PCLATH", "PCLATH3" => some lowPage
  | "PCLATH", "PCLATH4" => some highPage
  | _, _ => none

theorem at?_eq_none {field : Int} (hstatus : field ≠ 0x03) (hlatch : field ≠ 0x0a) (bit : Int) :
    at? field bit = none := by
  simp [at?, hstatus, hlatch]

theorem named?_eq_none {register : String} (hstatus : register ≠ "STATUS")
    (hlatch : register ≠ "PCLATH") (bit : String) : named? register bit = none := by
  unfold named?
  split <;> trivial

end SelectBit

namespace Selection

variable {selection : Selection} {select other : SelectBit} {value : Bool}

/-- A number in which the bit of some weight is replaced. -/
def replaceBit (weight : Int) (value : Bool) (number : Int) : Int :=
  number + weight * (value.toInt - number / weight % 2)

def read (selection : Selection) : SelectBit → Int
  | .lowBank => selection.bank % 2
  | .highBank => selection.bank / 2 % 2
  | .lowPage => selection.page % 2
  | .highPage => selection.page / 2 % 2

def write (selection : Selection) (value : Bool) : SelectBit → Selection
  | .lowBank => { selection with bank := replaceBit 1 value selection.bank }
  | .highBank => { selection with bank := replaceBit 2 value selection.bank }
  | .lowPage => { selection with page := replaceBit 1 value selection.page }
  | .highPage => { selection with page := replaceBit 2 value selection.page }

/-- The selection behind a word on the hardware, which knows no names: a word that writes a single
    bit changes it if that is a select bit, and no other word does. -/
def hardwareAfter (selection : Selection) (word : Int) : Selection :=
  match (Encoding.ofWord word).mnemonic.writtenBit?,
    SelectBit.at? (word % 128) (word / 128 % 8) with
  | some value, some select => selection.write value select
  | _, _ => selection

/-- The selections behind each of some words on the hardware. -/
def hardwareTrace (selection : Selection) : List Int → List Selection
  | [] => []
  | word :: rest =>
    selection.hardwareAfter word :: (selection.hardwareAfter word).hardwareTrace rest

@[simp]
theorem read_write_self : (selection.write value select).read select = value.toInt := by
  cases select <;> cases value <;> simp [read, write, replaceBit] <;> omega

@[simp]
theorem read_write_of_ne (hne : select ≠ other) :
    (selection.write value select).read other = selection.read other := by
  cases select <;> cases other <;> cases value <;> simp [read, write, replaceBit] at hne ⊢ <;> omega

/-- Two bits that leave the same behind whatever is written to them are the same bit. -/
theorem eq_of_forall_write (selection : Selection) {found found' : Option SelectBit}
    (hwrite : ∀ value, found.elim selection (selection.write value) =
      found'.elim selection (selection.write value)) : found = found' := by
  have hread (select : SelectBit) (value : Bool) := congrArg (read · select) (hwrite value)
  cases found with
  | none =>
    cases found' with
    | none => rfl
    | some select =>
      have hset := hread select true
      have hcleared := hread select false
      simp only [Option.elim_none, Option.elim_some, read_write_self] at hset hcleared
      exact absurd (hset.symm.trans hcleared) (by decide)
  | some select =>
    have hset := hread select true
    have hcleared := hread select false
    cases found' with
    | none =>
      simp only [Option.elim_none, Option.elim_some, read_write_self] at hset hcleared
      exact absurd (hset.trans hcleared.symm) (by decide)
    | some other =>
      by_contra hne
      have hother : other ≠ select := fun heq => hne (congrArg some heq.symm)
      simp only [Option.elim_some, read_write_self, read_write_of_ne hother] at hset hcleared
      exact absurd (hset.trans hcleared.symm) (by decide)

private theorem writeBit_eq_replaceBit {number : Int} (hnumber : 0 ≤ number ∧ number < 4)
    (value : Bool) : writeBit false value number = replaceBit 1 value number ∧
      writeBit true value number = replaceBit 2 value number := by
  cases value <;> simp [writeBit, replaceBit] <;> omega

/-- What is written by names is written to the bit that has these names. -/
theorem write?_eq_map (hvalid : selection.Valid) (register bit : String) (value : Bool) :
    selection.write? register bit value =
      (SelectBit.named? register bit).map (selection.write value) := by
  have hbank := writeBit_eq_replaceBit hvalid.1 value
  have hpage := writeBit_eq_replaceBit hvalid.2 value
  unfold write? SelectBit.named?
  split <;> simp [write, hbank, hpage]

end Selection

namespace Symbols

/-- The select bit whose names a bit of a register has. -/
def selectBit? (symbols : Symbols) (register bit : Int) : Option SelectBit :=
  (symbols.registerName? register).bind fun name =>
    (symbols.bitName? name bit).bind (SelectBit.named? name)

/-- In every bank the select bits have their own names, and nothing else has one of these. -/
def NamesSelectBits (symbols : Symbols) : Prop :=
  ∀ register bit, 0 ≤ register ∧ register < 512 → 0 ≤ bit ∧ bit < 8 →
    symbols.selectBit? register bit = SelectBit.at? (register % 128) bit

/-- The built-in names are right. -/
theorem namesSelectBits_standard : standard.NamesSelectBits := by
  have hregisters : ∀ register : Fin 512,
      (defaultRegisters[(register.val : Int)]?).filter
          (fun name => name = "STATUS" ∨ name = "PCLATH") =
        if (register.val : Int) % 128 = 0x03 then some "STATUS"
        else if (register.val : Int) % 128 = 0x0a then some "PCLATH" else none := by
    decide +kernel
  have hbits : ∀ bit : Fin 8,
      (defaultBits[BitRef.mk "STATUS" bit.val]?).bind (SelectBit.named? "STATUS") =
        SelectBit.at? 0x03 bit.val ∧
        (defaultBits[BitRef.mk "PCLATH" bit.val]?).bind (SelectBit.named? "PCLATH") =
          SelectBit.at? 0x0a bit.val := by
    decide +kernel
  intro register bit hregister hbit
  have hname := hregisters ⟨register.toNat, by omega⟩
  obtain ⟨hstatus, hlatch⟩ := hbits ⟨bit.toNat, by omega⟩
  simp only [Int.toNat_of_nonneg hregister.1, Int.toNat_of_nonneg hbit.1] at hname hstatus hlatch
  have hselect : standard.selectBit? register bit = (defaultRegisters[register]?).bind fun name =>
      (defaultBits[BitRef.mk name bit]?).bind (SelectBit.named? name) := rfl
  rw [hselect]
  split_ifs at hname with hthree hten
  · obtain ⟨hfound, -⟩ := Option.filter_eq_some_iff.mp hname
    rw [hfound, Option.bind_some, hstatus, hthree]
  · obtain ⟨hfound, -⟩ := Option.filter_eq_some_iff.mp hname
    rw [hfound, Option.bind_some, hlatch, hten]
  · rw [SelectBit.at?_eq_none hthree hten]
    refine Option.bind_eq_none_iff.mpr fun name hfound => Option.bind_eq_none_iff.mpr fun _ _ => ?_
    have hother := Option.filter_eq_none_iff.mp hname name hfound
    simp only [decide_eq_true_eq, not_or] at hother
    exact SelectBit.named?_eq_none hother.1 hother.2 _

end Symbols

namespace Instruction

variable {symbols : Symbols} {instruction : Instruction} {value : Bool}

/-- An instruction that writes a bit changes the selection if the bit has the names of a select
    bit. -/
theorem after_eq_elim (instruction : Instruction) (symbols : Symbols)
    (hvalid : instruction.selection.Valid)
    (hvalue : instruction.mnemonic.writtenBit? = some value) :
    instruction.after symbols =
      (symbols.selectBit? (instruction.selection.register (instruction.word % 128))
        (instruction.word / 128 % 8)).elim
          instruction.selection (instruction.selection.write value) := by
  have hoperands : instruction.operands =
      .fileBit (instruction.word % 128) (instruction.word / 128 % 8) := by
    rw [operands, encoding, Encoding.layout_of_writtenBit? hvalue, Operands.ofWord]
  simp only [after, hvalue, register?, hoperands, Operands.register?, Option.map_some,
    Option.bind_eq_bind, Option.bind_some, Selection.write?_eq_map hvalid, Symbols.selectBit?]
  cases symbols.registerName? (instruction.selection.register (instruction.word % 128)) with
  | none => rfl
  | some name =>
    cases hbit : symbols.bitName? name (instruction.word / 128 % 8) with
    | none => simp [hbit]
    | some bit =>
      simp only [hbit, Option.bind_some]
      cases SelectBit.named? name bit <;> rfl

theorem after_eq_selection (symbols : Symbols) (hvalue : instruction.mnemonic.writtenBit? = none) :
    instruction.after symbols = instruction.selection := by
  simp [after, hvalue]

/-- With the right names an instruction leaves the selection behind that the hardware does. -/
theorem after_eq_hardwareAfter (hnames : symbols.NamesSelectBits)
    (hvalid : instruction.selection.Valid) :
    instruction.after symbols = instruction.selection.hardwareAfter instruction.word := by
  unfold Selection.hardwareAfter
  cases hvalue : (Encoding.ofWord instruction.word).mnemonic.writtenBit? with
  | none => exact after_eq_selection symbols hvalue
  | some value =>
    have hbank := hvalid.1
    have hregister : instruction.selection.register (instruction.word % 128) =
        instruction.word % 128 + 128 * instruction.selection.bank := rfl
    have hselect := hnames (instruction.selection.register (instruction.word % 128))
      (instruction.word / 128 % 8) (by omega) (by omega)
    have hfield : instruction.selection.register (instruction.word % 128) % 128 =
        instruction.word % 128 := by
      omega
    rw [after_eq_elim instruction symbols hvalid hvalue, hselect, hfield]
    cases SelectBit.at? (instruction.word % 128) (instruction.word / 128 % 8) <;> rfl

section WriteWord

variable {selection : Selection} {field bit : Int} (value : Bool) (hfield : 0 ≤ field ∧ field < 128)
  (hbit : 0 ≤ bit ∧ bit < 8)

include hfield hbit

theorem after_writeWord (symbols : Symbols) (hvalid : selection.Valid) (address : Int) :
    (⟨address, Encoding.writeWord value field bit, selection⟩ : Instruction).after symbols =
      (symbols.selectBit? (selection.register field) bit).elim selection
        (selection.write value) := by
  have hafter :=
    after_eq_elim ⟨address, Encoding.writeWord value field bit, selection⟩ symbols hvalid
      (Encoding.writtenBit?_writeWord value hfield hbit)
  rwa [Encoding.field_writeWord value bit hfield,
    Encoding.bit_writeWord value hfield hbit] at hafter

theorem hardwareAfter_writeWord (selection : Selection) :
    selection.hardwareAfter (Encoding.writeWord value field bit) =
      (SelectBit.at? field bit).elim selection (selection.write value) := by
  rw [Selection.hardwareAfter, Encoding.writtenBit?_writeWord value hfield hbit,
    Encoding.field_writeWord value bit hfield, Encoding.bit_writeWord value hfield hbit]
  cases SelectBit.at? field bit <;> rfl

end WriteWord

/-- The state that is tracked is that of the hardware, behind each of any words and in any state at
    first, exactly if the names of the select bits are given to those bits and to no others. -/
theorem tracks_hardware_iff (symbols : Symbols) :
    (∀ selection : Selection, selection.Valid → ∀ words : List (Int × Int),
      (sequence symbols selection words).map (·.after symbols) =
        selection.hardwareTrace (words.map (·.2))) ↔ symbols.NamesSelectBits := by
  constructor
  · intro htracks register bit hregister hbit
    obtain ⟨selection, hvalid, hfull⟩ : ∃ selection : Selection, selection.Valid ∧
        selection.register (register % 128) = register := by
      refine ⟨⟨register / 128, 0⟩, ?_, ?_⟩
      · simp only [Selection.Valid]
        omega
      · simp only [Selection.register, bankSize]
        omega
    have hfield : 0 ≤ register % 128 ∧ register % 128 < 128 := by omega
    refine selection.eq_of_forall_write fun value => ?_
    have hafter :
        (⟨0, Encoding.writeWord value (register % 128) bit, selection⟩ :
          Instruction).after symbols =
        selection.hardwareAfter (Encoding.writeWord value (register % 128) bit) :=
      List.head_eq_of_cons_eq
        (htracks selection hvalid [(0, Encoding.writeWord value (register % 128) bit)])
    rwa [after_writeWord value hfield hbit symbols hvalid, hfull,
      hardwareAfter_writeWord value hfield hbit] at hafter
  · intro hnames selection hvalid words
    induction words generalizing selection with
    | nil => rfl
    | cons head rest ih =>
      obtain ⟨address, word⟩ := head
      have hafter : (⟨address, word, selection⟩ : Instruction).after symbols =
          selection.hardwareAfter word :=
        after_eq_hardwareAfter hnames hvalid
      have hvalid' : ((⟨address, word, selection⟩ : Instruction).after symbols).Valid :=
        valid_after symbols hvalid
      simp only [sequence, List.map_cons, Selection.hardwareTrace]
      rw [ih _ hvalid', hafter]

/-- A hint that gives bit 3 of the page latch another name: the word that sets this bit no longer
    selects the second page. -/
theorem tracking_lost_of_renamed_bit :
    let (load, fault) := HintLoad.take { symbols := .standard } "bit PCLATH 3 PG0\n"
    fault = none ∧ (sequence load.symbols {} [(0, 0x158A)]).map (·.after load.symbols) = [⟨0, 0⟩] ∧
      Selection.hardwareTrace {} [0x158A] = [⟨0, 1⟩] := by
  decide +kernel

end Instruction

end Midrange
