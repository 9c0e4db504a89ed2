import Mathlib.Tactic.SplitIfs
import Midrange.Hints.Directive
import Midrange.Proofs.Basic
import Midrange.Proofs.Text.Fields
import Midrange.Symbols.Basic

namespace Midrange.Symbols

theorem synthesizedName_injective : Function.Injective synthesizedName := by
  intro left right heq
  exact Text.hexadecimal_injective 4 ((String.append_right_inj "L").mp heq)

private theorem head?_synthesizedName (address : Int) :
    (synthesizedName address).toList.head? = some 'L' := by
  simp [synthesizedName]

private theorem getElem?_labels_standard (address : Int) : standard.labels[address]? =
    if address = resetVector then some ⟨"reset_vector", .builtin⟩
    else if address = interruptVector then some ⟨"interrupt_vector", .builtin⟩
    else none := by
  have hnone : (∅ : Std.TreeMap Int String).map (fun _ name => (⟨name, .given⟩ : Label)) = ∅ := rfl
  have hvectors : resetVector ≠ interruptVector := by decide
  simp only [standard, ofNames, if_true, hnone, defaultLabels, List.foldl_cons, List.foldl_nil,
    Std.TreeMap.getElem?_insertIfNew, Std.TreeMap.mem_insertIfNew, Std.compare_eq_iff_eq,
    Std.TreeMap.not_mem_emptyc, Std.TreeMap.getElem?_emptyc, hvectors, or_false, not_false_eq_true,
    and_true, eq_comm (b := address)]
  by_cases hreset : address = resetVector
  · rw [if_pos hreset, if_pos hreset, if_neg (hreset ▸ hvectors)]
  · rw [if_neg hreset, if_neg hreset]

theorem nameOf_standard (address : Int) : standard.nameOf address =
    if address = resetVector then "reset_vector"
    else if address = interruptVector then "interrupt_vector"
    else synthesizedName address := by
  rw [nameOf, label?, getElem?_labels_standard]
  split
  · rfl
  · split <;> rfl

theorem ne_synthesizedName {name : String} (hname : name.toList.head? ≠ some 'L') (address : Int) :
    name ≠ synthesizedName address := by
  intro heq
  exact hname (heq ▸ head?_synthesizedName address)

/-- Addresses differ in their names as long as nothing but the vectors has been named. -/
theorem nameOf_standard_injective : Function.Injective standard.nameOf := by
  have hreset := @ne_synthesizedName "reset_vector" (by decide)
  have hinterrupt := @ne_synthesizedName "interrupt_vector" (by decide)
  have hvectors : "reset_vector" ≠ "interrupt_vector" := by decide
  intro left right heq
  rw [nameOf_standard, nameOf_standard] at heq
  split_ifs at heq with hleft hright hright' hleft' hright hright' hright hright'
  · rw [hleft, hright]
  · exact absurd heq hvectors
  · exact absurd heq (hreset right)
  · exact absurd heq.symm hvectors
  · rw [hleft', hright']
  · exact absurd heq (hinterrupt right)
  · exact absurd heq.symm (hreset left)
  · exact absurd heq.symm (hinterrupt left)
  · exact synthesizedName_injective heq

/-- The rows of the built-in table of registers. -/
def registerRows : List (Int × String) :=
  ([0, 1, 2, 3].flatMap fun bank : Int => sharedRegisters.map fun (offset, name) =>
    (0x80 * bank + offset, name)) ++ bankedRegisters

/-- The rows of the built-in table of bits. -/
def bitRows : List (BitRef × String) :=
  bitNames.flatMap fun (register, names) => names.map fun (bit, name) =>
    (BitRef.mk register bit, name)

theorem mem_registerRows {register : Int} {name : String}
    (hname : standard.registers[register]? = some name) : (register, name) ∈ registerRows :=
  mem_of_getElem?_ofList hname

theorem mem_bitRows {bit : BitRef} {name : String} (hname : standard.bits[bit]? = some name) :
    (bit, name) ∈ bitRows :=
  mem_of_getElem?_ofList hname

/-- All names that are recorded for addresses are such as a hint may give. -/
def NamesAllowed (symbols : Symbols) : Prop :=
  ∀ (address : Int) (label : Label), symbols.labels[address]? = some label →
    Directive.isName label.text.toList = true

theorem namesAllowed_standard : standard.NamesAllowed := by
  intro address label hlabel
  rw [getElem?_labels_standard] at hlabel
  split_ifs at hlabel
  · obtain rfl := Option.some.inj hlabel
    decide
  · obtain rfl := Option.some.inj hlabel
    decide

/-- The characters of a name are no blanks, and none of them opens a comment. -/
theorem solid_of_isName {name : List Char} (hname : Directive.isName name = true) :
    ∀ c ∈ name, Text.isBlank c = false ∧ c ≠ ';' := by
  have hsolid {c : Char} (hc : (c.isAlphanum || c == '_' || c == '.') = true) :
      Text.isBlank c = false ∧ c ≠ ';' := by
    delta Char.isAlphanum Char.isAlpha Char.isUpper Char.isLower Char.isDigit at hc
    simp only [Bool.or_eq_true, Bool.and_eq_true, decide_eq_true_iff, ge_iff_le, beq_iff_eq,
      UInt32.le_iff_toNat_le, Char.toNat_val, ← Char.toNat_inj] at hc
    have hrange : 0x20 < c.toNat ∧ c.toNat < 0x7f ∧ c.toNat ≠ 0x3b := by
      simp at hc
      omega
    refine ⟨Text.isBlank_of_ascii hrange.1 hrange.2.1, ?_⟩
    rintro rfl
    exact hrange.2.2 rfl
  cases name with
  | nil => simp
  | cons first rest =>
    simp only [Directive.isName, Bool.and_eq_true, List.all_eq_true] at hname
    rw [List.forall_mem_cons]
    refine ⟨hsolid ?_, fun c hmem => hsolid (hname.2 c hmem)⟩
    simp only [Char.isAlphanum, Bool.or_eq_true] at hname ⊢
    exact Or.inl (hname.1.imp_left Or.inl)

/-- A name that a hint may give has no blanks in it and opens no comment, and neither has a
    synthesized one. -/
theorem solid_nameOf {symbols : Symbols} (hallowed : symbols.NamesAllowed) (address : Int) :
    ∀ c ∈ (symbols.nameOf address).toList, Text.isBlank c = false ∧ c ≠ ';' := by
  rw [nameOf, label?]
  cases hlabel : symbols.labels[address]? with
  | none =>
    simp only [Option.map_none, Option.getD_none, synthesizedName, String.toList_append,
      List.forall_mem_append]
    exact ⟨by decide, Text.forall_mem_hexadecimal (by decide) (by decide) 4 address⟩
  | some label => exact solid_of_isName (hallowed address label hlabel)

/-- No address goes by a name with a space in it. -/
theorem space_not_mem_nameOf {symbols : Symbols} (hallowed : symbols.NamesAllowed) (address : Int) :
    ' ' ∉ (symbols.nameOf address).toList :=
  fun hmem => absurd (solid_nameOf hallowed address ' ' hmem).1 (by decide)

end Midrange.Symbols
