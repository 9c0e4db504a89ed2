import Midrange.Hints.Load
import Midrange.Proofs.Basic
import Midrange.Proofs.Symbols.Names

namespace Midrange

namespace Directive

/-- The name that a hint gives to something. -/
def given? : Directive → Option String
  | label _ name | register _ name | bit _ _ name => some name
  | data block => block.name

/-- The name that a hint gives is one that it may give. -/
def Allowed (directive : Directive) : Prop :=
  ∀ name, directive.given? = some name → isName name.toList = true

theorem isName_of_name {text : List Char} {found : String} (hname : name text = .ok found) :
    isName found.toList = true := by
  unfold name at hname
  split at hname
  case isTrue hallowed =>
    obtain rfl := Except.ok.inj hname
    rwa [String.toList_ofList]
  case isFalse => cases hname

theorem isName_of_block {start stop : List Char} {named : Option (List Char)} {found : DataBlock}
    {name : String} (hblock : block start stop named = .ok found) (hname : found.name = some name) :
    isName name.toList = true := by
  obtain ⟨first, -, hblock⟩ := bind_eq_ok_iff.mp hblock
  obtain ⟨last, -, hblock⟩ := bind_eq_ok_iff.mp hblock
  split at hblock
  · cases hblock
  · cases named with
    | none =>
      obtain rfl := Except.ok.inj hblock
      cases hname
    | some text =>
      obtain ⟨given, hgiven, hblock⟩ := bind_eq_ok_iff.mp hblock
      obtain rfl := Except.ok.inj hblock
      obtain rfl := Option.some.inj hname
      exact isName_of_name hgiven

theorem allowed_of_ofFields {symbols : Symbols} {keyword : HintKeyword} {fields : List (List Char)}
    {directive : Directive} (hfields : ofFields symbols keyword fields = .ok directive) :
    directive.Allowed := by
  intro name hname
  unfold ofFields at hfields
  split at hfields
  case h_1 | h_2 =>
    obtain ⟨place, -, hfields⟩ := bind_eq_ok_iff.mp hfields
    obtain ⟨given, hgiven, hfields⟩ := bind_eq_ok_iff.mp hfields
    obtain rfl := Except.ok.inj hfields
    obtain rfl := Option.some.inj hname
    exact isName_of_name hgiven
  case h_3 =>
    obtain ⟨owner, -, hfields⟩ := bind_eq_ok_iff.mp hfields
    obtain ⟨index, -, hfields⟩ := bind_eq_ok_iff.mp hfields
    obtain ⟨given, hgiven, hfields⟩ := bind_eq_ok_iff.mp hfields
    obtain rfl := Except.ok.inj hfields
    obtain rfl := Option.some.inj hname
    exact isName_of_name hgiven
  case h_4 | h_5 =>
    obtain ⟨found, hblock, hfields⟩ := bind_eq_ok_iff.mp hfields
    obtain rfl := Except.ok.inj hfields
    exact isName_of_block hblock hname
  case h_6 => cases hfields

end Directive

theorem HintLoad.allowed_of_directive? {symbols : Symbols} {line : List Char}
    {directive : Directive} (hdirective : directive? symbols line = .ok (some directive)) :
    directive.Allowed := by
  unfold directive? at hdirective
  split at hdirective
  · cases hdirective
  · split at hdirective
    · cases hdirective
    · next word fields _ _ keyword _ =>
      cases hfields : Directive.ofFields symbols keyword fields with
      | error cause =>
        rw [hfields] at hdirective
        cases hdirective
      | ok found =>
        rw [hfields] at hdirective
        obtain rfl : found = directive := Option.some.inj (Except.ok.inj hdirective)
        exact Directive.allowed_of_ofFields hfields

namespace Symbols

/-- All names in a table are such as a hint may give: those of addresses, of registers and of
    bits. -/
structure Allowed (symbols : Symbols) : Prop where
  labels : symbols.NamesAllowed
  registers : ∀ (register : Int) (name : String), symbols.registerName? register = some name →
    Directive.isName name.toList = true
  bits : ∀ (register : String) (bit : Int) (name : String),
    symbols.bitName? register bit = some name → Directive.isName name.toList = true

theorem allowed_standard : standard.Allowed := by
  have hregisters : ∀ row ∈ registerRows, Directive.isName row.2.toList = true := by
    decide +kernel
  have hbits : ∀ row ∈ bitRows, Directive.isName row.2.toList = true := by
    decide +kernel
  exact ⟨namesAllowed_standard, fun register name hname => hregisters _ (mem_registerRows hname),
    fun register bit name hname => hbits _ (mem_bitRows hname)⟩

namespace Allowed

variable {symbols : Symbols}

theorem addLabel (hallowed : symbols.Allowed) (address : Int) {name : String}
    (hname : Directive.isName name.toList = true) : (symbols.addLabel address name).Allowed := by
  unfold Symbols.addLabel
  split
  · refine ⟨fun other label hlabel => ?_, hallowed.registers, hallowed.bits⟩
    rw [Std.TreeMap.getElem?_insert] at hlabel
    split at hlabel
    · obtain rfl := Option.some.inj hlabel
      exact hname
    · exact hallowed.labels other label hlabel
  · exact hallowed

/-- A hint keeps all names such as hints may give. -/
theorem apply (hallowed : symbols.Allowed) {directive : Directive}
    (hdirective : directive.Allowed) : (directive.apply symbols).Allowed := by
  cases directive with
  | label address name => exact hallowed.addLabel address (hdirective name rfl)
  | register index name =>
    refine ⟨hallowed.labels, fun register found hfound => ?_, hallowed.bits⟩
    rw [registerName?, Directive.apply, nameRegister, Std.TreeMap.getElem?_insert] at hfound
    split at hfound
    · obtain rfl := Option.some.inj hfound
      exact hdirective name rfl
    · exact hallowed.registers register found hfound
  | bit owner index name =>
    refine ⟨hallowed.labels, hallowed.registers, fun register bit found hfound => ?_⟩
    rw [bitName?, Directive.apply, nameBit, Std.TreeMap.getElem?_insert] at hfound
    split at hfound
    · obtain rfl := Option.some.inj hfound
      exact hdirective name rfl
    · exact hallowed.bits register bit found hfound
  | data block =>
    have hextended : ({ symbols with data := symbols.data.push block } : Symbols).Allowed :=
      ⟨hallowed.labels, hallowed.registers, hallowed.bits⟩
    rw [Directive.apply, addData]
    split
    · next name hname =>
      split
      · exact hextended
      · exact hextended.addLabel block.start (hdirective name hname)
    · exact hextended

/-- Hints that are loaded keep all names such as hints may give, also if one of them is at fault. -/
theorem take (load : HintLoad) (hallowed : load.symbols.Allowed) (text : String) :
    (load.take text).1.symbols.Allowed := by
  unfold HintLoad.take
  induction Text.numberedLines text generalizing load with
  | nil => exact hallowed
  | cons line rest ih =>
    obtain ⟨number, line⟩ := line
    unfold HintLoad.takeLines
    split
    · exact hallowed
    · exact ih _ hallowed
    · next directive hdirective =>
      exact ih _ (hallowed.apply (HintLoad.allowed_of_directive? hdirective))

end Allowed

end Symbols

end Midrange
