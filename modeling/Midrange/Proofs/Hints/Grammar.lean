import Midrange.Hints.Load
import Midrange.Proofs.Basic

namespace Midrange

namespace Directive

variable {symbols : Symbols} {text start stop : List Char} {limit value : Int}
  {named : Option (List Char)} {found : String} {block : DataBlock} {directive : Directive}

/-- A field gives a number below a limit. -/
structure GivesNumber (limit : Int) (text : List Char) (value : Int) : Prop where
  reads : Text.readNumeral text = .ok value
  nonneg : 0 ≤ value
  lt : value < limit

/-- A field gives a name that a hint may give. -/
structure GivesName (text : List Char) (name : String) : Prop where
  isName : isName text = true
  eq : name = String.ofList text

/-- A field gives a register of some name: the number of a register that has it, or else the name
    itself. -/
inductive GivesRegister (symbols : Symbols) (text : List Char) : String → Prop where
  | number {index : Int} {name : String} (hnumber : Text.readNumeral text = .ok index)
      (hname : symbols.registerName? index = some name) : GivesRegister symbols text name
  | name {name : String} (hnumber : ∀ index, Text.readNumeral text ≠ .ok index)
      (hname : GivesName text name) : GivesRegister symbols text name

/-- Two fields give the ends of a block of data that is not empty. -/
structure GivesRange (start stop : List Char) (first last : Int) : Prop where
  start : GivesNumber Symbols.imageLimit start first
  stop : GivesNumber (Symbols.imageLimit + 1) stop last
  lt : first < last

/-- The fields of a line make a hint. -/
inductive Spells (symbols : Symbols) : List (List Char) → Directive → Prop where
  | label {word address text : List Char} {value : Int} {name : String}
      (hword : String.ofList (word.map Char.toLower) = "label")
      (haddress : GivesNumber Symbols.imageLimit address value) (hname : GivesName text name) :
      Spells symbols [word, address, text] (.label value name)
  | register {word index text : List Char} {value : Int} {name : String}
      (hword : String.ofList (word.map Char.toLower) = "reg")
      (hindex : GivesNumber registerLimit index value) (hname : GivesName text name) :
      Spells symbols [word, index, text] (.register value name)
  | bit {word owner index text : List Char} {register : String} {value : Int} {name : String}
      (hword : String.ofList (word.map Char.toLower) = "bit")
      (howner : GivesRegister symbols owner register) (hindex : GivesNumber 8 index value)
      (hname : GivesName text name) :
      Spells symbols [word, owner, index, text] (.bit register value name)
  | data {word start stop : List Char} {first last : Int}
      (hword : String.ofList (word.map Char.toLower) = "data")
      (hrange : GivesRange start stop first last) :
      Spells symbols [word, start, stop] (.data ⟨first, last, none⟩)
  | namedData {word start stop text : List Char} {first last : Int} {name : String}
      (hword : String.ofList (word.map Char.toLower) = "data")
      (hrange : GivesRange start stop first last)
      (hname : GivesName text name) :
      Spells symbols [word, start, stop, text] (.data ⟨first, last, some name⟩)

theorem number_eq_ok_iff : number limit text = .ok value ↔ GivesNumber limit text value := by
  unfold number
  constructor
  · intro hnumber
    split at hnumber
    · cases hnumber
    · rename_i read hread
      split at hnumber
      · rename_i hrange
        obtain rfl := Except.ok.inj hnumber
        exact ⟨hread, hrange.1, hrange.2⟩
      · cases hnumber
  · rintro ⟨hread, hnonneg, hlt⟩
    simp [hread, hnonneg, hlt]

theorem name_eq_ok_iff : name text = .ok found ↔ GivesName text found := by
  unfold name
  constructor
  · intro hname
    split at hname
    · rename_i hallowed
      exact ⟨hallowed, (Except.ok.inj hname).symm⟩
    · cases hname
  · rintro ⟨hallowed, rfl⟩
    rw [if_pos hallowed]

theorem registerName_eq_ok_iff : registerName symbols text = .ok found ↔
    GivesRegister symbols text found := by
  unfold registerName
  cases hread : Text.readNumeral text with
  | error fault =>
    rw [name_eq_ok_iff]
    constructor
    · exact fun hname => .name (by simp [hread]) hname
    · rintro (⟨hnumber, -⟩ | ⟨-, hname⟩)
      · rw [hread] at hnumber
        cases hnumber
      · exact hname
  | ok index =>
    constructor
    · intro hregister
      simp only at hregister
      split at hregister
      · rename_i name hname
        obtain rfl := Except.ok.inj hregister
        exact .number hread hname
      · cases hregister
    · rintro (⟨hnumber, hname⟩ | ⟨hnumber, -⟩)
      · obtain rfl := Except.ok.inj (hread.symm.trans hnumber)
        simp [hname]
      · exact absurd hread (hnumber index)

theorem block_none_eq_ok_iff : Directive.block start stop none = .ok block ↔
    ∃ first last, GivesRange start stop first last ∧ block = ⟨first, last, none⟩ := by
  unfold Directive.block
  simp only [bind_eq_ok_iff, number_eq_ok_iff]
  constructor
  · rintro ⟨first, hstart, last, hstop, hblock⟩
    split at hblock
    · cases hblock
    · rename_i hless
      exact ⟨first, last, ⟨hstart, hstop, Int.not_le.mp hless⟩, (Except.ok.inj hblock).symm⟩
  · rintro ⟨first, last, ⟨hstart, hstop, hless⟩, rfl⟩
    refine ⟨first, hstart, last, hstop, ?_⟩
    rw [if_neg (Int.not_le.mpr hless)]
    rfl

theorem block_some_eq_ok_iff : Directive.block start stop (some text) = .ok block ↔
    ∃ first last name, GivesRange start stop first last ∧ GivesName text name ∧
      block = ⟨first, last, some name⟩ := by
  unfold Directive.block
  simp only [bind_eq_ok_iff, number_eq_ok_iff]
  constructor
  · rintro ⟨first, hstart, last, hstop, hblock⟩
    split at hblock
    · cases hblock
    · rename_i hless
      obtain ⟨name, hname, hblock⟩ := bind_eq_ok_iff.mp hblock
      refine ⟨first, last, name, ⟨hstart, hstop, Int.not_le.mp hless⟩, name_eq_ok_iff.mp hname, ?_⟩
      exact (Except.ok.inj hblock).symm
  · rintro ⟨first, last, name, ⟨hstart, hstop, hless⟩, hname, rfl⟩
    refine ⟨first, hstart, last, hstop, ?_⟩
    rw [if_neg (Int.not_le.mpr hless)]
    exact bind_eq_ok_iff.mpr ⟨name, name_eq_ok_iff.mpr hname, rfl⟩

end Directive

theorem HintKeyword.ofWord?_eq_some_iff {word : List Char} {keyword : HintKeyword} :
    ofWord? word = some keyword ↔ String.ofList (word.map Char.toLower) = match keyword with
      | .label => "label"
      | .register => "reg"
      | .bit => "bit"
      | .data => "data" := by
  unfold ofWord?
  generalize String.ofList (word.map Char.toLower) = spelled
  constructor
  · intro hword
    split at hword <;> cases hword <;> rfl
  · rintro rfl
    cases keyword <;> rfl

namespace Directive

variable {symbols : Symbols} {word : List Char} {keyword : HintKeyword} {fields : List (List Char)}
  {directive : Directive}

theorem spells_of_ofFields (hword : HintKeyword.ofWord? word = some keyword)
    (hfields : ofFields symbols keyword fields = .ok directive) :
    Spells symbols (word :: fields) directive := by
  have hspelled := HintKeyword.ofWord?_eq_some_iff.mp hword
  unfold ofFields at hfields
  split at hfields
  case h_1 =>
    simp only [bind_eq_ok_iff, number_eq_ok_iff, name_eq_ok_iff] at hfields
    obtain ⟨value, haddress, name, hname, hlabel⟩ := hfields
    obtain rfl := Except.ok.inj hlabel
    exact .label hspelled haddress hname
  case h_2 =>
    simp only [bind_eq_ok_iff, number_eq_ok_iff, name_eq_ok_iff] at hfields
    obtain ⟨value, hindex, name, hname, hregister⟩ := hfields
    obtain rfl := Except.ok.inj hregister
    exact .register hspelled hindex hname
  case h_3 =>
    simp only [bind_eq_ok_iff, number_eq_ok_iff, name_eq_ok_iff, registerName_eq_ok_iff] at hfields
    obtain ⟨register, howner, value, hindex, name, hname, hbit⟩ := hfields
    obtain rfl := Except.ok.inj hbit
    exact .bit hspelled howner hindex hname
  case h_4 =>
    obtain ⟨block, hblock, hdata⟩ := bind_eq_ok_iff.mp hfields
    obtain ⟨first, last, hrange, rfl⟩ := block_none_eq_ok_iff.mp hblock
    obtain rfl := Except.ok.inj hdata
    exact .data hspelled hrange
  case h_5 =>
    obtain ⟨block, hblock, hdata⟩ := bind_eq_ok_iff.mp hfields
    obtain ⟨first, last, name, hrange, hname, rfl⟩ := block_some_eq_ok_iff.mp hblock
    obtain rfl := Except.ok.inj hdata
    exact .namedData hspelled hrange hname
  case h_6 => cases hfields

theorem Spells.exists_ofFields (hspells : Spells symbols (word :: fields) directive) :
    ∃ keyword, HintKeyword.ofWord? word = some keyword ∧
      ofFields symbols keyword fields = .ok directive := by
  cases hspells with
  | label hword haddress hname =>
    refine ⟨.label, HintKeyword.ofWord?_eq_some_iff.mpr hword, ?_⟩
    simp only [ofFields, bind_eq_ok_iff, number_eq_ok_iff, name_eq_ok_iff]
    exact ⟨_, haddress, _, hname, rfl⟩
  | register hword hindex hname =>
    refine ⟨.register, HintKeyword.ofWord?_eq_some_iff.mpr hword, ?_⟩
    simp only [ofFields, bind_eq_ok_iff, number_eq_ok_iff, name_eq_ok_iff]
    exact ⟨_, hindex, _, hname, rfl⟩
  | bit hword howner hindex hname =>
    refine ⟨.bit, HintKeyword.ofWord?_eq_some_iff.mpr hword, ?_⟩
    simp only [ofFields, bind_eq_ok_iff, number_eq_ok_iff, name_eq_ok_iff, registerName_eq_ok_iff]
    exact ⟨_, howner, _, hindex, _, hname, rfl⟩
  | data hword hrange =>
    refine ⟨.data, HintKeyword.ofWord?_eq_some_iff.mpr hword, ?_⟩
    exact bind_eq_ok_iff.mpr ⟨_, block_none_eq_ok_iff.mpr ⟨_, _, hrange, rfl⟩, rfl⟩
  | namedData hword hrange hname =>
    refine ⟨.data, HintKeyword.ofWord?_eq_some_iff.mpr hword, ?_⟩
    exact bind_eq_ok_iff.mpr ⟨_, block_some_eq_ok_iff.mpr ⟨_, _, _, hrange, hname, rfl⟩, rfl⟩

end Directive

namespace HintLoad

variable {symbols : Symbols} {line : List Char} {directive : Directive}

/-- A line that has fields, but none that make a hint. -/
structure Malformed (symbols : Symbols) (line : List Char) : Prop where
  ne_nil : lineFields line ≠ []
  not_spells : ∀ directive, ¬ Directive.Spells symbols (lineFields line) directive

theorem directive?_eq_ok_none_iff : directive? symbols line = .ok none ↔ lineFields line = [] := by
  unfold directive?
  cases hfields : lineFields line with
  | nil => simp
  | cons word fields =>
    refine iff_of_false (fun hnone => ?_) (List.cons_ne_nil word fields)
    simp only at hnone
    split at hnone
    · cases hnone
    · rename_i keyword _
      cases hmade : Directive.ofFields symbols keyword fields <;> rw [hmade] at hnone <;>
        cases hnone

/-- A line gives the hint that its fields make. -/
theorem directive?_eq_ok_some_iff :
    directive? symbols line = .ok (some directive) ↔
    Directive.Spells symbols (lineFields line) directive := by
  unfold directive?
  cases hfields : lineFields line with
  | nil => exact iff_of_false nofun nofun
  | cons word fields =>
    constructor
    · intro hsome
      simp only at hsome
      split at hsome
      · cases hsome
      · rename_i keyword hword
        cases hmade : Directive.ofFields symbols keyword fields with
        | error cause =>
          rw [hmade] at hsome
          cases hsome
        | ok made =>
          rw [hmade] at hsome
          obtain rfl : made = directive := Option.some.inj (Except.ok.inj hsome)
          exact Directive.spells_of_ofFields hword hmade
    · intro hspells
      obtain ⟨keyword, hword, hmade⟩ := hspells.exists_ofFields
      simp only [hword, hmade]
      rfl

/-- A line is refused exactly if it is malformed. -/
theorem exists_cause_iff : (∃ cause, directive? symbols line = .error cause) ↔
    Malformed symbols line := by
  constructor
  · rintro ⟨cause, herror⟩
    refine ⟨fun hnil => ?_, fun directive hspells => ?_⟩
    · rw [directive?_eq_ok_none_iff.mpr hnil] at herror
      cases herror
    · rw [directive?_eq_ok_some_iff.mpr hspells] at herror
      cases herror
  · rintro ⟨hfields, hnone⟩
    cases hline : directive? symbols line with
    | error cause => exact ⟨cause, rfl⟩
    | ok directive? =>
      cases directive? with
      | none => exact absurd (directive?_eq_ok_none_iff.mp hline) hfields
      | some directive => exact absurd (directive?_eq_ok_some_iff.mp hline) (hnone directive)

end HintLoad

end Midrange
