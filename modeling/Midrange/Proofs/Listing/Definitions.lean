import Mathlib.Order.Bounds.Basic
import Midrange.Proofs.Depth.Labels
import Midrange.Proofs.Listing.Annotation
import Midrange.Proofs.Symbols.Names

namespace Midrange

namespace ListingLine

/-- The place behind a line that stands at some place. -/
def next (place : Int) : ListingLine → Int
  | .org address => address
  | .word .. => place + 1
  | _ => place

/-- What a line defines at some place: an equate gives a name its value, and a label the place
    itself. -/
def definition? (place : Int) : ListingLine → Option (String × Int)
  | .equate name _ value => some (name, value)
  | .label name => some (name, place)
  | _ => none

end ListingLine

namespace Listing

/-- The names that lines define from some place on, with their values. -/
def definitions (place : Int) : List ListingLine → List (String × Int)
  | [] => []
  | line :: rest => (line.definition? place).toList ++ definitions (line.next place) rest

/-- The named registers that the instructions of a listing work on, in increasing order. -/
def usedRegisters (listing : Listing) : List (Int × String) :=
  listing.symbols.registersAmong (listing.instructions.filterMap (·.register?))

/-- The addresses whose names a listing defines: the branch targets without a word, and the words
    with a label. -/
def shownAddresses (listing : Listing) : List Int :=
  absentTargets listing.image listing.instructions ++
    (listing.image.toList.map (·.1)).filter listing.symbols.isLabelled

theorem definitions_of_silent {first : List ListingLine} {place : Int}
    (hsilent : ∀ line ∈ first, line.next place = place ∧ line.definition? place = none)
    (rest : List ListingLine) : definitions place (first ++ rest) = definitions place rest := by
  induction first with
  | nil => rfl
  | cons line lines ih =>
    obtain ⟨hnext, hnone⟩ := hsilent line List.mem_cons_self
    rw [List.cons_append, definitions, hnext, hnone,
      ih fun other hmem => hsilent other (List.mem_cons_of_mem _ hmem)]
    rfl

theorem definitions_headLines (listing : Listing) (place : Int) (rest : List ListingLine) :
    definitions place (listing.headLines ++ rest) = definitions place rest := by
  refine definitions_of_silent (fun line hmem => ?_) rest
  simp only [headLines, List.mem_append, List.mem_cons, List.not_mem_nil, or_false] at hmem
  obtain ((rfl | rfl) | hdepth) | rfl := hmem
  · exact ⟨rfl, rfl⟩
  · exact ⟨rfl, rfl⟩
  · split at hdepth
    · cases hdepth
    · obtain rfl | hwarning := List.mem_cons.mp hdepth
      · exact ⟨rfl, rfl⟩
      · obtain ⟨warning, -, rfl⟩ := List.mem_map.mp hwarning
        exact ⟨rfl, rfl⟩
  · exact ⟨rfl, rfl⟩

/-- A section of equates defines what they say. -/
theorem definitions_closed {α : Type} (entries : List α) (name : α → String) (width : Nat)
    (value : α → Int) (place : Int) (rest : List ListingLine) :
    definitions place
        (closed (entries.map fun entry => .equate (name entry) width (value entry)) ++ rest) =
      entries.map (fun entry => (name entry, value entry)) ++ definitions place rest := by
  have hequates :
      definitions place
          ((entries.map fun entry => .equate (name entry) width (value entry)) ++
            .blank :: rest) =
        entries.map (fun entry => (name entry, value entry)) ++ definitions place rest := by
    induction entries with
    | nil => rfl
    | cons entry entries ih => exact congrArg ((name entry, value entry) :: ·) ih
  cases entries with
  | nil => rfl
  | cons entry entries => simpa [closed] using hequates

/-- The words define the labels in front of them. -/
theorem definitions_bodyLines (listing : Listing) {expected : Option Int} {place : Int}
    (hplace : ∀ address, expected = some address → place = address)
    (instructions : List Instruction) (words : List (Int × Int)) :
    definitions place (listing.bodyLines expected instructions words) =
      ((words.map (·.1)).filter listing.symbols.isLabelled).map fun address =>
        (listing.symbols.nameOf address, address) := by
  induction words generalizing expected place instructions with
  | nil => rfl
  | cons head rest ih =>
    obtain ⟨address, word⟩ := head
    have horg (lines : List ListingLine) :
        definitions place ((if expected = some address then [] else [.org address]) ++ lines) =
          definitions address lines := by
      split
      · next hexpected => rw [hplace address hexpected, List.nil_append]
      · rfl
    have hword (instruction? : Option Instruction) (lines : List ListingLine) :
        definitions address (listing.wordLine address word instruction? :: lines) =
          definitions (address + 1) lines := by
      cases instruction? <;> rfl
    have hrest := @ih (some (address + 1)) (address + 1) fun other heq => Option.some.inj heq
    simp only [bodyLines, List.append_assoc, horg, List.map_cons, List.filter_cons]
    cases hlabel : listing.symbols.label? address with
    | some name =>
      obtain ⟨hlabelled, hname⟩ := Symbols.label?_eq_some_iff.mp hlabel
      rw [if_pos hlabelled, List.map_cons, hname, ← hrest]
      exact congrArg ((name, address) :: ·) (hword _ _)
    | none =>
      have hunlabelled : ¬ listing.symbols.isLabelled address = true := fun hlabelled => by
        rw [Symbols.label?_eq_some_iff.mpr ⟨hlabelled, rfl⟩] at hlabel
        cases hlabel
      rw [if_neg hunlabelled, ← hrest]
      exact hword _ _

variable {listing : Listing} {name : String}

/-- What a listing defines: the registers in use, each name at the lowest one, and the addresses
    that it shows. -/
theorem definitions_lines (hlabelled : listing.Labelled) (place : Int) :
    definitions place listing.lines =
      (distinctBy (·.2) listing.usedRegisters).map (fun (register, name) => (name, register)) ++
        listing.shownAddresses.map fun address => (listing.symbols.nameOf address, address) := by
  have hregisters : listing.registerLines =
      (distinctBy (·.2) listing.usedRegisters).map fun entry => .equate entry.2 2 entry.1 := rfl
  rw [lines_eq_append, definitions_headLines, sections, hregisters,
    externalLines_of_labelled hlabelled, definitions_closed, definitions_closed,
    definitions_bodyLines listing (fun address heq => by cases heq), shownAddresses,
    List.map_append]

theorem mem_shownAddresses_iff {address : Int} : address ∈ listing.shownAddresses ↔
    (address ∈ Instruction.targets listing.instructions ∧ listing.image.isPresent address = false) ∨
      listing.image.isPresent address = true ∧ listing.symbols.isLabelled address = true := by
  rw [shownAddresses, List.mem_append, mem_absentTargets_iff, List.mem_filter,
    Image.mem_map_fst_toList_iff]

/-- No address is shown twice. -/
theorem nodup_shownAddresses (listing : Listing) : listing.shownAddresses.Nodup := by
  refine List.nodup_append.mpr ⟨?_, ?_, ?_⟩
  · exact (pairwise_absentTargets _ _).imp ne_of_lt
  · exact List.Nodup.filter _
      ((List.pairwise_map.mpr (pairwise_fst_toList listing.image.words)).imp ne_of_lt)
  · rintro absent habsent present hpresent rfl
    have hpresent := Image.mem_map_fst_toList_iff.mp (List.mem_filter.mp hpresent).1
    rw [(mem_absentTargets_iff.mp habsent).2] at hpresent
    cases hpresent

theorem mem_usedRegisters_iff {register : Int} : (register, name) ∈ listing.usedRegisters ↔
    (∃ instruction ∈ listing.instructions, instruction.register? = some register) ∧
      listing.symbols.registerName? register = some name := by
  rw [usedRegisters, Symbols.registersAmong, List.mem_filter,
    Std.TreeMap.mem_toList_iff_getElem?_eq_some, Std.TreeSet.contains_iff_mem, mem_ofList_iff,
    List.mem_filterMap, and_comm]
  rfl

/-- The definitions of one name: an equate at the first register in use that has it, and one more
    for each address. -/
theorem filter_definitions (hlabelled : listing.Labelled) (place : Int) (name : String) :
    (definitions place listing.lines).filter (·.1 = name) =
      ((listing.usedRegisters.find? (·.2 = name)).toList.map
          fun (register, _) => (name, register)) ++
        (listing.shownAddresses.filter (listing.symbols.nameOf · = name)).map
          fun address => (name, address) := by
  have hrename {α : Type} (entries : List α) (nameOf : α → String) (value : α → Int) :
      (entries.map fun entry => (nameOf entry, value entry)).filter (·.1 = name) =
        (entries.filter (nameOf · = name)).map fun entry => (name, value entry) := by
    rw [List.filter_map]
    exact List.map_congr_left fun entry hmem =>
      congrArg (·, value entry) (by simpa using (List.mem_filter.mp hmem).2)
  have hregisters := filter_freshBy (·.2) ∅ listing.usedRegisters name
  rw [definitions_lines hlabelled, List.filter_append, hrename, hrename, distinctBy, hregisters]
  rfl

/-- The first register in use that has a name is what an equate gives the name. -/
theorem equate_mem_lines {entry : Int × String}
    (hfound : listing.usedRegisters.find? (·.2 = name) = some entry) :
    .equate name 2 entry.1 ∈ listing.lines := by
  obtain rfl : entry.2 = name := by simpa using List.find?_some hfound
  have hkept : entry ∈ (distinctBy (·.2) listing.usedRegisters).filter (·.2 = entry.2) := by
    have hregisters := filter_freshBy (·.2) ∅ listing.usedRegisters entry.2
    rw [distinctBy, hregisters, hfound]
    exact List.mem_singleton_self entry
  have hequate : .equate entry.2 2 entry.1 ∈ listing.registerLines :=
    List.mem_map_of_mem (f := fun (entry : Int × String) => ListingLine.equate entry.2 2 entry.1)
      (List.mem_filter.mp hkept).1
  have hclosed : .equate entry.2 2 entry.1 ∈ closed listing.registerLines := by
    rw [closed, if_neg (by simp [List.ne_nil_of_mem hequate])]
    exact List.mem_append_left _ hequate
  rw [lines_eq_append, sections]
  exact List.mem_append_right _ (List.mem_append_left _ hclosed)

/-- A name has exactly one definition, and the value agrees with every word in which the name
    appears: with a branch in the low eleven bits, and with a word that works on a register in the
    low seven. -/
def Resolves (listing : Listing) (name : String) : Prop :=
  ∃ value, (definitions 0 listing.lines).filter (·.1 = name) = [(name, value)] ∧
    ∀ instruction ∈ listing.instructions,
      (∀ target, instruction.target? = some target → listing.symbols.nameOf target = name →
        value % pageSize = instruction.word % pageSize) ∧
      ∀ register, instruction.register? = some register →
        listing.symbols.registerName? register = some name →
        value % bankSize = instruction.word % bankSize

/-- No two addresses that a listing shows have a name, nor do an address and a register in use, and
    all registers in use that have it stand at one place of their banks. -/
structure Unambiguous (listing : Listing) (name : String) : Prop where
  addresses : ∀ first ∈ listing.shownAddresses, ∀ second ∈ listing.shownAddresses,
    listing.symbols.nameOf first = name → listing.symbols.nameOf second = name → first = second
  apart : ∀ address ∈ listing.shownAddresses, listing.symbols.nameOf address = name →
    ∀ register, (register, name) ∉ listing.usedRegisters
  registers : ∀ first second, (first, name) ∈ listing.usedRegisters →
    (second, name) ∈ listing.usedRegisters → first % bankSize = second % bankSize

theorem find?_usedRegisters_eq_none_iff : listing.usedRegisters.find? (·.2 = name) = none ↔
    ∀ register, (register, name) ∉ listing.usedRegisters := by
  rw [List.find?_eq_none]
  constructor
  · exact fun hnone register hused => hnone _ hused (decide_eq_true rfl)
  · rintro hunused ⟨register, found⟩ hused heq
    obtain rfl : found = name := of_decide_eq_true heq
    exact hunused register hused

/-- The registers in use stand in increasing order, so that the first one with a name is the lowest
    one. -/
theorem isLeast_of_find?_usedRegisters {entry : Int × String}
    (hfound : listing.usedRegisters.find? (·.2 = name) = some entry) :
    IsLeast {register | (register, name) ∈ listing.usedRegisters} entry.1 := by
  obtain ⟨lowest, found⟩ := entry
  obtain ⟨heq, before, behind, hused, hbefore⟩ := List.find?_eq_some_iff_append.mp hfound
  obtain rfl : found = name := of_decide_eq_true heq
  have hsorted : listing.usedRegisters.Pairwise (·.1 < ·.1) :=
    (pairwise_fst_toList listing.symbols.registers).filter _
  refine ⟨List.mem_of_find?_eq_some hfound, fun register hregister => ?_⟩
  rw [hused] at hsorted
  have hmem : (register, found) ∈ before ++ (lowest, found) :: behind := hused ▸ hregister
  obtain hearlier | hlater := List.mem_append.mp hmem
  · simpa using hbefore _ hearlier
  · obtain hhere | hbehind := List.mem_cons.mp hlater
    · exact (Prod.mk.inj hhere).1.ge
    · exact ((List.pairwise_cons.mp (List.pairwise_append.mp hsorted).2.1).1 _ hbehind).le

theorem exists_lowest_of_used {register : Int} (hused : (register, name) ∈ listing.usedRegisters) :
    ∃ entry, listing.usedRegisters.find? (·.2 = name) = some entry ∧
      IsLeast {register | (register, name) ∈ listing.usedRegisters} entry.1 := by
  cases hfound : listing.usedRegisters.find? (·.2 = name) with
  | none => exact absurd hused (find?_usedRegisters_eq_none_iff.mp hfound register)
  | some entry => exact ⟨entry, rfl, isLeast_of_find?_usedRegisters hfound⟩

section Labelled

variable (hlabelled : listing.Labelled)

include hlabelled

theorem mem_shownAddresses_of_target? {instruction : Instruction} {target : Int}
    (hmem : instruction ∈ listing.instructions) (htarget : instruction.target? = some target) :
    target ∈ listing.shownAddresses := by
  have htargets := List.mem_filterMap.mpr ⟨instruction, hmem, htarget⟩
  rw [mem_shownAddresses_iff]
  cases hpresent : listing.image.isPresent target with
  | false => exact Or.inl ⟨htargets, rfl⟩
  | true => exact Or.inr ⟨rfl, hlabelled target htargets⟩

/-- A name has one definition if an address has it and no other one and no register in use does, or
    if registers in use have it and no address does. -/
theorem filter_definitions_eq_singleton_iff {place value : Int} :
    (definitions place listing.lines).filter (·.1 = name) = [(name, value)] ↔
      ((∀ register, (register, name) ∉ listing.usedRegisters) ∧
        ∀ address, (address ∈ listing.shownAddresses ∧ listing.symbols.nameOf address = name) ↔
          address = value) ∨
      IsLeast {register | (register, name) ∈ listing.usedRegisters} value ∧
        ∀ address ∈ listing.shownAddresses, listing.symbols.nameOf address ≠ name := by
  have hone : listing.shownAddresses.filter (listing.symbols.nameOf · = name) = [value] ↔
      ∀ address, (address ∈ listing.shownAddresses ∧ listing.symbols.nameOf address = name) ↔
        address = value := by
    rw [← List.perm_singleton,
      List.perm_ext_iff_of_nodup (listing.nodup_shownAddresses.filter _)
        (List.nodup_singleton value)]
    simp only [List.mem_filter, decide_eq_true_iff, List.mem_singleton]
  have hempty : listing.shownAddresses.filter (listing.symbols.nameOf · = name) = [] ↔
      ∀ address ∈ listing.shownAddresses, listing.symbols.nameOf address ≠ name := by
    simp only [List.filter_eq_nil_iff, decide_eq_true_iff, ne_eq]
  rw [filter_definitions hlabelled, ← hone, ← hempty]
  cases hfound : listing.usedRegisters.find? (·.2 = name) with
  | none =>
    have hunused := find?_usedRegisters_eq_none_iff.mp hfound
    have hleast : ¬ IsLeast {register | (register, name) ∈ listing.usedRegisters} value :=
      fun hleast => hunused value hleast.1
    rw [or_iff_left (fun hboth => hleast hboth.1), and_iff_right hunused]
    exact (List.map_injective_iff.mpr (Prod.mk_right_injective name)).eq_iff (b := [value])
  | some entry =>
    have hleast := isLeast_of_find?_usedRegisters hfound
    have hused : ¬ ∀ register, (register, name) ∉ listing.usedRegisters :=
      fun hunused => hunused _ hleast.1
    have hvalue : IsLeast {register | (register, name) ∈ listing.usedRegisters} value ↔
        entry.1 = value :=
      ⟨hleast.unique, fun heq => heq ▸ hleast⟩
    rw [or_iff_right (fun hboth => hused hboth.1), hvalue]
    simp only [Option.toList_some, List.map_cons, List.map_nil, List.cons_append, List.nil_append,
      List.cons.injEq, Prod.mk.injEq, true_and, List.map_eq_nil_iff]

/-- A name that is defined once for all the words in which it appears is shared by nothing else. -/
theorem Resolves.unambiguous (hresolves : listing.Resolves name) : listing.Unambiguous name := by
  obtain ⟨value, hdefined, hagrees⟩ := hresolves
  obtain ⟨hunused, honly⟩ | ⟨-, hunshown⟩ :=
    (filter_definitions_eq_singleton_iff hlabelled).mp hdefined
  · constructor
    case addresses =>
      intro first hfirst second hsecond hname hname'
      exact ((honly first).mp ⟨hfirst, hname⟩).trans ((honly second).mp ⟨hsecond, hname'⟩).symm
    case apart => exact fun _ _ _ register => hunused register
    case registers => exact fun first _ hfirst => absurd hfirst (hunused first)
  · constructor
    case addresses => exact fun first hfirst _ _ hname => absurd hname (hunshown first hfirst)
    case apart => exact fun address haddress hname => absurd hname (hunshown address haddress)
    case registers =>
      have hplace (register : Int) (hused : (register, name) ∈ listing.usedRegisters) :
          value % bankSize = register % bankSize := by
        obtain ⟨⟨instruction, hmem, hregister⟩, hname⟩ := mem_usedRegisters_iff.mp hused
        rw [(hagrees instruction hmem).2 register hregister hname,
          Instruction.register?_mod hregister]
      exact fun first second hfirst hsecond =>
        (hplace first hfirst).symm.trans (hplace second hsecond)

/-- The name of an address that is shown resolves if nothing else has it. -/
theorem Unambiguous.resolves_of_shown (hunambiguous : listing.Unambiguous name) {address : Int}
    (hshown : address ∈ listing.shownAddresses) (hname : listing.symbols.nameOf address = name) :
    listing.Resolves name := by
  have hunused := hunambiguous.apart address hshown hname
  refine ⟨address, ?_, fun instruction hmem =>
    ⟨fun target htarget heq => ?_, fun register hregister heq => ?_⟩⟩
  · refine (filter_definitions_eq_singleton_iff hlabelled).mpr
      (Or.inl ⟨hunused, fun other => ⟨fun hboth => ?_, ?_⟩⟩)
    · exact hunambiguous.addresses other hboth.1 address hshown hboth.2 hname
    · rintro rfl
      exact ⟨hshown, hname⟩
  · have htargetShown := mem_shownAddresses_of_target? hlabelled hmem htarget
    rw [hunambiguous.addresses address hshown target htargetShown hname heq]
    exact Instruction.target?_mod htarget
  · exact absurd (mem_usedRegisters_iff.mpr ⟨⟨instruction, hmem, hregister⟩, heq⟩)
      (hunused register)

/-- The name of a register in use resolves if no address has it, and no register at another
    place. -/
theorem Unambiguous.resolves_of_used (hunambiguous : listing.Unambiguous name) {register : Int}
    (hused : (register, name) ∈ listing.usedRegisters) : listing.Resolves name := by
  have hunshown : ∀ address ∈ listing.shownAddresses, listing.symbols.nameOf address ≠ name :=
    fun address hshown heq => hunambiguous.apart address hshown heq register hused
  obtain ⟨⟨lowest, _⟩, -, hleast⟩ := exists_lowest_of_used hused
  refine ⟨lowest, (filter_definitions_eq_singleton_iff hlabelled).mpr (Or.inr ⟨hleast, hunshown⟩),
    fun instruction hmem => ⟨fun target htarget heq => ?_, fun other hother heq => ?_⟩⟩
  · exact absurd heq (hunshown target (mem_shownAddresses_of_target? hlabelled hmem htarget))
  · rw [hunambiguous.registers lowest other hleast.1
      (mem_usedRegisters_iff.mpr ⟨⟨instruction, hmem, hother⟩, heq⟩)]
    exact Instruction.register?_mod hother

/-- A name that is shown or in use resolves exactly if it is not shared. -/
theorem resolves_iff_unambiguous
    (happears : (∃ address ∈ listing.shownAddresses, listing.symbols.nameOf address = name) ∨
      ∃ register, (register, name) ∈ listing.usedRegisters) :
    listing.Resolves name ↔ listing.Unambiguous name := by
  constructor
  · exact Resolves.unambiguous hlabelled
  · intro hunambiguous
    obtain ⟨address, hshown, hname⟩ | ⟨register, hused⟩ := happears
    · exact hunambiguous.resolves_of_shown hlabelled hshown hname
    · exact hunambiguous.resolves_of_used hlabelled hused

end Labelled

/-- The built-in names are not shared, except by registers at one place of their banks. -/
theorem unambiguous_of_standard (hnames : listing.symbols.nameOf = Symbols.standard.nameOf)
    (hregisters : listing.symbols.registers = Symbols.standard.registers) (name : String) :
    listing.Unambiguous name := by
  have hkinds : ∀ entry ∈ Symbols.registerRows, entry.2.toList.head? ≠ some 'L' ∧
      entry.2 ≠ "reset_vector" ∧ entry.2 ≠ "interrupt_vector" := by
    decide +kernel
  have hplaces : ∀ first ∈ Symbols.registerRows, ∀ second ∈ Symbols.registerRows,
      first.2 = second.2 → first.1 % bankSize = second.1 % bankSize := by
    decide +kernel
  have hmem {register : Int} (hused : (register, name) ∈ listing.usedRegisters) :
      (register, name) ∈ Symbols.registerRows := by
    refine Symbols.mem_registerRows ?_
    rw [← hregisters]
    exact (mem_usedRegisters_iff.mp hused).2
  constructor
  case addresses =>
    intro first _ second _ hfirst hsecond
    rw [hnames] at hfirst hsecond
    exact Symbols.nameOf_standard_injective (hfirst.trans hsecond.symm)
  case apart =>
    intro address _ haddress register hused
    obtain ⟨hhead, hreset, hinterrupt⟩ := hkinds _ (hmem hused)
    rw [hnames, Symbols.nameOf_standard] at haddress
    split at haddress
    · exact hreset haddress.symm
    · split at haddress
      · exact hinterrupt haddress.symm
      · exact Symbols.ne_synthesizedName hhead address haddress.symm
  case registers =>
    exact fun first second hfirst hsecond => hplaces _ (hmem hfirst) _ (hmem hsecond) rfl

end Listing

namespace Disassembly

variable {device : Device} {image : Image} {symbols : Symbols} {analysis : Option Depth.Options}
  {disassembly : Disassembly}

/-- The listing of a run is that of a table with more labels than there were at first. -/
theorem exists_listing_eq (hrun : (run device image symbols analysis).result = .ok disassembly) :
    ∃ added findings, disassembly.listing =
      .ofImage { processor := device.processor } (symbols.ensureLabels added) image findings := by
  cases analysis with
  | none =>
    obtain rfl := Except.ok.inj hrun
    exact ⟨_, _, rfl⟩
  | some options =>
    obtain ⟨added, findings, -, hlisting⟩ := exists_of_run_eq_ok hrun
    refine ⟨Instruction.targets (Sweep.decode symbols image) ++ added, some findings, ?_⟩
    rw [hlisting, Symbols.ensureLabels_append]
    rfl

/-- What the names in a listing mean. A label in a branch is defined at the target, which the word
    gives in its low bits, and the name of a register by an equate at the lowest register in use
    that has it.
    There is no other definition, and this one agrees with all words in which the name appears,
    exactly if no two addresses in the listing have the name, nor an address and a register in use,
    nor registers in use at different places of their banks. -/
theorem resolves_exactly (hrun : (run device image symbols analysis).result = .ok disassembly) :
    let listing := disassembly.listing
    let defined := Listing.definitions 0 listing.lines
    ∀ instruction ∈ listing.instructions,
      (∀ target, instruction.target? = some target →
        let name := listing.symbols.nameOf target
        instruction.operandText listing.symbols = name ∧ (name, target) ∈ defined ∧
        target % pageSize = instruction.word % pageSize ∧
        (listing.Resolves name ↔ listing.Unambiguous name)) ∧
      ∀ register name, instruction.register? = some register →
        listing.symbols.registerName? register = some name →
        (∃ more, instruction.operandText listing.symbols = name ++ more) ∧
        (∃ lowest, IsLeast {register | (register, name) ∈ listing.usedRegisters} lowest ∧
          ListingLine.equate name 2 lowest ∈ listing.lines ∧ (name, lowest) ∈ defined) ∧
        register % bankSize = instruction.word % bankSize ∧
        (listing.Resolves name ↔ listing.Unambiguous name) := by
  intro listing defined instruction hmem
  have hlabelled : listing.Labelled := by
    obtain ⟨added, findings, hlisting⟩ := exists_listing_eq hrun
    simp only [listing, hlisting]
    exact Listing.labelled_ofImage _ _ _ _
  refine ⟨fun target htarget => ?_, fun register name hregister hname => ?_⟩
  · have hshown := Listing.mem_shownAddresses_of_target? hlabelled hmem htarget
    refine ⟨Instruction.operandText_of_target? _ htarget, ?_, Instruction.target?_mod htarget,
      Listing.resolves_iff_unambiguous hlabelled (Or.inl ⟨target, hshown, rfl⟩)⟩
    simp only [defined, Listing.definitions_lines hlabelled]
    exact List.mem_append_right _ (List.mem_map_of_mem hshown)
  · have hused := Listing.mem_usedRegisters_iff.mpr ⟨⟨instruction, hmem, hregister⟩, hname⟩
    refine ⟨Instruction.exists_operandText_of_register? hregister hname, ?_,
      Instruction.register?_mod hregister,
      Listing.resolves_iff_unambiguous hlabelled (Or.inr ⟨register, hused⟩)⟩
    obtain ⟨entry, hfound, hleast⟩ := Listing.exists_lowest_of_used hused
    have hfirst : (name, entry.1) ∈ defined.filter (·.1 = name) := by
      rw [Listing.filter_definitions hlabelled, hfound]
      exact List.mem_cons_self
    exact ⟨entry.1, hleast, Listing.equate_mem_lines hfound, (List.mem_filter.mp hfirst).1⟩

/-- As long as nothing is named besides what has a built-in name, every name in a listing is defined
    once and means the same in all words. -/
theorem unambiguous_of_run_standard
    (hrun : (run device image .standard analysis).result = .ok disassembly) (name : String) :
    disassembly.listing.Unambiguous name := by
  obtain ⟨added, findings, hlisting⟩ := exists_listing_eq hrun
  rw [hlisting]
  refine Listing.unambiguous_of_standard ?_ ?_ name
  · rw [Listing.symbols_ofImage_ensureLabels, Depth.nameOf_ensureLabels]
  · rw [Listing.symbols_ofImage_ensureLabels, (Depth.sameCode_ensureLabels ..).registers]

theorem resolves_exactly_straying :
    ∃ disassembly, (run .generic straying .standard none).result = .ok disassembly ∧
      disassembly.listing.instructions.map (·.operandText disassembly.listing.symbols) =
        ["L0010", "L0030", ""] ∧
      disassembly.listing.Resolves "L0010" := by
  obtain ⟨disassembly, hrun⟩ :
      ∃ disassembly, (run .generic straying .standard none).result = .ok disassembly :=
    ⟨_, rfl⟩
  have hshown : disassembly.listing.instructions.map (·.operandText disassembly.listing.symbols) =
      ["L0010", "L0030", ""] := by
    obtain rfl := Except.ok.inj hrun
    decide +kernel
  have hcall : ⟨0x00, 0x2010, {}⟩ ∈ disassembly.listing.instructions := by
    obtain rfl := Except.ok.inj hrun
    decide +kernel
  have hname : disassembly.listing.symbols.nameOf 0x10 = "L0010" := by
    obtain rfl := Except.ok.inj hrun
    decide +kernel
  obtain ⟨-, -, -, hresolves⟩ := (resolves_exactly hrun _ hcall).1 0x10 rfl
  rw [hname] at hresolves
  exact ⟨disassembly, hrun, hshown, hresolves.mpr (unambiguous_of_run_standard hrun _)⟩

/-- Hints that give two routines one name: both are called by it, and the listing defines it at both
    addresses. -/
theorem defined_twice_of_sharedLabel :
    let (load, fault) := HintLoad.take { symbols := .standard } "label 0x10 x\nlabel 0x20 x\n"
    fault = none ∧ ∃ disassembly,
      (run .generic Depth.Analysis.nestedCalls load.symbols none).result = .ok disassembly ∧
      (∃ instruction ∈ disassembly.listing.instructions,
        instruction.target?.map disassembly.listing.symbols.nameOf = some "x") ∧
      (Listing.definitions 0 disassembly.listing.lines).filter (·.1 = "x") =
        [("x", 0x10), ("x", 0x20)] ∧
      ¬ disassembly.listing.Resolves "x" := by
  let hinted := (Symbols.standard.addLabel 0x10 "x").addLabel 0x20 "x"
  have hload : HintLoad.take { symbols := .standard } "label 0x10 x\nlabel 0x20 x\n" =
      ({ symbols := hinted, applied := 2 }, none) := rfl
  let listing := Listing.ofImage { processor := Device.generic.processor }
    (Sweep.label hinted (Sweep.decode hinted Depth.Analysis.nestedCalls))
    Depth.Analysis.nestedCalls none
  have hcalls : ∃ instruction ∈ listing.instructions,
      instruction.target?.map listing.symbols.nameOf = some "x" := by
    decide +kernel
  have hdefined : (Listing.definitions 0 listing.lines).filter (·.1 = "x") =
      [("x", 0x10), ("x", 0x20)] := by
    decide +kernel
  rw [hload]
  refine ⟨rfl, _, rfl, hcalls, hdefined, ?_⟩
  rintro ⟨value, hone, -⟩
  exact absurd (congrArg List.length (hdefined.symm.trans hone)) (by simp)

end Disassembly

end Midrange
