import Midrange.Disassembly
import Midrange.Proofs.Image.Placed
import Midrange.Proofs.Sweep

namespace Midrange

namespace ListingLine

/-- A line without what an analysis may add: labels and remarks vanish, and a word loses its
    notes. -/
def bare? : ListingLine → Option ListingLine
  | .remark _ | .label _ => none
  | .word address value text _ => some (.word address value text [])
  | line => some line

/-- Lines that only add to others: labels that stand between them, and a depth behind the other
    notes of a word. -/
inductive Annotates : List ListingLine → List ListingLine → Prop
  | nil : Annotates [] []
  | keep (line : ListingLine) {lines lines' : List ListingLine} :
    Annotates lines lines' → Annotates (line :: lines) (line :: lines')
  | label (name : String) {lines lines' : List ListingLine} :
    Annotates lines lines' → Annotates lines (.label name :: lines')
  | depth (address word : Int) (text : String) (notes : List String) (depth : Int)
      {lines lines' : List ListingLine} :
    Annotates lines lines' → Annotates (.word address word text notes :: lines)
      (.word address word text (notes ++ [s!"depth {depth}"]) :: lines')

namespace Annotates

variable {lines lines' : List ListingLine}

theorem append_left (hannotates : Annotates lines lines') (before : List ListingLine) :
    Annotates (before ++ lines) (before ++ lines') := by
  induction before with
  | nil => exact hannotates
  | cons line rest ih => exact .keep line ih

/-- What is added is all that is left out of a bare line. -/
theorem filterMap_bare?_eq (hannotates : Annotates lines lines') :
    lines.filterMap bare? = lines'.filterMap bare? := by
  induction hannotates with
  | nil => rfl
  | keep line _ ih => rw [List.filterMap_cons, List.filterMap_cons, ih]
  | label name _ ih => simpa only [List.filterMap_cons, bare?] using ih
  | depth _ _ _ _ _ _ ih => simp only [List.filterMap_cons, bare?, ih]

end Annotates

end ListingLine

namespace Listing

variable {head : ListingHead} {symbols : Symbols} {image : Image} {findings : Option Depth.Findings}

/-- The branch targets of some instructions, each once and in increasing order, that are not in an
    image. -/
def absentTargets (image : Image) (instructions : List Instruction) : List Int :=
  (Std.TreeSet.ofList (Instruction.targets instructions)).toList.filter fun target =>
    !image.isPresent target

theorem mem_absentTargets_iff {instructions : List Instruction} {address : Int} :
    address ∈ absentTargets image instructions ↔
      address ∈ Instruction.targets instructions ∧ image.isPresent address = false := by
  rw [absentTargets, List.mem_filter, Std.TreeSet.mem_toList, mem_ofList_iff, Bool.not_eq_true']

theorem pairwise_absentTargets (image : Image) (instructions : List Instruction) :
    (absentTargets image instructions).Pairwise (· < ·) :=
  (Std.TreeSet.ordered_toList.imp Std.compare_eq_lt.mp).filter _

theorem instructions_ofImage_ensureLabels (head : ListingHead) (symbols : Symbols)
    (added : List Int) (image : Image) (findings : Option Depth.Findings) :
    (ofImage head (symbols.ensureLabels added) image findings).instructions =
      Sweep.decode symbols image :=
  Sweep.decode_ensureLabels symbols added image

theorem symbols_ofImage_ensureLabels (head : ListingHead) (symbols : Symbols) (added : List Int)
    (image : Image) (findings : Option Depth.Findings) :
    (ofImage head (symbols.ensureLabels added) image findings).symbols =
      symbols.ensureLabels (added ++ Instruction.targets (Sweep.decode symbols image)) := by
  simp only [ofImage, Sweep.label, Sweep.decode_ensureLabels, Symbols.ensureLabels_append]

/-- Every branch target in a listing has a label. -/
def Labelled (listing : Listing) : Prop :=
  ∀ target ∈ Instruction.targets listing.instructions, listing.symbols.isLabelled target = true

theorem labelled_ofImage (head : ListingHead) (symbols : Symbols) (image : Image)
    (findings : Option Depth.Findings) : (ofImage head symbols image findings).Labelled :=
  fun _ htarget => Symbols.isLabelled_ensureLabels_iff.mpr (Or.inl htarget)

/-- The names of the absent targets, picked from all labels or put to each target. -/
private theorem filter_labels_of_labelled {listing : Listing} (hlabelled : listing.Labelled) :
    let targets : Std.TreeSet Int := .ofList (Instruction.targets listing.instructions)
    ((listing.symbols.labels.toList.filter fun (address, _) =>
        targets.contains address && !listing.image.isPresent address).map fun (address, label) =>
          (address, label.text)) =
      (absentTargets listing.image listing.instructions).map fun target =>
        (target, listing.symbols.nameOf target) := by
  intro targets
  have habsent (address : Int) :
      (targets.contains address && !listing.image.isPresent address) = true ↔
        address ∈ absentTargets listing.image listing.instructions := by
    rw [mem_absentTargets_iff, Bool.and_eq_true, Bool.not_eq_true', Std.TreeSet.contains_iff_mem,
      mem_ofList_iff]
  refine List.Pairwise.eq_of_mem_iff
    (r := fun left right : Int × String => left.1 < right.1) ?_ ?_ ?_
  · exact List.Pairwise.map _ (fun _ _ hless => hless)
      ((pairwise_fst_toList listing.symbols.labels).filter _)
  · exact List.Pairwise.map _ (fun _ _ hless => hless) (pairwise_absentTargets _ _)
  · rintro ⟨address, name⟩
    constructor
    · intro hmem
      obtain ⟨⟨other, label⟩, hlabel, heq⟩ := List.mem_map.mp hmem
      obtain ⟨rfl, rfl⟩ := Prod.mk.inj heq
      obtain ⟨hlabel, hshown⟩ := List.mem_filter.mp hlabel
      have hlabel? : listing.symbols.label? other = some label.text := by
        rw [Symbols.label?, Std.TreeMap.mem_toList_iff_getElem?_eq_some.mp hlabel, Option.map_some]
      refine List.mem_map.mpr ⟨other, (habsent other).mp hshown, ?_⟩
      rw [Symbols.nameOf_of_label? hlabel?]
    · intro hmem
      obtain ⟨target, htarget, heq⟩ := List.mem_map.mp hmem
      obtain ⟨rfl, rfl⟩ := Prod.mk.inj heq
      have hlabel? : listing.symbols.label? target = some (listing.symbols.nameOf target) :=
        Symbols.label?_eq_some_iff.mpr ⟨hlabelled target (mem_absentTargets_iff.mp htarget).1, rfl⟩
      obtain ⟨label, hlabel, htext⟩ := Option.map_eq_some_iff.mp hlabel?
      refine List.mem_map.mpr ⟨(target, label),
        List.mem_filter.mpr ⟨?_, (habsent target).mpr htarget⟩, congrArg (Prod.mk target) htext⟩
      exact Std.TreeMap.mem_toList_iff_getElem?_eq_some.mpr hlabel

/-- The external lines name all absent targets, whatever else has a label. -/
theorem externalLines_of_labelled {listing : Listing} (hlabelled : listing.Labelled) :
    listing.externalLines = (absentTargets listing.image listing.instructions).map fun target =>
      .equate (listing.symbols.nameOf target) 4 target := by
  have hlabels :=
    congrArg (List.map fun entry : Int × String => ListingLine.equate entry.2 4 entry.1)
      (filter_labels_of_labelled hlabelled)
  rwa [List.map_map, List.map_map] at hlabels

/-- The lines behind the head of a listing: names, and then the words. -/
def sections (listing : Listing) : List ListingLine :=
  closed listing.registerLines ++ (closed listing.externalLines ++
    listing.bodyLines none listing.instructions listing.image.toList)

theorem lines_eq_append (listing : Listing) :
    listing.lines = listing.headLines ++ listing.sections := by
  rw [lines, sections, List.append_assoc, List.append_assoc]

/-- The remarks that an analysis puts in the head of a listing. -/
def remarks (findings : Depth.Findings) : List String :=
  s!"max call depth {findings.maxDepth}" :: findings.warnings.map ("warning: " ++ ·)

variable {plain rich : Listing}

/-- Two listings of the same words in which the same text stands for each instruction. The first one
    has no notes of an analysis, and the second one has all its labels. -/
structure Extends (plain rich : Listing) : Prop where
  text_eq : Instruction.text plain.symbols = Instruction.text rich.symbols
  label?_of_some : ∀ address name,
    plain.symbols.label? address = some name → rich.symbols.label? address = some name
  findings_eq : plain.findings = none

/-- The line of a word stays, but may tell the depth as well. -/
theorem Extends.wordLine (hextends : Extends plain rich) (address word : Int)
    (instruction? : Option Instruction) {lines lines' : List ListingLine}
    (hrest : ListingLine.Annotates lines lines') :
    ListingLine.Annotates (plain.wordLine address word instruction? :: lines)
      (rich.wordLine address word instruction? :: lines') := by
  unfold Listing.wordLine
  rw [hextends.findings_eq, hextends.text_eq]
  cases rich.findings.bind (·.depthAt? address) with
  | none => exact .keep _ hrest
  | some depth =>
    cases instruction? with
    | none => simpa using ListingLine.Annotates.depth address word _ _ depth hrest
    | some instruction => simpa using ListingLine.Annotates.depth address word _ _ depth hrest

theorem Extends.bodyLines (hextends : Extends plain rich) (expected : Option Int)
    (instructions : List Instruction) (words : List (Int × Int)) :
    ListingLine.Annotates (plain.bodyLines expected instructions words)
      (rich.bodyLines expected instructions words) := by
  induction words generalizing expected instructions with
  | nil => exact .nil
  | cons head rest ih =>
    obtain ⟨address, word⟩ := head
    simp only [Listing.bodyLines, List.append_assoc]
    refine ListingLine.Annotates.append_left ?_ _
    have hword := hextends.wordLine address word
    cases hplain : plain.symbols.label? address with
    | some name =>
      rw [hextends.label?_of_some address name hplain]
      exact .keep _ (hword _ (ih _ _))
    | none =>
      cases rich.symbols.label? address with
      | none => exact hword _ (ih _ _)
      | some name => exact .label name (hword _ (ih _ _))

theorem lines_of_no_findings {listing : Listing} (hfindings : listing.findings = none) :
    listing.lines =
      [.remark listing.head.title, .processor listing.head.processor] ++
        .blank :: listing.sections := by
  simp [lines_eq_append, headLines, hfindings]

theorem lines_of_findings {listing : Listing} {found : Depth.Findings}
    (hfindings : listing.findings = some found) :
    listing.lines = [.remark listing.head.title, .processor listing.head.processor] ++
      (remarks found).map .remark ++ .blank :: listing.sections := by
  simp [lines_eq_append, headLines, hfindings, remarks]

theorem filterMap_bare?_lines {found : Depth.Findings} (hhead : rich.head = plain.head)
    (hplain : plain.findings = none) (hrich : rich.findings = some found)
    (hannotates : ListingLine.Annotates plain.sections rich.sections) :
    plain.lines.filterMap (·.bare?) = rich.lines.filterMap (·.bare?) := by
  have hremarks : ((remarks found).map ListingLine.remark).filterMap (·.bare?) = [] := by
    simp [ListingLine.bare?]
  simp only [lines_of_no_findings hplain, lines_of_findings hrich, hhead,
    List.filterMap_append, hremarks, List.append_nil, List.filterMap_cons,
    hannotates.filterMap_bare?_eq]

/-- Behind the head of a listing, an analysis adds nothing but labels and depths. -/
theorem annotates_sections (head : ListingHead) (symbols : Symbols) (image : Image)
    (added : List Int) (findings : Option Depth.Findings) :
    ListingLine.Annotates (ofImage head symbols image none).sections
      (ofImage head (symbols.ensureLabels added) image findings).sections := by
  let plain := ofImage head symbols image none
  let rich := ofImage head (symbols.ensureLabels added) image findings
  have hinstructions : rich.instructions = plain.instructions :=
    instructions_ofImage_ensureLabels ..
  have htable : rich.symbols =
      symbols.ensureLabels (added ++ Instruction.targets (Sweep.decode symbols image)) :=
    symbols_ofImage_ensureLabels ..
  have hextends : Extends plain rich := by
    constructor
    case text_eq =>
      rw [htable, Instruction.text_ensureLabels]
      exact Instruction.text_ensureLabels ..
    case label?_of_some =>
      intro address name hname
      rw [htable]
      exact Symbols.label?_ensureLabels_of_subset (List.subset_append_right added _) hname
    case findings_eq => rfl
  have hregisters : rich.registerLines = plain.registerLines := by
    have hsame : rich.symbols.registers = plain.symbols.registers := by
      rw [htable, (Depth.sameCode_ensureLabels symbols _).registers]
      exact (Depth.sameCode_ensureLabels symbols _).registers.symm
    simp only [registerLines, hinstructions, Symbols.registersAmong, hsame]
  have hexternals : rich.externalLines = plain.externalLines := by
    have hname : rich.symbols.nameOf = plain.symbols.nameOf := by
      rw [htable, Depth.nameOf_ensureLabels]
      exact (Depth.nameOf_ensureLabels symbols _).symm
    have hplain : plain.Labelled := labelled_ofImage head symbols image none
    have hrich : rich.Labelled := labelled_ofImage head _ image _
    rw [externalLines_of_labelled hplain, externalLines_of_labelled hrich, hinstructions, hname]
    rfl
  have hbody := hextends.bodyLines none plain.instructions image.toList
  change ListingLine.Annotates plain.sections rich.sections
  rw [sections, sections, hregisters, hexternals, hinstructions]
  exact (hbody.append_left _).append_left _

end Listing

namespace Disassembly

/-- The listing of a run with an analysis is that of a table with more labels than the sweep
    leaves. -/
theorem exists_of_run_eq_ok {device : Device} {image : Image} {symbols : Symbols}
    {options : Depth.Options} {disassembly : Disassembly}
    (hrun : (run device image symbols (some options)).result = .ok disassembly) :
    ∃ added findings, disassembly.findings = some findings ∧
      disassembly.listing = .ofImage { processor := device.processor }
        ((Sweep.label symbols (Sweep.decode symbols image)).ensureLabels added) image
        (some findings) := by
  unfold run at hrun
  simp only at hrun
  split at hrun
  · cases hrun
  · obtain rfl := Except.ok.inj hrun
    exact ⟨_, _, rfl, congrArg (Listing.ofImage _ · image _) (Depth.Analysis.symbols_run ..)⟩

/-- The listing shows what the sweep met, and an analysis only adds to it. Looking at every address
    and going from one present word to the next decode the same instructions, with the same
    operands, whatever labels are recorded in between; writing the listing records no further label;
    and with an analysis, if it returns, the listing has the same words, places and equates, and
    remarks, labels and depths besides. -/
theorem listing_follows_sweep (device : Device) (head : ListingHead) (image : Image)
    (symbols : Symbols) (hplaced : image.Placed) :
    let sweep := Sweep.ofImage symbols image
    let swept := Sweep.label symbols sweep.instructions
    let shown := sweep.instructions.map fun instruction =>
      (instruction, instruction.operandText symbols)
    Sweep.pass symbols {} image.scanned = (shown, swept) ∧
    (∀ added findings,
      let table := swept.ensureLabels added
      let listing := Listing.ofImage head table image findings
      Sweep.pass table {} image.toList = (shown, listing.symbols) ∧
      listing.symbols.labels.toList = table.labels.toList ∧
      listing.instructions = sweep.instructions ∧
      Instruction.text listing.symbols = Instruction.text symbols ∧
      (listing.instructions.map fun instruction => (instruction.address, instruction.word)) =
        image.toList.filter (fun (address, _) => !symbols.isData address) ∧
      listing.instructions.filterMap (·.reference?) = sweep.references) ∧
    ∀ options disassembly, (run device image symbols (some options)).result = .ok disassembly →
      ∃ plain findings, (run device image symbols none).result = .ok plain ∧
        disassembly.findings = some findings ∧
        plain.listing.lines = [.remark plain.listing.head.title, .processor device.processor] ++
          .blank :: plain.listing.sections ∧
        disassembly.listing.lines =
          [.remark plain.listing.head.title, .processor device.processor] ++
          (Listing.remarks findings).map .remark ++ .blank :: disassembly.listing.sections ∧
        ListingLine.Annotates plain.listing.sections disassembly.listing.sections ∧
        plain.listing.lines.filterMap (·.bare?) =
          disassembly.listing.lines.filterMap (·.bare?) := by
  intro sweep swept shown
  refine ⟨?_, fun added findings => ?_, fun options disassembly hrun => ?_⟩
  · rw [Image.scanned_eq_toList hplaced]
    exact Sweep.pass_eq symbols {} image.toList
  · intro table listing
    have htable : table = symbols.ensureLabels (Instruction.targets sweep.instructions ++ added) :=
      (Symbols.ensureLabels_append ..).symm
    have hinstructions : listing.instructions = sweep.instructions := by
      simp only [listing, htable, Listing.instructions_ofImage_ensureLabels]
      rfl
    have hsymbols : listing.symbols =
        table.ensureLabels (Instruction.targets listing.instructions) := rfl
    have htext : Instruction.operandText table = Instruction.operandText symbols := by
      rw [htable, Instruction.operandText_ensureLabels]
    refine ⟨?_, ?_, hinstructions, ?_, ?_, ?_⟩
    · simp only [shown, ← hinstructions, ← htext]
      exact Sweep.pass_eq table {} image.toList
    · refine Symbols.labels_ensureLabels_of_labelled fun target htarget => ?_
      rw [htable, Symbols.isLabelled_ensureLabels_iff]
      exact Or.inl (List.mem_append_left added (hinstructions ▸ htarget))
    · rw [hsymbols, htable, Instruction.text_ensureLabels, Instruction.text_ensureLabels]
    · rw [hinstructions]
      exact Instruction.map_sequence ..
    · rw [hinstructions]
      rfl
  · obtain ⟨added, findings, hfindings, hlisting⟩ := exists_of_run_eq_ok hrun
    have hannotates :=
      Listing.annotates_sections { processor := device.processor } swept image added (some findings)
    rw [hlisting]
    exact ⟨_, findings, rfl, hfindings, Listing.lines_of_no_findings rfl,
      Listing.lines_of_findings rfl, hannotates,
      Listing.filterMap_bare?_lines rfl rfl rfl hannotates⟩

/-- A program that calls a routine, and then goes on where there is no word. -/
def straying : Image where
  words := .ofList ([(0x00, 0x2010), (0x01, 0x2830), (0x10, 0x0008)] : List (Int × Int))

theorem listing_follows_sweep_straying :
    straying.Placed ∧ ∃ plain deep,
      (run .generic straying .standard none).result = .ok plain ∧
      (run .generic straying .standard (some {})).result = .ok deep ∧
      .word 0x10 0x0008 "return" ["depth 1"] ∈ deep.listing.lines ∧
      plain.listing.lines.filterMap (·.bare?) = deep.listing.lines.filterMap (·.bare?) := by
  have hplaced : straying.Placed := Image.placed_of_forall_mem (by decide +kernel)
  have hdepth : (run .generic straying .standard (some {})).result.toOption.map (fun deep =>
      decide (.word 0x10 0x0008 "return" ["depth 1"] ∈ deep.listing.lines)) = some true := by
    decide +kernel
  obtain ⟨deep, hdeep, hline⟩ := Option.map_eq_some_iff.mp hdepth
  have hrun : (run .generic straying .standard (some {})).result = .ok deep := by
    cases hresult : (run .generic straying .standard (some {})).result with
    | error fault => simp [hresult, Except.toOption] at hdeep
    | ok found => simpa [hresult, Except.toOption] using hdeep
  obtain ⟨-, -, hanalysis⟩ := listing_follows_sweep .generic {} straying .standard hplaced
  obtain ⟨plain, _, hplain, -, -, -, -, hbare⟩ := hanalysis {} deep hrun
  exact ⟨hplaced, plain, deep, hplain, hrun, of_decide_eq_true hline, hbare⟩

end Disassembly

end Midrange
