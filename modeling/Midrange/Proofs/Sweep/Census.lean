import Mathlib.Data.Finset.Card
import Midrange.Proofs.Image.Memory
import Midrange.Proofs.Sweep

namespace Midrange

namespace Symbols

variable {symbols : Symbols} {addresses : List Int} {address : Int}

/-- The table grows by the addresses that had no label. -/
theorem size_labels_ensureLabels (symbols : Symbols) (addresses : List Int) :
    (symbols.ensureLabels addresses).labels.size =
      (addresses.filter fun address => !symbols.isLabelled address).toFinset.card +
        symbols.labels.size := by
  have hsize (symbols : Symbols) : symbols.labels.keys.toFinset.card = symbols.labels.size := by
    rw [List.toFinset_card_of_nodup Std.TreeMap.nodup_keys, Std.TreeMap.length_keys]
  have hkeys (symbols : Symbols) (address : Int) :
      address ∈ symbols.labels.keys ↔ symbols.isLabelled address = true := by
    rw [Std.TreeMap.mem_keys, isLabelled, Std.TreeMap.contains_iff_mem]
  have hgrown : (symbols.ensureLabels addresses).labels.keys.toFinset =
      (addresses.filter fun address => !symbols.isLabelled address).toFinset ∪
        symbols.labels.keys.toFinset := by
    ext address
    simp only [List.mem_toFinset, hkeys, isLabelled_ensureLabels_iff, Finset.mem_union,
      List.mem_filter]
    cases symbols.isLabelled address <;> simp
  have hdisjoint : Disjoint (addresses.filter fun address => !symbols.isLabelled address).toFinset
      symbols.labels.keys.toFinset := by
    refine Finset.disjoint_left.mpr fun address hnew hold => ?_
    rw [List.mem_toFinset, List.mem_filter] at hnew
    rw [List.mem_toFinset, hkeys] at hold
    simp [hold] at hnew
  rw [← hsize, hgrown, Finset.card_union_of_disjoint hdisjoint, hsize]

end Symbols

namespace Instruction

variable {symbols : Symbols} {selection : Selection} {words : List (Int × Int)}
  {instruction : Instruction}

/-- An instruction of a sequence has one of its words, and the selection that the words in front of
    it leave. -/
theorem mem_sequence_iff (hordered : words.Pairwise (·.1 < ·.1)) :
    instruction ∈ sequence symbols selection words ↔
      (instruction.address, instruction.word) ∈ words ∧
      instruction.selection = selectionBehind symbols selection
        (words.filter fun (address, _) => address < instruction.address) := by
  induction words generalizing selection with
  | nil => simp [sequence]
  | cons head rest ih =>
    obtain ⟨address, word⟩ := head
    obtain ⟨hfirst, hrest⟩ := List.pairwise_cons.mp hordered
    have hhere : (rest.filter fun (other, _) => decide (other < address)) = [] :=
      List.filter_eq_nil_iff.mpr fun entry hmem hless => by
        have hlater := hfirst entry hmem
        simp only [decide_eq_true_eq] at hless
        omega
    rw [sequence, List.mem_cons, ih hrest, List.mem_cons, Prod.mk.injEq]
    constructor
    · rintro (rfl | ⟨hmem, hselection⟩)
      · exact ⟨Or.inl ⟨rfl, rfl⟩, by simp [hhere, selectionBehind]⟩
      · refine ⟨Or.inr hmem, ?_⟩
        have hlater : address < instruction.address := hfirst _ hmem
        simpa [hlater, selectionBehind] using hselection
    · rintro ⟨⟨haddress, hword⟩ | hmem, hselection⟩
      · left
        rw [List.filter_cons_of_neg (by simp [haddress]), haddress, hhere] at hselection
        obtain ⟨_, _, _⟩ := instruction
        obtain rfl := haddress
        obtain rfl := hword
        obtain rfl := hselection
        rfl
      · have hlater : address < instruction.address := hfirst _ hmem
        exact Or.inr ⟨hmem, by simpa [hlater, selectionBehind] using hselection⟩

/-- The references are the branches, each with the address that its word gives in the page selected
    there. -/
theorem reference?_eq_some_iff {reference : Reference} : instruction.reference? = some reference ↔
    instruction.address = reference.source ∧
    instruction.mnemonic.branchKind? = some reference.kind ∧
      reference.target = instruction.word % pageSize + pageSize * instruction.selection.page := by
  obtain ⟨source, target, kind⟩ := reference
  constructor
  · intro hreference
    obtain ⟨found, htarget, hrest⟩ := Option.bind_eq_some_iff.mp hreference
    obtain ⟨found', hkind, hsame⟩ := Option.bind_eq_some_iff.mp hrest
    obtain ⟨rfl, rfl, rfl⟩ := Reference.mk.inj (Option.some.inj hsame)
    exact ⟨rfl, hkind, target?_eq_some htarget⟩
  · rintro ⟨rfl, hkind, rfl⟩
    rw [reference?, target?_of_branchKind? hkind, hkind]
    rfl

/-- Every address to which an instruction branches is the target of a reference. -/
theorem target?_eq_some_iff {target : Int} : instruction.target? = some target ↔
    ∃ reference, instruction.reference? = some reference ∧ reference.target = target := by
  constructor
  · intro htarget
    obtain ⟨kind, hkind⟩ := exists_branchKind?_of_target? htarget
    exact ⟨⟨instruction.address, target, kind⟩,
      reference?_eq_some_iff.mpr ⟨rfl, hkind, target?_eq_some htarget⟩, rfl⟩
  · rintro ⟨reference, hreference, rfl⟩
    obtain ⟨found, htarget, hrest⟩ := Option.bind_eq_some_iff.mp hreference
    obtain ⟨kind, -, hsame⟩ := Option.bind_eq_some_iff.mp hrest
    rw [htarget, ← Option.some.inj hsame]

end Instruction

namespace Sweep

variable {symbols : Symbols} {image : Image} {address : Int}

/-- The present words of an image that hold code, in the order of their addresses. -/
def codeWords (symbols : Symbols) (image : Image) : List (Int × Int) :=
  image.toList.filter fun (address, _) => !symbols.isData address

/-- The selection with which a sweep reaches an address: the first bank and page, as all code below
    it changes it when it is passed in the order of its addresses. -/
def selectionAt (symbols : Symbols) (image : Image) (address : Int) : Selection :=
  Instruction.selectionBehind symbols {}
    ((codeWords symbols image).filter fun (other, _) => other < address)

/-- The branch targets that an image refers to under addresses without a label. -/
def newTargets (symbols : Symbols) (sweep : Sweep) : List Int :=
  (sweep.references.map (·.target)).filter fun target => !symbols.isLabelled target

/-- What a sweep over an image says, and the table that it leaves, told by the words of the image
    alone. -/
structure Exact (symbols : Symbols) (image : Image) (sweep : Sweep) (table : Symbols) : Prop where
  once : sweep.instructions.Pairwise (·.address < ·.address)
  visited : ∀ instruction, instruction ∈ sweep.instructions ↔
    image.word? instruction.address = some instruction.word ∧
      symbols.isData instruction.address = false ∧
      instruction.selection = selectionAt symbols image instruction.address
  counted : sweep.instructions.length + sweep.dataWords =
    {address | image.isPresent address = true}.ncard
  unknown_increasing : sweep.unknown.Pairwise (· < ·)
  mem_unknown_iff : ∀ address, address ∈ sweep.unknown ↔ ∃ word, image.word? address = some word ∧
    symbols.isData address = false ∧ (Encoding.ofWord word).mnemonic = .unknown
  references_increasing : sweep.references.Pairwise (·.source < ·.source)
  mem_references_iff : ∀ reference, reference ∈ sweep.references ↔ ∃ word,
    image.word? reference.source = some word ∧ symbols.isData reference.source = false ∧
      (Encoding.ofWord word).mnemonic.branchKind? = some reference.kind ∧
      reference.target =
        word % pageSize + pageSize * (selectionAt symbols image reference.source).page
  labels : ∀ address, table.labels[address]? = symbols.labels[address]?.or
    (if ∃ reference ∈ sweep.references, reference.target = address then
      some ⟨Symbols.synthesizedName address, .synthesized⟩ else none)
  names : table.registers = symbols.registers ∧ table.bits = symbols.bits ∧
    table.data = symbols.data
  created : sweep.labelsCreated = (newTargets symbols sweep).toFinset.card

theorem mem_codeWords_iff {word : Int} : (address, word) ∈ codeWords symbols image ↔
    image.word? address = some word ∧ symbols.isData address = false := by
  rw [codeWords, List.mem_filter, Image.mem_toList_iff, Bool.not_eq_true']

theorem pairwise_codeWords (symbols : Symbols) (image : Image) :
    (codeWords symbols image).Pairwise (·.1 < ·.1) :=
  (pairwise_fst_toList image.words).filter _

/-- Decoding meets the words of code one after the other. -/
theorem map_decode (symbols : Symbols) (image : Image) :
    (decode symbols image).map (fun instruction => (instruction.address, instruction.word)) =
      codeWords symbols image :=
  Instruction.map_sequence symbols {} (codeWords symbols image)

theorem pairwise_decode (symbols : Symbols) (image : Image) :
    (decode symbols image).Pairwise (·.address < ·.address) := by
  have hordered := pairwise_codeWords symbols image
  rw [← map_decode, List.pairwise_map] at hordered
  exact hordered

theorem mem_decode_iff {instruction : Instruction} : instruction ∈ decode symbols image ↔
    image.word? instruction.address = some instruction.word ∧
      symbols.isData instruction.address = false ∧
      instruction.selection = selectionAt symbols image instruction.address := by
  rw [← and_assoc, ← mem_codeWords_iff]
  exact Instruction.mem_sequence_iff (pairwise_codeWords symbols image)

/-- Every present word is either decoded or counted as data. -/
theorem length_decode (symbols : Symbols) (image : Image) :
    (decode symbols image).length +
        (image.toList.countP fun (address, _) => symbols.isData address) =
      {address | image.isPresent address = true}.ncard := by
  have hlength := congrArg List.length (map_decode symbols image)
  rw [List.length_map, codeWords, ← List.countP_eq_length_filter] at hlength
  have hall :=
    List.length_eq_countP_add_countP (fun (address, _) => symbols.isData address)
      (l := image.toList)
  have hsize : image.toList.length = image.size := Std.TreeMap.length_toList
  rw [hlength, ← image.size_eq_ncard, ← hsize, hall, Nat.add_comm]
  simp only [Bool.not_eq_true, Bool.decide_eq_false]

theorem mem_references_iff {sweep : Sweep} {reference : Reference} : reference ∈ sweep.references ↔
    ∃ instruction ∈ sweep.instructions, instruction.reference? = some reference :=
  List.mem_filterMap

theorem mem_targets_iff (sweep : Sweep) : address ∈ Instruction.targets sweep.instructions ↔
    ∃ reference ∈ sweep.references, reference.target = address := by
  simp only [Instruction.targets, List.mem_filterMap, Instruction.target?_eq_some_iff,
    mem_references_iff]
  constructor
  · rintro ⟨instruction, hmem, reference, hreference, rfl⟩
    exact ⟨reference, ⟨instruction, hmem, hreference⟩, rfl⟩
  · rintro ⟨reference, ⟨instruction, hmem, hreference⟩, rfl⟩
    exact ⟨instruction, hmem, reference, hreference, rfl⟩

/-- The addresses in a report about the instructions of a sweep increase. -/
theorem pairwise_references (symbols : Symbols) (image : Image) :
    (ofImage symbols image).references.Pairwise (·.source < ·.source) := by
  refine (pairwise_decode symbols image).filterMap _
    fun instruction other hless found hfound found' hfound' => ?_
  rw [← (Instruction.reference?_eq_some_iff.mp hfound).1,
    ← (Instruction.reference?_eq_some_iff.mp hfound').1]
  exact hless

theorem exact_ofImage (symbols : Symbols) (image : Image) :
    Exact symbols image (ofImage symbols image)
    (label symbols (ofImage symbols image).instructions) where
  once := pairwise_decode symbols image
  visited instruction := mem_decode_iff
  counted := length_decode symbols image
  unknown_increasing := List.pairwise_map.mpr ((pairwise_decode symbols image).filter _)
  mem_unknown_iff address := by
    simp only [unknown, List.mem_map, List.mem_filter, decide_eq_true_eq]
    constructor
    · rintro ⟨instruction, ⟨hmem, hunknown⟩, rfl⟩
      obtain ⟨hword, hcode, -⟩ := mem_decode_iff.mp hmem
      exact ⟨instruction.word, hword, hcode, hunknown⟩
    · rintro ⟨word, hword, hcode, hunknown⟩
      exact ⟨⟨address, word, selectionAt symbols image address⟩,
        ⟨mem_decode_iff.mpr ⟨hword, hcode, rfl⟩, hunknown⟩, rfl⟩
  references_increasing := pairwise_references symbols image
  mem_references_iff reference := by
    rw [mem_references_iff]
    constructor
    · rintro ⟨instruction, hmem, hreference⟩
      obtain ⟨hword, hcode, hselection⟩ := mem_decode_iff.mp hmem
      obtain ⟨hsource, hkind, htarget⟩ := Instruction.reference?_eq_some_iff.mp hreference
      rw [hsource] at hword hcode hselection
      exact ⟨instruction.word, hword, hcode, hkind, hselection ▸ htarget⟩
    · rintro ⟨word, hword, hcode, hkind, htarget⟩
      exact ⟨⟨reference.source, word, selectionAt symbols image reference.source⟩,
        mem_decode_iff.mpr ⟨hword, hcode, rfl⟩,
        Instruction.reference?_eq_some_iff.mpr ⟨rfl, hkind, htarget⟩⟩
  labels address := by
    simp only [label, Symbols.getElem?_labels_ensureLabels, mem_targets_iff]
  names :=
    have hsame :=
      Depth.sameCode_ensureLabels symbols (Instruction.targets (ofImage symbols image).instructions)
    ⟨hsame.registers, hsame.bits, hsame.data⟩
  created := by
    have hnew : (newTargets symbols (ofImage symbols image)).toFinset =
        ((Instruction.targets (decode symbols image)).filter fun target =>
          !symbols.isLabelled target).toFinset := by
      ext target
      simp only [newTargets, List.mem_toFinset, List.mem_filter, List.mem_map, ← mem_targets_iff]
      rfl
    change (label symbols (decode symbols image)).labels.size - symbols.labels.size = _
    rw [label, Symbols.size_labels_ensureLabels, Nat.add_sub_cancel, hnew]

/-- A sweep over an image meets every present word once, and it reports what the words of code say
    with the selection that the code below them leaves. It adds one label for each branch target
    that has none, as does a pass with a table that grows on the way. A second sweep with the table
    that the first one leaves finds the same, and nothing is left for it to add. -/
theorem ofImage_exact_and_settled (symbols : Symbols) (image : Image) :
    let sweep := ofImage symbols image
    let table := label symbols sweep.instructions
    Exact symbols image sweep table ∧
      pass symbols {} image.toList =
        (sweep.instructions.map fun instruction => (instruction, instruction.operandText symbols),
          table) ∧
      ofImage table image = { sweep with labelsCreated := 0 } ∧
      (label table (ofImage table image).instructions).labels.toList = table.labels.toList := by
  intro sweep table
  have hdecode : decode table image = decode symbols image := decode_ensureLabels symbols _ image
  have hlabelled : ∀ target ∈ Instruction.targets (decode table image),
      table.isLabelled target = true := by
    intro target hmem
    rw [hdecode] at hmem
    exact Symbols.isLabelled_ensureLabels_iff.mpr (Or.inl hmem)
  have hsettled : (label table (decode table image)).labels.toList = table.labels.toList :=
    Symbols.labels_ensureLabels_of_labelled hlabelled
  refine ⟨exact_ofImage symbols image, pass_eq symbols {} image.toList, ?_, hsettled⟩
  have hsize : (label table (decode table image)).labels.size = table.labels.size := by
    rw [← Std.TreeMap.length_toList, hsettled, Std.TreeMap.length_toList]
  rw [hdecode] at hsize
  have hdata : table.isData = symbols.isData := (Depth.sameCode_ensureLabels symbols _).isData_eq
  simp only [ofImage, hsize, Nat.sub_self, hdecode, hdata, sweep]

end Sweep

end Midrange
