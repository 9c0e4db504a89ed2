import Mathlib.Data.List.DropRight
import Midrange.Proofs.Listing.Definitions
import Midrange.Proofs.Listing.Sight
import Midrange.Proofs.Text.Lines

namespace Midrange

/-- A word that is met when a listing is read: where the location counter stands, the label directly
    in front of the word, and the address and the word that its comment tells. -/
structure Sighting where
  place : Int
  label? : Option String
  address : Int
  word : Int
  deriving DecidableEq, Repr

namespace Listing

/-- Reads lines one after the other with a location counter, which is unknown at first, and the
    label that stands directly in front. Behind a label there has to be a word. -/
def sightings? (place? : Option Int) (label? : Option String) :
    List (List Char) → Option (List Sighting)
  | [] => if label?.isSome then none else some []
  | line :: rest =>
    match Sight.ofLine? line, label? with
    | some (.org address), none => sightings? (some address) none rest
    | some (.label name), none => sightings? place? (some name) rest
    | some (.word address word), label? => place?.bind fun place =>
      (sightings? (some (place + 1)) none rest).map (⟨place, label?, address, word⟩ :: ·)
    | _, _ => none

section Steps

variable {line : List Char}

theorem sightings?_org {address : Int} (hline : Sight.ofLine? line = some (.org address))
    (place? : Option Int) (rest : List (List Char)) :
    sightings? place? none (line :: rest) = sightings? (some address) none rest := by
  simp only [sightings?, hline]

theorem sightings?_label {name : String} (hline : Sight.ofLine? line = some (.label name))
    (place? : Option Int) (rest : List (List Char)) :
    sightings? place? none (line :: rest) = sightings? place? (some name) rest := by
  simp only [sightings?, hline]

theorem sightings?_word {address word : Int}
    (hline : Sight.ofLine? line = some (.word address word)) (place : Int) (label? : Option String)
    (rest : List (List Char)) : sightings? (some place) label? (line :: rest) =
      (sightings? (some (place + 1)) none rest).map (⟨place, label?, address, word⟩ :: ·) := by
  simp only [sightings?, hline, Option.bind_some]

end Steps

/-- Reads the body of a listing, which is everything behind the last empty line. -/
def read? (text : String) : Option (List Sighting) :=
  sightings? none none ((Text.lines text.toList).rtakeWhile (· ≠ []))

variable {listing : Listing}

/-- The labels and the instructions of a listing can be told apart from what stands around them. -/
structure Legible (listing : Listing) : Prop where
  label : ∀ address name, listing.symbols.label? address = some name →
    (ListingLine.label name).Legible
  text : ∀ instruction : Instruction, Text.Plain (instruction.text listing.symbols)

theorem Legible.wordLine (hlegible : listing.Legible) (address word : Int)
    (instruction? : Option Instruction) : (listing.wordLine address word instruction?).Legible := by
  have hdepth : ∀ note ∈ ((listing.findings.bind (·.depthAt? address)).map fun depth =>
      s!"depth {depth}").toList, Text.Plain note := by
    cases listing.findings.bind (·.depthAt? address) with
    | none => simp
    | some depth =>
      have hword : Text.Plain (toString "depth ") := by decide
      rw [Option.map_some, Option.toList_some, List.forall_mem_singleton]
      exact hword.append (Text.plain_toString depth)
  unfold Listing.wordLine
  cases instruction? with
  | none =>
    refine ⟨Text.Plain.append (by decide) (Text.plain_hexLiteral 4 word), ?_⟩
    rw [List.forall_mem_append]
    refine ⟨?_, hdepth⟩
    split <;> decide
  | some instruction =>
    refine ⟨hlegible.text instruction, ?_⟩
    rw [List.forall_mem_append]
    refine ⟨?_, hdepth⟩
    split <;> decide

theorem Legible.bodyLines (hlegible : listing.Legible) (expected : Option Int)
    (instructions : List Instruction) (words : List (Int × Int)) :
    ∀ line ∈ listing.bodyLines expected instructions words, line.Legible := by
  induction words generalizing expected instructions with
  | nil => simp [Listing.bodyLines]
  | cons head rest ih =>
    obtain ⟨address, word⟩ := head
    simp only [Listing.bodyLines, List.forall_mem_append, List.forall_mem_cons]
    refine ⟨⟨?_, ?_⟩, hlegible.wordLine address word _, ih _ _⟩
    · split
      · simp
      · simp [ListingLine.Legible]
    · cases hlabel : listing.symbols.label? address with
      | none => simp
      | some name =>
        rw [Option.map_some, Option.toList_some, List.forall_mem_singleton]
        exact hlegible.label address name hlabel

/-- What a reader is to see at each word. -/
def sightingOf (listing : Listing) (entry : Int × Int) : Sighting :=
  ⟨entry.1, listing.symbols.label? entry.1, entry.1, entry.2⟩

/-- From some place on, the words of a listing are read back. -/
theorem Legible.sightings?_bodyLines (hlegible : listing.Legible) {expected place? : Option Int}
    (hplace : ∀ address, expected = some address → place? = some address)
    (instructions : List Instruction) (words : List (Int × Int)) :
    sightings? place? none ((listing.bodyLines expected instructions words).map (·.text.toList)) =
      some (words.map listing.sightingOf) := by
  induction words generalizing expected place? instructions with
  | nil => rfl
  | cons head rest ih =>
    obtain ⟨address, word⟩ := head
    have horg (lines : List (List Char)) :
        sightings? place? none
            ((if expected = some address then []
              else [ListingLine.org address]).map (·.text.toList) ++ lines) =
          sightings? (some address) none lines := by
      split
      · next hexpected => rw [hplace address hexpected]; rfl
      · exact sightings?_org (Sight.ofLine?_org address) place? lines
    have hlabel (lines : List (List Char)) :
        sightings? (some address) none
            (((listing.symbols.label? address).map ListingLine.label).toList.map (·.text.toList) ++
              lines) =
          sightings? (some address) (listing.symbols.label? address) lines := by
      cases hname : listing.symbols.label? address with
      | none => rfl
      | some name =>
        exact sightings?_label (hlegible.label address name hname).ofLine? (some address) lines
    have hword (instruction? : Option Instruction) :
        Sight.ofLine? (listing.wordLine address word instruction?).text.toList =
          some (.word address word) := by
      rw [(hlegible.wordLine address word instruction?).ofLine?]
      cases instruction? <;> rfl
    have hrest := @ih (some (address + 1)) (some (address + 1)) (fun _ heq => heq)
    simp only [Listing.bodyLines, List.map_append, List.map_cons, List.append_assoc, horg, hlabel,
      sightings?_word (hword _), hrest, Option.map_some]
    rfl

/-- The body of a listing stands behind an empty line. -/
theorem exists_lines_eq_append (listing : Listing) : ∃ front, listing.lines =
    front ++ .blank :: listing.bodyLines none listing.instructions listing.image.toList := by
  have hclosed (front lines : List ListingLine) :
      ∃ more, front ++ [.blank] ++ closed lines = more ++ [.blank] := by
    unfold closed
    split
    · exact ⟨front, List.append_nil _⟩
    · exact ⟨front ++ [.blank] ++ lines, (List.append_assoc ..).symm⟩
  obtain ⟨registers, hregisters⟩ := hclosed _ listing.registerLines
  obtain ⟨externals, hexternals⟩ := hclosed registers listing.externalLines
  exact ⟨externals, by rw [lines, headLines, hregisters, hexternals, List.append_assoc,
    List.singleton_append]⟩

/-- The lines behind the last empty one. -/
private theorem rtakeWhile_behind_empty {body : List (List Char)} (hbody : ∀ line ∈ body, line ≠ [])
    (before : List (List Char)) : (before ++ [] :: body).rtakeWhile (· ≠ []) = body := by
  have hall : ∀ line ∈ body.reverse, decide (line ≠ []) = true := fun line hmem =>
    decide_eq_true (hbody line (List.mem_reverse.mp hmem))
  rw [List.rtakeWhile, List.reverse_append, List.reverse_cons, List.append_assoc,
    List.takeWhile_append_of_pos hall]
  simp

/-- The text of a listing is read back word by word. -/
theorem Legible.read?_text (hlegible : listing.Legible) :
    read? listing.text = some (listing.image.toList.map listing.sightingOf) := by
  obtain ⟨front, hlines⟩ := listing.exists_lines_eq_append
  have hbody := hlegible.bodyLines none listing.instructions listing.image.toList
  have hread :=
    @Legible.sightings?_bodyLines listing hlegible none none (fun _ heq => heq)
      listing.instructions listing.image.toList
  generalize listing.bodyLines none listing.instructions listing.image.toList =
    body at hlines hbody hread
  have htext : listing.text.toList =
      (front.map (·.text)).flatMap (fun line => line.toList ++ ['\n']) ++
        '\n' :: (body.map (·.text.toList)).flatMap (· ++ ['\n']) := by
    have hsome : listing.lines.map (·.text) ≠ [] := by simp [hlines]
    rw [Listing.text, Text.toList_endLines hsome, hlines, List.map_append, List.flatMap_append,
      List.map_cons, List.flatMap_cons, List.flatMap_map, List.flatMap_map, List.flatMap_map]
    rfl
  have hunbroken : ∀ line ∈ body.map (·.text.toList), ∀ c ∈ line, Text.isLineBreak c = false :=
    List.forall_mem_map.mpr fun line hmem => (hbody line hmem).isLineBreak
  have hfilled : ∀ line ∈ body.map (·.text.toList), line ≠ [] :=
    List.forall_mem_map.mpr fun line hmem => (hbody line hmem).text_ne_nil
  obtain ⟨before, hsplit⟩ := Text.exists_lines_eq_append (front.map (·.text))
    ((body.map (·.text.toList)).flatMap (· ++ ['\n']))
  rw [read?, htext, hsplit, Text.lines_flatMap_feed hunbroken,
    rtakeWhile_behind_empty hfilled, hread]

/-- A listing is legible if all names are such as hints may give, whichever synthesized labels have
    been recorded. -/
theorem legible_ofImage {symbols : Symbols} (hallowed : symbols.Allowed) (head : ListingHead)
    (added : List Int) (image : Image) (findings : Option Depth.Findings) :
    (ofImage head (symbols.ensureLabels added) image findings).Legible := by
  constructor
  case label =>
    intro address name hname
    rw [symbols_ofImage_ensureLabels, Symbols.label?_eq_some_iff,
      Depth.nameOf_ensureLabels] at hname
    obtain ⟨-, rfl⟩ := hname
    exact Symbols.solid_nameOf hallowed.labels address
  case text =>
    rw [symbols_ofImage_ensureLabels, Instruction.text_ensureLabels]
    exact Instruction.plain_text hallowed

/-- The image can be read back from the text of a listing. The words are met at the present
    addresses in increasing order; the location counter is what the comment of the word tells, the
    word is that of the image, and the label in front of it is that of the address, if there is
    one. -/
def ReadsBack (listing : Listing) : Prop :=
  ∃ sightings, read? listing.text = some sightings ∧
    (sightings.map (·.place)).Pairwise (· < ·) ∧
    (∀ address, address ∈ sightings.map (·.place) ↔ listing.image.isPresent address = true) ∧
    ∀ sighting ∈ sightings, sighting.address = sighting.place ∧
      listing.image.word? sighting.place = some sighting.word ∧
      listing.symbols.label? sighting.place = sighting.label?

theorem Legible.readsBack (hlegible : listing.Legible) : listing.ReadsBack := by
  have hplaces : (listing.image.toList.map listing.sightingOf).map (·.place) =
      listing.image.toList.map (·.1) :=
    List.map_map
  refine ⟨_, hlegible.read?_text, ?_, fun address => ?_, ?_⟩
  · rw [hplaces]
    exact List.pairwise_map.mpr (pairwise_fst_toList listing.image.words)
  · rw [hplaces, Image.mem_map_fst_toList_iff]
  · rw [List.forall_mem_map]
    rintro ⟨address, word⟩ hmem
    exact ⟨rfl, Image.mem_toList_iff.mp hmem, rfl⟩

end Listing

namespace Disassembly

/-- The image can be read back from every listing of it, with or without an analysis, as long as all
    names are such as hints may give. -/
theorem listing_reads_back {symbols : Symbols} (hallowed : symbols.Allowed) (image : Image) :
    (∀ head findings, (Listing.ofImage head symbols image findings).ReadsBack) ∧
    ∀ device analysis disassembly, (run device image symbols analysis).result = .ok disassembly →
      disassembly.listing.image = image ∧ disassembly.listing.ReadsBack := by
  refine ⟨fun head findings => (Listing.legible_ofImage hallowed head [] image findings).readsBack,
    fun device analysis disassembly hrun => ?_⟩
  obtain ⟨added, findings, hlisting⟩ := exists_listing_eq hrun
  rw [hlisting]
  exact ⟨rfl, (Listing.legible_ofImage hallowed _ added image findings).readsBack⟩

theorem listing_reads_back_hinted :
    let (load, fault) := HintLoad.take { symbols := .standard } "label 0x10 delay\n"
    fault = none ∧ load.symbols.Allowed ∧
      let listing := Listing.ofImage {} load.symbols straying none
      listing.ReadsBack ∧ Listing.read? listing.text = some [
        ⟨0x00, some "reset_vector", 0x00, 0x2010⟩, ⟨0x01, none, 0x01, 0x2830⟩,
        ⟨0x10, some "delay", 0x10, 0x0008⟩] := by
  let hinted := Symbols.standard.addLabel 0x10 "delay"
  have hload : HintLoad.take { symbols := .standard } "label 0x10 delay\n" =
      ({ symbols := hinted, applied := 1 }, none) := rfl
  have hallowed : hinted.Allowed := by
    have htake :=
      Symbols.Allowed.take { symbols := .standard } Symbols.allowed_standard "label 0x10 delay\n"
    rwa [hload] at htake
  have hseen : straying.toList.map (Listing.ofImage {} hinted straying none).sightingOf = [
      ⟨0x00, some "reset_vector", 0x00, 0x2010⟩, ⟨0x01, none, 0x01, 0x2830⟩,
      ⟨0x10, some "delay", 0x10, 0x0008⟩] := by
    decide +kernel
  have hread := (Listing.legible_ofImage hallowed {} [] straying none).read?_text
  rw [hload]
  exact ⟨rfl, hallowed, (listing_reads_back hallowed straying).1 {} none,
    hread.trans (congrArg some hseen)⟩

end Disassembly

end Midrange
