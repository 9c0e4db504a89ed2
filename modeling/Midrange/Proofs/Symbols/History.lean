import Mathlib.Data.List.Induction
import Midrange.Hints.Load
import Midrange.Listing
import Midrange.Proofs.Depth.Relabelling

namespace Midrange

namespace Label

/-- The label of an address once another one is offered. A label stays where it is, but a built-in
    one gives way to a given name. -/
def meet (present : Option Label) (offered : Label) : Option Label :=
  match present with
  | none => some offered
  | some label =>
    if label.origin = .builtin ∧ offered.origin = .given then some offered else some label

/-- What stays of the labels that are offered to an address one after the other: the first one, or
    else, if that is built in, the first given name behind it. -/
def settled : List Label → Option Label
  | [] => none
  | first :: later =>
    if first.origin = .builtin then (later.find? (·.origin = .given)).or (some first)
    else some first

/-- A label takes effect behind the ones that have been offered before: none of them stands, or it
    is a given name and a built-in one stands. -/
def Effective (before : List Label) (offered : Label) : Prop :=
  settled before = none ∨ ∃ name, settled before = some ⟨name, .builtin⟩ ∧ offered.origin = .given

/-- Among the labels that are offered to an address, one that is not synthesized takes effect. -/
def Chosen (offers : List Label) : Prop :=
  ∃ place offered, offers[place]? = some offered ∧ offered.origin ≠ .synthesized ∧
    Effective (offers.take place) offered

variable {label last : Label} {before : List Label}

theorem meet_given (present : Option Label) (name : String) : meet present ⟨name, .given⟩ =
    if present.all (·.origin = .builtin) then some ⟨name, .given⟩ else present := by
  cases present with
  | none => rfl
  | some label => simp [meet]

theorem meet_synthesized (present : Option Label) (name : String) :
    meet present ⟨name, .synthesized⟩ = present.or (some ⟨name, .synthesized⟩) := by
  cases present with
  | none => rfl
  | some label => exact if_neg fun hboth => by cases hboth.2

/-- A label that is not built in stays, whatever is offered. -/
theorem foldl_meet_of_ne_builtin (horigin : label.origin ≠ .builtin) (later : List Label) :
    later.foldl meet (some label) = some label := by
  induction later with
  | nil => rfl
  | cons offered rest ih =>
    have hstays : meet (some label) offered = some label := if_neg fun hboth => horigin hboth.1
    rw [List.foldl_cons, hstays, ih]

private theorem foldl_meet_of_builtin (horigin : label.origin = .builtin) (later : List Label) :
    later.foldl meet (some label) = (later.find? (·.origin = .given)).or (some label) := by
  induction later with
  | nil => rfl
  | cons offered rest ih =>
    by_cases hgiven : offered.origin = .given
    · have htakes : meet (some label) offered = some offered := if_pos ⟨horigin, hgiven⟩
      rw [List.foldl_cons, htakes, foldl_meet_of_ne_builtin (by simp [hgiven])]
      simp [hgiven]
    · have hstays : meet (some label) offered = some label := if_neg fun hboth => hgiven hboth.2
      rw [List.foldl_cons, hstays, ih]
      simp [hgiven]

theorem foldl_meet (offers : List Label) : offers.foldl meet none = settled offers := by
  cases offers with
  | nil => rfl
  | cons first later =>
    rw [List.foldl_cons, settled]
    split
    · exact foldl_meet_of_builtin (by assumption) later
    · exact foldl_meet_of_ne_builtin (by assumption) later

theorem settled_append (before later : List Label) :
    settled (before ++ later) = later.foldl meet (settled before) := by
  rw [← foldl_meet, ← foldl_meet, List.foldl_append]

/-- No label is lost when another one is offered. -/
theorem isSome_foldl_meet {present : Option Label} (hpresent : present.isSome = true)
    (later : List Label) : (later.foldl meet present).isSome = true := by
  induction later generalizing present with
  | nil => exact hpresent
  | cons offered rest ih =>
    refine ih ?_
    obtain ⟨label, rfl⟩ := Option.isSome_iff_exists.mp hpresent
    simp only [meet]
    split <;> rfl

theorem chosen_concat_iff : Chosen (before ++ [last]) ↔
    Chosen before ∨ last.origin ≠ .synthesized ∧ Effective before last := by
  constructor
  · rintro ⟨place, offered, hplace, hchosen, heffective⟩
    have hbound := (List.getElem?_eq_some_iff.mp hplace).1
    rw [List.length_append, List.length_singleton] at hbound
    obtain hless | rfl := Nat.lt_succ_iff_lt_or_eq.mp hbound
    · rw [List.getElem?_append_left hless] at hplace
      rw [List.take_append_of_le_length (Nat.le_of_lt hless)] at heffective
      exact Or.inl ⟨place, offered, hplace, hchosen, heffective⟩
    · obtain rfl : last = offered := by simpa using hplace
      rw [List.take_left] at heffective
      exact Or.inr ⟨hchosen, heffective⟩
  · rintro (⟨place, offered, hplace, hchosen, heffective⟩ | ⟨hchosen, heffective⟩)
    · have hless := (List.getElem?_eq_some_iff.mp hplace).1
      refine ⟨place, offered, by rwa [List.getElem?_append_left hless], hchosen, ?_⟩
      rwa [List.take_append_of_le_length (Nat.le_of_lt hless)]
    · exact ⟨before.length, last, by simp, hchosen, by rwa [List.take_left]⟩

/-- The label that stays is a chosen one exactly if a chosen one took effect. -/
theorem any_settled_iff (offers : List Label) :
    (settled offers).any (·.origin ≠ .synthesized) = true ↔ Chosen offers := by
  induction offers using List.reverseRecOn with
  | nil => simp [settled, Chosen]
  | append_singleton before last ih =>
    rw [chosen_concat_iff, ← ih, settled_append, List.foldl_cons, List.foldl_nil]
    cases hsettled : settled before with
    | none => simp [meet, Effective, hsettled]
    | some label =>
      obtain ⟨text, origin⟩ := label
      by_cases hgiven : last.origin = .given
      · cases origin <;> simp [meet, Effective, hsettled, hgiven]
      · simp [meet, Effective, hsettled, hgiven]

end Label

namespace Symbols

/-- The labels that a list of offers has for one address. -/
def offersTo (address : Int) (offers : List (Int × Label)) : List Label :=
  offers.filterMap fun (offered, label) => if offered = address then some label else none

/-- The label that is synthesized for an address. -/
def synthesized (address : Int) : Int × Label :=
  (address, ⟨synthesizedName address, .synthesized⟩)

/-- A table has become another one while labels were offered: each address has the label that
    stays. -/
def Offered (offers : List (Int × Label)) (before after : Symbols) : Prop :=
  ∀ address, after.labels[address]? =
    (offersTo address offers).foldl Label.meet before.labels[address]?

variable {before middle after : Symbols} {first rest : List (Int × Label)}

theorem offered_nil (hlabels : after.labels = before.labels) : Offered [] before after := by
  intro address
  rw [hlabels]
  rfl

theorem Offered.append (hfirst : Offered first before middle) (hrest : Offered rest middle after) :
    Offered (first ++ rest) before after := by
  intro address
  rw [hrest address, hfirst address, offersTo, offersTo, offersTo, List.filterMap_append,
    List.foldl_append]

/-- A change to one label alone, as some offer to its address tells it. -/
private theorem offered_of_insert {address : Int} {label : Label}
    (hlabels : ∀ other, after.labels[other]? =
      if other = address then Label.meet before.labels[address]? label else before.labels[other]?) :
    Offered [(address, label)] before after := by
  intro other
  rw [hlabels]
  by_cases hhere : other = address
  · subst hhere
    simp [offersTo]
  · simp [offersTo, hhere, Ne.symm hhere]

theorem offered_addLabel (symbols : Symbols) (address : Int) (name : String) :
    Offered [(address, ⟨name, .given⟩)] symbols (symbols.addLabel address name) := by
  refine offered_of_insert fun other => ?_
  rw [Label.meet_given, addLabel, acceptsLabel]
  split
  · simp only [Std.TreeMap.getElem?_insert, Std.compare_eq_iff_eq, eq_comm (a := address)]
  · split
    · next hhere => rw [hhere]
    · rfl

theorem getElem?_labels_ensureLabel (symbols : Symbols) (address other : Int) :
    (symbols.ensureLabel address).labels[other]? =
      if other = address then
        symbols.labels[address]?.or (some ⟨synthesizedName address, .synthesized⟩)
      else symbols.labels[other]? := by
  simp only [ensureLabel, Std.TreeMap.getElem?_insertIfNew, Std.compare_eq_iff_eq]
  by_cases hhere : other = address
  · subst hhere
    cases hlabel : symbols.labels[other]? <;> simp [Std.TreeMap.mem_iff_isSome_getElem?, hlabel]
  · simp [hhere, Ne.symm hhere]

/-- Recorded labels are added where there are none, and change nothing else. -/
theorem getElem?_labels_ensureLabels (symbols : Symbols) (addresses : List Int) (address : Int) :
    (symbols.ensureLabels addresses).labels[address]? = symbols.labels[address]?.or
      (if address ∈ addresses then some ⟨synthesizedName address, .synthesized⟩ else none) := by
  unfold ensureLabels
  induction addresses generalizing symbols with
  | nil => simp
  | cons first rest ih =>
    rw [List.foldl_cons, ih, getElem?_labels_ensureLabel]
    by_cases hfirst : address = first
    · simp [hfirst]
    · simp [hfirst]

theorem offered_ensureLabel (symbols : Symbols) (address : Int) :
    Offered [synthesized address] symbols (symbols.ensureLabel address) := by
  refine offered_of_insert fun other => ?_
  rw [Label.meet_synthesized, getElem?_labels_ensureLabel]

theorem offered_ensureLabels (symbols : Symbols) (addresses : List Int) :
    Offered (addresses.map synthesized) symbols (symbols.ensureLabels addresses) := by
  unfold ensureLabels
  induction addresses generalizing symbols with
  | nil => exact offered_nil rfl
  | cons address rest ih =>
    exact (offered_ensureLabel symbols address).append (ih (symbols.ensureLabel address))

/-- The label that a block of data offers to its first address, if it has a name that is not
    empty. -/
def blockOffers (block : DataBlock) : List (Int × Label) :=
  match block.name with
  | some name => if name.isEmpty then [] else [(block.start, ⟨name, .given⟩)]
  | none => []

theorem offered_addData (symbols : Symbols) (block : DataBlock) :
    Offered (blockOffers block) symbols (symbols.addData block) := by
  unfold addData blockOffers
  cases block.name with
  | none => exact offered_nil rfl
  | some name =>
    simp only
    split
    · exact offered_nil rfl
    · exact offered_addLabel { symbols with data := symbols.data.push block } block.start name

/-- The label that a hint offers. -/
def hintOffers : Directive → List (Int × Label)
  | .label address name => [(address, ⟨name, .given⟩)]
  | .data block => blockOffers block
  | .register .. | .bit .. => []

theorem offered_apply (symbols : Symbols) (directive : Directive) :
    Offered (hintOffers directive) symbols (directive.apply symbols) := by
  cases directive with
  | label address name => exact offered_addLabel symbols address name
  | data block => exact offered_addData symbols block
  | register | bit => exact offered_nil rfl

/-- The hints on numbered lines that are followed, up to the first line at fault. -/
def followed (symbols : Symbols) : List (Nat × List Char) → List Directive
  | [] => []
  | (_, line) :: rest =>
    match HintLoad.directive? symbols line with
    | .error _ => []
    | .ok none => followed symbols rest
    | .ok (some directive) => directive :: followed (directive.apply symbols) rest

theorem offered_takeLines (load : HintLoad) (lines : List (Nat × List Char)) :
    Offered ((followed load.symbols lines).flatMap hintOffers) load.symbols
      (load.takeLines lines).1.symbols := by
  induction lines generalizing load with
  | nil => exact offered_nil rfl
  | cons line rest ih =>
    obtain ⟨number, text⟩ := line
    unfold HintLoad.takeLines followed
    cases HintLoad.directive? load.symbols text with
    | error => exact offered_nil rfl
    | ok directive? =>
      cases directive? with
      | none => exact ih load
      | some directive =>
        exact (offered_apply load.symbols directive).append (ih (load.follow number directive))

/-- What is done with a table of names: single changes, loading hints, decoding words one after the
    other, and the passes over an image. -/
inductive Operation where
  | addLabel (address : Int) (name : String)
  | ensureLabel (address : Int)
  | addData (block : DataBlock)
  | nameRegister (register : Int) (name : String)
  | nameBit (register : String) (bit : Int) (name : String)
  | loadHints (text : String)
  | decode (selection : Selection) (words : List (Int × Int))
  | sweep (image : Image)
  | analyse (image : Image) (options : Depth.Options)
  | render (head : ListingHead) (image : Image) (findings : Option Depth.Findings)

namespace Operation

/-- The table that an operation leaves. -/
def apply (symbols : Symbols) : Operation → Symbols
  | addLabel address name => symbols.addLabel address name
  | ensureLabel address => symbols.ensureLabel address
  | addData block => symbols.addData block
  | nameRegister register name => symbols.nameRegister register name
  | nameBit register bit name => symbols.nameBit register bit name
  | loadHints text => (({ symbols } : HintLoad).take text).1.symbols
  | decode selection words => Sweep.label symbols (Instruction.sequence symbols selection words)
  | sweep image => Sweep.label symbols (Sweep.ofImage symbols image).instructions
  | analyse image options => (Depth.Analysis.run image symbols options).symbols
  | render head image findings => (Listing.ofImage head symbols image findings).symbols

/-- The labels that an operation offers, in their order. Passes offer a synthesized one to every
    address that they show, which are the targets of branches, and the vectors with code in an
    analysis. -/
def offers (symbols : Symbols) : Operation → List (Int × Label)
  | addLabel address name => [(address, ⟨name, .given⟩)]
  | ensureLabel address => [synthesized address]
  | addData block => blockOffers block
  | nameRegister .. | nameBit .. => []
  | loadHints text => (followed symbols (Text.numberedLines text)).flatMap hintOffers
  | decode selection words =>
    (Instruction.targets (Instruction.sequence symbols selection words)).map synthesized
  | sweep image | render _ image _ =>
    (Instruction.targets (Sweep.decode symbols image)).map synthesized
  | analyse image options =>
    let survey := Depth.Analysis.survey image symbols options
    (survey.seeds.map (·.address) ++ (survey.chart.branches survey.entries).map (·.2)).map
      synthesized

theorem offered (operation : Operation) (symbols : Symbols) :
    Offered (operation.offers symbols) symbols (operation.apply symbols) := by
  cases operation with
  | addLabel address name => exact offered_addLabel symbols address name
  | ensureLabel address => exact offered_ensureLabel symbols address
  | addData block => exact offered_addData symbols block
  | nameRegister | nameBit => exact offered_nil rfl
  | loadHints text => exact offered_takeLines { symbols } (Text.numberedLines text)
  | decode | sweep | render => exact offered_ensureLabels symbols _
  | analyse image options =>
    rw [apply, Depth.Analysis.symbols_run]
    exact offered_ensureLabels symbols _

end Operation

/-- The table behind some operations. -/
def perform (symbols : Symbols) (operations : List Operation) : Symbols :=
  operations.foldl Operation.apply symbols

/-- All labels that operations offer, each operation with the table that those before it leave. -/
def history (symbols : Symbols) : List Operation → List (Int × Label)
  | [] => []
  | operation :: rest => operation.offers symbols ++ history (operation.apply symbols) rest

theorem offered_history (symbols : Symbols) (operations : List Operation) :
    Offered (symbols.history operations) symbols (symbols.perform operations) := by
  induction operations generalizing symbols with
  | nil => exact offered_nil rfl
  | cons operation rest ih =>
    exact (operation.offered symbols).append (ih (operation.apply symbols))

/-- The labels that an address is offered when a table is made: one that is given with it, then a
    built-in one. -/
def initialOffers (labels : Std.TreeMap Int String) (builtin : Bool) (address : Int) : List Label :=
  (labels[address]?.map (⟨·, .given⟩)).toList ++
    if builtin then
      offersTo address (defaultLabels.map fun (vector, name) => (vector, ⟨name, .builtin⟩))
    else []

theorem getElem?_labels_ofNames (registers : Std.TreeMap Int String)
    (bits : Std.TreeMap BitRef String) (labels : Std.TreeMap Int String) (builtin : Bool)
    (address : Int) : (ofNames registers bits labels builtin).labels[address]? =
      Label.settled (initialOffers labels builtin address) := by
  unfold ofNames initialOffers
  cases builtin with
  | false => cases hlabel : labels[address]? <;> simp [hlabel, Label.settled]
  | true =>
    simp only [if_true, defaultLabels, List.foldl_cons, List.foldl_nil, List.map_cons,
      List.map_nil, offersTo, Std.TreeMap.getElem?_insertIfNew, Std.compare_eq_iff_eq,
      Std.TreeMap.getElem?_map, Std.TreeMap.mem_iff_isSome_getElem?]
    have hvectors : resetVector ≠ interruptVector := by decide
    by_cases hreset : resetVector = address
    · subst hreset
      cases labels[resetVector]? <;> simp [Label.settled, hvectors.symm]
    · by_cases hinterrupt : interruptVector = address
      · subst hinterrupt
        cases labels[interruptVector]? <;> simp [Label.settled, hvectors]
      · cases labels[address]? <;> simp [Label.settled, hreset, hinterrupt]

/-- The labels of a table over its whole history. Each address has the first label that it was ever
    offered, by the making of the table, by a hint or by synthesis, except that behind a built-in
    one the first given name stays. A name is accepted where there is none or a built-in one;
    showing a label tells the present one and changes none; no label is ever lost; and those count
    as chosen that came into effect as such. -/
theorem labels_write_once (registers : Std.TreeMap Int String) (bits : Std.TreeMap BitRef String)
    (labels : Std.TreeMap Int String) (builtin : Bool) (operations : List Operation)
    (address : Int) :
    let made := ofNames registers bits labels builtin
    let table := made.perform operations
    let offers := initialOffers labels builtin address ++ offersTo address (made.history operations)
    table.labels[address]? = Label.settled offers ∧
    (table.acceptsLabel address = true ↔
      table.label? address = none ∨ ∃ name, table.labels[address]? = some ⟨name, .builtin⟩) ∧
    (∀ name, table.acceptsLabel address = true ↔ Label.Effective offers ⟨name, .given⟩) ∧
    (table.ensureLabel address).label? address = some (table.nameOf address) ∧
    (∀ other label, table.labels[other]? = some label →
      table.nameOf other = label.text ∧ (table.ensureLabel address).labels[other]? = some label) ∧
    (∀ later, table.isLabelled address = true → (table.perform later).isLabelled address = true) ∧
    (table.isChosen address = true ↔ Label.Chosen offers) := by
  intro made table offers
  have hlabels : table.labels[address]? = Label.settled offers := by
    rw [offered_history made operations address, getElem?_labels_ofNames, Label.settled_append]
  have haccepts : table.acceptsLabel address = true ↔
      table.labels[address]? = none ∨ ∃ name, table.labels[address]? = some ⟨name, .builtin⟩ := by
    rw [acceptsLabel]
    cases table.labels[address]? with
    | none => simp
    | some label =>
      obtain ⟨text, origin⟩ := label
      simp
  refine ⟨hlabels, ?_, fun name => ?_, ?_, fun other label hlabel => ⟨?_, ?_⟩,
    fun later hlabelled => ?_, ?_⟩
  · rw [haccepts, label?, Option.map_eq_none_iff]
  · rw [haccepts, hlabels]
    simp [Label.Effective]
  · rw [label?_ensureLabel, if_pos rfl]
  · exact nameOf_of_label? (by rw [label?, hlabel]; rfl)
  · rw [getElem?_labels_ensureLabel]
    split
    · next hhere => rw [← hhere, hlabel, Option.some_or]
    · exact hlabel
  · rw [isLabelled, Std.TreeMap.contains_eq_isSome_getElem?] at hlabelled ⊢
    rw [offered_history table later address]
    exact Label.isSome_foldl_meet hlabelled _
  · rw [isChosen, hlabels]
    exact Label.any_settled_iff offers

end Symbols

end Midrange
