import Midrange.Proofs.Hints.Loading
import Midrange.Proofs.Symbols.Allowed
import Midrange.Proofs.Symbols.History

namespace Midrange

namespace Directive

variable {symbols : Symbols} {directive : Directive} {address : Int} {name : String}

/-- The address of code that a hint names, and its name. A block of data is named at its first
    address. -/
def codeName? : Directive → Option (Int × String)
  | label address name => some (address, name)
  | data block => block.name.map (block.start, ·)
  | register .. | bit .. => none

theorem hintOffers_of_codeName? (hallowed : directive.Allowed)
    (hname : directive.codeName? = some (address, name)) :
    Symbols.hintOffers directive = [(address, ⟨name, .given⟩)] := by
  cases directive with
  | label other given =>
    obtain ⟨rfl, rfl⟩ := Prod.mk.inj (Option.some.inj hname)
    rfl
  | data block =>
    obtain ⟨given, hgiven, heq⟩ := Option.map_eq_some_iff.mp hname
    obtain ⟨rfl, rfl⟩ := Prod.mk.inj heq
    have hsome : given.isEmpty = false := by
      have hisName := hallowed given hgiven
      rw [← Bool.not_eq_true, String.isEmpty_iff]
      rintro rfl
      cases hisName
    simp [Symbols.hintOffers, Symbols.blockOffers, hgiven, hsome]
  | register | bit => cases hname

/-- A hint names an address if that accepts a name. Otherwise the present label stays. -/
theorem getElem?_labels_apply (symbols : Symbols) (hallowed : directive.Allowed)
    (hname : directive.codeName? = some (address, name)) :
    (directive.apply symbols).labels[address]? =
      if symbols.acceptsLabel address then some ⟨name, .given⟩ else symbols.labels[address]? := by
  have hoffered := Symbols.offered_apply symbols directive address
  rw [hintOffers_of_codeName? hallowed hname] at hoffered
  rw [hoffered, Symbols.acceptsLabel, ← Label.meet_given]
  simp [Symbols.offersTo]

end Directive

namespace HintLoad

variable {load before last : HintLoad} {text : String} {place : Nat} {directive : Directive}
  {address : Int} {name : String}

/-- A line of a text gives a hint. The lines in front of it leave the load in some state. -/
def Gives (load : HintLoad) (text : String) (place : Nat) (before : HintLoad)
    (directive : Directive) : Prop :=
  ∃ line, (Text.lines text.toList)[place]? = some line ∧
    load.takeLines ((Text.numberedLines text).take place) = (before, none) ∧
    Directive.Spells before.symbols (lineFields line) directive

/-- A load notes something for a line, and warns of it. -/
def Notes (load : HintLoad) (line : Nat) (content : String) : Prop :=
  s!"Line {line}: {content}" ∈ load.ignored ∧
  ⟨.warning, .hints, s!"Line {line}: {content}"⟩ ∈ load.journal

theorem notes_iff {line : Nat} {content : String} :
    load.Notes line content ↔ s!"Line {line}: {content}" ∈ load.ignored := by
  refine ⟨And.left, fun hmem => ⟨hmem, ?_⟩⟩
  exact List.mem_map.mpr ⟨_, hmem.val, rfl⟩

/-- A notice tells its line and what is noted for it. -/
theorem eq_of_notice_eq {line other : Nat} {content said : String}
    (heq : s!"Line {line}: {content}" = s!"Line {other}: {said}") :
    line = other ∧ content = said := by
  have hdigits (number : Nat) : ':' ∉ number.repr.toList := by
    rw [Nat.toList_repr]
    intro hmem
    exact absurd (Nat.isDigit_of_mem_toDigits (by decide) (by decide) hmem) (by decide)
  have hchars (number : Nat) (text : String) : s!"Line {number}: {text}".toList =
      "Line ".toList ++ (number.repr.toList ++ ':' :: ' ' :: text.toList) := by
    have hparts : s!"Line {number}: {text}" = "Line " ++ number.repr ++ ": " ++ text := rfl
    rw [hparts]
    simp
  have hsame := congrArg String.toList heq
  rw [hchars, hchars, List.append_cancel_left_eq] at hsame
  obtain ⟨hnumber, hsaid⟩ := Text.eq_of_append_mark (hdigits line) (hdigits other) hsame
  rw [Nat.toList_repr, Nat.toList_repr] at hnumber
  have hread := congrArg (Nat.ofDigitChars 10 · 0) hnumber
  simp only [Nat.ofDigitChars_toDigits (by decide : 1 < 10) (by decide : 10 ≤ 10)] at hread
  exact ⟨hread, String.toList_inj.mp (List.cons.inj hsaid).2⟩

/-- Loading lines adds notices, all of them for these lines. -/
theorem exists_ignored_takeLines (load : HintLoad) (raws : List (List Char)) (first : Nat) : ∃ more,
    (load.takeLines (Text.numbered raws first)).1.ignored.toList = load.ignored.toList ++ more ∧
      ∀ notice ∈ more, ∃ (line : Nat) (content : String),
        first ≤ line ∧ line < first + raws.length ∧ notice = s!"Line {line}: {content}" := by
  induction raws generalizing load first with
  | nil => exact ⟨[], by simp [Text.numbered, takeLines], by simp⟩
  | cons line rest ih =>
    have hwiden {more : List String}
        (hmore : ∀ notice ∈ more, ∃ (line : Nat) (content : String), first + 1 ≤ line ∧
          line < first + 1 + rest.length ∧ notice = s!"Line {line}: {content}") :
        ∀ notice ∈ more, ∃ (number : Nat) (content : String), first ≤ number ∧
          number < first + (line :: rest).length ∧ notice = s!"Line {number}: {content}" := by
      intro notice hmem
      obtain ⟨number, content, hlow, hhigh, heq⟩ := hmore notice hmem
      refine ⟨number, content, by omega, ?_, heq⟩
      rw [List.length_cons]
      omega
    rw [Text.numbered_cons, takeLines]
    cases directive? load.symbols line with
    | error cause => exact ⟨[], by simp, by simp⟩
    | ok hint? =>
      cases hint? with
      | none =>
        obtain ⟨more, hmore, hlines⟩ := ih load (first + 1)
        exact ⟨more, hmore, hwiden hlines⟩
      | some directive =>
        obtain ⟨more, hmore, hlines⟩ := ih (load.follow first directive) (first + 1)
        refine ⟨(notice? load.symbols first directive).toList ++ more, ?_, ?_⟩
        · rw [hmore]
          simp [follow]
        · rw [List.forall_mem_append]
          refine ⟨fun notice hmem => ?_, hwiden hlines⟩
          rw [notice?_eq, Option.mem_toList] at hmem
          obtain ⟨content, -, rfl⟩ := Option.map_eq_some_iff.mp hmem
          exact ⟨first, content, Nat.le_refl first, by simp, rfl⟩

/-- A label that has to stay does so, whatever hints are loaded. -/
theorem getElem?_labels_takeLines (load : HintLoad)
    (hstays : load.symbols.acceptsLabel address = false) (lines : List (Nat × List Char)) :
    (load.takeLines lines).1.symbols.labels[address]? = load.symbols.labels[address]? := by
  rw [Symbols.offered_takeLines load lines address]
  unfold Symbols.acceptsLabel at hstays
  cases hlabel : load.symbols.labels[address]? with
  | none =>
    rw [hlabel] at hstays
    cases hstays
  | some label =>
    rw [hlabel, Option.all_some, decide_eq_false_iff_not] at hstays
    exact Label.foldl_meet_of_ne_builtin hstays _

/-- A text that is loaded without fault is loaded up to a line, with the hint on it, and then behind
    it. -/
theorem Gives.exists_rest (hgives : load.Gives text place before directive)
    (htake : load.take text = (last, none)) :
    ∃ front rest, front.length = place ∧ load.takeLines (Text.numbered front 1) = (before, none) ∧
      (before.follow (place + 1) directive).takeLines (Text.numbered rest (place + 2)) =
        (last, none) := by
  obtain ⟨line, hline, hbefore, hspells⟩ := hgives
  obtain ⟨hplace, rfl⟩ := List.getElem?_eq_some_iff.mp hline
  generalize hlines : Text.lines text.toList = lines at *
  have hlength : (lines.take place).length = place := List.length_take_of_le (Nat.le_of_lt hplace)
  have hsplit : Text.numbered lines 1 = Text.numbered (lines.take place) 1 ++
      (place + 1, lines[place]) :: Text.numbered (lines.drop (place + 1)) (place + 2) := by
    calc
      Text.numbered lines 1 =
          Text.numbered (lines.take place ++ lines[place] :: lines.drop (place + 1)) 1 := by
        rw [List.getElem_cons_drop, List.take_append_drop]
      _ = _ := by
        rw [Text.numbered_append, Text.numbered_cons, hlength, Nat.add_comm 1 place]
  have hfront : (Text.numberedLines text).take place = Text.numbered (lines.take place) 1 := by
    have hnumbered : Text.numberedLines text = Text.numbered lines 1 :=
      congrArg (Text.numbered · 1) hlines
    rw [hnumbered, hsplit, List.take_left']
    simp [Text.numbered, hlength]
  rw [hfront] at hbefore
  rw [take_eq, hlines, hsplit, takeLines_append_of_none _ hbefore, takeLines,
    directive?_eq_ok_some_iff.mpr hspells] at htake
  exact ⟨lines.take place, lines.drop (place + 1), hlength, hbefore, htake⟩

theorem Gives.allowed (hgives : load.Gives text place before directive) : directive.Allowed := by
  obtain ⟨line, -, -, hspells⟩ := hgives
  exact allowed_of_directive? (directive?_eq_ok_some_iff.mpr hspells)

/-- What is noted for a line is what the hint on it is told. -/
theorem Gives.notes_iff {symbols : Symbols}
    (hgives : ({ symbols } : HintLoad).Gives text place before directive)
    (htake : ({ symbols } : HintLoad).take text = (last, none)) {content : String} :
    last.Notes (place + 1) content ↔ remark? before.symbols directive = some content := by
  obtain ⟨front, rest, rfl, hbefore, hrest⟩ := hgives.exists_rest htake
  obtain ⟨early, hearly, hfront⟩ := exists_ignored_takeLines { symbols } front 1
  obtain ⟨late, hlate, hbehind⟩ :=
    exists_ignored_takeLines (before.follow (front.length + 1) directive) rest (front.length + 2)
  rw [hbefore] at hearly
  rw [hrest] at hlate
  have hignored : last.ignored.toList =
      early ++ (notice? before.symbols (front.length + 1) directive).toList ++ late := by
    rw [hlate, follow, Array.toList_appendList, hearly]
    rfl
  have hother {notices : List String} {low high : Nat}
      (houtside : front.length + 1 < low ∨ high ≤ front.length + 1)
      (hnotices : ∀ notice ∈ notices, ∃ (line : Nat) (content : String), low ≤ line ∧ line < high ∧
        notice = s!"Line {line}: {content}") :
      s!"Line {front.length + 1}: {content}" ∉ notices := by
    intro hmem
    obtain ⟨line, content', hlow, hhigh, heq⟩ := hnotices _ hmem
    have hline := (eq_of_notice_eq heq).1
    omega
  have hnone := hother (Or.inr (by omega)) hfront
  have hnone' := hother (Or.inl (by omega)) hbehind
  rw [HintLoad.notes_iff, ← Array.mem_toList_iff, hignored, List.mem_append, List.mem_append,
    Option.mem_toList, notice?_eq, Option.map_eq_some_iff]
  simp only [hnone, hnone', false_or, or_false]
  constructor
  · rintro ⟨remark, hremark, heq⟩
    rw [hremark, (eq_of_notice_eq heq).2]
  · exact fun hremark => ⟨content, hremark, rfl⟩

/-- A name that a hint gives to an address of code goes by it after the load, if the address accepts
    a name when the hint is followed, and else the label stays that is there. A hint that comes too
    late is noted if it is a label, and no other is. So a name is lost silently exactly if a block
    of data gives it to an address that another name has to stay at. -/
theorem lost_silently_iff {symbols : Symbols}
    (htake : ({ symbols } : HintLoad).take text = (last, none))
    (hgives : ({ symbols } : HintLoad).Gives text place before directive)
    (hname : directive.codeName? = some (address, name)) :
    (last.symbols.label? address ≠ some name ∧ (∀ content, ¬ last.Notes (place + 1) content) ↔
        before.symbols.acceptsLabel address = false ∧ before.symbols.label? address ≠ some name ∧
          ∃ block, directive = .data block) ∧
      (last.symbols.label? address =
        if before.symbols.acceptsLabel address then some name else before.symbols.label? address) ∧
      let present := before.symbols.nameOf address
      ∀ content, last.Notes (place + 1) content ↔
        directive = .label address name ∧ before.symbols.acceptsLabel address = false ∧
        content =
          s!"{Text.hexLiteral 4 address} already labelled '{present}', '{name}' ignored" := by
  have hlabel : last.symbols.label? address =
      if before.symbols.acceptsLabel address then some name else before.symbols.label? address := by
    obtain ⟨_, rest, -, -, hrest⟩ := hgives.exists_rest htake
    have happly := Directive.getElem?_labels_apply before.symbols hgives.allowed hname
    have hstays : (directive.apply before.symbols).acceptsLabel address = false := by
      rw [Symbols.acceptsLabel, happly]
      split
      · rfl
      · next hrefused => exact Bool.not_eq_true _ ▸ hrefused
    have hlast := getElem?_labels_takeLines (before.follow (place + 1) directive) hstays
      (Text.numbered rest (place + 2))
    rw [hrest] at hlast
    rw [Symbols.label?, hlast, follow, happly]
    split <;> rfl
  cases directive with
  | label other given =>
    obtain ⟨rfl, rfl⟩ := Prod.mk.inj (Option.some.inj hname)
    simp only [hlabel, hgives.notes_iff htake, remark?]
    cases before.symbols.acceptsLabel other <;> simp [eq_comm]
  | data block =>
    simp only [hlabel, hgives.notes_iff htake, remark?]
    cases before.symbols.acceptsLabel address <;> simp
  | register | bit => cases hname

/-- Two hints that name one address, the second one for a block of data. -/
private def lateBlock : String := "label 0x10 main\ndata 0x10 0x20 table\n"

private theorem take_lateBlock : ({ symbols := .standard } : HintLoad).take lateBlock =
    ((({ symbols := .standard } : HintLoad).take lateBlock).1, none) :=
  Prod.ext rfl (by decide +kernel)

private theorem gives_lateBlock :
    ∃ before, ({ symbols := .standard } : HintLoad).Gives lateBlock 1 before
      (.data ⟨0x10, 0x20, some "table"⟩) ∧ before.symbols.label? 0x10 = some "main" ∧
      before.symbols.acceptsLabel 0x10 = false := by
  refine ⟨(({ symbols := .standard } : HintLoad).takeLines
    ((Text.numberedLines lateBlock).take 1)).1,
    ⟨"data 0x10 0x20 table".toList, by decide +kernel, Prod.ext rfl (by decide +kernel),
      directive?_eq_ok_some_iff.mp ?_⟩, by decide +kernel, by decide +kernel⟩
  decide +kernel

/-- The name of the block is lost: the address keeps the label, and nothing is noted for the second
    line. -/
theorem lost_silently_lateBlock :
    ∃ last, ({ symbols := .standard } : HintLoad).take lateBlock = (last, none) ∧
    last.symbols.label? 0x10 = some "main" ∧ ∀ content, ¬ last.Notes 2 content := by
  obtain ⟨before, hgives, hlabel, hrefuses⟩ := gives_lateBlock
  obtain ⟨hlost, hlast, -⟩ := lost_silently_iff take_lateBlock hgives rfl
  have hother : before.symbols.label? 0x10 ≠ some "table" := by
    rw [hlabel]
    decide
  rw [hrefuses, hlabel] at hlast
  exact ⟨_, take_lateBlock, hlast, (hlost.mpr ⟨hrefuses, hother, _, rfl⟩).2⟩

/-- Not every name that a text gives to an address is the label of that address in the end, or noted
    for its line. -/
theorem block_name_not_kept_or_noted :
    ¬ ∀ (symbols : Symbols) (text : String) (last before : HintLoad) (place : Nat)
      (directive : Directive) (address : Int) (name : String),
      ({ symbols } : HintLoad).take text = (last, none) →
      ({ symbols } : HintLoad).Gives text place before directive →
      directive.codeName? = some (address, name) →
        last.symbols.label? address = some name ∨ ∃ content, last.Notes (place + 1) content := by
  intro hkept
  obtain ⟨before, hgives, -, -⟩ := gives_lateBlock
  obtain hlabel | ⟨content, hmem, -⟩ :=
    hkept _ _ _ before 1 _ 0x10 "table" take_lateBlock hgives rfl
  · exact absurd hlabel (by decide +kernel)
  · have hignored : (({ symbols := .standard } : HintLoad).take lateBlock).1.ignored = #[] := by
      decide +kernel
    rw [hignored] at hmem
    cases hmem.val

end HintLoad

end Midrange
