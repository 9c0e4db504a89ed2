import Midrange.Proofs.Depth.Termination
import Midrange.Proofs.Instruction.Encoding
import Midrange.Proofs.Instruction.Tracking

namespace Midrange.Depth

/-- Whether a jump into a table is among instructions. -/
def dispatches (passed : List Instruction) : Bool :=
  passed.any fun instruction => Encoding.isDispatch instruction.word

/-- The selection behind instructions that are passed one after the other from an entry on. It is
    the page of the entry and the first bank, as changed by the instructions that write a single
    bit. -/
def selectionBehind (symbols : Symbols) (start : Int) (passed : List Instruction) : Selection :=
  Instruction.selectionBehind symbols ⟨0, start / 2048 % 4⟩ <|
    (passed.filter fun instruction => instruction.mnemonic ∈ [.bsf, .bcf]).map
      fun instruction => (instruction.address, instruction.word)

/-- The way out that an instruction offers: a branch to the address in the selected page that it
    gives the low bits of, or a skip over the next word. -/
def wayOut? (instruction : Instruction) : Option Departure :=
  let target := instruction.word % 2048 + 2048 * instruction.selection.page
  match instruction.mnemonic with
  | .call => some (.branch .call instruction.address target)
  | .goto => some (.branch .goto instruction.address target)
  | .btfsc | .btfss | .decfsz | .incfsz => some (.skip (instruction.address + 2))
  | _ => none

/-- The operation that control does not pass: outside of tables, a `goto` or a return that is the
    last one. -/
def closing? (passed : List Instruction) : Option Mnemonic :=
  if dispatches passed then none
  else (passed.getLast?.map (·.mnemonic)).filter (· ∈ [.goto, .retlw, .ret, .retfie])

namespace Code

variable {code : Code} {start : Int} {behind ahead : List Instruction} {instruction : Instruction}
  {ending : Ending}

/-- What keeps control from passing an address behind some instructions, the first reason that there
    is. -/
def obstacle? (code : Code) (passed : List Instruction) (address : Int) : Option Ending :=
  if code.limit ≤ address then some .programEnd
  else
    match code.image.word? address with
    | none => some .absent
    | some word =>
      if code.symbols.isData address then some .data
      else if dispatches passed && (Encoding.ofWord word).mnemonic ∉ [.goto, .retlw, .nop] then
        some .tableEnd
      else none

/-- An instruction that control passes behind others: the word at the next address, in the selection
    behind the others, and one of those that make up a table if a jump into one is among the
    others. -/
structure Meets (code : Code) (start : Int) (behind : List Instruction)
    (instruction : Instruction) : Prop where
  address_eq : instruction.address = start + behind.length
  lt_limit : instruction.address < code.limit
  word_eq : code.image.word? instruction.address = some instruction.word
  isData_eq : code.symbols.isData instruction.address = false
  selection_eq : instruction.selection = selectionBehind code.symbols start behind
  mem_table : dispatches behind = true → instruction.mnemonic ∈ [.goto, .retlw, .nop]

/-- Behind some instructions control passes others, and then goes no further for some reason. -/
inductive Walks (code : Code) (start : Int) : List Instruction → List Instruction → Ending →
    Prop where
  | blocked {behind : List Instruction} {ending : Ending}
      (hobstacle : code.obstacle? behind (start + behind.length) = some ending) :
      Walks code start behind [] ending
  | closed {behind : List Instruction} {instruction : Instruction} {ending : Ending}
      (hmeets : code.Meets start behind instruction) (hdispatches : dispatches behind = false)
      (hcloses : instruction.mnemonic ∈ [.goto, .retlw, .ret, .retfie])
      (htext : ending.text = instruction.mnemonic.text) :
      Walks code start behind [instruction] ending
  | pass {behind ahead : List Instruction} {instruction : Instruction} {ending : Ending}
      (hmeets : code.Meets start behind instruction)
      (hopen : dispatches behind = false → instruction.mnemonic ∉ [.goto, .retlw, .ret, .retfie])
      (hwalks : Walks code start (behind ++ [instruction]) ahead ending) :
      Walks code start behind (instruction :: ahead) ending

theorem obstacle?_of_wordAt {address : Int} (hword : code.wordAt address = .error ending)
    (passed : List Instruction) : code.obstacle? passed address = some ending := by
  unfold wordAt at hword
  unfold obstacle?
  split at hword
  · rename_i hlimit
    rw [if_pos hlimit]
    exact congrArg some (Except.error.inj hword)
  · rename_i hlimit
    rw [if_neg hlimit]
    cases hfound : code.image.word? address with
    | none =>
      rw [hfound] at hword
      exact congrArg some (Except.error.inj hword)
    | some word =>
      cases hdata : code.symbols.isData address with
      | true =>
        rw [hfound, hdata] at hword
        exact congrArg some (Except.error.inj hword)
      | false =>
        rw [hfound, hdata] at hword
        cases hword

end Code

theorem dispatches_append (behind : List Instruction) (instruction : Instruction) :
    dispatches (behind ++ [instruction]) =
      (dispatches behind || Encoding.isDispatch instruction.word) := by
  simp [dispatches]

/-- One more instruction changes the selection as it does when it is met in it. -/
theorem selectionBehind_append {symbols : Symbols} {start : Int} {behind : List Instruction}
    {instruction : Instruction}
    (hselection : instruction.selection = selectionBehind symbols start behind) :
    selectionBehind symbols start (behind ++ [instruction]) = instruction.after symbols := by
  simp only [selectionBehind, List.filter_append, List.map_append,
    Instruction.selectionBehind_append, List.filter_cons, List.filter_nil]
  rw [← selectionBehind, ← hselection]
  split
  · rfl
  · rename_i hwrites
    have hvalue : instruction.mnemonic.writtenBit? = none := by
      revert hwrites
      cases instruction.mnemonic <;> simp [Mnemonic.writtenBit?]
    exact (Instruction.after_eq_selection symbols hvalue).symm

theorem departure?_eq_wayOut? (instruction : Instruction) :
    departure? instruction = wayOut? instruction := by
  unfold departure? wayOut?
  cases hkind : instruction.mnemonic.branchKind? with
  | none =>
    cases hmnemonic : instruction.mnemonic <;> simp_all [Mnemonic.branchKind?, Mnemonic.isSkip]
  | some kind =>
    have htarget : instruction.target? =
        some (instruction.word % 2048 + 2048 * instruction.selection.page) :=
      Instruction.target?_of_branchKind? hkind
    cases hmnemonic : instruction.mnemonic <;> simp_all [Mnemonic.branchKind?]

theorem lead_passed (instruction : Instruction) (ahead : List Instruction) (ending : Ending) :
    Stretch.lead instruction.address (departure? instruction)
        ⟨ahead.map (·.address), ahead.filterMap wayOut?, ending⟩ =
      ⟨(instruction :: ahead).map (·.address), (instruction :: ahead).filterMap wayOut?,
        ending⟩ := by
  rw [departure?_eq_wayOut?, Stretch.lead, List.map_cons, List.filterMap_cons]
  cases wayOut? instruction <;> rfl

/-- Outside of tables control stops behind a `goto` and behind each return, and for this reason. -/
theorem ending?_false_eq_some {mnemonic : Mnemonic} {ending : Ending}
    (hending : ending? false mnemonic = some ending) :
    mnemonic ∈ [.goto, .retlw, .ret, .retfie] ∧ ending.text = mnemonic.text := by
  unfold ending? at hending
  split at hending <;> cases hending
  all_goals exact ⟨by decide, rfl⟩

theorem ending?_false_eq_none {mnemonic : Mnemonic} (hending : ending? false mnemonic = none) :
    mnemonic ∉ [.goto, .retlw, .ret, .retfie] := by
  intro hmem
  simp only [List.mem_cons, List.not_mem_nil, or_false] at hmem
  obtain rfl | rfl | rfl | rfl := hmem <;> cases hending

theorem isTableEntry_iff {mnemonic : Mnemonic} :
    mnemonic.isTableEntry = true ↔ mnemonic ∈ [.goto, .retlw, .nop] := by
  cases mnemonic <;> decide

/-- What may stand in a table does not end it. -/
theorem ending?_true_eq_none {mnemonic : Mnemonic} (hentry : mnemonic ∈ [.goto, .retlw, .nop]) :
    ending? true mnemonic = none := by
  simp only [List.mem_cons, List.not_mem_nil, or_false] at hentry
  obtain rfl | rfl | rfl := hentry <;> rfl

theorem closing?_append_eq_some {behind : List Instruction} {instruction : Instruction}
    (houtside : dispatches behind = false)
    (hcloses : instruction.mnemonic ∈ [.goto, .retlw, .ret, .retfie]) :
    closing? (behind ++ [instruction]) = some instruction.mnemonic := by
  have hplain : Encoding.isDispatch instruction.word = false := by
    rw [← Bool.not_eq_true]
    intro hdispatch
    have hadds : instruction.mnemonic = .addwf := Encoding.mnemonic_of_isDispatch hdispatch
    rw [hadds] at hcloses
    exact absurd hcloses (by decide)
  rw [closing?, dispatches_append, houtside, hplain, List.getLast?_concat, Option.map_some,
    Option.filter_some]
  simp only [hcloses, decide_true, if_true]
  rfl

theorem closing?_append_eq_none {behind : List Instruction} {instruction : Instruction}
    (hstays : dispatches behind = false → instruction.mnemonic ∉ [.goto, .retlw, .ret, .retfie]) :
    closing? (behind ++ [instruction]) = none := by
  cases hdispatches : dispatches behind with
  | true => simp [closing?, dispatches_append, hdispatches]
  | false =>
    rw [closing?, List.getLast?_concat, Option.map_some, Option.filter_some]
    simp only [hstays hdispatches, decide_false]
    split <;> rfl

namespace Code

variable {code : Code} {start : Int} {behind ahead : List Instruction} {instruction : Instruction}
  {ending : Ending}

/-- A word that control meets is passed unless it ends a table. -/
theorem meets_or_obstacle? {word : Int} (hword : code.wordAt (start + behind.length) = .ok word) :
    code.Meets start behind ⟨start + behind.length, word,
      selectionBehind code.symbols start behind⟩ ∨
      dispatches behind = true ∧ (Encoding.ofWord word).mnemonic ∉ [.goto, .retlw, .nop] ∧
        code.obstacle? behind (start + behind.length) = some .tableEnd := by
  obtain ⟨hlimit, hfound, hdata⟩ := wordAt_eq_ok_iff.mp hword
  by_cases hentry : dispatches behind = true →
    (Encoding.ofWord word).mnemonic ∈ [.goto, .retlw, .nop]
  · exact Or.inl ⟨rfl, hlimit, hfound, hdata, rfl, hentry⟩
  · obtain ⟨hdispatches, hother⟩ := Classical.not_imp.mp hentry
    refine Or.inr ⟨hdispatches, hother, ?_⟩
    rw [obstacle?, if_neg (Int.not_le.mpr hlimit), hfound]
    simp [hdata, hdispatches, hother]

theorem follow_of_error {address : Int} (hword : code.wordAt address = .error ending) (count : Nat)
    (selection : Selection) (inTable : Bool) :
    code.follow count address selection inTable = .halted ending := by
  cases count <;> simp [follow, hword]

/-- With fuel for all words that are left, following finds what control passes. -/
theorem exists_walks (count : Nat) (behind : List Instruction)
    (hcount : wordsFrom code.image (start + behind.length) ≤ count) :
    ∃ ahead : List Instruction, ∃ ending : Ending, code.Walks start behind ahead ending ∧
      code.follow count (start + behind.length) (selectionBehind code.symbols start behind)
        (dispatches behind) = ⟨ahead.map (·.address), ahead.filterMap wayOut?, ending⟩ := by
  induction count generalizing behind with
  | zero =>
    cases hword : code.wordAt (start + behind.length) with
    | error ending =>
      exact ⟨[], ending, .blocked (obstacle?_of_wordAt hword behind), follow_of_error hword _ _ _⟩
    | ok word =>
      have hless := wordsFrom_lt (word?_of_wordAt hword)
      omega
  | succ count ih =>
    cases hword : code.wordAt (start + behind.length) with
    | error ending =>
      exact ⟨[], ending, .blocked (obstacle?_of_wordAt hword behind), follow_of_error hword _ _ _⟩
    | ok word =>
      let instruction : Instruction :=
        ⟨start + behind.length, word, selectionBehind code.symbols start behind⟩
      obtain hmeets | ⟨hdispatches, hother, hobstacle⟩ := meets_or_obstacle? hword
      · have hpasses : ¬ (dispatches behind && !instruction.mnemonic.isTableEntry) = true := by
          cases hdispatches : dispatches behind with
          | false => exact Bool.false_ne_true
          | true => simp [isTableEntry_iff.mpr (hmeets.mem_table hdispatches), instruction]
        simp only [follow, hword]
        rw [if_neg hpasses]
        cases hending : ending? (dispatches behind) instruction.mnemonic with
        | some ending =>
          have houtside : dispatches behind = false := by
            rw [← Bool.not_eq_true]
            intro hdispatches
            rw [hdispatches, ending?_true_eq_none (hmeets.mem_table hdispatches)] at hending
            cases hending
          rw [houtside] at hending
          obtain ⟨hcloses, htext⟩ := ending?_false_eq_some hending
          refine ⟨[instruction], ending, .closed hmeets houtside hcloses htext, ?_⟩
          exact lead_passed instruction [] ending
        | none =>
          have hnext : start + (behind ++ [instruction]).length = start + behind.length + 1 := by
            simp only [List.length_append, List.length_singleton]
            omega
          have hless := wordsFrom_lt (word?_of_wordAt hword)
          obtain ⟨ahead, ending, hwalks, hfollow⟩ :=
            ih (behind ++ [instruction]) (by rw [hnext]; omega)
          rw [hnext, selectionBehind_append rfl, dispatches_append] at hfollow
          refine ⟨instruction :: ahead, ending, .pass hmeets (fun houtside => ?_) hwalks, ?_⟩
          · rw [houtside] at hending
            exact ending?_false_eq_none hending
          · rw [hfollow]
            exact lead_passed instruction ahead ending
      · refine ⟨[], .tableEnd, .blocked hobstacle, ?_⟩
        have hends : (Encoding.ofWord word).mnemonic.isTableEntry = false := by
          rw [← Bool.not_eq_true, isTableEntry_iff]
          exact hother
        simp [follow, hword, Instruction.mnemonic, Instruction.encoding, hends, hdispatches,
          Stretch.halted]

/-- What control passes behind some instructions is met one after the other, and outside of tables
    control goes no further than a `goto` or a return. -/
theorem Walks.meets (hwalks : code.Walks start behind ahead ending)
    (before later : List Instruction) (hahead : ahead = before ++ instruction :: later) :
    code.Meets start (behind ++ before) instruction ∧
      (dispatches (behind ++ before) = false → later ≠ [] →
        instruction.mnemonic ∉ [.goto, .retlw, .ret, .retfie]) := by
  induction hwalks generalizing before with
  | blocked => simp at hahead
  | closed hmeets =>
    cases before with
    | nil =>
      obtain ⟨rfl, rfl⟩ := List.cons.inj hahead
      rw [List.append_nil]
      exact ⟨hmeets, fun _ hlater => absurd rfl hlater⟩
    | cons first before => simp at hahead
  | pass hmeets hopen _ ih =>
    cases before with
    | nil =>
      obtain ⟨rfl, rfl⟩ := List.cons.inj hahead
      rw [List.append_nil]
      exact ⟨hmeets, fun houtside _ => hopen houtside⟩
    | cons first before =>
      obtain ⟨rfl, hrest⟩ := List.cons.inj hahead
      have hlater := ih before hrest
      rwa [List.append_assoc] at hlater

theorem Walks.closing? (hwalks : code.Walks start behind ahead ending)
    (hopen : closing? behind = none) :
    match Depth.closing? (behind ++ ahead) with
    | some mnemonic => ending.text = mnemonic.text
    | none =>
      code.obstacle? (behind ++ ahead) (start + (behind ++ ahead).length) = some ending := by
  induction hwalks with
  | blocked hobstacle =>
    rw [List.append_nil, hopen]
    exact hobstacle
  | closed _ houtside hcloses htext =>
    rw [closing?_append_eq_some houtside hcloses]
    exact htext
  | @pass behind ahead instruction ending _ hstays _ ih =>
    rw [← List.singleton_append, ← List.append_assoc]
    exact ih (closing?_append_eq_none hstays)

/-- What control passes from an address on stands at that address and those that follow it. -/
theorem Walks.map_address {passed : List Instruction} (hwalks : code.Walks start [] passed ending) :
    passed.map (·.address) = (List.range passed.length).map fun (index : Nat) => start + index := by
  refine List.ext_getElem (by simp) fun index hindex _ => ?_
  rw [List.length_map] at hindex
  have hsplit : passed = passed.take index ++ passed[index] :: passed.drop (index + 1) := by
    rw [List.getElem_cons_drop, List.take_append_drop]
  have hmeets := (hwalks.meets _ _ hsplit).1
  rw [List.getElem_map, List.getElem_map, List.getElem_range, hmeets.address_eq, List.nil_append,
    List.length_take, Nat.min_eq_left (Nat.le_of_lt hindex)]

end Code

namespace Analysis

/-- Control passes the words from an address on, one after the other, as long as they are below the
    end of program memory, present and no data, and stops where it does for the first reason that
    applies. Up to a jump into a table it stops behind the first `goto` or return, and behind the
    jump it passes what may stand in a table. The ways out are those of the calls, the `goto`s and
    the skips that it passes, each in the page that the instructions before it select. -/
theorem passes_until_stopped (image : Image) (symbols : Symbols) (options : Options) (start : Int) :
    let code : Code := ⟨image, symbols, options.memoryLimit⟩
    let stretch := (survey image symbols options).chart.stretch start
    ∃ passed : List Instruction,
      stretch.addresses = passed.map (·.address) ∧
      stretch.addresses = (List.range passed.length).map (fun (index : Nat) => start + index) ∧
      (∀ before instruction later, passed = before ++ instruction :: later →
        code.Meets start before instruction ∧
        (dispatches before = false → later ≠ [] →
          instruction.mnemonic ∉ [.goto, .retlw, .ret, .retfie])) ∧
      stretch.departures = passed.filterMap wayOut? ∧
      match closing? passed with
      | some mnemonic => stretch.ending.text = mnemonic.text
      | none => code.obstacle? passed (start + passed.length) = some stretch.ending := by
  intro code stretch
  have hcount : wordsFrom code.image (start + ([] : List Instruction).length) ≤ code.image.size :=
    wordsFrom_le_size _ _
  obtain ⟨passed, ending, hwalks, hfollow⟩ := code.exists_walks code.image.size [] hcount
  have hstretch : stretch = ⟨passed.map (·.address), passed.filterMap wayOut?, ending⟩ := by
    have hsame : stretch = code.stretch start :=
      (Chart.stretch_eq _ start).trans (stretch_plan start)
    rw [hsame, Code.stretch, ← hfollow, List.length_nil, Int.natCast_zero, Int.add_zero]
    rfl
  refine ⟨passed, ?_, ?_, fun before instruction later => hwalks.meets before later, ?_, ?_⟩
  · rw [hstretch]
  · rw [hstretch]
    exact hwalks.map_address
  · rw [hstretch]
  · rw [hstretch]
    exact hwalks.closing? rfl

end Analysis

end Midrange.Depth
