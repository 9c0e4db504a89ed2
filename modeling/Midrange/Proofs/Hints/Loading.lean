import Mathlib.Data.List.Forall2
import Mathlib.Order.Bounds.Defs
import Midrange.Proofs.Hints.Grammar
import Midrange.Proofs.Text.Lines

namespace Midrange

/-- The same fault on a later line. -/
def HintFault.later (shift : Nat) (fault : HintFault) : HintFault :=
  { fault with line := fault.line + shift }

namespace HintLoad

/-- The line at a place, counted from zero, is malformed under the names that the lines in front of
    it leave. -/
def MalformedAt (load : HintLoad) (text : String) (place : Nat) : Prop :=
  ∃ line front, (Text.lines text.toList)[place]? = some line ∧
    Text.lines front.toList = (Text.lines text.toList).take place ∧
    Malformed (load.take front).1.symbols line

/-- Two notices of the same content, the second one for a later line. -/
def Later (shift : Nat) (notice other : String) : Prop :=
  ∃ (line : Nat) (content : String), notice = s!"Line {line}: {content}" ∧
    other = s!"Line {line + shift}: {content}"

/-- Two loads that differ only in the lines that their notices name, some first notices being the
    same. -/
structure Shifted (notices : List String) (shift : Nat) (load other : HintLoad) : Prop where
  symbols_eq : other.symbols = load.symbols
  applied_eq : other.applied = load.applied
  ignored : ∃ early late,
    load.ignored.toList = notices ++ early ∧ other.ignored.toList = notices ++ late ∧
    List.Forall₂ (Later shift) early late

variable {load state other : HintLoad} {fault : HintFault} {line : List Char}
  {raws : List (List Char)} {lines others : List (Nat × List Char)} {first shift place : Nat}
  {notices : List String}

theorem take_eq (load : HintLoad) (text : String) :
    load.take text = load.takeLines (Text.numbered (Text.lines text.toList) 1) :=
  rfl

/-- Loading stops at a line, or it goes on with what the line leaves. -/
theorem takeLines_cons_cases (load : HintLoad) (number : Nat) (line : List Char) :
    (∃ cause, directive? load.symbols line = .error cause ∧
      ∀ rest, load.takeLines ((number, line) :: rest) =
        (load, some ⟨number, String.ofList line, cause⟩)) ∨
    ∃ (next : HintLoad) (hint? : Option Directive), directive? load.symbols line = .ok hint? ∧
      ∀ rest, load.takeLines ((number, line) :: rest) = next.takeLines rest := by
  cases hline : directive? load.symbols line with
  | error cause =>
    refine Or.inl ⟨cause, rfl, fun rest => ?_⟩
    rw [takeLines, hline]
  | ok hint? =>
    right
    cases hint? with
    | none =>
      refine ⟨load, none, rfl, fun rest => ?_⟩
      rw [takeLines, hline]
    | some directive =>
      refine ⟨load.follow number directive, some directive, rfl, fun rest => ?_⟩
      rw [takeLines, hline]

/-- Lines are loaded from where the lines in front of them leave off. -/
theorem takeLines_append_of_none (others : List (Nat × List Char))
    (hlines : load.takeLines lines = (state, none)) :
    load.takeLines (lines ++ others) = state.takeLines others := by
  induction lines generalizing load with
  | nil =>
    obtain rfl : load = state := congrArg Prod.fst hlines
    rfl
  | cons line rest ih =>
    obtain ⟨number, line⟩ := line
    rw [List.cons_append]
    obtain ⟨cause, -, hstops⟩ | ⟨next, -, -, hgoes⟩ := load.takeLines_cons_cases number line
    · rw [hstops] at hlines
      cases hlines
    · rw [hgoes] at hlines ⊢
      exact ih hlines

/-- Nothing is loaded behind a line at fault. -/
theorem takeLines_append_of_some (others : List (Nat × List Char))
    (hlines : load.takeLines lines = (state, some fault)) :
    load.takeLines (lines ++ others) = (state, some fault) := by
  induction lines generalizing load with
  | nil => cases hlines
  | cons line rest ih =>
    obtain ⟨number, line⟩ := line
    rw [List.cons_append]
    obtain ⟨cause, -, hstops⟩ | ⟨next, -, -, hgoes⟩ := load.takeLines_cons_cases number line
    · rw [hstops] at hlines ⊢
      exact hlines
    · rw [hgoes] at hlines ⊢
      exact ih hlines

/-- The line at fault stands behind lines that are all followed, and changes nothing. -/
theorem exists_line_of_fault
    (hlines : load.takeLines (Text.numbered raws first) = (state, some fault)) :
    ∃ before line after, raws = before ++ line :: after ∧
      load.takeLines (Text.numbered before first) = (state, none) ∧
      directive? state.symbols line = .error fault.cause ∧
      fault.line = first + before.length ∧ fault.text = String.ofList line := by
  induction raws generalizing load first with
  | nil => cases hlines
  | cons line rest ih =>
    rw [Text.numbered_cons] at hlines
    obtain ⟨cause, hcause, hstops⟩ | ⟨next, -, -, hgoes⟩ := load.takeLines_cons_cases first line
    · rw [hstops] at hlines
      cases hlines
      exact ⟨[], line, rest, rfl, rfl, hcause, rfl, rfl⟩
    · rw [hgoes] at hlines
      obtain ⟨before, fail, after, rfl, hbefore, hfail, hnumber, htext⟩ := ih hlines
      refine ⟨line :: before, fail, after, rfl, ?_, hfail, ?_, htext⟩
      · rw [Text.numbered_cons, hgoes]
        exact hbefore
      · rw [hnumber, List.length_cons]
        omega

/-- No line behind a malformed one is loaded. -/
theorem exists_fault_of_malformed {before after : List (List Char)}
    (hmalformed : Malformed (load.takeLines (Text.numbered before first)).1.symbols line) :
    ∃ state fault,
      load.takeLines (Text.numbered (before ++ line :: after) first) = (state, some fault) ∧
      fault.line ≤ first + before.length := by
  rw [Text.numbered_append]
  rcases hbefore : load.takeLines (Text.numbered before first) with ⟨state, fault?⟩
  rw [hbefore] at hmalformed
  cases fault? with
  | none =>
    obtain ⟨cause, hcause⟩ := exists_cause_iff.mpr hmalformed
    refine ⟨state, ⟨first + before.length, String.ofList line, cause⟩, ?_, Nat.le_refl _⟩
    rw [takeLines_append_of_none _ hbefore, Text.numbered_cons, takeLines, hcause]
  | some fault =>
    refine ⟨state, fault, takeLines_append_of_some _ hbefore, ?_⟩
    obtain ⟨front, _, back, rfl, -, -, hnumber, -⟩ := exists_line_of_fault hbefore
    rw [hnumber, List.length_append]
    omega

theorem exists_fault_of_malformedAt {text : String} (hmalformed : load.MalformedAt text place) :
    ∃ state fault, load.take text = (state, some fault) ∧ fault.line ≤ place + 1 := by
  obtain ⟨line, front, hline, hfront, hmalformed⟩ := hmalformed
  obtain ⟨hplace, rfl⟩ := List.getElem?_eq_some_iff.mp hline
  have hsplit : Text.lines text.toList = (Text.lines text.toList).take place ++
      (Text.lines text.toList)[place] :: (Text.lines text.toList).drop (place + 1) := by
    rw [List.getElem_cons_drop, List.take_append_drop]
  rw [take_eq, hfront] at hmalformed
  obtain ⟨state, fault, htake, hnumber⟩ := exists_fault_of_malformed hmalformed
  rw [← hsplit] at htake
  rw [List.length_take_of_le (Nat.le_of_lt hplace), Nat.add_comm] at hnumber
  exact ⟨state, fault, htake, hnumber⟩

/-- A text in which a line is at fault is loaded up to that line, which is the first malformed
    one. -/
theorem first_malformed_of_fault {text : String} (htake : load.take text = (state, some fault)) :
    ∃ place, fault.line = place + 1 ∧ IsLeast {place | load.MalformedAt text place} place ∧
      (Text.lines text.toList)[place]? = some fault.text.toList ∧
      ∀ front : String, Text.lines front.toList = (Text.lines text.toList).take place →
        load.take front = (state, none) := by
  obtain ⟨before, line, after, hlines, hbefore, hcause, hnumber, htext⟩ :=
    exists_line_of_fault htake
  have hplace : (Text.lines text.toList)[before.length]? = some line := by
    simp [hlines]
  have hfront (front : String) (hfront : Text.lines front.toList =
      (Text.lines text.toList).take before.length) : load.take front = (state, none) := by
    rw [take_eq, hfront, hlines, List.take_left']
    · exact hbefore
    · rfl
  refine ⟨before.length, by omega, ⟨?_, fun earlier hearlier => ?_⟩, ?_, hfront⟩
  · obtain ⟨front, back, -, htake⟩ := Text.exists_lines_take text.toList before.length
    have hofList : Text.lines (String.ofList front).toList =
        (Text.lines text.toList).take before.length := by
      rw [String.toList_ofList, htake]
    refine ⟨line, String.ofList front, hplace, hofList, ?_⟩
    rw [hfront _ hofList]
    exact exists_cause_iff.mp ⟨fault.cause, hcause⟩
  · obtain ⟨_, found, hfound, hle⟩ := exists_fault_of_malformedAt hearlier
    rw [htake] at hfound
    obtain rfl : fault = found := by
      simpa using congrArg Prod.snd hfound
    omega
  · rw [hplace, htext, String.toList_ofList]

/-- What the notice of a hint says behind its line. -/
def remark? (symbols : Symbols) : Directive → Option String
  | .label address name =>
    if symbols.acceptsLabel address then none
    else
      let present := symbols.nameOf address
      some s!"{Text.hexLiteral 4 address} already labelled '{present}', '{name}' ignored"
  | _ => none

theorem notice?_eq (symbols : Symbols) (line : Nat) (directive : Directive) :
    notice? symbols line directive =
      (remark? symbols directive).map fun remark => s!"Line {line}: {remark}" := by
  cases directive with
  | label address name =>
    cases haccepts : symbols.acceptsLabel address with
    | true => simp [notice?, remark?, haccepts]
    | false =>
      simp only [notice?, remark?, haccepts, Bool.false_eq_true, if_false, Option.map_some,
        String.append_assoc]
      rfl
  | register | bit | data => rfl

/-- The notice of a hint says the same on whichever line the hint stands. -/
theorem later_notice? (symbols : Symbols) (number shift : Nat) (directive : Directive) :
    List.Forall₂ (Later shift) (notice? symbols number directive).toList
      (notice? symbols (number + shift) directive).toList := by
  rw [notice?_eq, notice?_eq]
  cases remark? symbols directive with
  | none => exact .nil
  | some remark => exact .cons ⟨number, remark, rfl, rfl⟩ .nil

/-- A load whose lines are followed under other numbers leaves the same, but for the lines in its
    notices. -/
theorem Shifted.follow (hshifted : Shifted notices shift load other) (number : Nat)
    (directive : Directive) :
    Shifted notices shift (load.follow number directive)
      (other.follow (number + shift) directive) := by
  obtain ⟨hsymbols, happlied, early, late, hearly, hlate, hsame⟩ := hshifted
  refine ⟨?_, ?_, early ++ (notice? load.symbols number directive).toList,
    late ++ (notice? load.symbols (number + shift) directive).toList, ?_, ?_, ?_⟩
  · simp only [HintLoad.follow, hsymbols]
  · simp only [HintLoad.follow, happlied]
  · simp [HintLoad.follow, hearly]
  · simp [HintLoad.follow, hlate, hsymbols]
  · exact List.rel_append hsame (later_notice? load.symbols number shift directive)

/-- The same lines under other numbers are at fault on the same line, and leave the same. -/
theorem Shifted.takeLines (hshifted : Shifted notices shift load other) (raws : List (List Char))
    (first : Nat) :
    Shifted notices shift (load.takeLines (Text.numbered raws first)).1
        (other.takeLines (Text.numbered raws (first + shift))).1 ∧
      (other.takeLines (Text.numbered raws (first + shift))).2 =
        (load.takeLines (Text.numbered raws first)).2.map (·.later shift) := by
  induction raws generalizing load other first with
  | nil => exact ⟨hshifted, rfl⟩
  | cons line rest ih =>
    rw [Text.numbered_cons, Text.numbered_cons, HintLoad.takeLines, HintLoad.takeLines,
      hshifted.symbols_eq]
    cases directive? load.symbols line with
    | error cause => exact ⟨hshifted, rfl⟩
    | ok hint? =>
      rw [Nat.add_right_comm]
      cases hint? with
      | none => exact ih hshifted (first + 1)
      | some directive => exact ih (hshifted.follow first directive) (first + 1)

theorem takeLines_blanks {blanks : List (List Char)} (hblanks : ∀ line ∈ blanks, line = [])
    (load : HintLoad) (first : Nat) :
    load.takeLines (Text.numbered blanks first) = (load, none) := by
  induction blanks generalizing first with
  | nil => rfl
  | cons line rest ih =>
    obtain ⟨rfl, hrest⟩ := List.forall_mem_cons.mp hblanks
    rw [Text.numbered_cons]
    exact ih hrest (first + 1)

/-- A text behind another one is loaded from where that one leaves off. Its lines stand as much
    later as there are more lines in both together than in itself. -/
theorem shifted_take_append {text more : String} {ending : String}
    (hending : Text.IsBreak ending.toList) (htake : load.take text = (state, none)) : ∃ shift,
      (Text.lines (text ++ ending ++ more).toList).length =
        (Text.lines more.toList).length + shift ∧
      Shifted state.ignored.toList shift (state.take more).1
        (load.take (text ++ ending ++ more)).1 ∧
      (load.take (text ++ ending ++ more)).2 = (state.take more).2.map (·.later shift) := by
  obtain ⟨between, blanks, rest, hbetween, hblanks, hlines, hmore, hlength⟩ :=
    Text.exists_lines_join hending text.toList more.toList
  rw [← String.toList_append, ← String.toList_append] at hlines
  obtain ⟨shift, hshift⟩ := Nat.exists_eq_add_of_le hlength
  have hcount : (Text.lines (text ++ ending ++ more).toList).length =
      (Text.lines more.toList).length + shift := by
    rw [hlines, hmore]
    simp only [List.length_append] at hshift ⊢
    omega
  have htext : load.takeLines (Text.numbered (Text.lines text.toList) 1) = (state, none) := htake
  have hlater : load.take (text ++ ending ++ more) =
      state.takeLines (Text.numbered rest (1 + blanks.length + shift)) := by
    rw [take_eq, hlines, Text.numbered_append, hshift, ← Nat.add_assoc]
    apply takeLines_append_of_none
    rw [Text.numbered_append, takeLines_append_of_none _ htext, takeLines_blanks hbetween]
  have hearlier : state.take more =
      state.takeLines (Text.numbered rest (1 + blanks.length)) := by
    rw [take_eq, hmore, Text.numbered_append,
      takeLines_append_of_none _ (takeLines_blanks hblanks state 1)]
  have hsame : Shifted state.ignored.toList shift state state :=
    ⟨rfl, rfl, [], [], by simp, by simp, .nil⟩
  rw [hlater, hearlier]
  exact ⟨shift, hcount, hsame.takeLines rest (1 + blanks.length)⟩

/-- A text at fault is loaded the same whatever stands behind it. -/
theorem take_append_of_some {text : String} {ending : String} (hending : Text.IsBreak ending.toList)
    (more : String) (htake : load.take text = (state, some fault)) :
    load.take (text ++ ending ++ more) = (state, some fault) := by
  obtain ⟨between, _, rest, -, -, hlines, -, -⟩ :=
    Text.exists_lines_join hending text.toList more.toList
  rw [take_eq, String.toList_append, String.toList_append, hlines, List.append_assoc,
    Text.numbered_append]
  exact takeLines_append_of_some _ htake

/-- Hints are loaded line by line. A text is loaded up to its first malformed line, if it has one,
    and then leaves what the lines in front of that one leave. Two texts that are loaded one after
    the other leave the same as both in one with a line break between them, up to the numbers of
    lines in what is told: these grow by the number of lines that both have together beyond those of
    the second one alone. -/
theorem loads_line_by_line (load : HintLoad) :
    (∀ text : String,
      match load.take text with
      | (state, some fault) => ∃ place, fault.line = place + 1 ∧
        IsLeast {place | load.MalformedAt text place} place ∧
        (Text.lines text.toList)[place]? = some fault.text.toList ∧
        (∃ front back : String, text = front ++ back ∧
          Text.lines front.toList = (Text.lines text.toList).take place) ∧
        ∀ front : String, Text.lines front.toList = (Text.lines text.toList).take place →
          load.take front = (state, none)
      | (_, none) => ∀ place, ¬ load.MalformedAt text place) ∧
    ∀ text ending more : String, Text.IsBreak ending.toList →
      match load.take text with
      | (state, some fault) => load.take (text ++ ending ++ more) = (state, some fault)
      | (state, none) => ∃ shift,
        (Text.lines (text ++ ending ++ more).toList).length =
          (Text.lines more.toList).length + shift ∧
        Shifted state.ignored.toList shift (state.take more).1
          (load.take (text ++ ending ++ more)).1 ∧
        (load.take (text ++ ending ++ more)).2 = (state.take more).2.map (·.later shift) := by
  constructor
  · intro text
    rcases htake : load.take text with ⟨state, _ | fault⟩
    · intro place hmalformed
      obtain ⟨_, _, hfault, -⟩ := exists_fault_of_malformedAt hmalformed
      rw [htake] at hfault
      cases hfault
    · obtain ⟨place, hnumber, hleast, hline, hfront⟩ := first_malformed_of_fault htake
      obtain ⟨front, back, htext, hlines⟩ := Text.exists_lines_take text.toList place
      refine ⟨place, hnumber, hleast, hline, ⟨String.ofList front, String.ofList back, ?_, ?_⟩,
        hfront⟩
      · rw [← String.ofList_append, ← htext, String.ofList_toList]
      · rw [String.toList_ofList, hlines]
  · intro text ending more hending
    rcases htake : load.take text with ⟨state, _ | fault⟩
    · exact shifted_take_append hending htake
    · exact take_append_of_some hending more htake

end HintLoad

end Midrange
