import Mathlib.Data.List.Forall2
import Mathlib.Tactic.Choose
import Midrange.Graph.Dot
import Midrange.Proofs.Text.Fields
import Midrange.Proofs.Text.Lines

namespace Midrange

/-- What a text in the DOT language is made of. -/
inductive DotToken where
  | word (text : String)
  | quoted (text : String)
  | sign (c : Char)
  deriving DecidableEq, Repr

namespace DotToken

/-- The characters that stand for themselves, also directly beside a word. -/
def isSign (c : Char) : Bool :=
  ['{', '}', '[', ']', '=', ',', ';'].contains c

/-- The characters that words are made of. -/
def isLetter (c : Char) : Bool :=
  !Text.isAsciiBlank c && !isSign c && c ≠ '"'

/-- What stands in front of the quote that ends a text, and what behind it. A backslash protects the
    next character, and the first quote that is not protected ends the text. -/
def unquote? : List Char → Option (List Char × List Char)
  | [] => none
  | ['\\'] => none
  | '\\' :: c :: rest => (unquote? rest).map fun (text, behind) => (c :: text, behind)
  | c :: rest =>
    if c = '"' then some ([], rest)
    else (unquote? rest).map fun (text, behind) => (c :: text, behind)

theorem length_of_unquote? {written text behind : List Char}
    (hread : unquote? written = some (text, behind)) : behind.length < written.length := by
  induction written using unquote?.induct generalizing text with
  | case1 | case2 => cases hread
  | case3 c rest ih =>
    obtain ⟨⟨text, behind⟩, hrest, heq⟩ := Option.map_eq_some_iff.mp hread
    obtain ⟨rfl, rfl⟩ := Prod.mk.inj heq
    have hless := ih hrest
    simp only [List.length_cons]
    omega
  | case4 rest =>
    cases hread
    exact Nat.lt_succ_self _
  | case5 c rest hlone hpair hquote ih =>
    rw [unquote?, if_neg hquote] at hread
    · obtain ⟨⟨text, behind⟩, hrest, heq⟩ := Option.map_eq_some_iff.mp hread
      obtain ⟨rfl, rfl⟩ := Prod.mk.inj heq
      exact Nat.lt_succ_of_lt (ih hrest)
    · exact hlone
    · exact hpair

/-- The tokens of a text. Blanks stand between them or not at all. -/
def ofText? (written : List Char) : Option (List DotToken) :=
  match written with
  | [] => some []
  | c :: rest =>
    if Text.isAsciiBlank c then ofText? rest
    else if isSign c then (ofText? rest).map (sign c :: ·)
    else if c = '"' then
      match _ : unquote? rest with
      | none => none
      | some (text, behind) => (ofText? behind).map (quoted (String.ofList text) :: ·)
    else
      let letters := c :: rest.takeWhile isLetter
      (ofText? (rest.dropWhile isLetter)).map (word (String.ofList letters) :: ·)
termination_by written.length
decreasing_by
  · simp
  · simp
  · have hless := length_of_unquote? ‹_›
    simp only [List.length_cons]
    omega
  · have hle := (List.dropWhile_sublist (l := rest) isLetter).length_le
    simp only [List.length_cons]
    omega

/-- What ends a statement. -/
def isEnd : DotToken → Bool
  | sign c => ['{', '}', ';'].contains c
  | _ => false

end DotToken

/-- What a reader takes from the text of a graph. -/
structure Drawing where
  title : String
  nodes : List String
  links : List Link
  deriving DecidableEq, Repr

namespace Drawing

open DotToken

/-- The value that an attribute is given in a statement. -/
def attribute? (name : String) : List DotToken → Option String
  | .word key :: .sign '=' :: .quoted value :: rest =>
    if key = name then some value else attribute? name rest
  | _ :: rest => attribute? name rest
  | [] => none

/-- The routine of a statement that is about one. -/
def node? : List DotToken → Option String
  | .quoted name :: .sign '[' :: _ => some name
  | _ => none

/-- The link of a statement that is about one. Its label tells which kind of branch it is. -/
def link? : List DotToken → Option Link
  | .quoted source :: .word "->" :: .quoted target :: attributes =>
    match attribute? "label" attributes with
    | some "call" => some ⟨source, target, .call⟩
    | some "goto" => some ⟨source, target, .goto⟩
    | _ => none
  | _ => none

/-- Reads a text statement by statement. The title comes first, and then what the statements are
    about. -/
def read? (written : String) : Option Drawing :=
  (ofText? written.toList).bind fun tokens =>
    match tokens.splitOnP isEnd with
    | [.word "digraph", .quoted title] :: body =>
      some ⟨title, body.filterMap node?, body.filterMap link?⟩
    | _ => none

end Drawing

namespace DotToken

open Depth.Findings (dotEscape dotEscaped dotQuoted)

variable {written rest : List Char} {tokens others : List DotToken} {c : Char}

theorem unquote?_cons (hquote : c ≠ '"') (hslash : c ≠ '\\') (rest : List Char) :
    unquote? (c :: rest) = (unquote? rest).map fun (text, behind) => (c :: text, behind) := by
  rw [unquote?, if_neg hquote]
  · exact fun hlone => absurd hlone hslash
  · exact fun _ _ hpair => absurd hpair hslash

/-- What is escaped is read as it was, whatever is written behind it. -/
theorem unquote?_dotEscape (text rest : List Char) : unquote? (dotEscape text ++ rest) =
    (unquote? rest).map fun (more, behind) => (text ++ more, behind) := by
  induction text with
  | nil => simp [dotEscape]
  | cons c text ih =>
    have hrest :
        (unquote? (dotEscape text ++ rest)).map (fun (more, behind) => (c :: more, behind)) =
        (unquote? rest).map fun (more, behind) => (c :: text ++ more, behind) := by
      rw [ih, Option.map_map]
      rfl
    by_cases hescape : c = '"' ∨ c = '\\'
    · rw [dotEscape, if_pos hescape]
      exact hrest
    · obtain ⟨hquote, hslash⟩ := not_or.mp hescape
      rw [dotEscape, if_neg hescape, List.cons_append, unquote?_cons hquote hslash]
      exact hrest

theorem dotEscape_eq_self {text : List Char} (hplain : ∀ c ∈ text, c ≠ '"' ∧ c ≠ '\\') :
    dotEscape text = text := by
  induction text with
  | nil => rfl
  | cons c text ih =>
    rw [List.forall_mem_cons] at hplain
    rw [dotEscape, if_neg (not_or.mpr hplain.1), ih hplain.2]

/-- The first quote behind an escaped text ends it. -/
theorem unquote?_dotEscape_quote (text behind : List Char) :
    unquote? (dotEscape text ++ '"' :: behind) = some (text, behind) := by
  rw [unquote?_dotEscape, unquote?, if_pos rfl] <;> simp

/-- A text is read as some tokens, whatever is written behind it. -/
def Spells (written : List Char) (tokens : List DotToken) : Prop :=
  ∀ behind, ofText? (written ++ behind) = (ofText? behind).map (tokens ++ ·)

theorem Spells.append {more : List Char} (htokens : Spells written tokens)
    (hothers : Spells more others) : Spells (written ++ more) (tokens ++ others) := by
  intro behind
  rw [List.append_assoc, htokens, hothers, Option.map_map]
  simp [Function.comp_def]

/-- What stands between quotes is one token. -/
theorem ofText?_quotes {text : List Char}
    (hread : ∀ behind, unquote? (written ++ '"' :: behind) = some (text, behind))
    (behind : List Char) :
    ofText? ('"' :: (written ++ '"' :: behind)) =
      (ofText? behind).map (quoted (String.ofList text) :: ·) := by
  have hrest := hread behind
  rw [ofText?, if_neg (by decide), if_neg (by decide), if_pos rfl]
  split
  · next hnone => rw [hrest] at hnone; cases hnone
  · next hsome =>
    rw [hrest] at hsome
    obtain ⟨rfl, rfl⟩ := Prod.mk.inj (Option.some.inj hsome)
    rfl

theorem ofText?_dotQuoted (text : String) (behind : List Char) :
    ofText? ((dotQuoted text).toList ++ behind) = (ofText? behind).map (quoted text :: ·) := by
  have hquotes := ofText?_quotes (unquote?_dotEscape_quote text.toList) behind
  rw [String.ofList_toList] at hquotes
  rw [← hquotes]
  simp [dotQuoted, dotEscaped]

/-- A line is read as a statement and its end. -/
structure States (line : String) (statement : List DotToken) : Prop where
  spells : Spells (line.toList ++ ['\n']) (statement ++ [sign ';'])
  whole : ∀ token ∈ statement, isEnd token = false

section Lines

variable {lines : List String} {statements : List (List DotToken)}
  (hstates : List.Forall₂ States lines statements)

include hstates

/-- Lines of statements are read one after the other. -/
theorem spells_of_states :
    Spells (lines.flatMap fun line => line.toList ++ ['\n'])
      (statements.flatMap (· ++ [sign ';'])) := by
  induction hstates with
  | nil => exact fun behind => by simp
  | cons hline _ ih => exact hline.spells.append ih

/-- Statements are told apart by their ends. -/
theorem splitOnP_of_states (rest : List DotToken) :
    (statements.flatMap (· ++ [sign ';']) ++ rest).splitOnP isEnd =
      statements ++ rest.splitOnP isEnd := by
  induction hstates with
  | nil => rfl
  | cons hline _ ih =>
    rw [List.flatMap_cons, List.append_assoc, List.append_assoc, List.singleton_append,
      List.splitOnP_append_cons_of_forall_mem hline.whole _ rfl, ih]
    rfl

end Lines

end DotToken

namespace Depth.Findings

open DotToken

/-- The line of a link is a statement about it. -/
theorem exists_states_linkLine (link : Link) : ∃ statement, States (linkLine link) statement ∧
    Drawing.node? statement = none ∧ Drawing.link? statement = some link := by
  obtain ⟨source, target, kind⟩ := link
  let style := if kind = .call then "solid" else "dashed"
  refine ⟨[quoted source, word "->", quoted target, sign '[', word "style", sign '=', word style,
    sign ',', word "label", sign '=', quoted kind.text, sign ']'], ⟨fun behind => ?_, ?_⟩, ?_, ?_⟩
  · cases kind <;> simp [linkLine, toString, ofText?, ofText?_dotQuoted, isLetter, isSign,
      Text.isAsciiBlank, style, Function.comp_def]
  · cases kind <;> simp [isEnd]
  · rfl
  · cases kind <;> simp [Drawing.link?, Drawing.attribute?, BranchKind.text]

/-- An escape in front of a letter is read as the letter. -/
theorem unquote?_shown (label : List Char) {shown : List Char}
    (hplain : ∀ c ∈ shown, c ≠ '"' ∧ c ≠ '\\') (behind : List Char) :
    unquote? (dotEscape label ++ '\\' :: 'n' :: shown ++ '"' :: behind) =
      some (label ++ 'n' :: shown, behind) := by
  have hshown := unquote?_dotEscape_quote shown behind
  rw [dotEscape_eq_self hplain] at hshown
  rw [List.append_assoc, unquote?_dotEscape, List.cons_append, List.cons_append, unquote?, hshown]
  rfl

/-- The colour of a vector is two more attributes. -/
private theorem exists_fill (address : Int) :
    ∃ attributes, (∀ token ∈ attributes, isEnd token = false) ∧ ∀ behind,
      ofText? ((((vectorColour? address).map fun colour =>
          s!", style=filled, fillcolor={colour}").getD "").toList ++ ']' :: behind) =
        (ofText? behind).map (attributes ++ sign ']' :: ·) := by
  have hcolour (colour : String) :
      ∀ token ∈ [sign ',', word "style", sign '=', word "filled", sign ',', word "fillcolor",
        sign '=', word colour], isEnd token = false := by
    simp [isEnd]
  unfold vectorColour?
  split
  · refine ⟨_, hcolour "lightgreen", fun behind => ?_⟩
    simp [toString, ofText?, isLetter, isSign, Text.isAsciiBlank, Function.comp_def]
  split
  · refine ⟨_, hcolour "lightsalmon", fun behind => ?_⟩
    simp [toString, ofText?, isLetter, isSign, Text.isAsciiBlank, Function.comp_def]
  · refine ⟨[], List.forall_mem_nil _, fun behind => ?_⟩
    simp [ofText?, isSign, Text.isAsciiBlank]

/-- The address and the depth of a routine hold nothing that is to be protected. -/
private theorem plain_shown (findings : Findings) (address : Int) :
    ∀ c ∈ (Text.hexLiteral 4 address ++
      ((findings.depthAt? address).map fun depth => s!"  depth {depth}").getD "").toList,
      c ≠ '"' ∧ c ≠ '\\' := by
  rw [Text.hexLiteral, String.toList_append, String.toList_append, List.forall_mem_append,
    List.forall_mem_append]
  refine ⟨⟨by decide, Text.forall_mem_hexadecimal (by decide) (by decide) 4 address⟩, ?_⟩
  cases findings.depthAt? address with
  | none => simp
  | some depth =>
    have hchars : (s!"  depth {depth}").toList = "  depth ".toList ++ (toString depth).toList := by
      simp [toString]
    rw [Option.map_some, Option.getD_some, hchars, List.forall_mem_append]
    refine ⟨by decide, Text.forall_mem_toString (by decide) (fun c hdigit => ?_) depth⟩
    constructor <;> rintro rfl <;> cases hdigit

/-- Whatever is shown of a routine, the attributes come to an end. -/
theorem exists_attributes (findings : Findings) (label : String) (address? : Option Int) :
    ∃ attributes, (∀ token ∈ attributes, isEnd token = false) ∧ ∀ behind,
      ofText? ((findings.nodeAttributes label address?).toList ++ ']' :: behind) =
        (ofText? behind).map (attributes ++ sign ']' :: ·) := by
  cases address? with
  | none =>
    refine ⟨[word "label", sign '=', quoted label], by simp [isEnd], fun behind => ?_⟩
    simp [nodeAttributes, ofText?, ofText?_dotQuoted, isLetter, isSign, Text.isAsciiBlank,
      Function.comp_def]
  | some address =>
    obtain ⟨fill, hfill, hread⟩ := exists_fill address
    have hlabel (rest : List Char) : ofText? ("label=".toList ++ rest) =
        (ofText? rest).map (word "label" :: sign '=' :: ·) := by
      simp [ofText?, isLetter, isSign, Text.isAsciiBlank, Function.comp_def]
    obtain ⟨shown, hplain, hchars⟩ : ∃ shown, (∀ c ∈ shown, c ≠ '"' ∧ c ≠ '\\') ∧
        (findings.nodeAttributes label (some address)).toList = "label=".toList ++ '"' ::
          (dotEscape label.toList ++ '\\' :: 'n' :: shown ++ '"' ::
            (((vectorColour? address).map fun colour =>
              s!", style=filled, fillcolor={colour}").getD "").toList) :=
      ⟨_, findings.plain_shown address, by simp [nodeAttributes, dotEscaped]⟩
    refine
      ⟨word "label" :: sign '=' :: quoted (String.ofList (label.toList ++ 'n' :: shown)) :: fill,
        by simpa [isEnd] using hfill, fun behind => ?_⟩
    rw [hchars, List.append_assoc, List.cons_append, List.append_assoc, List.cons_append, hlabel,
      ofText?_quotes (unquote?_shown label.toList hplain), hread]
    simp only [Option.map_map, Function.comp_def, List.cons_append]

/-- The line of a routine is a statement about it. -/
theorem exists_states_nodeLine (findings : Findings) (addresses : Std.TreeMap String Int)
    (label : String) : ∃ statement, States (findings.nodeLine addresses label) statement ∧
      Drawing.node? statement = some label ∧ Drawing.link? statement = none := by
  obtain ⟨attributes, hwhole, hread⟩ := findings.exists_attributes label addresses[label]?
  refine ⟨quoted label :: sign '[' :: (attributes ++ [sign ']']), ⟨fun behind => ?_, ?_⟩, rfl, rfl⟩
  · have hrest := hread (';' :: '\n' :: behind)
    simp [nodeLine, toString, ofText?, ofText?_dotQuoted, hrest, isSign, Text.isAsciiBlank,
      Function.comp_def]
  · simpa [isEnd, or_imp, forall_and] using hwhole

/-- How graphs are laid out is set by two statements, which are about no routine and no link. -/
private theorem exists_states_settings : ∃ settings,
    List.Forall₂ States ["  rankdir=LR;", "  node [shape=box, fontsize=10];"] settings ∧
      settings.filterMap Drawing.node? = [] ∧ settings.filterMap Drawing.link? = [] := by
  refine ⟨[[word "rankdir", sign '=', word "LR"],
      [word "node", sign '[', word "shape", sign '=', word "box", sign ',', word "fontsize",
        sign '=', word "10", sign ']']],
    .cons ⟨fun behind => ?_, by simp [isEnd]⟩ (.cons ⟨fun behind => ?_, by simp [isEnd]⟩ .nil),
    rfl, rfl⟩ <;>
    simp [ofText?, isLetter, isSign, Text.isAsciiBlank, Function.comp_def]

/-- Behind the title each line of a graph but the last one is a statement. The statements about
    routines are about those of the graph, and those about links about its links. -/
theorem exists_states_lines (findings : Findings) (addresses : Std.TreeMap String Int) :
    ∃ statements, List.Forall₂ States (["  rankdir=LR;", "  node [shape=box, fontsize=10];"] ++
      findings.nodes.map (findings.nodeLine addresses) ++ findings.links.map linkLine) statements ∧
    statements.filterMap Drawing.node? = findings.nodes ∧
    statements.filterMap Drawing.link? = findings.links := by
  obtain ⟨settings, hsettings, hsettingName, hsettingLink⟩ := exists_states_settings
  choose nodeStatement hnode hnodeName hnodeLink using findings.exists_states_nodeLine addresses
  choose linkStatement hlink hlinkName hlinkLink using exists_states_linkLine
  refine ⟨settings ++ findings.nodes.map nodeStatement ++ findings.links.map linkStatement,
    ?_, ?_, ?_⟩
  · refine List.rel_append (List.rel_append hsettings ?_) ?_
    · simp [List.forall₂_map_left_iff, List.forall₂_map_right_iff, List.forall₂_same, hnode]
    · simp [List.forall₂_map_left_iff, List.forall₂_map_right_iff, List.forall₂_same, hlink]
  · simp [hsettingName, List.filterMap_map, hnodeName, hlinkName]
  · simp [hsettingLink, List.filterMap_map, hnodeLink, hlinkLink]

/-- A reader finds the title, the routines and the links in the text of a graph. -/
theorem read?_dot (findings : Findings) (symbols : Option Symbols) (title : String) :
    Drawing.read? (findings.dot symbols title) = some ⟨title, findings.nodes, findings.links⟩ := by
  let addresses := (symbols.map (·.addressTable)).getD ∅
  obtain ⟨statements, hstates, hnodes, hlinks⟩ := findings.exists_states_lines addresses
  have hopening (rest : List Char) :
      ofText? (("digraph " ++ dotQuoted title ++ " \x7b").toList ++ '\n' :: rest) =
      (ofText? rest).map ([word "digraph", quoted title] ++ sign '{' :: ·) := by
    simp [ofText?, ofText?_dotQuoted, isLetter, isSign, Text.isAsciiBlank, Function.comp_def]
  have hclosing : ofText? ("\x7d".toList ++ ['\n']) = some [sign '}'] := by
    simp [ofText?, isSign, Text.isAsciiBlank]
  have htokens : ofText? (findings.dot symbols title).toList =
      some ([word "digraph", quoted title] ++
        sign '{' :: (statements.flatMap (· ++ [sign ';']) ++ [sign '}'])) := by
    have hbody := spells_of_states hstates ("\x7d".toList ++ ['\n'])
    rw [hclosing] at hbody
    rw [dot, Text.toList_endLines (by simp)]
    simp only [List.flatMap_append, List.append_assoc, List.flatMap_cons, List.flatMap_nil,
      List.append_nil, List.cons_append, List.nil_append] at hbody ⊢
    rw [hopening, hbody]
    rfl
  have hsplit := splitOnP_of_states hstates [sign '}']
  have hlast : [sign '}'].splitOnP isEnd = [[], []] := rfl
  rw [Drawing.read?, htokens, Option.bind_some,
    List.splitOnP_append_cons_of_forall_mem (by simp [isEnd]) _ rfl, hsplit, hlast]
  simp [hnodes, hlinks, Drawing.node?, Drawing.link?]

/-- The text of a graph tells the graph. A quoted text is read as it was, up to the first quote that
    no backslash protects and whatever stands behind that. So a reader of the statements finds the
    title, the routines and the links in their order, whatever quotes, backslashes and line breaks
    are in the names. Hence different links never give the same text. -/
theorem dot_tells_graph :
    (∀ (text : String) (behind : List Char), ∃ written,
      (dotQuoted text).toList ++ behind = '"' :: written ∧
      unquote? written = some (text.toList, behind)) ∧
    (∀ (findings : Findings) (symbols : Option Symbols) (title : String),
      Drawing.read? (findings.dot symbols title) = some ⟨title, findings.nodes, findings.links⟩) ∧
    ∀ (findings other : Findings) (symbols symbols' : Option Symbols) (title title' : String),
      findings.links ≠ other.links → findings.dot symbols title ≠ other.dot symbols' title' := by
  refine ⟨fun text behind => ?_, read?_dot,
    fun findings other symbols symbols' title title' hlinks heq => ?_⟩
  · refine ⟨dotEscape text.toList ++ '"' :: behind, ?_, unquote?_dotEscape_quote text.toList behind⟩
    simp [dotQuoted, dotEscaped]
  · have hread := findings.read?_dot symbols title
    rw [heq, other.read?_dot symbols' title', Option.some.injEq, Drawing.mk.injEq] at hread
    exact hlinks hread.2.2.symm

/-- Names that look like the mark between the two ends of a link. -/
theorem dot_tells_graph_arrow :
    let findings : Findings := { links := [⟨"a\" -> \"b", "c", .call⟩] }
    let other : Findings := { links := [⟨"a", "b\" -> \"c", .call⟩] }
    findings.links ≠ other.links ∧ findings.dot none "calls" ≠ other.dot none "calls" := by
  intro findings other
  have hlinks : findings.links ≠ other.links := by decide
  exact ⟨hlinks, dot_tells_graph.2.2 findings other none none "calls" "calls" hlinks⟩

end Depth.Findings

end Midrange
