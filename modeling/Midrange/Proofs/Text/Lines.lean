import Midrange.Text.Format
import Midrange.Text.Lines

namespace Midrange.Text

variable {c : Char} {line rest : List Char}

/-- Any end of a line, as long as no carriage return and line feed end it together. -/
private theorem lines_break (hbreak : isLineBreak c = true)
    (hpair : c = '\r' → rest.head? ≠ some '\n') : lines (c :: rest) = [] :: lines rest := by
  rw [lines, hbreak, if_pos rfl]
  rintro more rfl rfl
  exact hpair rfl rfl

private theorem lines_feed (rest : List Char) : lines ('\n' :: rest) = [] :: lines rest :=
  lines_break rfl fun hreturn => absurd hreturn (by decide)

/-- A character that ends no line goes on the line that the rest begins with, if there is one. -/
theorem lines_cons_solid (hbreak : isLineBreak c = false) (rest : List Char) :
    lines (c :: rest) = (c :: (lines rest).headD []) :: (lines rest).tail := by
  rw [lines, hbreak]
  · cases lines rest <;> rfl
  · rintro _ rfl
    cases hbreak

theorem lines_cons {first : List Char} {more : List (List Char)} (hbreak : isLineBreak c = false)
    (hrest : lines rest = first :: more) : lines (c :: rest) = (c :: first) :: more := by
  rw [lines_cons_solid hbreak, hrest]
  rfl

/-- A proof about the lines of a text goes through the text as these do: by the two characters that
    end a line together, by any other end of a line, and by a character on a line. -/
@[elab_as_elim]
theorem lines_induction {motive : List Char → Prop} (text : List Char) (nil : motive [])
    (pair : ∀ rest, motive rest → motive ('\r' :: '\n' :: rest))
    (ended : ∀ c rest, isLineBreak c = true → (c = '\r' → rest.head? ≠ some '\n') → motive rest →
      motive (c :: rest))
    (solid : ∀ c rest, isLineBreak c = false → motive rest → motive (c :: rest)) : motive text := by
  induction text using lines.induct with
  | case1 => exact nil
  | case2 rest ih => exact pair rest ih
  | case3 c rest hpair hbreak ih =>
    refine ended c rest hbreak (fun hreturn hfeed => ?_) ih
    obtain ⟨more, hrest⟩ := List.head?_eq_some_iff.mp hfeed
    exact hpair more hreturn hrest
  | case4 c rest _ hbreak _ ih | case5 c rest _ hbreak _ _ _ ih =>
    exact solid c rest (Bool.not_eq_true _ ▸ hbreak) ih

private theorem lines_ne_nil {text : List Char} (htext : text ≠ []) : lines text ≠ [] := by
  induction text using lines_induction with
  | nil => exact absurd rfl htext
  | pair => exact List.cons_ne_nil _ _
  | ended c rest hbreak hpair =>
    rw [lines_break hbreak hpair]
    exact List.cons_ne_nil _ _
  | solid c rest hbreak =>
    rw [lines_cons_solid hbreak]
    exact List.cons_ne_nil _ _

/-- A line feed ends the line in front of it. -/
theorem lines_append_feed (hbreak : ∀ c ∈ line, isLineBreak c = false) (rest : List Char) :
    lines (line ++ '\n' :: rest) = line :: lines rest := by
  induction line with
  | nil => exact lines_feed rest
  | cons c line ih =>
    rw [List.forall_mem_cons] at hbreak
    exact lines_cons hbreak.1 (ih hbreak.2)

/-- Lines that are each ended by a line feed are read back. -/
theorem lines_flatMap_feed {written : List (List Char)}
    (hbreak : ∀ line ∈ written, ∀ c ∈ line, isLineBreak c = false) :
    lines (written.flatMap (· ++ ['\n'])) = written := by
  induction written with
  | nil => rfl
  | cons line rest ih =>
    rw [List.forall_mem_cons] at hbreak
    rw [List.flatMap_cons, List.append_assoc, List.singleton_append, lines_append_feed hbreak.1,
      ih hbreak.2]

/-- A line feed ends a line, whatever stands in front of it. -/
theorem lines_append_feed_append (text rest : List Char) :
    lines (text ++ '\n' :: rest) = lines (text ++ ['\n']) ++ lines rest := by
  induction text using lines_induction with
  | nil => exact lines_feed rest
  | pair text ih => exact congrArg ([] :: ·) ih
  | ended c text hbreak hpair ih =>
    cases text with
    | nil =>
      by_cases hreturn : c = '\r'
      · subst hreturn
        rfl
      · rw [List.cons_append, List.cons_append, lines_break hbreak fun heq => absurd heq hreturn,
          lines_break hbreak fun heq => absurd heq hreturn, ih]
        rfl
    | cons next text =>
      have hends (more : List Char) :
          lines (c :: next :: text ++ more) = [] :: lines (next :: text ++ more) :=
        lines_break hbreak hpair
      rw [hends, hends, ih]
      rfl
  | solid c text hbreak ih =>
    obtain ⟨first, more, hfirst⟩ := List.exists_cons_of_ne_nil
      (lines_ne_nil (List.append_ne_nil_of_right_ne_nil text (List.cons_ne_nil '\n' [])))
    rw [hfirst] at ih
    rw [List.cons_append, List.cons_append, lines_cons hbreak ih, lines_cons hbreak hfirst]
    rfl

/-- A line break: one of the characters that end a line, or a carriage return with a line feed
    behind it. -/
def IsBreak (ending : List Char) : Prop :=
  ending = ['\r', '\n'] ∨ ∃ c, isLineBreak c = true ∧ ending = [c]

/-- Behind a line break the lines of a text follow, but for an empty one in front if the break joins
    its first one. -/
private theorem exists_lines_break {ending : List Char} (hending : IsBreak ending)
    (text : List Char) :
    ∃ blanks rest, (∀ line ∈ blanks, line = []) ∧ blanks.length ≤ 1 ∧
      lines text = blanks ++ rest ∧ lines (ending ++ text) = [] :: rest := by
  obtain rfl | ⟨c, hbreak, rfl⟩ := hending
  · exact ⟨[], lines text, by simp, by simp, rfl, rfl⟩
  · by_cases hpair : c = '\r' ∧ text.head? = some '\n'
    · obtain ⟨rfl, hfeed⟩ := hpair
      obtain ⟨rest, rfl⟩ := List.head?_eq_some_iff.mp hfeed
      exact ⟨[[]], lines rest, by simp, by simp, lines_feed rest, rfl⟩
    · refine ⟨[], lines text, by simp, by simp, rfl, ?_⟩
      exact lines_break hbreak fun hreturn hfeed => hpair ⟨hreturn, hfeed⟩

/-- The lines of a text, then some empty lines, and then the rest make up the lines of the text with
    a tail. -/
private def Joins (text tail : List Char) (rest : List (List Char)) : Prop :=
  ∃ blanks, (∀ line ∈ blanks, line = []) ∧ lines (text ++ tail) = lines text ++ blanks ++ rest

private theorem Joins.cons_solid {c : Char} {text tail : List Char} {rest : List (List Char)}
    (hjoins : Joins text tail rest) (htail : lines tail = [] :: rest)
    (hbreak : isLineBreak c = false) : Joins (c :: text) tail rest := by
  cases text with
  | nil =>
    refine ⟨[], by simp, ?_⟩
    rw [List.singleton_append, lines_cons hbreak htail, lines_cons_solid hbreak]
    rfl
  | cons next text =>
    obtain ⟨blanks, hblanks, hlines⟩ := hjoins
    obtain ⟨first, more, hfirst⟩ :=
      List.exists_cons_of_ne_nil (lines_ne_nil (List.cons_ne_nil next text))
    rw [hfirst] at hlines
    refine ⟨blanks, hblanks, ?_⟩
    rw [List.cons_append, lines_cons hbreak hlines, lines_cons hbreak hfirst]
    rfl

private theorem Joins.cons_break {c : Char} {text tail : List Char} {rest : List (List Char)}
    (hjoins : Joins text tail rest) (hbreak : isLineBreak c = true)
    (htail : c = '\r' → (text ++ tail).head? ≠ some '\n')
    (htext : c = '\r' → text.head? ≠ some '\n') : Joins (c :: text) tail rest := by
  obtain ⟨blanks, hblanks, hlines⟩ := hjoins
  refine ⟨blanks, hblanks, ?_⟩
  rw [List.cons_append, lines_break hbreak htail, lines_break hbreak htext, hlines]
  rfl

/-- A carriage return at the end of a text and a line feed behind it end one line together. -/
private theorem joins_return {tail : List Char} {rest : List (List Char)}
    (htail : lines tail = [] :: rest) (hfeed : tail.head? = some '\n') :
    Joins ['\r'] tail rest := by
  obtain ⟨tail, rfl⟩ := List.head?_eq_some_iff.mp hfeed
  rw [lines_feed] at htail
  exact ⟨[], by simp, congrArg ([] :: ·) (List.cons.inj htail).2⟩

private theorem joins {tail : List Char} {rest : List (List Char)} (htail : lines tail = [] :: rest)
    (text : List Char) : Joins text tail rest := by
  have hnil : Joins [] tail rest := ⟨[[]], by simp, htail⟩
  induction text using lines_induction with
  | nil => exact hnil
  | pair text ih =>
    obtain ⟨blanks, hblanks, hlines⟩ := ih
    exact ⟨blanks, hblanks, congrArg ([] :: ·) hlines⟩
  | ended c text hbreak htext ih =>
    cases text with
    | nil =>
      by_cases hjoined : c = '\r' ∧ tail.head? = some '\n'
      · rw [hjoined.1]
        exact joins_return htail hjoined.2
      · exact hnil.cons_break hbreak (fun hreturn hfeed => hjoined ⟨hreturn, hfeed⟩) htext
    | cons next text => exact ih.cons_break hbreak htext htext
  | solid c text hbreak ih => exact ih.cons_solid htail hbreak

/-- What a line break begins goes on behind the lines of any text, at most an empty line apart. -/
private theorem exists_lines_append {tail : List Char} {rest : List (List Char)}
    (htail : lines tail = [] :: rest) (text : List Char) : ∃ blanks, (∀ line ∈ blanks, line = []) ∧
      lines (text ++ tail) = lines text ++ blanks ++ rest ∧ lines text ++ blanks ≠ [] := by
  obtain ⟨blanks, hblanks, hlines⟩ := joins htail text
  refine ⟨blanks, hblanks, hlines, fun hnone => ?_⟩
  have htext : text = [] := by
    apply Classical.byContradiction
    intro htext
    exact lines_ne_nil htext (List.append_eq_nil_iff.mp hnone).1
  rw [hnone, htext, List.nil_append, List.nil_append, htail] at hlines
  exact List.cons_ne_self _ _ hlines

/-- The lines of two texts with a line break between them are those of the one and those of the
    other, up to empty lines in between. -/
theorem exists_lines_join {ending : List Char} (hending : IsBreak ending) (text more : List Char) :
    ∃ between blanks rest, (∀ line ∈ between, line = []) ∧ (∀ line ∈ blanks, line = []) ∧
      lines (text ++ ending ++ more) = lines text ++ between ++ rest ∧ lines more = blanks ++ rest ∧
      blanks.length ≤ (lines text ++ between).length := by
  obtain ⟨blanks, rest, hblanks, hshort, hmore, htail⟩ := exists_lines_break hending more
  obtain ⟨between, hbetween, hlines, hsome⟩ := exists_lines_append htail text
  rw [← List.append_assoc] at hlines
  exact ⟨between, blanks, rest, hbetween, hblanks, hlines, hmore,
    Nat.le_trans hshort (List.length_pos_iff.mpr hsome)⟩

/-- The first lines of a text, whatever their number, are the lines of a prefix of it. -/
theorem exists_lines_take (text : List Char) (count : Nat) :
    ∃ front back, text = front ++ back ∧ lines front = (lines text).take count := by
  induction text using lines_induction generalizing count with
  | nil => exact ⟨[], [], rfl, List.take_nil.symm⟩
  | pair text ih =>
    cases count with
    | zero => exact ⟨[], _, rfl, rfl⟩
    | succ count =>
      obtain ⟨front, back, rfl, hfront⟩ := ih count
      exact ⟨'\r' :: '\n' :: front, back, rfl, congrArg ([] :: ·) hfront⟩
  | ended c text hbreak hpair ih =>
    cases count with
    | zero => exact ⟨[], _, rfl, rfl⟩
    | succ count =>
      obtain ⟨front, back, rfl, hfront⟩ := ih count
      refine ⟨c :: front, back, rfl, ?_⟩
      rw [lines_break hbreak hpair, lines_break hbreak, hfront, List.take_succ_cons]
      intro hreturn hfeed
      exact hpair hreturn (by rw [List.head?_append, hfeed, Option.some_or])
  | solid c text hbreak ih =>
    cases count with
    | zero => exact ⟨[], _, rfl, rfl⟩
    | succ count =>
      obtain ⟨front, back, rfl, hfront⟩ := ih (count + 1)
      refine ⟨c :: front, back, rfl, ?_⟩
      rw [lines_cons_solid hbreak, lines_cons_solid hbreak, hfront]
      cases lines (front ++ back) <;> simp

/-- A text that begins with no line feed does not begin with one either if its end is replaced by
    what begins with a character that ends no line. -/
private theorem head?_append_ne {c next : Char} {front back : List Char}
    (hpair : c = '\r' → (front ++ back).head? ≠ some '\n') (hsolid : isLineBreak next = false)
    (rest : List Char) (hreturn : c = '\r') : (front ++ next :: rest).head? ≠ some '\n' := by
  intro hfeed
  cases front with
  | nil =>
    obtain rfl := Option.some.inj hfeed
    cases hsolid
  | cons first front => exact hpair hreturn hfeed

/-- What begins with a character that ends no line goes on the last line of the text in front of
    it. -/
theorem exists_lines_append_solid (text : List Char) :
    ∃ above begun, ∀ c rest line more, isLineBreak c = false →
      lines (c :: rest) = line :: more →
      lines (text ++ c :: rest) = above ++ (begun ++ line) :: more := by
  induction text using lines_induction with
  | nil => exact ⟨[], [], fun c rest line more _ hlines => hlines⟩
  | pair text ih =>
    obtain ⟨above, begun, hlines⟩ := ih
    exact ⟨[] :: above, begun, fun c rest line more hbreak hrest =>
      congrArg ([] :: ·) (hlines c rest line more hbreak hrest)⟩
  | ended c text hbreak hpair ih =>
    obtain ⟨above, begun, hlines⟩ := ih
    refine ⟨[] :: above, begun, fun next rest line more hsolid hrest => ?_⟩
    have htext : c = '\r' → (text ++ []).head? ≠ some '\n' := by simpa using hpair
    rw [List.cons_append, lines_break hbreak (head?_append_ne htext hsolid rest),
      hlines next rest line more hsolid hrest]
    rfl
  | solid c text hbreak ih =>
    obtain ⟨above, begun, hlines⟩ := ih
    cases above with
    | nil => exact ⟨[], c :: begun, fun next rest line more hsolid hrest =>
        lines_cons hbreak (hlines next rest line more hsolid hrest)⟩
    | cons first above =>
      exact ⟨(c :: first) :: above, begun, fun next rest line more hsolid hrest =>
        lines_cons hbreak (hlines next rest line more hsolid hrest)⟩

/-- The first line of a text stands in front of all else, and no character in it ends a line. -/
theorem solid_and_prefix_of_lines {text : List Char} {more : List (List Char)}
    (hlines : lines text = line :: more) : (∀ c ∈ line, isLineBreak c = false) ∧ line <+: text := by
  induction text using lines_induction generalizing line more with
  | nil => cases hlines
  | pair text =>
    obtain rfl := (List.cons.inj hlines).1
    exact ⟨by simp, List.nil_prefix⟩
  | ended c text hbreak hpair =>
    rw [lines_break hbreak hpair] at hlines
    obtain rfl := (List.cons.inj hlines).1
    exact ⟨by simp, List.nil_prefix⟩
  | solid c text hbreak ih =>
    rw [lines_cons_solid hbreak] at hlines
    obtain ⟨rfl, -⟩ := List.cons.inj hlines
    rw [List.forall_mem_cons, List.prefix_cons_inj]
    cases hfirst : lines text with
    | nil => exact ⟨⟨hbreak, by simp⟩, List.nil_prefix⟩
    | cons first more =>
      obtain ⟨hsolid, hprefix⟩ := ih hfirst
      exact ⟨⟨hbreak, hsolid⟩, hprefix⟩

/-- A text is cut in front of any of its lines. -/
theorem exists_lines_drop {text : List Char} {place : Nat} (hplace : place < (lines text).length) :
    ∃ front back, text = front ++ back ∧ lines back = (lines text).drop place ∧
      ∀ c rest, isLineBreak c = false →
        lines (front ++ c :: rest) = (lines text).take place ++ lines (c :: rest) := by
  induction text using lines_induction generalizing place with
  | nil => cases hplace
  | pair text ih =>
    cases place with
    | zero => exact ⟨[], _, rfl, rfl, fun c rest _ => rfl⟩
    | succ place =>
      obtain ⟨front, back, rfl, hback, hfront⟩ := ih (Nat.lt_of_succ_lt_succ hplace)
      exact ⟨'\r' :: '\n' :: front, back, rfl, hback,
        fun c rest hbreak => congrArg ([] :: ·) (hfront c rest hbreak)⟩
  | ended c text hbreak hpair ih =>
    rw [lines_break hbreak hpair] at hplace ⊢
    cases place with
    | zero => exact ⟨[], _, rfl, lines_break hbreak hpair, fun c rest _ => rfl⟩
    | succ place =>
      obtain ⟨front, back, rfl, hback, hfront⟩ := ih (Nat.lt_of_succ_lt_succ hplace)
      refine ⟨c :: front, back, rfl, hback, fun next rest hsolid => ?_⟩
      have hnext := head?_append_ne hpair hsolid rest
      rw [List.cons_append, lines_break hbreak hnext, hfront next rest hsolid, List.take_succ_cons,
        List.cons_append]
  | solid c text hbreak ih =>
    cases place with
    | zero => exact ⟨[], _, rfl, rfl, fun c rest _ => rfl⟩
    | succ place =>
      rw [lines_cons_solid hbreak] at hplace ⊢
      obtain ⟨first, more, hfirst⟩ : ∃ first more, lines text = first :: more := by
        refine List.exists_cons_of_ne_nil fun hnone => ?_
        rw [hnone] at hplace
        cases Nat.lt_of_succ_lt_succ hplace
      rw [hfirst] at ih hplace ⊢
      obtain ⟨front, back, rfl, hback, hfront⟩ := ih hplace
      refine ⟨c :: front, back, rfl, hback, fun next rest hsolid => ?_⟩
      rw [List.cons_append, lines_cons hbreak (hfront next rest hsolid)]
      rfl

/-- Characters that end no line are one line. -/
theorem lines_solid (hbreak : ∀ c ∈ line, isLineBreak c = false) (hline : line ≠ []) :
    lines line = [line] := by
  induction line with
  | nil => exact absurd rfl hline
  | cons c line ih =>
    rw [List.forall_mem_cons] at hbreak
    cases line with
    | nil => exact lines_cons_solid hbreak.1 []
    | cons next line => exact lines_cons hbreak.1 (ih hbreak.2 (List.cons_ne_nil next line))

/-- A text is cut within any of its lines. The part in front has the lines above, and what stands of
    that line. -/
theorem exists_lines_begun {text begun rest : List Char} {place : Nat} (hbegun : begun ≠ [])
    (hline : (lines text)[place]? = some (begun ++ rest)) :
    ∃ front back, text = front ++ begun ++ back ∧
      lines (front ++ begun) = (lines text).take place ++ [begun] := by
  obtain ⟨hplace, hget⟩ := List.getElem?_eq_some_iff.mp hline
  obtain ⟨front, back, htext, hback, hfront⟩ := exists_lines_drop hplace
  rw [List.drop_eq_getElem_cons hplace, hget] at hback
  obtain ⟨hsolid, tail, htail⟩ := solid_and_prefix_of_lines hback
  have hbegunSolid : ∀ c ∈ begun, isLineBreak c = false :=
    fun c hmem => hsolid c (List.mem_append_left rest hmem)
  refine ⟨front, rest ++ tail, by rw [htext, ← htail]; simp, ?_⟩
  obtain ⟨first, more, rfl⟩ := List.exists_cons_of_ne_nil hbegun
  rw [hfront first more (hbegunSolid first List.mem_cons_self), lines_solid hbegunSolid hbegun]

/-- An empty line between lines that are each ended by a line feed is one of the lines of the
    text. -/
theorem exists_lines_eq_append (front : List String) (rest : List Char) : ∃ before,
    lines (front.flatMap (fun line => line.toList ++ ['\n']) ++ '\n' :: rest) =
      before ++ [] :: lines rest := by
  obtain rfl | ⟨front, last, rfl⟩ := front.eq_nil_or_concat
  · exact ⟨[], lines_feed rest⟩
  · have hsplit :=
      lines_append_feed_append (front.flatMap (fun line => line.toList ++ ['\n']) ++ last.toList)
        ('\n' :: rest)
    rw [lines_feed] at hsplit
    exact ⟨_, by simpa using hsplit⟩

theorem toList_endLines {written : List String} (hwritten : written ≠ []) :
    (endLines written).toList = written.flatMap fun line => line.toList ++ ['\n'] := by
  induction written with
  | nil => exact absurd rfl hwritten
  | cons line rest ih =>
    cases rest with
    | nil => simp [endLines]
    | cons next rest =>
      rw [List.flatMap_cons, ← ih (List.cons_ne_nil next rest), endLines, endLines,
        String.intercalate_cons_cons]
      simp

private theorem dropWhile_kept {drop : Char → Bool} (hline : ∀ c ∈ line, drop c = false) :
    line.dropWhile drop = line := by
  cases line with
  | nil => rfl
  | cons c rest => exact List.dropWhile_cons_of_neg (by simp [hline c List.mem_cons_self])

/-- What is to be dropped around a text that keeps all of its own characters is trimmed off. -/
theorem trim_append {drop : Char → Bool} {front back : List Char}
    (hfront : ∀ c ∈ front, drop c = true) (hline : ∀ c ∈ line, drop c = false)
    (hback : ∀ c ∈ back, drop c = true) : trim drop (front ++ line ++ back) = line := by
  rw [trim, List.append_assoc, List.dropWhile_append_of_pos hfront]
  cases line with
  | nil =>
    rw [List.nil_append, ← List.append_nil back, List.dropWhile_append_of_pos hback]
    rfl
  | cons c line =>
    rw [List.cons_append, List.dropWhile_cons_of_neg (by simp [hline c List.mem_cons_self]),
      ← List.cons_append, List.reverse_append,
      List.dropWhile_append_of_pos fun c hmem => hback c (List.mem_reverse.mp hmem),
      dropWhile_kept fun c hmem => hline c (List.mem_reverse.mp hmem), List.reverse_reverse]

/-- A text without any of the characters to drop keeps all of its own. -/
theorem trim_eq_self {drop : Char → Bool} (hline : ∀ c ∈ line, drop c = false) :
    trim drop line = line := by
  rw [trim, dropWhile_kept hline, dropWhile_kept fun c hmem => hline c (List.mem_reverse.mp hmem),
    List.reverse_reverse]

/-- What is trimmed off a text stands at its two ends. -/
theorem exists_of_trim (drop : Char → Bool) (text : List Char) : ∃ front back,
    text = front ++ trim drop text ++ back ∧ (∀ c ∈ front, drop c = true) ∧
    ∀ c ∈ back, drop c = true := by
  refine ⟨text.takeWhile drop, ((text.dropWhile drop).reverse.takeWhile drop).reverse, ?_,
    fun c hmem => List.all_eq_true.mp List.all_takeWhile c hmem,
    fun c hmem => List.all_eq_true.mp List.all_takeWhile c (List.mem_reverse.mp hmem)⟩
  rw [List.append_assoc, trim, ← List.reverse_append, List.takeWhile_append_dropWhile,
    List.reverse_reverse, List.takeWhile_append_dropWhile]

/-- The characters behind the last one to be kept do not decide what is kept in front of it. -/
theorem exists_trim_eq (drop : Char → Bool) (behind : List Char) :
    ∃ kept, ∀ blanks left inner right,
      (∀ c ∈ blanks, drop c = true) → drop left = false → drop right = false →
      trim drop (blanks ++ left :: (inner ++ right :: behind)) =
        left :: (inner ++ right :: kept) := by
  refine ⟨(behind.reverse.dropWhile drop).reverse,
    fun blanks left inner right hblanks hleft hright => ?_⟩
  have hfront : (blanks ++ left :: (inner ++ right :: behind)).dropWhile drop =
      left :: (inner ++ right :: behind) := by
    rw [List.dropWhile_append_of_pos hblanks, List.dropWhile_cons_of_neg (by simp [hleft])]
  have hback : (behind.reverse ++ right :: (left :: inner).reverse).dropWhile drop =
      behind.reverse.dropWhile drop ++ right :: (left :: inner).reverse := by
    rw [List.dropWhile_append]
    split
    · next hnone =>
      rw [List.isEmpty_iff.mp hnone, List.dropWhile_cons_of_neg (by simp [hright]),
        List.nil_append]
    · rfl
  have hreverse : (left :: (inner ++ right :: behind)).reverse =
      behind.reverse ++ right :: (left :: inner).reverse := by
    simp
  rw [trim, hfront, hreverse, hback]
  simp

/-- Lines with their numbers, from some number on. -/
def numbered (raws : List (List Char)) (first : Nat) : List (Nat × List Char) :=
  (raws.zipIdx first).map fun (line, number) => (number, line)

theorem numbered_cons (line : List Char) (raws : List (List Char)) (first : Nat) :
    numbered (line :: raws) first = (first, line) :: numbered raws (first + 1) :=
  rfl

theorem numbered_append (raws others : List (List Char)) (first : Nat) :
    numbered (raws ++ others) first =
      numbered raws first ++ numbered others (first + raws.length) := by
  simp only [numbered, List.zipIdx_append, List.map_append]

end Midrange.Text
