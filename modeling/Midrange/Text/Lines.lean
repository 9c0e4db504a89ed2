namespace Midrange.Text

/-- The blank characters of ASCII that stand between bytes and around numbers: the space and
    everything from the tab to the carriage return. -/
def isAsciiBlank (c : Char) : Bool :=
  c == ' ' || ('\t' ≤ c && c ≤ '\r')

/-- The information separators of ASCII, which part fields but do not surround numbers. -/
def isSeparator (c : Char) : Bool :=
  '\x1c' ≤ c && c ≤ '\x1f'

/-- The blank characters of Unicode beyond ASCII. -/
def isWideBlank (c : Char) : Bool :=
  c == '\u0085' || c == '\u00a0' || c == '\u1680' || ('\u2000' ≤ c && c ≤ '\u200a') ||
    c == '\u2028' || c == '\u2029' || c == '\u202f' || c == '\u205f' || c == '\u3000'

/-- Every character that parts the fields of a line or may be trimmed from its ends. -/
def isBlank (c : Char) : Bool :=
  isAsciiBlank c || isSeparator c || isWideBlank c

/-- The blanks that a numeral tolerates around itself. -/
def isNumeralBlank (c : Char) : Bool :=
  isAsciiBlank c || isWideBlank c

/-- The text without the characters of the given class at its two ends. -/
def trim (drop : Char → Bool) (text : List Char) : List Char :=
  ((text.dropWhile drop).reverse.dropWhile drop).reverse

/-- The longest runs of characters that are not blank, in order. -/
def fields : List Char → List (List Char)
  | [] => []
  | c :: rest =>
    if isBlank c then fields rest
    else
      match rest, fields rest with
      | next :: _, run :: runs => if isBlank next then [c] :: run :: runs else (c :: run) :: runs
      | _, runs => [c] :: runs

theorem fields_cons_of_isBlank {c : Char} (hblank : isBlank c = true) (rest : List Char) :
    fields (c :: rest) = fields rest := by
  simp [fields, hblank]

/-- The information separators are the only blanks that a numeral refuses. -/
theorem isBlank_eq_isNumeralBlank_or_isSeparator (c : Char) :
    isBlank c = (isNumeralBlank c || isSeparator c) := by
  simp only [isBlank, isNumeralBlank]
  cases isAsciiBlank c <;> cases isSeparator c <;> cases isWideBlank c <;> rfl

/-- The characters that end a line. -/
def isLineBreak (c : Char) : Bool :=
  ('\n' ≤ c && c ≤ '\r') || ('\x1c' ≤ c && c ≤ '\x1e') ||
    c == '\u0085' || c == '\u2028' || c == '\u2029'

/-- The lines of a text without their ends. A carriage return and the line feed behind it end one
    line together, and nothing after the last end counts as a line. -/
def lines : List Char → List (List Char)
  | [] => []
  | '\r' :: '\n' :: rest => [] :: lines rest
  | c :: rest =>
    if isLineBreak c then [] :: lines rest
    else
      match lines rest with
      | [] => [[c]]
      | line :: more => (c :: line) :: more

/-- The lines of a text with their numbers, counted from one. -/
def numberedLines (text : String) : List (Nat × List Char) :=
  (lines text.toList).zipIdx 1 |>.map fun (line, number) => (number, line)

end Midrange.Text
