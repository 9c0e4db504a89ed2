import Midrange.Proofs.Basic
import Midrange.Proofs.Image.HexReading
import Midrange.Proofs.Text.Fields

namespace Midrange

open Record (Carries Broken Holds Spells)

namespace HexFile

variable {text : String} {lines other : List (List Char)} {line : List Char} {place index : Nat}

/-- The pair of digits that spells a byte of a record in a text. So many lines stand above the one
    of the record. On that line there are blanks, the mark, and what spells the bytes in front of
    the pair. -/
structure BytePair (text : String) (place index : Nat) where
  front : List Char
  first : Char
  second : Char
  back : List Char
  blanks : List Char
  digits : List Char
  earlier : List Nat
  high : Nat
  low : Nat
  text_eq : text.toList = front ++ first :: second :: back
  lines_eq : Text.lines (front ++ [first, second]) =
    (Text.lines text.toList).take place ++ [blanks ++ ':' :: (digits ++ [first, second])]
  isBlank : ∀ c ∈ blanks, Text.isBlank c = true
  spells : Spells digits earlier
  length_eq : earlier.length = index
  first_eq : Text.hexDigitValue? first = some high
  second_eq : Text.hexDigitValue? second = some low

namespace BytePair

/-- The byte that the pair spells. -/
def value (pair : BytePair text place index) : Nat :=
  16 * pair.high + pair.low

/-- The text with other characters instead of the pair. -/
def replace (pair : BytePair text place index) (first second : Char) : String :=
  String.ofList (pair.front ++ first :: second :: pair.back)

theorem replace_self (pair : BytePair text place index) :
    pair.replace pair.first pair.second = text := by
  rw [replace, ← pair.text_eq, String.ofList_toList]

/-- Digits in the place of a pair stand where it stood, and all other lines stay the same. -/
theorem exists_linesOf_replace (pair : BytePair text place index) :
    ∃ post more, ∀ first second high low,
    Text.hexDigitValue? first = some high → Text.hexDigitValue? second = some low →
      linesOf (pair.replace first second) =
        (linesOf text).take place ++ (':' :: (pair.digits ++ first :: second :: post)) :: more := by
  obtain ⟨above, begun, hfront⟩ := Text.exists_lines_append_solid pair.front
  obtain ⟨post, htrim⟩ := Text.exists_trim_eq Text.isBlank ((Text.lines pair.back).headD [])
  have hsolid {c : Char} {value : Nat} (hvalue : Text.hexDigitValue? c = some value) :
      Text.isLineBreak c = false :=
    Text.isLineBreak_of_isBlank (Text.isBlank_of_hexDigitValue? hvalue)
  have hfirst := hsolid pair.first_eq
  have hsecond := hsolid pair.second_eq
  have hpair : Text.lines [pair.first, pair.second] = [[pair.first, pair.second]] :=
    Text.lines_solid (by simp [hfirst, hsecond]) (List.cons_ne_nil _ _)
  -- the line of the pair is the one that the text in front of it leaves open
  obtain ⟨habove, hbegun⟩ :=
    List.append_singleton_inj.mp ((hfront _ _ _ _ hfirst hpair).symm.trans pair.lines_eq)
  have hbegun : begun = pair.blanks ++ ':' :: pair.digits := by
    rw [← List.cons_append, ← List.append_assoc] at hbegun
    exact List.append_cancel_right hbegun
  refine ⟨post, (Text.lines pair.back).tail.map (Text.trim Text.isBlank),
    fun first second high low hhigh hlow => ?_⟩
  have hrest := Text.lines_cons (hsolid hhigh) (Text.lines_cons_solid (hsolid hlow) pair.back)
  rw [linesOf, linesOf, replace, String.toList_ofList, hfront _ _ _ _ (hsolid hhigh) hrest,
    hbegun, habove, ← List.map_take, List.map_append, List.map_cons]
  have hline := htrim pair.blanks ':' (pair.digits ++ [first]) second pair.isBlank (by decide)
    (Text.isBlank_of_hexDigitValue? hlow)
  simp only [List.append_assoc, List.cons_append, List.nil_append] at hline ⊢
  rw [hline]

end BytePair

/-- Whether a line is wrong goes by the lines up to it. -/
theorem Wrong.of_take_eq (hsame : lines.take place = other.take place) {earlier : Nat}
    (hless : earlier < place) (hwrong : Wrong lines earlier) : Wrong other earlier := by
  obtain ⟨line, upper, hline, hsome, hgoes, hbased, hmalformed⟩ := hwrong
  have htake : lines.take earlier = other.take earlier := by
    have hshorter := congrArg (List.take earlier) hsame
    rwa [List.take_take, List.take_take, Nat.min_eq_left (Nat.le_of_lt hless)] at hshorter
  rw [← List.getElem?_take_of_lt hless, hsame, List.getElem?_take_of_lt hless] at hline
  rw [htake] at hgoes hbased
  exact ⟨line, upper, hline, hsome, hgoes, hbased, hmalformed⟩

theorem exists_based (lines : List (List Char)) : ∃ upper, Based lines upper := by
  induction lines using List.reverseRecOn with
  | nil => exact ⟨0, .start⟩
  | append_singleton before line ih =>
    obtain ⟨upper, hbased⟩ := ih
    by_cases hextends : ∃ other, Extends line other
    · obtain ⟨other, hother⟩ := hextends
      exact ⟨other, .extended hother⟩
    · exact ⟨upper, .kept hbased fun other hother => hextends ⟨other, hother⟩⟩

/-- A broken line behind lines that are right is the one that is told. -/
theorem exists_fault_of_broken {corrupted : String} {line : List Char}
    (hright : ∀ earlier < place, ¬ Wrong (linesOf corrupted) earlier)
    (hgoes : ∀ earlier ∈ (linesOf corrupted).take place, ¬ EndsFile earlier)
    (hline : (linesOf corrupted)[place]? = some line) (hsome : line ≠ []) (hbroken : Broken line) :
    ∃ fault, Image.ofHex corrupted = .error (.record (place + 1) fault) := by
  obtain ⟨upper, hbased⟩ := exists_based ((linesOf corrupted).take place)
  have hwrong : Wrong (linesOf corrupted) place :=
    ⟨line, upper, hline, hsome, hgoes, hbased, .broken hbroken⟩
  have hyields := HexReading.yields_ofHex corrupted
  generalize Image.ofHex corrupted = outcome at hyields ⊢
  cases hyields with
  | @wrong first fault hleast =>
    obtain rfl : first = place :=
      Nat.le_antisymm (hleast.2 hwrong) (Nat.le_of_not_lt fun hless => hright first hless hleast.1)
    exact ⟨fault, rfl⟩
  | image hnone => exact absurd hwrong (hnone place)

/-- In a text that is accepted no line is wrong. -/
theorem not_wrong_of_ok {image : Image} (haccepted : Image.ofHex text = .ok image) (place : Nat) :
    ¬ Wrong (linesOf text) place := by
  have hyields := HexReading.yields_ofHex text
  rw [haccepted] at hyields
  cases hyields with
  | image hright => exact hright place

/-- The lines of a text that is accepted carry records up to the one that ends the file, unless they
    are blank. -/
theorem exists_carries_of_ok {image : Image} (haccepted : Image.ofHex text = .ok image)
    (hline : (linesOf text)[place]? = some line) (hsome : line ≠ [])
    (hgoes : ∀ earlier ∈ (linesOf text).take place, ¬ EndsFile earlier) :
    ∃ record, Carries line record := by
  obtain hcarries | hbroken := Record.carries_or_broken line
  · exact hcarries
  · obtain ⟨fault, hfault⟩ :=
      exists_fault_of_broken (fun earlier _ => not_wrong_of_ok haccepted earlier) hgoes hline
      hsome hbroken
    rw [haccepted] at hfault
    cases hfault

/-- Every byte of a record in a text has a pair of digits. -/
theorem exists_bytePair {bytes : List Nat} {value : Nat}
    (hline : (linesOf text)[place]? = some line) (hholds : Holds line bytes)
    (hvalue : bytes[index]? = some value) : Nonempty (BytePair text place index) := by
  rw [linesOf, List.getElem?_map, Option.map_eq_some_iff] at hline
  obtain ⟨raw, hraw, htrim⟩ := hline
  obtain ⟨digits, rfl, hspells⟩ := hholds
  obtain ⟨front, first, second, back, earlier, high, low, rfl, hfront, hlength, hhigh, hlow, -⟩ :=
    hspells.exists_pair hvalue
  obtain ⟨blanks, tail, hparts, hblanks, -⟩ := Text.exists_of_trim Text.isBlank raw
  rw [htrim] at hparts
  have hbegun : raw = (blanks ++ ':' :: (front ++ [first, second])) ++ (back ++ tail) := by
    rw [hparts]
    simp
  rw [hbegun] at hraw
  obtain ⟨above, below, htext, hlines⟩ := Text.exists_lines_begun (by simp) hraw
  exact ⟨{
    front := above ++ (blanks ++ ':' :: front), first, second, back := below, blanks
    digits := front, earlier, high, low
    text_eq := by rw [htext]; simp
    lines_eq := by rw [← hlines]; simp
    isBlank := hblanks
    spells := hfront
    length_eq := hlength
    first_eq := hhigh
    second_eq := hlow }⟩

namespace BytePair

variable {bytes : List Nat} (pair : BytePair text place index)

/-- With other digits in the place of a pair the lines above stay the same, and the one of the
    record holds another byte there, and the same ones elsewhere. -/
theorem holds_replace (hline : (linesOf text)[place]? = some line) (hholds : Holds line bytes) :
    ∃ behind, bytes = pair.earlier ++ pair.value :: behind ∧ ∀ first second high low,
      Text.hexDigitValue? first = some high → Text.hexDigitValue? second = some low →
        (linesOf (pair.replace first second)).take place = (linesOf text).take place ∧
        ∃ line, (linesOf (pair.replace first second))[place]? = some line ∧
          Holds line (pair.earlier ++ (16 * high + low) :: behind) := by
  obtain ⟨post, more, hlines⟩ := pair.exists_linesOf_replace
  generalize habove : (linesOf text).take place = above at hlines ⊢
  have hlength : above.length = place := by
    have hplace := (List.getElem?_eq_some_iff.mp hline).1
    rw [← habove, List.length_take, Nat.min_eq_left (Nat.le_of_lt hplace)]
  have hsame := hlines _ _ _ _ pair.first_eq pair.second_eq
  rw [pair.replace_self] at hsame
  rw [hsame, List.getElem?_append_right (Nat.le_of_eq hlength), hlength, Nat.sub_self] at hline
  obtain ⟨digits, hdigits, hspells⟩ := hholds
  obtain rfl := (List.cons.inj ((Option.some.inj hline).trans hdigits)).2
  obtain ⟨rest, rfl, hrest⟩ := pair.spells.of_append hspells
  obtain ⟨behind, rfl, hbehind⟩ := (Spells.pair pair.first_eq pair.second_eq .nil).of_append hrest
  refine ⟨behind, rfl, fun first second high low hhigh hlow => ?_⟩
  rw [hlines first second high low hhigh hlow]
  refine ⟨List.take_left' hlength, _, ?_, _, rfl, pair.spells.append (.pair hhigh hlow hbehind)⟩
  rw [List.getElem?_append_right (Nat.le_of_eq hlength), hlength, Nat.sub_self]
  rfl

end BytePair

/-- A change of any one byte of a record is told. In a text that is accepted, let a line that is not
    blank stand at a place up to the first record that ends the file. That line holds the bytes that
    make a record. Each of them has its pair of digits in the text, and with a pair for any other
    byte instead the line is refused by its number. -/
theorem ofHex_refuses_other_byte {image : Image} (haccepted : Image.ofHex text = .ok image)
    (hline : (linesOf text)[place]? = some line) (hsome : line ≠ [])
    (hgoes : ∀ earlier ∈ (linesOf text).take place, ¬ EndsFile earlier) :
    ∃ (record : Record) (check : Nat), Holds line (record.toBytes check) ∧ ∀ (index value : Nat),
      (record.toBytes check)[index]? = some value → Nonempty (BytePair text place index) ∧
        ∀ pair : BytePair text place index, pair.value = value ∧ ∀ first second high low,
          Text.hexDigitValue? first = some high → Text.hexDigitValue? second = some low →
          16 * high + low ≠ value →
            ∃ fault, Image.ofHex (pair.replace first second) =
              .error (.record (place + 1) fault) := by
  obtain ⟨record, check, hholds, hsum⟩ := exists_carries_of_ok haccepted hline hsome hgoes
  refine ⟨record, check, hholds,
    fun index value hvalue => ⟨exists_bytePair hline hholds hvalue, fun pair => ?_⟩⟩
  obtain ⟨behind, hbytes, hreplace⟩ := pair.holds_replace hline hholds
  obtain rfl : pair.value = value := by
    rw [hbytes, List.getElem?_append_right (Nat.le_of_eq pair.length_eq), pair.length_eq,
      Nat.sub_self] at hvalue
    exact Option.some.inj hvalue
  refine ⟨rfl, fun first second high low hhigh hlow hother => ?_⟩
  obtain ⟨htake, corrupted, hhere, hcorrupted⟩ := hreplace first second high low hhigh hlow
  refine exists_fault_of_broken (fun earlier hless hwrong => ?_) (htake ▸ hgoes) hhere ?_
    (.unbalanced hcorrupted ?_)
  · exact not_wrong_of_ok haccepted earlier (hwrong.of_take_eq htake hless)
  · rintro rfl
    obtain ⟨digits, hmark, -⟩ := hcorrupted
    cases hmark
  · rw [hbytes] at hsum
    have hhigh := Text.hexDigitValue?_lt hhigh
    have hlow := Text.hexDigitValue?_lt hlow
    have hpairHigh := Text.hexDigitValue?_lt pair.first_eq
    have hpairLow := Text.hexDigitValue?_lt pair.second_eq
    simp only [List.sum_append, List.sum_cons, BytePair.value] at hsum hother ⊢
    omega

private def twoRecords : String :=
  ":040000000528820746\n:00000001FF\n"

/-- The record that ends the file would be one of data. -/
theorem ofHex_refuses_other_kind : (∃ image, Image.ofHex twoRecords = .ok image) ∧
    ∃ fault, Image.ofHex ":040000000528820746\n:00000000FF\n" = .error (.record 2 fault) := by
  obtain ⟨image, haccepted⟩ : ∃ image, Image.ofHex twoRecords = .ok image := by decide +kernel
  have hdata : Carries ":040000000528820746".toList ⟨0, 0, [0x05, 0x28, 0x82, 0x07]⟩ :=
    Record.ofLine_eq_ok_iff.mp (by decide +kernel)
  have hline : (linesOf twoRecords)[1]? = some ":00000001FF".toList := by decide +kernel
  have habove : (linesOf twoRecords).take 1 = [":040000000528820746".toList] := by decide +kernel
  have hgoes : ∀ earlier ∈ (linesOf twoRecords).take 1, ¬ EndsFile earlier := by
    rw [habove]
    intro earlier hmem hends
    rw [List.mem_singleton.mp hmem, endsFile_iff hdata] at hends
    cases hends
  obtain ⟨record, check, hholds, hrefuses⟩ :=
    ofHex_refuses_other_byte haccepted hline (by decide) hgoes
  have hbytes : Holds ":00000001FF".toList [0x00, 0x00, 0x00, 0x01, 0xff] :=
    ⟨_, rfl, Record.bytes?_eq_some_iff.mp (by decide +kernel)⟩
  let pair : BytePair twoRecords 1 3 := {
    front := ":040000000528820746\n:000000".toList, first := '0', second := '1'
    back := "FF\n".toList, blanks := []
    digits := "000000".toList, earlier := [0x00, 0x00, 0x00], high := 0, low := 1
    text_eq := by decide +kernel
    lines_eq := by decide +kernel
    isBlank := by simp
    spells := Record.bytes?_eq_some_iff.mp (by decide +kernel)
    length_eq := rfl
    first_eq := by decide
    second_eq := by decide }
  have hvalue : (record.toBytes check)[3]? = some 1 := by rw [hholds.unique hbytes]; rfl
  obtain ⟨fault, hfault⟩ :=
    ((hrefuses 3 1 hvalue).2 pair).2 '0' '0' 0 0 (by decide) (by decide) (by decide)
  exact ⟨⟨image, haccepted⟩, fault, hfault⟩

end HexFile

end Midrange
