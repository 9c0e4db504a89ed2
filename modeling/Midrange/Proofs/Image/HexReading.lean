import Midrange.Proofs.Image.Bytes
import Midrange.Proofs.Image.HexFile
import Midrange.Proofs.Text.Lines

namespace Midrange

open Record (Carries Broken)

namespace HexFile

variable {before lines : List (List Char)} {line : List Char} {base : Int} {image stored : Image}
  {data : List Nat}

/-- An image shows what lines put into it: words are present where there are any bytes, and each
    half of a word is the last byte that was put there. -/
structure Shows (lines : List (List Char)) (image : Image) : Prop where
  bounded : image.Bounded
  isPresent_iff : ∀ address, image.isPresent address = true ↔
    ∃ byteAddress, Landed lines byteAddress ∧ byteAddress / 2 = address
  byteAt_last : ∀ byteAddress value, Last lines byteAddress value → image.byteAt byteAddress = value
  byteAt_none : ∀ byteAddress, ¬ Landed lines byteAddress → image.byteAt byteAddress = 0

theorem shows_nil (limit : Int) : Shows [] (.blank limit) := by
  constructor
  case bounded => simp [Image.Bounded]
  case isPresent_iff => simp [Image.isPresent_iff, not_landed_nil]
  case byteAt_last => exact fun _ _ hlast => absurd hlast not_last_nil
  case byteAt_none => simp [Image.byteAt]

theorem Shows.writes (hshows : Shows before image) (hwrites : image.Writes base data stored)
    (hlands : ∀ byteAddress value, Lands before line byteAddress value ↔
      ∃ index : Nat, data[index]? = some value ∧ base + index = byteAddress) :
    Shows (before ++ [line]) stored := by
  have hnone (byteAddress : Int) (hnone : ∀ value, ¬ Lands before line byteAddress value) :
      stored.byteAt byteAddress = image.byteAt byteAddress := by
    refine hwrites.byteAt_other byteAddress fun index hindex heq => ?_
    exact hnone _ ((hlands _ _).mpr ⟨index, List.getElem?_eq_getElem hindex, heq⟩)
  constructor
  case bounded => exact hwrites.bounded hshows.bounded
  case isPresent_iff =>
    intro address
    rw [hwrites.isPresent_iff, hshows.isPresent_iff]
    simp only [landed_concat_iff, hlands, or_and_right, exists_or]
    refine or_congr_right ⟨?_, ?_⟩
    · rintro ⟨index, hindex, heq⟩
      exact ⟨base + index, ⟨_, index, List.getElem?_eq_getElem hindex, rfl⟩, heq⟩
    · rintro ⟨_, ⟨_, index, hindex, rfl⟩, heq⟩
      exact ⟨index, (List.getElem?_eq_some_iff.mp hindex).1, heq⟩
  case byteAt_last =>
    intro byteAddress value hlast
    obtain hhere | ⟨hlast, hnothing⟩ := last_concat_iff.mp hlast
    · obtain ⟨index, hindex, rfl⟩ := (hlands _ _).mp hhere
      exact hwrites.byteAt_data index value hindex
    · rw [hnone byteAddress hnothing]
      exact hshows.byteAt_last byteAddress value hlast
  case byteAt_none =>
    intro byteAddress hnothing
    rw [landed_concat_iff, not_or, not_exists] at hnothing
    rw [hnone byteAddress hnothing.2]
    exact hshows.byteAt_none byteAddress hnothing.1

end HexFile

namespace HexReading

open HexFile

variable {reading : HexReading} {lines before rest : List (List Char)} {line : List Char}
  {record : Record} {upper : Nat}

/-- What holds of a reading behind some lines: it has the base that they set, and the image shows
    what they put. -/
structure Sound (before : List (List Char)) (reading : HexReading) : Prop where
  limit_eq : reading.image.limit = 0x2200
  based : Based before reading.upper
  shows : Shows before reading.image

theorem sound_nil : Sound [] {} :=
  ⟨rfl, .start, shows_nil Symbols.imageLimit⟩

/-- A line without data changes nothing but the base. -/
private theorem Sound.advance (hsound : Sound before reading)
    (hbased : Based (before ++ [line]) upper)
    (hkind : ∀ record, Carries line record → record.kind ≠ 0) (ended : Bool) :
    Sound (before ++ [line]) ⟨reading.image, upper, ended⟩ := by
  refine ⟨hsound.limit_eq, hbased,
    hsound.shows.writes (.nil reading.image 0) fun byteAddress value => ?_⟩
  refine iff_of_false ?_ (by simp)
  rintro ⟨_, record, _, hcarries, hdata, _⟩
  exact hkind record hcarries hdata

private theorem Sound.based_concat (hsound : Sound before reading)
    (hkind : ∀ record, Carries line record → record.kind ≠ 2 ∧ record.kind ≠ 4) :
    Based (before ++ [line]) reading.upper := by
  refine .kept hsound.based fun other hextends => ?_
  cases hextends with
  | segment hcarries => exact (hkind _ hcarries).1 rfl
  | linear hcarries => exact (hkind _ hcarries).2 rfl

/-- Any other line changes nothing. -/
theorem Sound.pass (hsound : Sound before reading)
    (hkind : ∀ record, Carries line record → record.kind ≠ 0 ∧ record.kind ≠ 2 ∧ record.kind ≠ 4) :
    Sound (before ++ [line]) reading := by
  have hbased := hsound.based_concat fun record hcarries => (hkind record hcarries).2
  exact hsound.advance hbased (fun record hcarries => (hkind record hcarries).1) reading.ended

/-- A line with data puts just these. -/
private theorem Sound.lands_iff (hsound : Sound before reading) (hcarries : Carries line record)
    (hkind : record.kind = 0) (byteAddress : Int) (value : Nat) :
    Lands before line byteAddress value ↔
      ∃ index : Nat, record.data[index]? = some value ∧
        ((reading.upper + record.address : Nat) : Int) + index = byteAddress := by
  constructor
  · rintro ⟨upper, record', hbased, hcarries', _, hdata⟩
    obtain rfl := hbased.unique hsound.based
    obtain rfl := hcarries'.unique hcarries
    exact hdata
  · exact fun hdata => ⟨_, record, hsound.based, hcarries, hkind, hdata⟩

/-- Data are stored, unless a byte lies beyond the last word. -/
private theorem Sound.storeBytes_cases (hsound : Sound before reading)
    (hcarries : Carries line record) (hkind : record.kind = 0) :
    (∃ stored,
      storeBytes reading.image (reading.upper + record.address : Nat) record.data = .ok stored ∧
      Sound (before ++ [line]) { reading with image := stored } ∧
      ∀ index < record.data.length, (reading.upper + record.address + index) / 2 < 0x2200) ∨
    (∃ fault,
      storeBytes reading.image (reading.upper + record.address : Nat) record.data =
        .error fault) ∧
      ∃ index < record.data.length, 0x2200 ≤ (reading.upper + record.address + index) / 2 := by
  have hlimit := hsound.limit_eq
  obtain ⟨stored, hstored, hwrites, hbelow⟩ | ⟨hfault, index, hindex, hbeyond⟩ :=
    HexReading.storeBytes_cases reading.image (Int.natCast_nonneg (reading.upper + record.address))
      hcarries.lt
  · have hbased : Based (before ++ [line]) reading.upper := by
      apply hsound.based_concat
      intro record' hcarries'
      rw [hcarries'.unique hcarries, hkind]
      decide
    have hshows := hsound.shows.writes hwrites (hsound.lands_iff hcarries hkind)
    refine Or.inl ⟨stored, hstored, ⟨hwrites.limit_eq.trans hlimit, hbased, hshows⟩,
      fun index hindex => ?_⟩
    have hless := hbelow index hindex
    omega
  · refine Or.inr ⟨hfault, index, hindex, ?_⟩
    omega

private theorem extension?_cases (scale : Nat) (data : List Nat) :
    (∃ high low, data = [high, low]) ∨ extension? scale data = none ∧ data.length ≠ 2 := by
  match data with
  | [] | [_] => exact Or.inr ⟨rfl, by simp⟩
  | [high, low] => exact Or.inl ⟨high, low, rfl⟩
  | _ :: _ :: _ :: _ => exact Or.inr ⟨rfl, by simp⟩

/-- A reading takes a record on a line that is well-formed, and refuses any other. -/
theorem take_cases (hsound : Sound before reading) (hcarries : Carries line record) :
    (∃ next, reading.take record = .ok next ∧ ¬ Malformed reading.upper line ∧
      (record.kind = 1 ∧ next = { reading with ended := true } ∨
        record.kind ≠ 1 ∧ next.ended = reading.ended ∧ Sound (before ++ [line]) next)) ∨
    (∃ fault, reading.take record = .error fault) ∧ Malformed reading.upper line := by
  rw [malformed_iff hcarries]
  have hkinds (other : Record) (hother : Carries line other) : other.kind = record.kind := by
    rw [hother.unique hcarries]
  have hstores := hsound.storeBytes_cases hcarries
  obtain ⟨address, kind, data⟩ := record
  match kind with
  | 0 =>
    obtain ⟨stored, hstored, hnext, hbelow⟩ | ⟨⟨fault, hfault⟩, hbeyond⟩ := hstores rfl
    · refine Or.inl ⟨{ reading with image := stored }, ?_, ?_, Or.inr ⟨by simp, rfl, hnext⟩⟩
      · simp only [take, hstored]
        rfl
      · simpa using hbelow
    · refine Or.inr ⟨⟨fault, ?_⟩, Or.inr (Or.inr ⟨rfl, hbeyond⟩)⟩
      simp only [take, hfault]
      rfl
  | 1 => exact Or.inl ⟨_, rfl, by simp, Or.inl ⟨rfl, rfl⟩⟩
  | 2 =>
    obtain ⟨high, low, rfl⟩ | ⟨hnone, hlength⟩ := extension?_cases 0x10 data
    · refine Or.inl ⟨_, rfl, by simp, Or.inr ⟨by simp, rfl, ?_⟩⟩
      exact hsound.advance (.extended (.segment hcarries))
        (fun other hother => by simp [hkinds other hother]) _
    · refine Or.inr ⟨⟨.segmentLength, ?_⟩, Or.inr (Or.inl ⟨Or.inl rfl, hlength⟩)⟩
      simp only [take, hnone]
  | 4 =>
    obtain ⟨high, low, rfl⟩ | ⟨hnone, hlength⟩ := extension?_cases 0x10000 data
    · refine Or.inl ⟨_, rfl, by simp, Or.inr ⟨by simp, rfl, ?_⟩⟩
      exact hsound.advance (.extended (.linear hcarries))
        (fun other hother => by simp [hkinds other hother]) _
    · refine Or.inr ⟨⟨.linearLength, ?_⟩, Or.inr (Or.inl ⟨Or.inr rfl, hlength⟩)⟩
      simp only [take, hnone]
  | 3 | 5 =>
    refine Or.inl ⟨reading, rfl, by simp, Or.inr ⟨by simp, rfl, ?_⟩⟩
    exact hsound.pass fun other hother => by simp [hkinds other hother]
  | kind + 6 => exact Or.inr ⟨⟨_, rfl⟩, Or.inl (by simp)⟩

/-- A line is read if it is well-formed. It ends the file, or the reading goes on behind it. -/
theorem line_cases (hsound : Sound before reading) (line : List Char) :
    (∃ next, (Record.ofLine line >>= reading.take) = .ok next ∧ ¬ Malformed reading.upper line ∧
      (EndsFile line ∧ next = { reading with ended := true } ∨
        ¬ EndsFile line ∧ next.ended = reading.ended ∧ Sound (before ++ [line]) next)) ∨
    (∃ fault, (Record.ofLine line >>= reading.take) = .error fault) ∧
    Malformed reading.upper line := by
  obtain ⟨record, hcarries⟩ | hbroken := Record.carries_or_broken line
  · rw [Record.ofLine_eq_ok_iff.mpr hcarries, endsFile_iff hcarries]
    exact take_cases hsound hcarries
  · cases hline : Record.ofLine line with
    | error fault => exact Or.inr ⟨⟨fault, rfl⟩, .broken hbroken⟩
    | ok record => exact absurd (Record.ofLine_eq_ok_iff.mp hline) hbroken.not_carries

/-- What comes of a file: the number of its first wrong line, or else the image that shows what the
    lines in front of its end put. -/
inductive Yields (lines : List (List Char)) : Except ImageFault Image → Prop where
  | wrong {place : Nat} {fault : RecordFault} (hleast : IsLeast {place | Wrong lines place} place) :
      Yields lines (.error (.record (place + 1) fault))
  | image {count : Nat} {image : Image} (hright : ∀ place, ¬ Wrong lines place)
      (hgoes : ∀ line ∈ lines.take count, ¬ EndsFile line)
      (hends : ∀ line, lines[count]? = some line → EndsFile line)
      (hshows : Shows (lines.take count) image) : Yields lines (.ok image)

/-- A reading has got behind some lines of a file, none of which is wrong or ends it. -/
structure Reached (lines before rest : List (List Char)) (reading : HexReading) : Prop where
  lines_eq : lines = before ++ rest
  sound : Sound before reading
  ended_eq : reading.ended = false
  goes : ∀ line ∈ before, ¬ EndsFile line
  right : ∀ place < before.length, ¬ Wrong lines place

namespace Reached

theorem yields_nil (hreached : Reached lines before [] reading) :
    Yields lines (.ok reading.image) := by
  obtain rfl : lines = before := by simpa using hreached.lines_eq
  have hends (line : List Char) (hline : lines[lines.length]? = some line) : EndsFile line := by
    simp at hline
  refine .image (fun place hwrong => ?_) ?_ hends ?_
  · have ⟨_, _, hline, _⟩ := hwrong
    exact hreached.right place (List.getElem?_eq_some_iff.mp hline).1 hwrong
  · rw [List.take_length]
    exact hreached.goes
  · rw [List.take_length]
    exact hreached.sound.shows

variable (hreached : Reached lines before (line :: rest) reading)

include hreached

theorem getElem?_eq : lines[before.length]? = some line := by
  simp [hreached.lines_eq]

theorem take_eq : lines.take before.length = before := by
  simp [hreached.lines_eq]

/-- The next line is wrong if it is neither blank nor well-formed. -/
theorem wrong_iff : Wrong lines before.length ↔ line ≠ [] ∧ Malformed reading.upper line := by
  rw [Wrong, hreached.take_eq, hreached.getElem?_eq]
  constructor
  · rintro ⟨line, upper, hline, hsome, _, hbased, hmalformed⟩
    obtain rfl := Option.some.inj hline
    obtain rfl := hbased.unique hreached.sound.based
    exact ⟨hsome, hmalformed⟩
  · rintro ⟨hsome, hmalformed⟩
    exact ⟨line, reading.upper, rfl, hsome, hreached.goes, hreached.sound.based, hmalformed⟩

theorem yields_wrong (hwrong : Wrong lines before.length) (fault : RecordFault) :
    Yields lines (.error (.record (before.length + 1) fault)) := by
  refine .wrong ⟨hwrong, fun place hplace => ?_⟩
  exact Nat.le_of_not_lt fun hless => hreached.right place hless hplace

/-- Behind the line that ends a file no line is wrong. -/
theorem yields_image (hright : ¬ Wrong lines before.length) (hends : EndsFile line) :
    Yields lines (.ok reading.image) := by
  have hplace := hreached.getElem?_eq
  have hlast (other : List Char) (hother : lines[before.length]? = some other) :
      EndsFile other := by
    obtain rfl := Option.some.inj (hplace.symm.trans hother)
    exact hends
  refine .image (fun place hwrong => ?_) ?_ hlast ?_
  · obtain hless | rfl | hmore := Nat.lt_trichotomy place before.length
    · exact hreached.right place hless hwrong
    · exact hright hwrong
    · obtain ⟨_, _, _, _, hearlier, _⟩ := hwrong
      rw [← List.getElem?_take_of_lt hmore] at hplace
      exact hearlier line (List.mem_of_getElem? hplace) hends
  · rw [hreached.take_eq]
    exact hreached.goes
  · rw [hreached.take_eq]
    exact hreached.sound.shows

theorem next {next : HexReading} (hsound : Sound (before ++ [line]) next)
    (hended : next.ended = false) (hright : ¬ Wrong lines before.length) (hgoes : ¬ EndsFile line) :
    Reached lines (before ++ [line]) rest next := by
  refine ⟨by simp [hreached.lines_eq], hsound, hended, fun earlier hearlier => ?_,
    fun place hplace => ?_⟩
  · obtain hearlier | hhere := List.mem_append.mp hearlier
    · exact hreached.goes earlier hearlier
    · rwa [List.mem_singleton.mp hhere]
  · rw [List.length_append, List.length_singleton] at hplace
    obtain hless | rfl := Nat.lt_succ_iff_lt_or_eq.mp hplace
    · exact hreached.right place hless
    · exact hright

end Reached

/-- Reading goes on until a line is wrong, or up to the line that ends the file. -/
theorem yields_takeLines {raws : List (List Char)}
    (hreached : Reached lines before (raws.map (Text.trim Text.isBlank)) reading) :
    Yields lines (reading.takeLines (Text.numbered raws (before.length + 1))) := by
  induction raws generalizing reading before with
  | nil => exact hreached.yields_nil
  | cons raw raws ih =>
    rw [List.map_cons] at hreached
    rw [Text.numbered_cons, takeLines]
    generalize Text.trim Text.isBlank raw = line at hreached ⊢
    have hwrong := hreached.wrong_iff
    have hlength : (before ++ [line]).length = before.length + 1 := List.length_append
    cases line with
    | nil =>
      have hgoes : ¬ EndsFile [] := fun ⟨_, hcarries, _⟩ => Record.not_carries_nil hcarries
      have hsound := hreached.sound.pass fun record hcarries =>
        absurd hcarries Record.not_carries_nil
      have hnext := ih (hreached.next hsound hreached.ended_eq (by simp [hwrong]) hgoes)
      rwa [hlength] at hnext
    | cons first others =>
      simp only [List.isEmpty_cons, Bool.false_eq_true, if_false]
      obtain ⟨next, hnext, hformed, ⟨hends, rfl⟩ | ⟨hgoes, hended, hsound⟩⟩ |
          ⟨⟨fault, hfault⟩, hmalformed⟩ :=
        line_cases hreached.sound (first :: others)
      · simp only [hnext, if_true]
        exact hreached.yields_image (fun hhere => hformed (hwrong.mp hhere).2) hends
      · rw [hreached.ended_eq] at hended
        have hyields :=
          ih (hreached.next hsound hended (fun hhere => hformed (hwrong.mp hhere).2) hgoes)
        rw [hlength] at hyields
        simp only [hnext, hended, Bool.false_eq_true, if_false]
        exact hyields
      · simp only [hfault]
        exact hreached.yields_wrong (hwrong.mpr ⟨List.cons_ne_nil _ _, hmalformed⟩) fault

theorem yields_ofHex (text : String) : Yields (linesOf text) (Image.ofHex text) := by
  have hreached : Reached (linesOf text) [] (linesOf text) {} :=
    ⟨rfl, sound_nil, rfl, by simp, by simp⟩
  exact yields_takeLines hreached

end HexReading

namespace HexFile

variable {lines : List (List Char)} {image : Image}

private theorem Shows.half (hshows : Shows lines image) (byteAddress : Int) :
    ∃ value : Nat, image.byteAt byteAddress = value ∧ Half lines byteAddress value := by
  by_cases hlanded : Landed lines byteAddress
  · obtain ⟨value, hlast⟩ := exists_last_iff.mpr hlanded
    exact ⟨value, hshows.byteAt_last byteAddress value hlast, Or.inl hlast⟩
  · exact ⟨0, hshows.byteAt_none byteAddress hlanded, Or.inr ⟨hlanded, rfl⟩⟩

/-- A file is read exactly if all its lines up to the one that ends it are blank or well-formed, and
    else the number of the first wrong one is told. What is read is the image that has a word
    wherever any line in front of the end puts a byte, each half of it the last byte that is put
    there. -/
theorem ofHex_overlays_bytes (text : String) :
    let lines := linesOf text
    ((∃ fault, Image.ofHex text = .error fault) ↔ ∃ place, Wrong lines place) ∧
    (∀ fault, Image.ofHex text = .error fault → ∃ place recordFault,
      fault = .record (place + 1) recordFault ∧ IsLeast {place | Wrong lines place} place) ∧
    ∀ image, Image.ofHex text = .ok image → ∃ count, (∀ line ∈ lines.take count, ¬ EndsFile line) ∧
      (∀ line, lines[count]? = some line → EndsFile line) ∧ ∀ address,
        (image.isPresent address = true ↔
          Landed (lines.take count) (2 * address) ∨ Landed (lines.take count) (2 * address + 1)) ∧
        ∀ word, image.word? address = some word → ∃ low high : Nat, word = low + 0x100 * high ∧
          Half (lines.take count) (2 * address) low ∧
          Half (lines.take count) (2 * address + 1) high := by
  intro lines
  have hyields := HexReading.yields_ofHex text
  generalize Image.ofHex text = outcome at hyields ⊢
  cases hyields with
  | @wrong place fault hleast =>
    refine ⟨iff_of_true ⟨_, rfl⟩ ⟨place, hleast.1⟩, ?_, by simp⟩
    rintro _ ⟨⟩
    exact ⟨place, fault, rfl, hleast⟩
  | @image count image hright hgoes hends hshows =>
    refine ⟨iff_of_false (by simp) (by simpa using hright), by simp, ?_⟩
    rintro _ ⟨⟩
    refine ⟨count, hgoes, hends, fun address => ⟨?_, fun word hword => ?_⟩⟩
    · rw [hshows.isPresent_iff]
      constructor
      · rintro ⟨byteAddress, hlanded, hhalf⟩
        obtain rfl | rfl : byteAddress = 2 * address ∨ byteAddress = 2 * address + 1 := by omega
        · exact Or.inl hlanded
        · exact Or.inr hlanded
      · rintro (hlanded | hlanded)
        · exact ⟨2 * address, hlanded, by omega⟩
        · exact ⟨2 * address + 1, hlanded, by omega⟩
    · obtain ⟨low, hlow, hlowHalf⟩ := hshows.half (2 * address)
      obtain ⟨high, hhigh, hhighHalf⟩ := hshows.half (2 * address + 1)
      refine ⟨low, high, ?_, hlowHalf, hhighHalf⟩
      rw [hshows.bounded.word_eq hword, hlow, hhigh]

end HexFile

end Midrange
