import Midrange.Proofs.Image.HexReading
import Midrange.Proofs.Image.Words
import Midrange.Proofs.Image.Writing

namespace Midrange

open Record (Carries)

namespace HexFile

variable {address : Nat} {bytes : List Nat} {pieces records : List Record}
  {lines before : List (List Char)} {line : List Char} {record : Record} {value : Nat}
  {byteAddress : Int}

theorem Cut.getElem?_bytes (hcut : Cut address bytes pieces) (hpiece : record ∈ pieces)
    {index : Nat} (hindex : record.data[index]? = some value) :
    address ≤ record.address ∧ bytes[record.address + index - address]? = some value := by
  induction hcut with
  | nil => cases hpiece
  | @piece address data bytes pieces _ ih =>
    obtain rfl | hrest := List.mem_cons.mp hpiece
    · have hless : index < data.length := (List.getElem?_eq_some_iff.mp hindex).1
      rw [Nat.add_sub_cancel_left, List.getElem?_append_left hless]
      exact ⟨Nat.le_refl _, hindex⟩
    · obtain ⟨hle, hbyte⟩ := ih hrest
      rw [List.getElem?_append_right (by omega)]
      exact ⟨by omega, by rw [← hbyte]; congr 1; omega⟩

theorem Cut.exists_piece (hcut : Cut address bytes pieces) {place : Nat}
    (hplace : bytes[place]? = some value) :
    ∃ record ∈ pieces, ∃ index : Nat, record.data[index]? = some value ∧
      record.address + index = address + place := by
  induction hcut generalizing place with
  | nil => cases hplace
  | @piece address data bytes pieces _ ih =>
    by_cases hless : place < data.length
    · rw [List.getElem?_append_left hless] at hplace
      exact ⟨_, List.mem_cons_self, place, hplace, rfl⟩
    · rw [List.getElem?_append_right (by omega)] at hplace
      obtain ⟨record, hrecord, index, hindex, heq⟩ := ih hplace
      exact ⟨record, List.mem_cons_of_mem _ hrecord, index, hindex, by omega⟩

/-- Some line puts a byte at a byte address. -/
def Puts (lines : List (List Char)) (byteAddress : Int) (value : Nat) : Prop :=
  ∃ before line after, lines = before ++ line :: after ∧ Lands before line byteAddress value

theorem landed_iff : Landed lines byteAddress ↔ ∃ value, Puts lines byteAddress value := by
  constructor
  · rintro ⟨before, line, after, value, hlines, hlands⟩
    exact ⟨value, before, line, after, hlines, hlands⟩
  · rintro ⟨value, before, line, after, hlines, hlands⟩
    exact ⟨before, line, after, value, hlines, hlands⟩

theorem Last.puts (hlast : Last lines byteAddress value) : Puts lines byteAddress value := by
  induction hlast with
  | @here before line _ _ hlands => exact ⟨before, line, [], rfl, hlands⟩
  | @earlier _ line _ _ _ _ ih =>
    obtain ⟨before, earlier, after, rfl, hlands⟩ := ih
    exact ⟨before, earlier, after ++ [line], by simp, hlands⟩

/-- Lines of which each carries data, and that together put some bytes from a byte address on and
    nothing else. -/
structure Spreads (lines : List (List Char)) (address : Nat) (bytes : List Nat) : Prop where
  carries : ∀ line ∈ lines, ∃ record, Carries line record ∧ record.kind = 0
  puts_iff : ∀ byteAddress value, Puts lines byteAddress value ↔
    ∃ place : Nat, bytes[place]? = some value ∧ (address : Int) + place = byteAddress

/-- Addresses on lines with data are never relative to anything but zero. -/
theorem based_zero (hcarries : ∀ line ∈ lines, ∃ record, Carries line record ∧ record.kind = 0) :
    Based lines 0 := by
  induction lines using List.reverseRecOn with
  | nil => exact .start
  | append_singleton before line ih =>
    rw [List.forall_mem_append, List.forall_mem_singleton] at hcarries
    obtain ⟨hbefore, record, hcarries, hkind⟩ := hcarries
    refine .kept (ih hbefore) fun other hextends => ?_
    cases hextends with
    | segment hother =>
      obtain rfl := hcarries.unique hother
      cases hkind
    | linear hother =>
      obtain rfl := hcarries.unique hother
      cases hkind

theorem lands_iff_of_based (hbased : Based before 0) (hcarries : Carries line record)
    (hkind : record.kind = 0) :
    Lands before line byteAddress value ↔
      ∃ index : Nat, record.data[index]? = some value ∧
        (record.address : Int) + index = byteAddress := by
  constructor
  · rintro ⟨upper, other, hupper, hother, _, index, hindex, rfl⟩
    obtain rfl := hupper.unique hbased
    obtain rfl := hcarries.unique hother
    exact ⟨index, hindex, by omega⟩
  · rintro ⟨index, hindex, rfl⟩
    exact ⟨0, record, hbased, hcarries, hkind, index, hindex, by omega⟩

/-- Lines that carry the pieces of some bytes, in whatever order, put just these bytes. -/
theorem spreads_of_cut (hcut : Cut address bytes pieces) (hperm : records.Perm pieces)
    (hcarries : List.Forall₂ Carries lines records) : Spreads lines address bytes := by
  have hdata (line : List Char) (hline : line ∈ lines) :
      ∃ record ∈ pieces, Carries line record ∧ record.kind = 0 := by
    obtain ⟨place, hplace⟩ := List.getElem?_of_mem hline
    obtain ⟨hless, rfl⟩ := List.getElem?_eq_some_iff.mp hplace
    have hpiece := hperm.mem_iff.mp (List.getElem_mem (hcarries.length_eq ▸ hless))
    exact ⟨_, hpiece, hcarries.get hless _, hcut.kind_eq _ hpiece⟩
  have hbased {before after : List (List Char)} {line : List Char}
      (hlines : lines = before ++ line :: after) : Based before 0 := by
    refine based_zero fun earlier hearlier => ?_
    obtain ⟨record, -, hrecord⟩ := hdata earlier (by simp [hlines, hearlier])
    exact ⟨record, hrecord⟩
  refine ⟨fun line hline => ?_, fun byteAddress value => ⟨?_, ?_⟩⟩
  · obtain ⟨record, -, hrecord⟩ := hdata line hline
    exact ⟨record, hrecord⟩
  · rintro ⟨before, line, after, hlines, hlands⟩
    obtain ⟨record, hpiece, hline, hkind⟩ := hdata line (by simp [hlines])
    obtain ⟨index, hindex, rfl⟩ := (lands_iff_of_based (hbased hlines) hline hkind).mp hlands
    obtain ⟨hle, hbyte⟩ := hcut.getElem?_bytes hpiece hindex
    exact ⟨_, hbyte, by omega⟩
  · rintro ⟨place, hplace, rfl⟩
    obtain ⟨record, hpiece, index, hindex, heq⟩ := hcut.exists_piece hplace
    obtain ⟨number, hnumber⟩ := List.getElem?_of_mem (hperm.mem_iff.mpr hpiece)
    obtain ⟨hless, rfl⟩ := List.getElem?_eq_some_iff.mp hnumber
    have hless' : number < lines.length := hcarries.length_eq ▸ hless
    have hline : Carries lines[number] records[number] := hcarries.get hless' hless
    have hlines := (List.take_append_drop number lines).symm
    rw [List.drop_eq_getElem_cons hless'] at hlines
    refine ⟨_, _, _, hlines,
      (lands_iff_of_based (hbased hlines) hline (hcut.kind_eq _ hpiece)).mpr ?_⟩
    exact ⟨index, hindex, by omega⟩

namespace Spreads

variable {words : List UInt16} {base : Nat} {image : Image} {last : List Char}
  {rest : List (List Char)}

theorem not_endsFile (hspreads : Spreads lines address bytes) :
    ∀ line ∈ lines, ¬ EndsFile line := by
  intro line hline hends
  obtain ⟨record, hcarries, hkind⟩ := hspreads.carries line hline
  rw [endsFile_iff hcarries, hkind] at hends
  cases hends

theorem based_take (hspreads : Spreads lines address bytes) (place : Nat) :
    Based (lines.take place) 0 :=
  based_zero fun line hline => hspreads.carries line (List.mem_of_mem_take hline)

/-- An image that shows the bytes of words holds these words. -/
theorem word?_eq (hspreads : Spreads lines (2 * base) ((Image.littleEndian words).map UInt8.toNat))
    (hshows : Shows lines image) (address : Int) :
    image.word? address = Image.wordAt? base (Image.values words) address := by
  -- the byte at a place behind the base is the one that is put there
  have hbyte {place : Nat} {byte : UInt8}
      (hplace : (Image.littleEndian words)[place]? = some byte) :
      Landed lines (2 * base + place) ∧ image.byteAt (2 * base + place) = byte.toNat := by
    have hputs (value : Nat) : Puts lines (2 * base + place) value ↔ value = byte.toNat := by
      rw [hspreads.puts_iff]
      constructor
      · rintro ⟨other, hother, heq⟩
        obtain rfl : other = place := by omega
        simp only [List.getElem?_map, hplace, Option.map_some, Option.some.injEq] at hother
        exact hother.symm
      · rintro rfl
        exact ⟨place, by simp [hplace], by omega⟩
    have hlanded : Landed lines (2 * base + place) := landed_iff.mpr ⟨_, (hputs _).mpr rfl⟩
    obtain ⟨value, hlast⟩ := exists_last_iff.mpr hlanded
    rw [hshows.byteAt_last _ _ hlast, (hputs value).mp hlast.puts]
    exact ⟨hlanded, rfl⟩
  cases hfound : Image.wordAt? base (Image.values words) address with
  | some value =>
    unfold Image.wordAt? at hfound
    split at hfound
    case isFalse => cases hfound
    obtain ⟨index, rfl⟩ : ∃ index : Nat, address = base + index :=
      ⟨(address - base).toNat, by omega⟩
    have hindex : ((base : Int) + index - base).toNat = index := by omega
    rw [hindex, Image.values, List.getElem?_map, Option.map_eq_some_iff] at hfound
    obtain ⟨word, hword, rfl⟩ := hfound
    obtain ⟨hlow, hhigh⟩ := Image.getElem?_littleEndian hword
    obtain ⟨hlanded, hlowByte⟩ := hbyte hlow
    have hhighByte := (hbyte hhigh).2
    have hpresent : image.isPresent (base + index) = true :=
      (hshows.isPresent_iff _).mpr ⟨_, hlanded, by omega⟩
    obtain ⟨found, hfound⟩ := Image.isPresent_iff.mp hpresent
    have hsplit := hshows.bounded.word_eq hfound
    have hbytes := Image.toNat_eq_bytes word
    rw [show 2 * ((base : Int) + index) = 2 * base + (2 * index : Nat) by omega, hlowByte,
      show 2 * (base : Int) + (2 * index : Nat) + 1 = 2 * base + (2 * index + 1 : Nat) by omega,
        hhighByte] at hsplit
    rw [hfound, hsplit, hbytes]
    rfl
  | none =>
    have habsent : ¬ image.isPresent address = true := by
      rw [hshows.isPresent_iff]
      rintro ⟨byteAddress, hlanded, rfl⟩
      obtain ⟨value, hputs⟩ := landed_iff.mp hlanded
      obtain ⟨place, hplace, rfl⟩ := (hspreads.puts_iff _ _).mp hputs
      have hless := (List.getElem?_eq_some_iff.mp hplace).1
      rw [List.length_map, Image.length_littleEndian] at hless
      have hindex : (((2 * base : Nat) + place : Int) / 2 - base).toNat = place / 2 := by omega
      rw [Image.wordAt?, if_pos (by omega), hindex, List.getElem?_eq_none_iff, Image.values,
        List.length_map] at hfound
      omega
    rw [Image.isPresent_iff, not_exists] at habsent
    exact Option.eq_none_iff_forall_ne_some.mpr habsent

/-- A line with data is malformed if one of its bytes goes beyond the last word. -/
theorem malformed_iff (hspreads : Spreads lines address bytes) (hline : line ∈ lines)
    (hbased : Based before 0) :
    Malformed 0 line ↔
      ∃ byteAddress value, Lands before line byteAddress value ∧ 0x4400 ≤ byteAddress := by
  obtain ⟨record, hcarries, hkind⟩ := hspreads.carries line hline
  simp only [HexFile.malformed_iff hcarries, lands_iff_of_based hbased hcarries hkind]
  constructor
  · rintro (hunknown | ⟨hextends, _⟩ | ⟨_, index, hindex, hbeyond⟩)
    · omega
    · omega
    · exact ⟨_, _, ⟨index, List.getElem?_eq_getElem hindex, rfl⟩, by omega⟩
  · rintro ⟨_, value, ⟨index, hindex, rfl⟩, hbeyond⟩
    exact Or.inr (Or.inr ⟨hkind, index, (List.getElem?_eq_some_iff.mp hindex).1, by omega⟩)

/-- A file of data has a wrong line if one of the bytes goes beyond the last word. -/
theorem exists_wrong_iff (hspreads : Spreads lines address bytes) (hends : EndsFile last) :
    (∃ place, Wrong (lines ++ last :: rest) place) ↔
    ∃ place < bytes.length, 0x4400 ≤ address + place := by
  constructor
  · rintro ⟨place, line, upper, hline, -, hearlier, hbased, hmalformed⟩
    obtain hless | rfl | hmore := Nat.lt_trichotomy place lines.length
    · rw [List.getElem?_append_left hless] at hline
      rw [List.take_append_of_le_length (Nat.le_of_lt hless)] at hbased
      obtain rfl := hbased.unique (hspreads.based_take place)
      obtain ⟨byteAddress, value, hlands, hbeyond⟩ :=
        (hspreads.malformed_iff (List.mem_of_getElem? hline) hbased).mp hmalformed
      have hlines := (List.take_append_drop place lines).symm
      rw [List.drop_eq_getElem_cons hless, (List.getElem?_eq_some_iff.mp hline).2] at hlines
      obtain ⟨behind, hbehind, rfl⟩ := (hspreads.puts_iff _ _).mp ⟨_, _, _, hlines, hlands⟩
      exact ⟨behind, (List.getElem?_eq_some_iff.mp hbehind).1, by omega⟩
    · rw [List.getElem?_append_right (Nat.le_refl _), Nat.sub_self] at hline
      obtain rfl := Option.some.inj hline
      obtain ⟨record, hcarries, hkind⟩ := hends
      rw [HexFile.malformed_iff hcarries] at hmalformed
      omega
    · refine absurd hends (hearlier last ?_)
      rw [List.take_append, List.take_of_length_le (Nat.le_of_lt hmore), List.mem_append]
      exact Or.inr (by simp [List.take_cons (Nat.sub_pos_of_lt hmore)])
  · rintro ⟨behind, hbehind, hbeyond⟩
    obtain ⟨before, line, after, hlines, hlands⟩ :=
      (hspreads.puts_iff _ _).mpr ⟨behind, List.getElem?_eq_getElem hbehind, rfl⟩
    have hline : line ∈ lines := by simp [hlines]
    have htake : lines.take before.length = before := by simp [hlines]
    have hbased := hspreads.based_take before.length
    rw [htake] at hbased
    have hmalformed := (hspreads.malformed_iff hline hbased).mpr ⟨_, _, hlands, by omega⟩
    have hfile : lines ++ last :: rest = before ++ line :: (after ++ last :: rest) := by
      simp [hlines]
    refine ⟨before.length, line, 0, by simp [hfile], ?_, ?_, by simpa [hfile] using hbased,
      hmalformed⟩
    · rintro rfl
      obtain ⟨_, hcarries, _⟩ := hspreads.carries _ hline
      exact Record.not_carries_nil hcarries
    · intro earlier hearlier
      rw [hfile, List.take_left] at hearlier
      exact hspreads.not_endsFile earlier (by simp [hlines, hearlier])

/-- A file of data is read as the image that shows its bytes, unless one of them goes beyond the
    last word. -/
theorem ofHex_cases {text : String} (hspreads : Spreads lines address bytes) (hends : EndsFile last)
    (hlines : linesOf text = lines ++ last :: rest) :
    (∃ image, Image.ofHex text = .ok image ∧ Shows lines image ∧
      ∀ place < bytes.length, address + place < 0x4400) ∨
    (∃ fault, Image.ofHex text = .error fault) ∧
    ∃ place < bytes.length, 0x4400 ≤ address + place := by
  have hwrong : (∃ place, Wrong (lines ++ last :: rest) place) ↔
      ∃ place < bytes.length, 0x4400 ≤ address + place :=
    hspreads.exists_wrong_iff hends
  have hyields := HexReading.yields_ofHex text
  rw [hlines] at hyields
  generalize Image.ofHex text = outcome at hyields ⊢
  cases hyields with
  | wrong hleast => exact Or.inr ⟨⟨_, rfl⟩, hwrong.mp ⟨_, hleast.1⟩⟩
  | @image count image hright hgoes hlast hshows =>
    have hcount : count = lines.length := by
      obtain hless | heq | hmore := Nat.lt_trichotomy count lines.length
      · have hhere : (lines ++ last :: rest)[count]? = some lines[count] := by
          rw [List.getElem?_append_left hless, List.getElem?_eq_getElem hless]
        exact absurd (hlast _ hhere) (hspreads.not_endsFile _ (List.getElem_mem hless))
      · exact heq
      · refine absurd hends (hgoes last ?_)
        rw [List.take_append, List.take_of_length_le (Nat.le_of_lt hmore), List.mem_append]
        exact Or.inr (by simp [List.take_cons (Nat.sub_pos_of_lt hmore)])
    rw [hcount, List.take_left] at hshows
    refine Or.inl ⟨image, rfl, hshows, fun place hplace => ?_⟩
    exact Nat.lt_of_not_le fun hbeyond =>
      absurd (hwrong.mpr ⟨place, hplace, hbeyond⟩) (not_exists.mpr hright)

end Spreads

/-- Words are loaded alike whether they are given as such, as raw bytes or as a file that encodes
    these bytes in any records, in whatever order; and in none of these ways if they go beyond the
    last address. Every cut into records that can be written makes such a file, in digits of either
    case. -/
theorem loads_agree (words : List UInt16) (base : Nat) (hwords : words ≠ []) :
    let bytes := (Image.littleEndian words).map UInt8.toNat
    (base + words.length ≤ 0x2200 →
      ∃ image binary, Image.ofWords (Image.values words) base = .ok image ∧
        (∀ address, image.word? address = Image.wordAt? base (Image.values words) address) ∧
        Image.ofBytes (Image.littleEndian words) base = .ok binary ∧ binary.Agrees image ∧
        ∀ text, Encodes text (2 * base) bytes →
          ∃ read, Image.ofHex text = .ok read ∧ read.Agrees image) ∧
    (0x2200 < base + words.length →
      (∃ fault, Image.ofWords (Image.values words) base = .error fault) ∧
      (∃ fault, Image.ofBytes (Image.littleEndian words) base = .error fault) ∧
      ∀ text, Encodes text (2 * base) bytes → ∃ fault, Image.ofHex text = .error fault) ∧
    ∀ lower pieces records, Cut (2 * base) bytes pieces → records.Perm pieces →
      (∀ piece ∈ pieces, piece.address < 0x10000 ∧ piece.data.length < 0x100) →
      Encodes (write lower records) (2 * base) bytes := by
  intro bytes
  have hlength : bytes.length = 2 * words.length := by
    rw [List.length_map, Image.length_littleEndian]
  have hbytes : ∀ byte ∈ bytes, byte < 0x100 := by
    intro byte hbyte
    obtain ⟨source, _, rfl⟩ := List.mem_map.mp hbyte
    exact source.toNat_lt
  have hpositive : 0 < words.length := List.length_pos_iff.mpr hwords
  have hread (text : String) (hencodes : Encodes text (2 * base) bytes) :
      (∃ read, Image.ofHex text = .ok read ∧ base + words.length ≤ 0x2200 ∧
        ∀ address, read.word? address = Image.wordAt? base (Image.values words) address) ∨
      (∃ fault, Image.ofHex text = .error fault) ∧ 0x2200 < base + words.length := by
    obtain ⟨pieces, records, lines, last, rest, hcut, hperm, hcarries, hends, hlines⟩ := hencodes
    have hspreads := spreads_of_cut hcut hperm hcarries
    obtain ⟨read, hread, hshows, hbelow⟩ | ⟨hfault, place, hplace, hbeyond⟩ :=
      hspreads.ofHex_cases hends hlines
    · have hlast := hbelow (bytes.length - 1) (by omega)
      exact Or.inl ⟨read, hread, by omega, hspreads.word?_eq hshows⟩
    · exact Or.inr ⟨hfault, by omega⟩
  refine ⟨fun hfits => ?_, fun hbeyond => ⟨?_, ?_, fun text hencodes => ?_⟩, ?_⟩
  · obtain ⟨image, himage, -, hword⟩ | ⟨-, hbeyond⟩ := Image.ofWords_cases words base
    · have hbinary := Image.ofBytes_littleEndian words base
      rw [if_neg (by omega), himage] at hbinary
      refine ⟨image, image, himage, hword, hbinary, Image.agrees_of_word?_eq fun _ => rfl,
        fun text hencodes => ?_⟩
      obtain ⟨read, hread, -, hsame⟩ | ⟨-, hbeyond⟩ := hread text hencodes
      · exact ⟨read, hread, Image.agrees_of_word?_eq fun address => by rw [hsame, hword]⟩
      · omega
    · omega
  · obtain ⟨image, -, hnone | hfits, -⟩ | ⟨hfault, -⟩ := Image.ofWords_cases words base
    · exact absurd hnone hwords
    · omega
    · exact hfault
  · exact ⟨_, (Image.ofBytes_littleEndian words base).trans (if_pos (by omega))⟩
  · obtain ⟨_, -, hfits, -⟩ | ⟨hfault, -⟩ := hread text hencodes
    · omega
    · exact hfault
  · exact fun lower pieces records hcut hperm hfits => encodes_write hcut hperm hbytes hfits lower

/-- Two words in three records, each word cut in the middle and its high half written first. -/
theorem loads_agree_splitWords :
    ∃ image binary read, Image.ofWords [0x2805, 0x3FFF] 1 = .ok image ∧
      Image.ofBytes [0x05, 0x28, 0xFF, 0x3F] 1 = .ok binary ∧ binary.Agrees image ∧
      Image.ofHex ":010005003fbb\n:0200030028ffd4\n:0100020005f8\n:00000001ff\n" = .ok read ∧
      read.Agrees image := by
  obtain ⟨hload, -, hwrite⟩ := loads_agree [0x2805, 0x3FFF] 1 (by decide)
  obtain ⟨image, binary, himage, -, hbinary, hagrees, hhex⟩ := hload (by decide)
  have hcut : Cut 2 [0x05, 0x28, 0xFF, 0x3F]
      [⟨2, 0, [0x05]⟩, ⟨3, 0, [0x28, 0xFF]⟩, ⟨5, 0, [0x3F]⟩] :=
    @Cut.piece 2 [0x05] _ _ (@Cut.piece 3 [0x28, 0xFF] _ _ (@Cut.piece 5 [0x3F] _ _ (.nil 6)))
  have hencodes :=
    hwrite true _ [⟨5, 0, [0x3F]⟩, ⟨3, 0, [0x28, 0xFF]⟩, ⟨2, 0, [0x05]⟩] hcut (by decide)
      (by decide)
  obtain ⟨read, hread, hsame⟩ :=
    hhex ":010005003fbb\n:0200030028ffd4\n:0100020005f8\n:00000001ff\n" hencodes
  exact ⟨image, binary, read, himage, hbinary, hagrees, hread, hsame⟩

end HexFile

end Midrange
