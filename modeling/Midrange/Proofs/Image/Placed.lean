import Mathlib.Data.List.Induction
import Mathlib.Data.List.Sort
import Midrange.Image.Basic
import Midrange.Image.HexFile
import Midrange.Proofs.Basic

namespace Midrange

namespace Image

variable {image stored : Image}

/-- All words stand at addresses from zero on and below the limit. -/
def Placed (image : Image) : Prop :=
  ∀ address word, image.word? address = some word → 0 ≤ address ∧ address < image.limit

theorem placed_blank (limit : Int) : (blank limit).Placed := by
  intro address word hword
  rw [word?_blank] at hword
  cases hword

theorem placed_of_ofLimit {limit : Int} (hlimit : ofLimit limit = .ok image) : image.Placed := by
  unfold ofLimit at hlimit
  split_ifs at hlimit
  obtain rfl := Except.ok.inj hlimit
  exact placed_blank limit

/-- Writing a word leaves all words within the limit. -/
theorem Placed.store (hplaced : image.Placed) {address word : Int}
    (hstore : image.store address word = .ok stored) : stored.Placed := by
  obtain ⟨hrange, rfl⟩ := store_eq_ok_iff.mp hstore
  intro other found hfound
  rw [word?_set] at hfound
  split at hfound
  · next hhere => rwa [← hhere]
  · exact hplaced other found hfound

theorem Placed.storeAll (hplaced : image.Placed) {base : Int} {words : List Int}
    (hstore : image.storeAll base words = .ok stored) : stored.Placed := by
  induction words generalizing image base with
  | nil =>
    obtain rfl := Except.ok.inj hstore
    exact hplaced
  | cons word rest ih =>
    cases hfirst : image.store base word with
    | error =>
      simp only [Image.storeAll, hfirst] at hstore
      cases hstore
    | ok written =>
      simp only [Image.storeAll, hfirst] at hstore
      exact ih (hplaced.store hfirst) hstore

theorem placed_empty : ({} : Image).Placed :=
  placed_blank Symbols.imageLimit

theorem placed_ofWords {words : List Int} {base : Int} (hload : ofWords words base = .ok image) :
    image.Placed :=
  placed_empty.storeAll hload

theorem placed_ofBytes {bytes : List UInt8} {base : Int} (hload : ofBytes bytes base = .ok image) :
    image.Placed := by
  unfold ofBytes at hload
  simp only at hload
  split_ifs at hload
  exact placed_ofWords hload

theorem Placed.storeBytes (hplaced : image.Placed) {byteAddress : Int} {values : List Nat}
    (hstore : HexReading.storeBytes image byteAddress values = .ok stored) : stored.Placed := by
  induction values generalizing image byteAddress with
  | nil =>
    obtain rfl := Except.ok.inj hstore
    exact hplaced
  | cons value rest ih =>
    cases hfirst : image.storeByte byteAddress value with
    | error =>
      simp only [HexReading.storeBytes, hfirst] at hstore
      cases hstore
    | ok written =>
      simp only [HexReading.storeBytes, hfirst] at hstore
      exact ih (hplaced.store hfirst) hstore

theorem placed_take {reading next : HexReading} (hplaced : reading.image.Placed) {record : Record}
    (htake : reading.take record = .ok next) : next.image.Placed := by
  unfold HexReading.take at htake
  split at htake
  case h_1 =>
    cases hbytes : HexReading.storeBytes reading.image (reading.upper + record.address : Nat)
      record.data with
    | error =>
      rw [hbytes] at htake
      cases htake
    | ok written =>
      rw [hbytes] at htake
      obtain rfl := Except.ok.inj htake
      exact hplaced.storeBytes hbytes
  -- no other record writes a word
  case h_3 | h_4 =>
    split at htake
    · obtain rfl := Except.ok.inj htake
      exact hplaced
    · cases htake
  case h_2 | h_5 | h_6 =>
    obtain rfl := Except.ok.inj htake
    exact hplaced
  case h_7 => cases htake

theorem placed_takeLines {reading : HexReading} (hplaced : reading.image.Placed)
    {lines : List (Nat × List Char)} (hload : reading.takeLines lines = .ok image) :
    image.Placed := by
  induction lines generalizing reading with
  | nil =>
    obtain rfl := Except.ok.inj hload
    exact hplaced
  | cons line rest ih =>
    simp only [HexReading.takeLines] at hload
    split at hload
    · exact ih hplaced hload
    · split at hload
      · cases hload
      · next next htake =>
        have hnext : next.image.Placed := by
          cases hrecord : Record.ofLine (Text.trim Text.isBlank line.2) with
          | error =>
            rw [hrecord] at htake
            cases htake
          | ok record =>
            rw [hrecord] at htake
            exact placed_take hplaced htake
        split at hload
        · obtain rfl := Except.ok.inj hload
          exact hnext
        · exact ih hnext hload

/-- Whatever a hexadecimal file holds, its words are placed. -/
theorem placed_ofHex {text : String} (hload : ofHex text = .ok image) : image.Placed :=
  placed_takeLines placed_empty hload

theorem mem_toList_iff {address word : Int} : (address, word) ∈ image.toList ↔
    image.word? address = some word :=
  Std.TreeMap.mem_toList_iff_getElem?_eq_some

theorem mem_map_fst_toList_iff {address : Int} : address ∈ image.toList.map (·.1) ↔
    image.isPresent address = true := by
  rw [isPresent, Std.TreeSet.contains_iff_mem, image.mem_mask_iff, ← Std.TreeMap.mem_keys,
    ← Std.TreeMap.map_fst_toList_eq_keys]
  rfl

theorem placed_of_forall_mem
    (hplaced : ∀ entry ∈ image.toList, 0 ≤ entry.1 ∧ entry.1 < image.limit) : image.Placed :=
  fun address word hword => hplaced (address, word) (mem_toList_iff.mpr hword)

private theorem fst_lt_foldl {words : List (Int × Int)} (hsorted : words.Pairwise (·.1 < ·.1))
    {entry : Int × Int} (hentry : entry ∈ words) (first : Int) :
    entry.1 < words.foldl (fun _ entry => entry.1 + 1) first := by
  induction words using List.reverseRecOn with
  | nil => cases hentry
  | append_singleton before last ih =>
    rw [List.foldl_append, List.foldl_cons, List.foldl_nil]
    obtain hbefore | hlast := List.mem_append.mp hentry
    · have hless :=
        (List.pairwise_append.mp hsorted).2.2 entry hbefore last (List.mem_singleton.mpr rfl)
      omega
    · obtain rfl := List.mem_singleton.mp hlast
      omega

theorem lt_codeSize {address word : Int} (hword : image.word? address = some word) :
    address < image.codeSize := by
  rw [codeSize, Std.TreeMap.foldl_eq_foldl_toList]
  exact fst_lt_foldl (pairwise_fst_toList image.words) (mem_toList_iff.mpr hword) 0

/-- The words that are met by looking at every address from zero up to the end of the code. -/
def scanned (image : Image) : List (Int × Int) :=
  (List.range image.codeSize.toNat).filterMap fun address : Nat =>
    (image.word? address).map ((address : Int), ·)

/-- Looking at every address meets the same words in the same order as going from one present word
    to the next. -/
theorem scanned_eq_toList (hplaced : image.Placed) : image.scanned = image.toList := by
  refine List.Pairwise.eq_of_mem_iff (r := fun left right : Int × Int => left.1 < right.1) ?_
    (pairwise_fst_toList image.words) ?_
  · refine List.Pairwise.filterMap _ (fun left right hless entry hentry entry' hentry' => ?_)
      List.pairwise_lt_range
    obtain ⟨word, -, rfl⟩ := Option.map_eq_some_iff.mp hentry
    obtain ⟨word', -, rfl⟩ := Option.map_eq_some_iff.mp hentry'
    exact Int.ofNat_lt.mpr hless
  · rintro ⟨address, word⟩
    rw [mem_toList_iff, scanned, List.mem_filterMap]
    constructor
    · rintro ⟨place, -, hentry⟩
      obtain ⟨found, hfound, heq⟩ := Option.map_eq_some_iff.mp hentry
      obtain ⟨rfl, rfl⟩ := Prod.mk.inj heq
      exact hfound
    · intro hword
      have hlow := (hplaced address word hword).1
      have hhigh := lt_codeSize hword
      have hrange : address.toNat < image.codeSize.toNat := by omega
      refine ⟨address.toNat, List.mem_range.mpr hrange, ?_⟩
      rw [Int.toNat_of_nonneg hlow, hword]
      rfl

end Image

end Midrange
