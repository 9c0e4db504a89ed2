import Midrange.Image.HexFile

namespace Midrange.Image

variable {image stored : Image} {address byteAddress word base : Int} {data : List Nat}

/-- The byte at a byte address. It is one half of a word, the low one at the even address, and zero
    where no word is present. -/
def byteAt (image : Image) (byteAddress : Int) : Int :=
  let word := (image.word? (byteAddress / 2)).getD 0
  if byteAddress % 2 = 1 then word / 0x100 % 0x100 else word % 0x100

/-- All words have sixteen bits. -/
def Bounded (image : Image) : Prop :=
  ∀ address word, image.word? address = some word → 0 ≤ word ∧ word < 0x10000

/-- A word is made of its two bytes. -/
theorem Bounded.word_eq (hbounded : image.Bounded) (hword : image.word? address = some word) :
    word = image.byteAt (2 * address) + 0x100 * image.byteAt (2 * address + 1) := by
  have hrange := hbounded address word hword
  have hlow : 2 * address / 2 = address := by omega
  have hhigh : (2 * address + 1) / 2 = address := by omega
  have heven : ¬ 2 * address % 2 = 1 := by omega
  have hodd : (2 * address + 1) % 2 = 1 := by omega
  simp only [byteAt, hlow, hhigh, hword, Option.getD_some, heven, hodd, if_true, if_false]
  omega

/-- Bytes are written one behind the other. Their words are present, they stand where they are
    written, and all else is as before. -/
structure Writes (image : Image) (base : Int) (data : List Nat) (stored : Image) : Prop where
  limit_eq : stored.limit = image.limit
  bounded : image.Bounded → stored.Bounded
  isPresent_iff : ∀ address, stored.isPresent address = true ↔
    image.isPresent address = true ∨
    ∃ index : Nat, index < data.length ∧ (base + index) / 2 = address
  byteAt_data : ∀ (index value : Nat), data[index]? = some value →
    stored.byteAt (base + index) = value
  byteAt_other : ∀ byteAddress, (∀ index : Nat, index < data.length → base + index ≠ byteAddress) →
    stored.byteAt byteAddress = image.byteAt byteAddress

private theorem add_succ_eq (base : Int) (index : Nat) :
    base + ((index + 1 : Nat) : Int) = base + 1 + index := by
  omega

theorem Writes.nil (image : Image) (base : Int) : image.Writes base [] image := by
  constructor <;> simp

theorem Writes.cons {written : Image} {value : Nat} (hfirst : image.Writes base [value] written)
    (hrest : written.Writes (base + 1) data stored) : image.Writes base (value :: data) stored := by
  constructor
  case limit_eq => rw [hrest.limit_eq, hfirst.limit_eq]
  case bounded => exact fun hbounded => hrest.bounded (hfirst.bounded hbounded)
  case isPresent_iff =>
    intro address
    rw [hrest.isPresent_iff, hfirst.isPresent_iff, or_assoc]
    refine or_congr_right ⟨?_, ?_⟩
    · rintro (⟨index, hindex, heq⟩ | ⟨index, hindex, heq⟩)
      · obtain rfl : index = 0 := Nat.lt_one_iff.mp hindex
        exact ⟨0, Nat.succ_pos _, heq⟩
      · refine ⟨index + 1, Nat.succ_lt_succ hindex, ?_⟩
        rwa [add_succ_eq]
    · rintro ⟨index, hindex, heq⟩
      cases index with
      | zero => exact Or.inl ⟨0, Nat.one_pos, heq⟩
      | succ index =>
        rw [add_succ_eq] at heq
        exact Or.inr ⟨index, Nat.lt_of_succ_lt_succ hindex, heq⟩
  case byteAt_data =>
    intro index byte hbyte
    cases index with
    | zero =>
      rw [hrest.byteAt_other _ fun index _ => by omega]
      exact hfirst.byteAt_data 0 byte (by simpa using hbyte)
    | succ index =>
      rw [add_succ_eq]
      exact hrest.byteAt_data index byte (by simpa using hbyte)
  case byteAt_other =>
    intro byteAddress hother
    rw [hrest.byteAt_other byteAddress, hfirst.byteAt_other byteAddress]
    · intro index hindex
      exact hother index (Nat.lt_of_lt_of_le hindex (Nat.succ_le_succ (Nat.zero_le _)))
    · intro index hindex
      rw [← add_succ_eq]
      exact hother (index + 1) (Nat.succ_lt_succ hindex)

private theorem byteAt_withByte {value : Nat} (hvalue : value < 0x100)
    (hword : ∀ address, stored.word? address =
      if byteAddress / 2 = address then
        some (withByte ((image.word? (byteAddress / 2)).getD 0) (byteAddress % 2 == 1)
          value % 0x10000)
      else image.word? address) (other : Int) :
    stored.byteAt other = if other = byteAddress then (value : Int) else image.byteAt other := by
  unfold byteAt
  rw [hword]
  by_cases hsame : byteAddress / 2 = other / 2
  · rw [if_pos hsame, hsame, Option.getD_some]
    generalize (image.word? (other / 2)).getD 0 = word
    obtain hhere | hhere : byteAddress % 2 = 1 ∨ byteAddress % 2 = 0 := by omega
    · simp only [hhere, withByte, beq_self_eq_true, if_true]
      split <;> split <;> omega
    · simp only [hhere, withByte, show ((0 : Int) == 1) = false from rfl,
        Bool.false_eq_true, if_false]
      split <;> split <;> omega
  · have hother : other ≠ byteAddress := fun heq => hsame (by rw [heq])
    rw [if_neg hsame, if_neg hother]

/-- One byte is written where its word lies below the limit. -/
theorem exists_writes_of_storeByte {value : Nat} (hvalue : value < 0x100) (hlow : 0 ≤ byteAddress)
    (hhigh : byteAddress / 2 < image.limit) :
    ∃ stored, image.storeByte byteAddress value = .ok stored ∧
      image.Writes byteAddress [value] stored := by
  obtain ⟨stored, hstored, hlimit, hword⟩ :
      ∃ stored, image.storeByte byteAddress value = .ok stored ∧
        stored.limit = image.limit ∧ ∀ address, stored.word? address =
          if byteAddress / 2 = address then
            some (withByte ((image.word? (byteAddress / 2)).getD 0) (byteAddress % 2 == 1)
              value % 0x10000)
          else image.word? address := by
    exact ⟨_, store_eq_ok_iff.mpr ⟨⟨by omega, hhigh⟩, rfl⟩, rfl, word?_set image _ _⟩
  have hbyte := byteAt_withByte hvalue hword
  refine ⟨stored, hstored, ?_⟩
  constructor
  case limit_eq => exact hlimit
  case bounded =>
    intro hbounded other word hother
    rw [hword] at hother
    split at hother
    · obtain rfl := Option.some.inj hother
      omega
    · exact hbounded other word hother
  case isPresent_iff =>
    intro address
    simp only [isPresent_iff, hword]
    by_cases hhere : byteAddress / 2 = address
    · simp [hhere]
    · simp [hhere]
  case byteAt_data =>
    intro index byte hindex
    obtain ⟨rfl, rfl⟩ : index = 0 ∧ byte = value := by
      cases index <;> simp_all
    rw [hbyte]
    simp
  case byteAt_other =>
    intro other hother
    have hne : other ≠ byteAddress := fun heq => hother 0 (by simp) (by simp [heq])
    rw [hbyte, if_neg hne]

end Midrange.Image

namespace Midrange.HexReading

variable {image : Image} {base : Int} {data : List Nat}

/-- Bytes are written, unless the word of one of them lies beyond the limit. -/
theorem storeBytes_cases (image : Image) (hbase : 0 ≤ base)
    (hdata : ∀ value ∈ data, value < 0x100) :
    (∃ stored, storeBytes image base data = .ok stored ∧ image.Writes base data stored ∧
      ∀ index : Nat, index < data.length → (base + index) / 2 < image.limit) ∨
    (∃ fault, storeBytes image base data = .error fault) ∧
      ∃ index : Nat, index < data.length ∧ image.limit ≤ (base + index) / 2 := by
  induction data generalizing image base with
  | nil => exact Or.inl ⟨image, rfl, .nil image base, by simp⟩
  | cons value rest ih =>
    rw [List.forall_mem_cons] at hdata
    by_cases hhigh : base / 2 < image.limit
    case neg =>
      have hoffends : ∃ index : Nat, index < (value :: rest).length ∧
          image.limit ≤ (base + index) / 2 :=
        ⟨0, by simp, by simpa using hhigh⟩
      have hfault : image.storeByte base value = .error (.outside (base / 2) image.limit) :=
        if_neg fun hrange => hhigh hrange.2
      exact Or.inr ⟨⟨_, by simp only [storeBytes, hfault]; rfl⟩, hoffends⟩
    obtain ⟨written, hwritten, hfirst⟩ := Image.exists_writes_of_storeByte hdata.1 hbase hhigh
    obtain ⟨stored, hstored, hwrites, hbelow⟩ | ⟨⟨fault, hfault⟩, index, hindex, hbeyond⟩ :=
      ih written (Int.le_add_one hbase) hdata.2
    · left
      refine ⟨stored, by simp only [storeBytes, hwritten, hstored], hfirst.cons hwrites,
        fun index hindex => ?_⟩
      cases index with
      | zero => simpa using hhigh
      | succ index =>
        rw [Image.add_succ_eq, ← hfirst.limit_eq]
        exact hbelow index (Nat.lt_of_succ_lt_succ hindex)
    · right
      refine ⟨⟨fault, by simp only [storeBytes, hwritten, hfault]⟩, index + 1,
        Nat.succ_lt_succ hindex, ?_⟩
      rw [Image.add_succ_eq, ← hfirst.limit_eq]
      exact hbeyond

end Midrange.HexReading
