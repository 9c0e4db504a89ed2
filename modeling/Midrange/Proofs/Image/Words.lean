import Midrange.Image.Basic

namespace Midrange.Image

variable {left right : Image}

/-- Two images hold the same words at the same addresses, and have the same number of words and the
    same end. -/
structure Agrees (left right : Image) : Prop where
  word?_eq : ∀ address, left.word? address = right.word? address
  isPresent_eq : ∀ address, left.isPresent address = right.isPresent address
  size_eq : left.size = right.size
  codeSize_eq : left.codeSize = right.codeSize

/-- Nothing but the word at each address counts. -/
theorem agrees_of_word?_eq (hword : ∀ address, left.word? address = right.word? address) :
    left.Agrees right := by
  have hequiv : left.words.Equiv right.words := .of_forall_constGet?_eq hword
  refine ⟨hword, fun address => ?_, hequiv.size_eq, hequiv.foldl_eq⟩
  rw [isPresent_eq_isSome_word?, isPresent_eq_isSome_word?, hword]

/-- The word that stands at an address if words stand one behind the other from a base on. -/
def wordAt? (base : Int) (words : List Int) (address : Int) : Option Int :=
  if base ≤ address then words[(address - base).toNat]? else none

private theorem wordAt?_cons (base word : Int) (rest : List Int) (address : Int) :
    wordAt? base (word :: rest) address =
      if address = base then some word else wordAt? (base + 1) rest address := by
  unfold wordAt?
  obtain hless | rfl | hmore := Int.lt_trichotomy address base
  · rw [if_neg (by omega), if_neg (by omega), if_neg (by omega)]
  · rw [if_pos (by omega), if_pos rfl, Int.sub_self]
    rfl
  · have hindex : (address - base).toNat = (address - (base + 1)).toNat + 1 := by omega
    rw [if_pos (by omega), if_neg (by omega), if_pos (by omega), hindex, List.getElem?_cons_succ]

/-- A word is written where its address lies below the limit. -/
theorem exists_stored {image : Image} {address : Int} (hrange : 0 ≤ address ∧ address < image.limit)
    (word : Int) :
    ∃ stored, image.store address word = .ok stored ∧ stored.limit = image.limit ∧ ∀ other,
      stored.word? other =
        if other = address then some (word % 0x10000) else image.word? other := by
  refine ⟨_, store_eq_ok_iff.mpr ⟨hrange, rfl⟩, rfl, fun other => ?_⟩
  rw [word?_set]
  simp only [eq_comm]

/-- Words are written one behind the other over what was there, unless one of them is to stand
    outside. -/
theorem storeAll_cases (image : Image) (base : Int) (words : List Int) :
    (∃ stored, image.storeAll base words = .ok stored ∧
      (∀ index < words.length, 0 ≤ base + index ∧ base + index < image.limit) ∧
      ∀ address, stored.word? address =
        ((wordAt? base words address).map (· % 0x10000)).or (image.word? address)) ∨
    (∃ fault, image.storeAll base words = .error fault) ∧
      ∃ index < words.length, ¬ (0 ≤ base + index ∧ base + index < image.limit) := by
  induction words generalizing image base with
  | nil => exact Or.inl ⟨image, rfl, by simp, fun address => by simp [wordAt?]⟩
  | cons word rest ih =>
    by_cases hrange : 0 ≤ base ∧ base < image.limit
    case neg =>
      have hfault : image.store base word = .error (.outside base image.limit) := if_neg hrange
      exact Or.inr ⟨⟨_, by simp only [storeAll, hfault]; rfl⟩, 0, by simp, by simpa using hrange⟩
    obtain ⟨written, hstored, hlimit, hword⟩ := exists_stored hrange word
    have hsucc (index : Nat) : base + ((index + 1 : Nat) : Int) = base + 1 + index := by omega
    obtain ⟨stored, hrest, hinside, hwords⟩ | ⟨⟨fault, hfault⟩, index, hindex, houtside⟩ :=
      ih written (base + 1)
    · refine Or.inl ⟨stored, by simp only [storeAll, hstored]; exact hrest, fun index hindex => ?_,
        fun address => ?_⟩
      · cases index with
        | zero => simpa using hrange
        | succ index =>
          rw [hsucc, ← hlimit]
          exact hinside index (Nat.lt_of_succ_lt_succ hindex)
      · rw [hwords, hword, wordAt?_cons]
        by_cases hhere : address = base
        · -- the words behind the first one do not come back to its address
          have hnone : wordAt? (base + 1) rest address = none := if_neg (by omega)
          rw [hnone, if_pos hhere, if_pos hhere]
          rfl
        · simp [hhere]
    · refine Or.inr ⟨⟨fault, by simp only [storeAll, hstored]; exact hfault⟩, index + 1,
        Nat.succ_lt_succ hindex, ?_⟩
      rwa [hsucc, ← hlimit]

/-- The numbers that words of sixteen bits stand for. -/
def values (words : List UInt16) : List Int :=
  words.map fun word => (word.toNat : Int)

/-- The bytes of words, the low one of each first. -/
def littleEndian : List UInt16 → List UInt8
  | [] => []
  | word :: rest => word.toUInt8 :: (word >>> 8).toUInt8 :: littleEndian rest

theorem length_littleEndian (words : List UInt16) :
    (littleEndian words).length = 2 * words.length := by
  induction words with
  | nil => rfl
  | cons word rest ih =>
    simp only [littleEndian, List.length_cons, ih]
    omega

/-- A word is made of its two bytes. -/
theorem toNat_eq_bytes (word : UInt16) :
    word.toNat = word.toUInt8.toNat + 0x100 * (word >>> 8).toUInt8.toNat := by
  have hless := word.toNat_lt
  simp only [UInt16.toNat_toUInt8, UInt16.toNat_shiftRight, Nat.shiftRight_eq_div_pow]
  simp only [show (8 : UInt16).toNat % 16 = 8 from rfl]
  omega

theorem getElem?_littleEndian {words : List UInt16} {index : Nat} {word : UInt16}
    (hword : words[index]? = some word) : (littleEndian words)[2 * index]? = some word.toUInt8 ∧
      (littleEndian words)[2 * index + 1]? = some (word >>> 8).toUInt8 := by
  induction words generalizing index with
  | nil => cases hword
  | cons first rest ih =>
    cases index with
    | zero =>
      obtain rfl := Option.some.inj hword
      exact ⟨rfl, rfl⟩
    | succ index => exact ih hword

theorem pairBytes_littleEndian (words : List UInt16) :
    pairBytes (littleEndian words) = values words := by
  induction words with
  | nil => rfl
  | cons word rest ih =>
    simp only [littleEndian, pairBytes, ih, values, List.map_cons]
    rw [← toNat_eq_bytes]

/-- Bytes are loaded like the words that they make, unless these go beyond the last address. -/
theorem ofBytes_littleEndian (words : List UInt16) (base : Int) :
    ofBytes (littleEndian words) base =
      if base + words.length > 0x2200 then .error (.tooLong words.length base)
        else ofWords (values words) base := by
  have heven : 2 * words.length % 2 = 0 := by omega
  have hhalf : 2 * words.length / 2 = words.length := by omega
  simp only [ofBytes, length_littleEndian, heven, hhalf, pairBytes_littleEndian, ne_eq,
    not_true_eq_false, if_false]
  rfl

private theorem map_wordAt?_values (base : Int) (words : List UInt16) (address : Int) :
    (wordAt? base (values words) address).map (· % 0x10000) =
      wordAt? base (values words) address := by
  cases hfound : wordAt? base (values words) address with
  | none => rfl
  | some value =>
    obtain ⟨word, hword⟩ : ∃ word : UInt16, word.toNat = value := by
      unfold wordAt? at hfound
      split at hfound
      · obtain ⟨word, _, hword⟩ := List.mem_map.mp (List.mem_of_getElem? hfound)
        exact ⟨word, hword⟩
      · cases hfound
    have hless := word.toNat_lt
    simp only [Option.map_some, Option.some.injEq]
    omega

/-- Words are loaded if all of them lie below the last address. -/
theorem ofWords_cases (words : List UInt16) (base : Nat) :
    (∃ image, ofWords (values words) base = .ok image ∧
      (words = [] ∨ base + words.length ≤ 0x2200) ∧
      ∀ address, image.word? address = wordAt? base (values words) address) ∨
    (∃ fault, ofWords (values words) base = .error fault) ∧ 0x2200 < base + words.length := by
  have hlimit : ({} : Image).limit = 0x2200 := rfl
  have hlength : (values words).length = words.length := List.length_map _
  obtain ⟨image, himage, hinside, hword⟩ | ⟨hfault, index, hindex, houtside⟩ :=
    storeAll_cases {} base (values words)
  · refine Or.inl ⟨image, himage, ?_, fun address => ?_⟩
    · rw [hlength] at hinside
      obtain hnone | hsome := words.eq_nil_or_concat
      · exact Or.inl hnone
      · have hlast := hinside (words.length - 1) (by obtain ⟨_, _, rfl⟩ := hsome; simp)
        omega
    · rw [hword, map_wordAt?_values]
      simp [word?]
  · refine Or.inr ⟨hfault, ?_⟩
    omega

end Midrange.Image
