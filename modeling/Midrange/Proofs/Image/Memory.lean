import Mathlib.Data.Set.Card
import Mathlib.Order.Bounds.Basic
import Midrange.Proofs.Image.Placed

namespace Midrange.Image

/-- One call that writes to an image, be it a word or a single byte. -/
inductive Write where
  | word (address value : Int)
  | byte (byteAddress value : Int)
  deriving DecidableEq, Repr

namespace Write

/-- The address of the word that is written, or of which one half is. -/
def address : Write → Int
  | word address _ => address
  | byte byteAddress _ => byteAddress / 2

/-- What is written at a byte address, if anything is: a word puts its low byte at the even address
    and the next one behind it. -/
def byteAt? (byteAddress : Int) : Write → Option Int
  | word address value =>
    if byteAddress / 2 = address then
      some (if byteAddress % 2 = 1 then value / 0x100 % 0x100 else value % 0x100)
    else none
  | byte written value => if byteAddress = written then some (value % 0x100) else none

def perform (image : Image) : Write → Except ImageFault Image
  | word address value => image.store address value
  | byte byteAddress value => image.storeByte byteAddress value

end Write

/-- The image behind a write, which is the one in front of it if the write fails. -/
def follow (image : Image) (write : Write) : Image :=
  match write.perform image with
  | .ok stored => stored
  | .error _ => image

def after (image : Image) (writes : List Write) : Image :=
  writes.foldl follow image

/-- The byte that was written last at a byte address. -/
def lastByte? (writes : List Write) (byteAddress : Int) : Option Int :=
  writes.reverse.findSome? (·.byteAt? byteAddress)

/-- The word that two bytes make, the low one first. A byte that has never been written counts as
    zero, and two of them make no word. -/
def joined? : Option Int → Option Int → Option Int
  | none, none => none
  | low?, high? => some (low?.getD 0 + 0x100 * high?.getD 0)

/-- The word that the bytes written last at its two halves make. -/
def held? (writes : List Write) (address : Int) : Option Int :=
  joined? (lastByte? writes (2 * address)) (lastByte? writes (2 * address + 1))

variable {image : Image} {limit address byteAddress byte word : Int} {write : Write}
  {writes : List Write} {low? high? : Option Int}

theorem Write.byteAt?_mem_range (hbyte : write.byteAt? byteAddress = some byte) :
    0 ≤ byte ∧ byte < 0x100 := by
  cases write with
  | word address value =>
    simp only [byteAt?] at hbyte
    split_ifs at hbyte <;> obtain rfl := Option.some.inj hbyte <;> omega
  | byte written value =>
    simp only [byteAt?] at hbyte
    split_ifs at hbyte
    obtain rfl := Option.some.inj hbyte
    omega

/-- Nothing is written outside the word at the address of a write. -/
theorem Write.byteAt?_eq_none (hother : write.address ≠ byteAddress / 2) :
    write.byteAt? byteAddress = none := by
  cases write with
  | word address value => exact if_neg fun heq => hother heq.symm
  | byte written value =>
    refine if_neg ?_
    rintro rfl
    exact hother rfl

theorem lastByte?_concat (writes : List Write) (write : Write) (byteAddress : Int) :
    lastByte? (writes ++ [write]) byteAddress =
      (write.byteAt? byteAddress).or (lastByte? writes byteAddress) := by
  simp only [lastByte?, List.reverse_append, List.reverse_cons, List.reverse_nil, List.nil_append,
    List.singleton_append, List.findSome?_cons]
  cases write.byteAt? byteAddress <;> rfl

theorem getD_lastByte?_mem_range (writes : List Write) (byteAddress : Int) :
    0 ≤ (lastByte? writes byteAddress).getD 0 ∧ (lastByte? writes byteAddress).getD 0 < 0x100 := by
  cases hlast : lastByte? writes byteAddress with
  | none => decide
  | some byte =>
    obtain ⟨write, -, hbyte⟩ := List.exists_of_findSome?_eq_some hlast
    exact write.byteAt?_mem_range hbyte

theorem joined?_some_left (low : Int) (high? : Option Int) :
    joined? (some low) high? = some (low + 0x100 * high?.getD 0) := by
  cases high? <;> rfl

theorem joined?_some_right (low? : Option Int) (high : Int) :
    joined? low? (some high) = some (low?.getD 0 + 0x100 * high) := by
  cases low? <;> rfl

theorem getD_joined? (low? high? : Option Int) :
    (joined? low? high?).getD 0 = low?.getD 0 + 0x100 * high?.getD 0 := by
  cases low? <;> cases high? <;> rfl

theorem after_concat (image : Image) (writes : List Write) (write : Write) :
    image.after (writes ++ [write]) = (image.after writes).follow write := by
  rw [after, List.foldl_append]
  rfl

/-- What a write leaves at its address, where some word, zero if there is none, has stood before. -/
def Write.onto (word : Int) : Write → Int
  | .word _ value => value % 0x10000
  | .byte byteAddress value => withByte word (byteAddress % 2 == 1) value % 0x10000

/-- A write succeeds exactly if its address lies in the image, and then it changes that word
    alone. -/
theorem Write.perform_cases (image : Image) (write : Write) :
    ((0 ≤ write.address ∧ write.address < image.limit) ∧
      write.perform image = .ok
        (image.set write.address (write.onto ((image.word? write.address).getD 0)))) ∨
    ¬ (0 ≤ write.address ∧ write.address < image.limit) ∧
      write.perform image = .error (.outside write.address image.limit) := by
  by_cases hrange : 0 ≤ write.address ∧ write.address < image.limit
  · refine Or.inl ⟨hrange, ?_⟩
    cases write <;> exact if_pos hrange
  · refine Or.inr ⟨hrange, ?_⟩
    cases write <;> exact if_neg hrange

/-- A write makes its word out of the bytes that it writes and those that stay. -/
theorem Write.joined?_eq (write : Write) (hlow : 0 ≤ low?.getD 0 ∧ low?.getD 0 < 0x100)
    (hhigh : 0 ≤ high?.getD 0 ∧ high?.getD 0 < 0x100) :
    joined? ((write.byteAt? (2 * write.address)).or low?)
      ((write.byteAt? (2 * write.address + 1)).or high?) =
      some (write.onto ((joined? low? high?).getD 0)) := by
  rw [getD_joined?]
  cases write with
  | word written value =>
    have heven : 2 * written / 2 = written ∧ ¬ 2 * written % 2 = 1 := by omega
    have hodd : (2 * written + 1) / 2 = written ∧ (2 * written + 1) % 2 = 1 := by omega
    simp only [address, byteAt?, onto, heven, hodd, if_true, if_false, Option.some_or,
      joined?_some_left, Option.getD_some, Option.some.injEq]
    omega
  | byte written value =>
    obtain hodd | heven : written % 2 = 1 ∨ written % 2 = 0 := by omega
    · have hplaces : ¬ 2 * (written / 2) = written ∧ 2 * (written / 2) + 1 = written := by omega
      simp only [address, byteAt?, onto, hplaces, if_true, if_false, Option.some_or, Option.none_or,
        joined?_some_right, hodd, withByte, beq_self_eq_true, Option.some.injEq]
      omega
    · have hplaces : 2 * (written / 2) = written ∧ ¬ written + 1 = written := by omega
      simp only [address, byteAt?, onto, hplaces, if_true, if_false, Option.some_or, Option.none_or,
        joined?_some_left, heven, withByte, show ((0 : Int) == 1) = false from rfl,
        Bool.false_eq_true, Option.some.injEq]
      omega

/-- After one more write the word at its address is what the write makes of it, and the others are
    as before. -/
theorem held?_concat (writes : List Write) (write : Write) (address : Int) :
    held? (writes ++ [write]) address =
      if write.address = address then some (write.onto ((held? writes address).getD 0))
      else held? writes address := by
  simp only [held?, lastByte?_concat]
  split
  case isTrue hhere =>
    subst hhere
    exact write.joined?_eq (getD_lastByte?_mem_range ..) (getD_lastByte?_mem_range ..)
  case isFalse hother =>
    have hlow : write.address ≠ 2 * address / 2 := by omega
    have hhigh : write.address ≠ (2 * address + 1) / 2 := by omega
    rw [Write.byteAt?_eq_none hlow, Write.byteAt?_eq_none hhigh, Option.none_or, Option.none_or]

/-- What an image is after some writes: it ends where it did, and the words below that end are made
    of the bytes that were written last. -/
structure Remembers (limit : Int) (writes : List Write) (image : Image) : Prop where
  limit_eq : image.limit = limit
  word?_eq : ∀ address, image.word? address =
    if 0 ≤ address ∧ address < limit then held? writes address else none

theorem remembers_nil (limit : Int) : Remembers limit [] (blank limit) := by
  refine ⟨rfl, fun address => ?_⟩
  rw [word?_blank]
  exact (ite_self none).symm

theorem Remembers.follow (hremembers : Remembers limit writes image) (write : Write) :
    Remembers limit (writes ++ [write]) (image.follow write) := by
  obtain ⟨rfl, hword⟩ := hremembers
  unfold Image.follow
  obtain ⟨hrange, hperform⟩ | ⟨hrange, hperform⟩ := write.perform_cases image
  · rw [hperform]
    refine ⟨rfl, fun address => ?_⟩
    rw [word?_set, held?_concat, hword write.address, if_pos hrange]
    by_cases hhere : write.address = address
    · rw [if_pos hhere, if_pos hhere, hhere, if_pos (hhere ▸ hrange)]
    · rw [if_neg hhere, if_neg hhere, hword]
  · rw [hperform]
    refine ⟨rfl, fun address => ?_⟩
    rw [hword, held?_concat]
    by_cases hinside : 0 ≤ address ∧ address < image.limit
    · have hother : ¬ write.address = address := fun hhere => hrange (hhere ▸ hinside)
      rw [if_pos hinside, if_pos hinside, if_neg hother]
    · rw [if_neg hinside, if_neg hinside]

theorem remembers_after (limit : Int) (writes : List Write) :
    Remembers limit writes ((blank limit).after writes) := by
  induction writes using List.reverseRecOn with
  | nil => exact remembers_nil limit
  | append_singleton before write ih =>
    rw [after_concat]
    exact ih.follow write

theorem held?_mem_range (hword : held? writes address = some word) : 0 ≤ word ∧ word < 0x10000 := by
  have hlow := getD_lastByte?_mem_range writes (2 * address)
  have hhigh := getD_lastByte?_mem_range writes (2 * address + 1)
  have heq := getD_joined? (lastByte? writes (2 * address)) (lastByte? writes (2 * address + 1))
  rw [show joined? _ _ = some word from hword, Option.getD_some] at heq
  omega

theorem Remembers.mem_range (hremembers : Remembers limit writes image)
    (hword : image.word? address = some word) :
    (0 ≤ address ∧ address < limit) ∧ 0 ≤ word ∧ word < 0x10000 := by
  rw [hremembers.word?_eq] at hword
  split_ifs at hword with hrange
  exact ⟨hrange, held?_mem_range hword⟩

/-- There are as many words as there are present addresses. -/
theorem size_eq_ncard (image : Image) :
    image.size = {address | image.isPresent address = true}.ncard := by
  have hkeys : (image.toList.map (·.1)).Nodup :=
    (List.pairwise_map.mpr (pairwise_fst_toList image.words)).imp ne_of_lt
  have hset : {address | image.isPresent address = true} = (image.toList.map (·.1)).toFinset := by
    ext address
    rw [List.coe_toFinset, Set.mem_ofPred_eq, Set.mem_ofPred_eq, mem_map_fst_toList_iff]
  rw [hset, Set.ncard_coe_finset, List.toFinset_card_of_nodup hkeys, List.length_map, size, toList,
    Std.TreeMap.length_toList]

/-- The code ends behind the highest present address. -/
theorem codeSize_cases (image : Image) :
    (image.codeSize = 0 ∧ ∀ address, image.isPresent address = false) ∨
      IsGreatest {address | image.isPresent address = true} (image.codeSize - 1) := by
  have hcode : image.codeSize = image.toList.foldl (fun _ entry => entry.1 + 1) 0 := by
    rw [codeSize, Std.TreeMap.foldl_eq_foldl_toList]
    rfl
  cases hwords : image.toList using List.reverseRecOn with
  | nil =>
    refine Or.inl ⟨by rw [hcode, hwords]; rfl, fun address => ?_⟩
    rw [← Bool.not_eq_true, ← mem_map_fst_toList_iff, hwords]
    exact List.not_mem_nil
  | append_singleton before last =>
    have hlast : image.codeSize - 1 = last.1 := by
      rw [hcode, hwords, List.foldl_append]
      exact Int.add_sub_cancel last.1 1
    refine Or.inr ⟨?_, fun address hpresent => ?_⟩
    · rw [hlast, Set.mem_ofPred_eq, ← mem_map_fst_toList_iff, hwords]
      simp
    · obtain ⟨word, hword⟩ := isPresent_iff.mp hpresent
      have hless := lt_codeSize hword
      omega

/-- An image is a memory of bytes. After any writes, whatever their addresses and values and whether
    or not some of them fail, the mask marks the words that are there; these lie in the image and
    have sixteen bits; and each one is made of the bytes written last at its two halves. The size
    counts the present addresses, the code ends behind the highest one, and the words are told in
    the order of their addresses. A write fails exactly if its word lies outside the image, and
    changes nothing then. -/
theorem remembers_last_bytes (limit : Int) (writes : List Write) :
    let image := (blank limit).after writes
    (∀ address, address ∈ image.mask ↔ address ∈ image.words) ∧
    (∀ address word, image.word? address = some word →
      (0 ≤ address ∧ address < limit) ∧ 0 ≤ word ∧ word < 0x10000) ∧
    (∀ address, image.word? address = if 0 ≤ address ∧ address < limit then
      joined? (lastByte? writes (2 * address)) (lastByte? writes (2 * address + 1)) else none) ∧
    image.size = {address | image.isPresent address = true}.ncard ∧
    ((image.codeSize = 0 ∧ ∀ address, image.isPresent address = false) ∨
      IsGreatest {address | image.isPresent address = true} (image.codeSize - 1)) ∧
    image.toList.Pairwise (·.1 < ·.1) ∧
    (∀ address word, (address, word) ∈ image.toList ↔ image.word? address = some word) ∧
    ∀ write : Write,
      ((∃ fault, write.perform image = .error fault) ↔
        ¬ (0 ≤ write.address ∧ write.address < limit)) ∧
      ∀ fault, write.perform image = .error fault →
        fault = .outside write.address limit ∧ image.follow write = image := by
  intro image
  have hremembers : Remembers limit writes image := remembers_after limit writes
  refine ⟨image.mem_mask_iff, fun address word => hremembers.mem_range, hremembers.word?_eq,
    image.size_eq_ncard, image.codeSize_cases, pairwise_fst_toList image.words,
    fun address word => mem_toList_iff, fun write => ?_⟩
  rw [← hremembers.limit_eq]
  obtain ⟨hrange, hperform⟩ | ⟨hrange, hperform⟩ := write.perform_cases image
  · simp [hperform, hrange]
  · simp [hperform, hrange, follow]

end Midrange.Image
