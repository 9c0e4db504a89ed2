import Mathlib.Algebra.GroupWithZero.Nat
import Midrange.Image.Record
import Midrange.Proofs.Text.Hexadecimal

namespace Midrange.Record

/-- Characters spell bytes with a pair of hexadecimal digits each. Blanks may stand around a pair
    but not in it. -/
inductive Spells : List Char → List Nat → Prop where
  | nil : Spells [] []
  | blank {c : Char} {rest : List Char} {bytes : List Nat} (hblank : Text.isAsciiBlank c = true)
      (hrest : Spells rest bytes) : Spells (c :: rest) bytes
  | pair {first second : Char} {rest : List Char} {high low : Nat} {bytes : List Nat}
      (hhigh : Text.hexDigitValue? first = some high) (hlow : Text.hexDigitValue? second = some low)
      (hrest : Spells rest bytes) : Spells (first :: second :: rest) ((16 * high + low) :: bytes)

/-- A line holds bytes if they are spelled behind the mark of a record. -/
def Holds (line : List Char) (bytes : List Nat) : Prop :=
  ∃ digits, line = ':' :: digits ∧ Spells digits bytes

/-- The bytes that make a record: the count of the data, two bytes of address, the kind, the data,
    and one more. -/
def toBytes (record : Record) (check : Nat) : List Nat :=
  record.data.length :: record.address / 0x100 :: record.address % 0x100 :: record.kind ::
    (record.data ++ [check])

/-- A line carries a record if it holds the bytes that make it, and their sum is a multiple of
    256. -/
def Carries (line : List Char) (record : Record) : Prop :=
  ∃ check, Holds line (record.toBytes check) ∧ (record.toBytes check).sum % 0x100 = 0

/-- What is wrong with a line that carries no record. -/
inductive Broken (line : List Char) : Prop where
  | unmarked (hmark : ∀ digits, line ≠ ':' :: digits)
  | misspelt {digits : List Char} (hline : line = ':' :: digits)
      (hspells : ∀ bytes, ¬ Spells digits bytes)
  | short {bytes : List Nat} (hholds : Holds line bytes) (hlength : bytes.length < 5)
  | miscounted {count : Nat} {rest : List Nat} (hholds : Holds line (count :: rest))
      (hcount : (count :: rest).length ≠ count + 5)
  | unbalanced {bytes : List Nat} (hholds : Holds line bytes) (hsum : bytes.sum % 0x100 ≠ 0)

variable {digits line : List Char} {bytes other : List Nat} {record : Record}

private theorem bytes?_of_isAsciiBlank {c : Char} (hblank : Text.isAsciiBlank c = true)
    (rest : List Char) : bytes? (c :: rest) = bytes? rest := by
  cases rest with
  | nil => simp [bytes?, hblank]
  | cons next rest => simp [bytes?, hblank]

private theorem bytes?_of_spells (hspells : Spells digits bytes) : bytes? digits = some bytes := by
  induction hspells with
  | nil => rfl
  | blank hblank _ ih => rw [bytes?_of_isAsciiBlank hblank, ih]
  | pair hhigh hlow _ ih =>
    simp [bytes?, Text.isAsciiBlank_of_hexDigitValue? hhigh, hhigh, hlow, ih]

private theorem spells_of_bytes? (hbytes : bytes? digits = some bytes) : Spells digits bytes := by
  induction digits using bytes?.induct generalizing bytes with
  | case1 =>
    obtain rfl := Option.some.inj hbytes
    exact .nil
  | case2 c hblank =>
    simp only [bytes?, hblank, if_true, Option.some.injEq] at hbytes
    obtain rfl := hbytes
    exact .blank hblank .nil
  | case3 c hblank => simp [bytes?, hblank] at hbytes
  | case4 first second rest hblank ih =>
    rw [bytes?_of_isAsciiBlank hblank] at hbytes
    exact .blank hblank (ih hbytes)
  | case5 first second rest hblank ih =>
    simp only [bytes?, hblank, Bool.false_eq_true, if_false] at hbytes
    simp only [Option.bind_eq_bind, Option.bind_eq_some_iff] at hbytes
    obtain ⟨high, hhigh, low, hlow, behind, hrest, hsome⟩ := hbytes
    obtain rfl := Option.some.inj hsome
    exact .pair hhigh hlow (ih hrest)

theorem bytes?_eq_some_iff : bytes? digits = some bytes ↔ Spells digits bytes :=
  ⟨spells_of_bytes?, bytes?_of_spells⟩

theorem Spells.unique (hspells : Spells digits bytes) (hother : Spells digits other) :
    bytes = other :=
  Option.some.inj ((bytes?_of_spells hspells).symm.trans (bytes?_of_spells hother))

theorem Spells.append (hspells : Spells digits bytes) {more : List Char} {behind : List Nat}
    (hmore : Spells more behind) : Spells (digits ++ more) (bytes ++ behind) := by
  induction hspells with
  | nil => exact hmore
  | blank hblank _ ih => exact .blank hblank ih
  | pair hhigh hlow _ ih => exact .pair hhigh hlow ih

/-- Behind characters that spell bytes the rest spells the other ones. -/
theorem Spells.of_append (hspells : Spells digits bytes) {more : List Char} {all : List Nat}
    (hall : Spells (digits ++ more) all) :
    ∃ behind, all = bytes ++ behind ∧ Spells more behind := by
  induction hspells generalizing all with
  | nil => exact ⟨all, rfl, hall⟩
  | blank hblank _ ih =>
    rw [List.cons_append, ← bytes?_eq_some_iff, bytes?_of_isAsciiBlank hblank,
      bytes?_eq_some_iff] at hall
    exact ih hall
  | pair hhigh hlow _ ih =>
    cases hall with
    | blank hblank =>
      rw [Text.isAsciiBlank_of_hexDigitValue? hhigh] at hblank
      cases hblank
    | pair hhigh' hlow' hrest =>
      obtain rfl := Option.some.inj (hhigh.symm.trans hhigh')
      obtain rfl := Option.some.inj (hlow.symm.trans hlow')
      obtain ⟨behind, rfl, hmore⟩ := ih hrest
      exact ⟨behind, rfl, hmore⟩

/-- Each byte that is spelled has its pair of digits, behind the characters that spell the bytes in
    front of it. -/
theorem Spells.exists_pair (hspells : Spells digits bytes) {index value : Nat}
    (hvalue : bytes[index]? = some value) :
    ∃ front first second back earlier high low, digits = front ++ first :: second :: back ∧
      Spells front earlier ∧ earlier.length = index ∧ Text.hexDigitValue? first = some high ∧
      Text.hexDigitValue? second = some low ∧ value = 16 * high + low := by
  induction hspells generalizing index with
  | nil => cases hvalue
  | blank hblank _ ih =>
    obtain ⟨front, first, second, back, earlier, high, low, rfl, hfront, hpair⟩ := ih hvalue
    exact ⟨_ :: front, first, second, back, earlier, high, low, rfl, .blank hblank hfront, hpair⟩
  | @pair first second rest high low bytes hhigh hlow _ ih =>
    cases index with
    | zero =>
      obtain rfl := Option.some.inj hvalue
      exact ⟨[], first, second, rest, [], high, low, rfl, .nil, rfl, hhigh, hlow, rfl⟩
    | succ index =>
      obtain ⟨front, first', second', back, earlier, high', low', rfl, hfront, rfl, hpair⟩ :=
        ih hvalue
      exact ⟨first :: second :: front, first', second', back, _ :: earlier, high', low', rfl,
        .pair hhigh hlow hfront, rfl, hpair⟩

/-- No byte that is spelled has more than eight bits. -/
theorem Spells.lt (hspells : Spells digits bytes) : ∀ byte ∈ bytes, byte < 0x100 := by
  induction hspells with
  | nil => simp
  | blank _ _ ih => exact ih
  | pair hhigh hlow _ ih =>
    have hfirst := Text.hexDigitValue?_lt hhigh
    have hsecond := Text.hexDigitValue?_lt hlow
    rw [List.forall_mem_cons]
    exact ⟨by omega, ih⟩

theorem Holds.unique (hholds : Holds line bytes) (hother : Holds line other) : bytes = other := by
  obtain ⟨digits, rfl, hspells⟩ := hholds
  obtain ⟨_, heq, hspells'⟩ := hother
  obtain rfl := (List.cons.inj heq).2
  exact hspells.unique hspells'

/-- The data of a record are bytes. -/
theorem Carries.lt (hcarries : Carries line record) : ∀ byte ∈ record.data, byte < 0x100 := by
  obtain ⟨_, ⟨_, _, hspells⟩, _⟩ := hcarries
  intro byte hbyte
  exact hspells.lt byte (by simp [toBytes, hbyte])

/-- A blank line carries no record. -/
theorem not_carries_nil : ¬ Carries [] record := by
  rintro ⟨_, ⟨_, hmark, _⟩, _⟩
  cases hmark

/-- Bytes make a record if there are at least five and the first one counts them. -/
private theorem exists_toBytes (hbyte : ∀ byte ∈ bytes, byte < 0x100) (hlength : 5 ≤ bytes.length)
    (hcount : ∀ count rest, bytes = count :: rest → bytes.length = count + 5) :
    ∃ record check, bytes = toBytes record check := by
  obtain _ | ⟨count, _ | ⟨high, _ | ⟨low, _ | ⟨kind, rest⟩⟩⟩⟩ := bytes
  case cons.cons.cons.cons =>
    obtain rfl | ⟨data, check, hrest⟩ := List.eq_nil_or_concat rest
    · simp at hlength
    · rw [List.concat_eq_append] at hrest
      subst hrest
      have hlow : low < 0x100 := hbyte low (by simp)
      have hcounted := hcount _ _ rfl
      refine ⟨⟨0x100 * high + low, kind, data⟩, check, ?_⟩
      simp only [List.length_cons, List.length_append, List.length_nil] at hcounted
      simp only [toBytes, List.cons.injEq, and_true]
      omega
  all_goals simp at hlength

/-- Every line carries a record, unless something is wrong with it. -/
theorem carries_or_broken (line : List Char) : (∃ record, Carries line record) ∨ Broken line := by
  by_cases hmark : ∃ digits, line = ':' :: digits
  case neg => exact Or.inr (.unmarked fun digits hline => hmark ⟨digits, hline⟩)
  obtain ⟨digits, hline⟩ := hmark
  by_cases hspelt : ∃ bytes, Spells digits bytes
  case neg => exact Or.inr (.misspelt hline fun bytes hspells => hspelt ⟨bytes, hspells⟩)
  obtain ⟨bytes, hspells⟩ := hspelt
  have hholds : Holds line bytes := ⟨digits, hline, hspells⟩
  by_cases hlength : bytes.length < 5
  case pos => exact Or.inr (.short hholds hlength)
  by_cases hsum : bytes.sum % 0x100 = 0
  case neg => exact Or.inr (.unbalanced hholds hsum)
  by_cases hmiscount : ∃ count rest, bytes = count :: rest ∧ bytes.length ≠ count + 5
  case pos =>
    obtain ⟨count, rest, rfl, hcount⟩ := hmiscount
    exact Or.inr (.miscounted hholds hcount)
  have hcount (count : Nat) (rest : List Nat) (hbytes : bytes = count :: rest) :
      bytes.length = count + 5 :=
    Decidable.of_not_not fun hne => hmiscount ⟨count, rest, hbytes, hne⟩
  obtain ⟨record, check, rfl⟩ := exists_toBytes hspells.lt (Nat.le_of_not_lt hlength) hcount
  exact Or.inl ⟨record, check, hholds, hsum⟩

theorem Broken.not_carries (hbroken : Broken line) : ¬ Carries line record := by
  rintro ⟨check, hholds, hsum⟩
  cases hbroken with
  | unmarked hmark =>
    obtain ⟨digits, hline, _⟩ := hholds
    exact hmark digits hline
  | misspelt hline hspells =>
    obtain ⟨digits, hline', hspells'⟩ := hholds
    obtain rfl := (List.cons.inj (hline.symm.trans hline')).2
    exact hspells _ hspells'
  | short hholds' hlength =>
    obtain rfl := hholds.unique hholds'
    simp only [toBytes, List.length_cons, List.length_append, List.length_nil] at hlength
    omega
  | miscounted hholds' hcount =>
    obtain ⟨rfl, rfl⟩ := List.cons.inj (hholds.unique hholds')
    simp only [List.length_cons, List.length_append, List.length_nil] at hcount
    omega
  | unbalanced hholds' hsum' =>
    obtain rfl := hholds.unique hholds'
    exact hsum' hsum

private theorem ofBytes_toBytes {check : Nat} (hsum : (toBytes record check).sum % 0x100 = 0) :
    ofBytes (toBytes record check) = .ok record := by
  have haddress : 0x100 * (record.address / 0x100) + record.address % 0x100 = record.address :=
    Nat.div_add_mod _ _
  rw [List.sum_eq_foldl] at hsum
  unfold toBytes at hsum
  unfold toBytes ofBytes
  simp only [hsum]
  simp [haddress]

private theorem length_of_ofBytes (hrecord : ofBytes bytes = .ok record) :
    5 ≤ bytes.length ∧ ∀ count rest, bytes = count :: rest → bytes.length = count + 5 := by
  unfold ofBytes at hrecord
  split at hrecord
  case h_2 => cases hrecord
  split at hrecord
  case isTrue => cases hrecord
  split at hrecord
  case isTrue => cases hrecord
  case isFalse count _ _ _ rest hsome hcount =>
    have hcounted := Decidable.of_not_not hcount
    refine ⟨by omega, fun count' rest' heq => ?_⟩
    obtain rfl := (List.cons.inj heq).1
    exact hcounted

/-- A line is read as the record that it carries. -/
theorem ofLine_eq_ok_iff : ofLine line = .ok record ↔ Carries line record := by
  constructor
  · intro hrecord
    unfold ofLine at hrecord
    split at hrecord
    case h_2 => cases hrecord
    split at hrecord
    case h_2 => cases hrecord
    case h_1 digits _ bytes hbytes =>
      have hspells := bytes?_eq_some_iff.mp hbytes
      have hsum := sum_of_ofBytes hrecord
      obtain ⟨hlength, hcount⟩ := length_of_ofBytes hrecord
      obtain ⟨record', check, rfl⟩ := exists_toBytes hspells.lt hlength hcount
      rw [← List.sum_eq_foldl] at hsum
      obtain rfl := Except.ok.inj (hrecord.symm.trans (ofBytes_toBytes hsum))
      exact ⟨check, ⟨digits, rfl, hspells⟩, hsum⟩
  · rintro ⟨check, ⟨digits, rfl, hspells⟩, hsum⟩
    simp only [ofLine, bytes?_of_spells hspells, ofBytes_toBytes hsum]

theorem Carries.unique {record' : Record} (hcarries : Carries line record)
    (hother : Carries line record') : record = record' :=
  Except.ok.inj ((ofLine_eq_ok_iff.mpr hcarries).symm.trans (ofLine_eq_ok_iff.mpr hother))

end Midrange.Record
