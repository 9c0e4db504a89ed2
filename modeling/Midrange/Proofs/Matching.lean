import Mathlib.Data.List.Forall2
import Std.Data.TreeMap

namespace Midrange

variable {α β γ δ : Type} [Ord α] [Ord β] {P : α → β → Prop} {Q : γ → δ → Prop}

/-- Two maps that hold related values at related keys, and as many of them. -/
structure Matches (P : α → β → Prop) (Q : γ → δ → Prop) (map : Std.TreeMap α γ)
    (map' : Std.TreeMap β δ) : Prop where
  rel : ∀ {key key'}, P key key' → Option.Rel Q map[key]? map'[key']?
  size_eq : map.size = map'.size

namespace Matches

variable {map : Std.TreeMap α γ} {map' : Std.TreeMap β δ} {key : α} {key' : β} {value : γ}
  {value' : δ}

theorem isEmpty_eq (hmatches : Matches P Q map map') : map.isEmpty = map'.isEmpty := by
  rw [Std.TreeMap.isEmpty_eq_size_eq_zero, Std.TreeMap.isEmpty_eq_size_eq_zero, hmatches.size_eq]

theorem getElem?_eq {map' : Std.TreeMap β γ} (hmatches : Matches P Eq map map')
    (hkey : P key key') : map[key]? = map'[key']? := by
  have hrel := hmatches.rel hkey
  generalize map[key]? = found at hrel ⊢
  generalize map'[key']? = found' at hrel ⊢
  cases hrel with
  | some heq => rw [heq]
  | none => rfl

variable [Std.TransOrd α] [Std.TransOrd β]

theorem empty : Matches P Q (∅ : Std.TreeMap α γ) (∅ : Std.TreeMap β δ) := by
  refine ⟨fun _ => ?_, rfl⟩
  rw [Std.TreeMap.getElem?_emptyc, Std.TreeMap.getElem?_emptyc]
  exact .none

theorem mem_iff (hmatches : Matches P Q map map') (hkey : P key key') :
    key ∈ map ↔ key' ∈ map' := by
  have hrel := hmatches.rel hkey
  rw [Std.TreeMap.mem_iff_isSome_getElem?, Std.TreeMap.mem_iff_isSome_getElem?]
  generalize map[key]? = found at hrel ⊢
  generalize map'[key']? = found' at hrel ⊢
  cases hrel <;> simp

variable [Std.LawfulEqOrd α] [Std.LawfulEqOrd β] [DecidableEq β]
  (hmatches : Matches P Q map map') (hunique : Relator.BiUnique P) (hkey : P key key')

include hmatches hunique hkey

theorem insert (hvalue : Q value value') :
    Matches P Q (map.insert key value) (map'.insert key' value') := by
  constructor
  case rel =>
    intro other other' hother
    have heq : key = other ↔ key' = other' := Relator.rel_eq hunique hkey hother
    simp only [Std.TreeMap.getElem?_insert, Std.compare_eq_iff_eq, heq]
    split
    · exact .some hvalue
    · exact hmatches.rel hother
  case size_eq =>
    simp only [Std.TreeMap.size_insert, Std.TreeMap.contains_iff_mem, hmatches.mem_iff hkey,
      hmatches.size_eq]

theorem insertIfNew (hvalue : Q value value') :
    Matches P Q (map.insertIfNew key value) (map'.insertIfNew key' value') := by
  constructor
  case rel =>
    intro other other' hother
    have heq : key = other ↔ key' = other' := Relator.rel_eq hunique hkey hother
    simp only [Std.TreeMap.getElem?_insertIfNew, Std.compare_eq_iff_eq, heq, hmatches.mem_iff hkey]
    split
    · exact .some hvalue
    · exact hmatches.rel hother
  case size_eq =>
    simp only [Std.TreeMap.size_insertIfNew, hmatches.mem_iff hkey, hmatches.size_eq]

theorem erase : Matches P Q (map.erase key) (map'.erase key') := by
  constructor
  case rel =>
    intro other other' hother
    have heq : key = other ↔ key' = other' := Relator.rel_eq hunique hkey hother
    simp only [Std.TreeMap.getElem?_erase, Std.compare_eq_iff_eq, heq]
    split
    · exact .none
    · exact hmatches.rel hother
  case size_eq =>
    simp only [Std.TreeMap.size_erase, Std.TreeMap.contains_iff_mem, hmatches.mem_iff hkey,
      hmatches.size_eq]

end Matches

end Midrange
