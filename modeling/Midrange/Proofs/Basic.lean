import Std.Data.TreeMap
import Std.Data.TreeSet

namespace Midrange

section Results

variable {ε α β : Type} {result : Except ε α} {more : α → Except ε β} {last : β}

/-- Two parts succeed together if the first one does, and the second one on what it gives. -/
theorem bind_eq_ok_iff : result >>= more = .ok last ↔
    ∃ value, result = .ok value ∧ more value = .ok last := by
  cases result with
  | error fault => exact iff_of_false nofun fun ⟨_, heq, _⟩ => nomatch heq
  | ok value =>
    exact ⟨fun hmore => ⟨value, rfl, hmore⟩, fun ⟨_, heq, hmore⟩ => Except.ok.inj heq ▸ hmore⟩

/-- If every step that succeeds does so in the same way elsewhere, then so do all steps together. -/
theorem foldlM_eq_ok {step other : β → α → Except ε β}
    (hstep : ∀ value item found, step value item = .ok found → other value item = .ok found)
    {items : List α} {start : β} (hall : items.foldlM step start = .ok last) :
    items.foldlM other start = .ok last := by
  induction items generalizing start with
  | nil => exact hall
  | cons item rest ih =>
    rw [List.foldlM_cons, bind_eq_ok_iff] at hall ⊢
    obtain ⟨found, hitem, hrest⟩ := hall
    exact ⟨found, hstep start item found hitem, ih hrest⟩

instance decidableExistsOk (result : Except ε α) : Decidable (∃ value, result = .ok value) :=
  match result with
  | .ok value => isTrue ⟨value, rfl⟩
  | .error _ => isFalse fun ⟨_, heq⟩ => nomatch heq

end Results

section Members

variable {α : Type} [Ord α] [Std.TransOrd α] [Std.LawfulEqOrd α] {members : Std.TreeSet α}
  {member other : α}

theorem mem_insert_iff : other ∈ members.insert member ↔ other = member ∨ other ∈ members := by
  rw [Std.TreeSet.mem_insert, Std.compare_eq_iff_eq, eq_comm]

theorem mem_erase_iff : other ∈ members.erase member ↔ other ≠ member ∧ other ∈ members := by
  rw [Std.TreeSet.mem_erase, ne_eq, Std.compare_eq_iff_eq, eq_comm]

/-- What a table made of rows holds is one of the rows. -/
theorem mem_of_getElem?_ofList {β : Type} {rows : List (α × β)} {key : α} {value : β}
    (hvalue : (Std.TreeMap.ofList rows)[key]? = some value) : (key, value) ∈ rows := by
  suffices hinserted : ∀ table : Std.TreeMap α β, (table.insertMany rows)[key]? = some value →
      (key, value) ∈ rows ∨ table[key]? = some value by
    rw [Std.TreeMap.ofList_eq_insertMany_empty] at hvalue
    exact (hinserted ∅ hvalue).resolve_right (by simp)
  clear hvalue
  induction rows with
  | nil => exact fun table hvalue => Or.inr hvalue
  | cons row rows ih =>
    intro table hvalue
    rw [Std.TreeMap.insertMany_cons] at hvalue
    obtain hmem | hbefore := ih _ hvalue
    · exact Or.inl (List.mem_cons_of_mem row hmem)
    · rw [Std.TreeMap.getElem?_insert] at hbefore
      split at hbefore
      · next hkey =>
        obtain rfl := Std.compare_eq_iff_eq.mp hkey
        obtain rfl := Option.some.inj hbefore
        exact Or.inl List.mem_cons_self
      · exact Or.inr hbefore

variable [DecidableEq α] {list : List α}

theorem mem_insertMany_iff : other ∈ members.insertMany list ↔ other ∈ members ∨ other ∈ list := by
  rw [Std.TreeSet.mem_insertMany_list, List.contains_iff_mem]

theorem mem_ofList_iff : other ∈ Std.TreeSet.ofList list ↔ other ∈ list := by
  rw [Std.TreeSet.mem_ofList, List.contains_iff_mem]

/-- A table tells its entries in the order of their keys. -/
theorem pairwise_fst_toList {β : Type} (table : Std.TreeMap Int β) :
    table.toList.Pairwise (·.1 < ·.1) :=
  table.ordered_keys_toList.imp Std.compare_eq_lt.mp

end Members

end Midrange
