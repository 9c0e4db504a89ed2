import Std.Data.TreeSet

namespace Midrange

variable {α β : Type} [Ord β]

/-- The members of a list whose keys are not known yet, the first one for each key. -/
def freshBy (key : α → β) (known : Std.TreeSet β) : List α → List α
  | [] => []
  | member :: rest =>
    if known.contains (key member) then freshBy key known rest
    else member :: freshBy key (known.insert (key member)) rest

/-- The first member of a list for each key. -/
def distinctBy (key : α → β) (members : List α) : List α :=
  freshBy key ∅ members

/-- The members of a list that are not known yet, each once. -/
def fresh (known : Std.TreeSet β) (members : List β) : List β :=
  freshBy id known members

/-- The members of a list, each at its first place. -/
def distinct (members : List β) : List β :=
  fresh ∅ members

theorem freshBy_sublist (key : α → β) (known : Std.TreeSet β) (members : List α) :
    (freshBy key known members).Sublist members := by
  induction members generalizing known with
  | nil => exact .slnil
  | cons head rest ih =>
    unfold freshBy
    split
    · exact (ih known).cons head
    · exact (ih _).cons_cons head

variable [Std.TransOrd β] [Std.LawfulEqOrd β]

theorem mem_fresh {known : Std.TreeSet β} {members : List β} {member : β} :
    member ∈ fresh known members ↔ member ∈ members ∧ member ∉ known := by
  induction members generalizing known with
  | nil => simp [fresh, freshBy]
  | cons head rest ih =>
    simp only [fresh] at ih
    by_cases hknown : head ∈ known
    · simp only [fresh, freshBy, id, Std.TreeSet.contains_iff_mem, hknown, if_true, ih,
        List.mem_cons]
      constructor
      · exact fun hmem => ⟨Or.inr hmem.1, hmem.2⟩
      · rintro ⟨rfl | hmem, hnew⟩
        · exact absurd hknown hnew
        · exact ⟨hmem, hnew⟩
    · simp only [fresh, freshBy, id, Std.TreeSet.contains_iff_mem, hknown, if_false, ih,
        List.mem_cons, Std.TreeSet.mem_insert, Std.compare_eq_iff_eq]
      by_cases heq : head = member
      · subst heq
        simp [hknown]
      · simp [heq, Ne.symm heq]

/-- Leaving out some keys beforehand or afterwards makes no difference to the others, whether or not
    the keys that are left out count as known. -/
theorem freshBy_filter {key : α → β} {known known' : Std.TreeSet β} (keep : β → Bool)
    (hknown : ∀ value, keep value = true → known'.contains value = known.contains value)
    (members : List α) : freshBy key known' (members.filter fun member => keep (key member)) =
      (freshBy key known members).filter fun member => keep (key member) := by
  induction members generalizing known known' with
  | nil => rfl
  | cons head rest ih =>
    cases hkeep : keep (key head) with
    | true =>
      simp only [List.filter_cons, hkeep, if_true, freshBy, hknown _ hkeep]
      split
      · exact ih hknown
      · simp only [List.filter_cons, hkeep, if_true]
        refine congrArg (head :: ·) (ih fun value hvalue => ?_)
        simp only [Std.TreeSet.contains_insert, hknown value hvalue]
    | false =>
      simp only [List.filter_cons, hkeep, Bool.false_eq_true, if_false, freshBy]
      split
      · exact ih hknown
      · simp only [List.filter_cons, hkeep, Bool.false_eq_true, if_false]
        refine ih fun value hvalue => ?_
        have hother : key head ≠ value := by
          rintro rfl
          exact Bool.false_ne_true (hkeep.symm.trans hvalue)
        simp [Std.TreeSet.contains_insert, hother, hknown value hvalue]

/-- The first members for each key that is not known, in the words of the standard library. -/
theorem freshBy_eq_eraseDupsBy [DecidableEq β] (key : α → β) (known : Std.TreeSet β)
    (members : List α) :
    freshBy key known members =
      (members.filter fun member => !known.contains (key member)).eraseDupsBy
        fun member earlier => key member == key earlier := by
  induction members generalizing known with
  | nil => rfl
  | cons head rest ih =>
    have hinsert (member : α) : (!(known.insert (key head)).contains (key member)) =
        (decide ((key member == key head) = false) && !known.contains (key member)) := by
      rw [Std.TreeSet.contains_insert, Bool.not_or]
      refine congrArg (· && _) ?_
      by_cases heq : key member = key head
      · simp [heq]
      · simp [heq, Ne.symm heq]
    cases hknown : known.contains (key head) with
    | true =>
      simp only [freshBy, hknown, if_true, List.filter_cons, Bool.not_true, Bool.false_eq_true,
        if_false, ih]
    | false =>
      simp only [freshBy, hknown, Bool.false_eq_true, if_false, List.filter_cons,
        Bool.not_false, if_true, List.eraseDupsBy_cons, List.filter_filter, ih, hinsert]

/-- Of the members with one key the first one is left, unless the key is known. -/
theorem filter_freshBy [DecidableEq β] (key : α → β) (known : Std.TreeSet β) (members : List α)
    (value : β) :
    (freshBy key known members).filter (fun member => key member = value) =
      if known.contains value then []
      else (members.find? fun member => key member = value).toList := by
  induction members generalizing known with
  | nil => simp [freshBy]
  | cons head rest ih =>
    unfold freshBy
    by_cases hhead : key head = value
    · subst hhead
      cases hknown : known.contains (key head) <;> simp [hknown, ih]
    · cases hknown : known.contains (key head) <;> simp [ih, hhead, Std.TreeSet.contains_insert]

theorem mem_distinct {members : List β} {member : β} :
    member ∈ distinct members ↔ member ∈ members := by
  simp [distinct, mem_fresh]

theorem nodup_fresh (known : Std.TreeSet β) (members : List β) : (fresh known members).Nodup := by
  induction members generalizing known with
  | nil => simp [fresh, freshBy]
  | cons head rest ih =>
    simp only [fresh, freshBy, id]
    split
    · exact ih known
    · refine List.nodup_cons.mpr ⟨fun hmem => ?_, ih (known.insert head)⟩
      exact (mem_fresh.mp hmem).2 (Std.TreeSet.mem_insert.mpr (Or.inl Std.ReflOrd.compare_self))

theorem nodup_distinct (members : List β) : (distinct members).Nodup :=
  nodup_fresh ∅ members

end Midrange
