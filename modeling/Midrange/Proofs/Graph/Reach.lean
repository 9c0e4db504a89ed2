import Mathlib.Data.Finset.Card
import Mathlib.Data.List.Forall2
import Mathlib.Logic.Relation
import Midrange.Graph.Basic
import Midrange.Proofs.Basic

namespace Midrange.Graph

variable {α : Type}

/-- Any number of steps, none at all included, lead from one member to another. -/
def Reaches (next : α → List α) : α → α → Prop :=
  Relation.ReflTransGen fun member neighbour => neighbour ∈ next member

namespace Reaches

variable {next : α → List α} {first second third : α}

theorem refl (member : α) : Reaches next member member :=
  Relation.ReflTransGen.refl

theorem trans (hfirst : Reaches next first second) (hsecond : Reaches next second third) :
    Reaches next first third :=
  Relation.ReflTransGen.trans hfirst hsecond

theorem tail (hreach : Reaches next first second) (hstep : third ∈ next second) :
    Reaches next first third :=
  Relation.ReflTransGen.tail hreach hstep

theorem head (hstep : second ∈ next first) (hreach : Reaches next second third) :
    Reaches next first third :=
  Relation.ReflTransGen.head hstep hreach

/-- What steps cannot leave holds everything that they lead to from inside. -/
theorem closed {P : α → Prop} (hclosed : ∀ member, P member → ∀ child ∈ next member, P child)
    (hreach : Reaches next first second) (hfirst : P first) : P second := by
  induction hreach with
  | refl => exact hfirst
  | tail _ hstep ih => exact hclosed _ ih _ hstep

/-- More steps lead no less far. -/
theorem mono {more : α → List α} (hmore : ∀ member, ∀ child ∈ next member, child ∈ more member)
    (hreach : Reaches next first second) : Reaches more first second := by
  induction hreach with
  | refl => exact refl _
  | tail _ hstep ih => exact ih.tail (hmore _ _ hstep)

end Reaches

variable [Ord α] {next : α → List α} {fuel : Nat} {known : Std.TreeSet α} {generation : List α}

private theorem mem_spread_of_mem {member : α} (hmem : member ∈ generation) :
    member ∈ spread next fuel known generation := by
  cases fuel with
  | zero => exact hmem
  | succ fuel =>
    cases generation with
    | nil => exact hmem
    | cons first others => exact List.mem_append_left _ hmem

variable [Std.TransOrd α] [Std.LawfulEqOrd α]

private theorem reaches_of_mem_spread {member : α}
    (hmem : member ∈ spread next fuel known generation) :
    ∃ source ∈ generation, Reaches next source member := by
  induction fuel generalizing known generation with
  | zero => exact ⟨member, hmem, .refl member⟩
  | succ fuel ih =>
    cases generation with
    | nil => exact absurd hmem List.not_mem_nil
    | cons first others =>
      obtain hmem | hmem := List.mem_append.mp hmem
      · exact ⟨member, hmem, .refl member⟩
      · obtain ⟨child, hchild, hreach⟩ := ih hmem
        obtain ⟨parent, hparent, hstep⟩ := List.mem_flatMap.mp (mem_fresh.mp hchild).1
        exact ⟨parent, hparent, .head hstep hreach⟩

variable [DecidableEq α]

/-- Whatever a generation adds to the known members is no longer to be met. -/
private theorem card_unknown_lt {members : Finset α} {children : List α} {child : α}
    (hchild : child ∈ children) (hmember : child ∈ members) (hnew : child ∉ known) :
    (members.filter (· ∉ known.insertMany children)).card < (members.filter (· ∉ known)).card := by
  have hsubset : members.filter (· ∉ known.insertMany children) ⊆ members.filter (· ∉ known) := by
    intro member hmem
    obtain ⟨hmem, hunknown⟩ := Finset.mem_filter.mp hmem
    exact Finset.mem_filter.mpr
      ⟨hmem, fun hknown => hunknown (mem_insertMany_iff.mpr (Or.inl hknown))⟩
  apply Finset.card_lt_card
  rw [Finset.ssubset_iff_of_subset hsubset]
  refine ⟨child, Finset.mem_filter.mpr ⟨hmember, hnew⟩, fun hmem => ?_⟩
  exact (Finset.mem_filter.mp hmem).2 (mem_insertMany_iff.mpr (Or.inr hchild))

/-- The latest generation is known, and steps from all other known members lead to known ones. -/
private structure Frontier (next : α → List α) (known : Std.TreeSet α) (generation : List α) :
    Prop where
  known_of_mem : ∀ member ∈ generation, member ∈ known
  closed : ∀ member ∈ known, member ∉ generation → ∀ child ∈ next member, child ∈ known

private theorem Frontier.advance (hfrontier : Frontier next known generation) :
    Frontier next (known.insertMany (fresh known (generation.flatMap next)))
      (fresh known (generation.flatMap next)) := by
  refine ⟨fun member hmem => mem_insertMany_iff.mpr (Or.inr hmem),
    fun member hmem hold child hchild => ?_⟩
  have hknown := (mem_insertMany_iff.mp hmem).resolve_right hold
  rw [mem_insertMany_iff]
  by_cases hlast : member ∈ generation
  · by_cases hchildKnown : child ∈ known
    · exact Or.inl hchildKnown
    · exact Or.inr (mem_fresh.mpr ⟨List.mem_flatMap.mpr ⟨member, hlast, hchild⟩, hchildKnown⟩)
  · exact Or.inl (hfrontier.closed member hknown hlast child hchild)

/-- There is fuel for all members that steps from a generation can still meet. -/
private structure Fuelled (next : α → List α) (members : Finset α) (fuel : Nat)
    (known : Std.TreeSet α) (generation : List α) : Prop where
  mem_of_reaches : ∀ source ∈ generation, ∀ member, Reaches next source member → member ∈ members
  card_le : generation = [] ∨ (members.filter (· ∉ known)).card ≤ fuel

private theorem Fuelled.advance {members : Finset α}
    (hfuelled : Fuelled next members (fuel + 1) known generation) (hsome : generation ≠ []) :
    Fuelled next members fuel (known.insertMany (fresh known (generation.flatMap next)))
      (fresh known (generation.flatMap next)) := by
  have hmembers : ∀ child ∈ fresh known (generation.flatMap next), ∀ member,
      Reaches next child member → member ∈ members := by
    intro child hchild member hreach
    obtain ⟨parent, hparent, hstep⟩ := List.mem_flatMap.mp (mem_fresh.mp hchild).1
    exact hfuelled.mem_of_reaches parent hparent member (.head hstep hreach)
  refine ⟨hmembers, ?_⟩
  by_cases hnone : fresh known (generation.flatMap next) = []
  · exact Or.inl hnone
  · obtain ⟨new, hnew⟩ := List.exists_mem_of_ne_nil _ hnone
    have hless := card_unknown_lt hnew (hmembers new hnew new (.refl new)) (mem_fresh.mp hnew).2
    have hcard := hfuelled.card_le.resolve_left hsome
    exact Or.inr (by omega)

omit [DecidableEq α] in
/-- Without fuel nothing is left to be met. -/
private theorem Fuelled.fresh_eq_nil {members : Finset α}
    (hfuelled : Fuelled next members 0 known generation) :
    fresh known (generation.flatMap next) = [] := by
  by_contra hsome
  obtain ⟨new, hnew⟩ := List.exists_mem_of_ne_nil _ hsome
  obtain ⟨hmem, hunknown⟩ := mem_fresh.mp hnew
  obtain ⟨parent, hparent, hstep⟩ := List.mem_flatMap.mp hmem
  have hmember := hfuelled.mem_of_reaches parent hparent new (.head hstep (.refl new))
  have hcard := hfuelled.card_le.resolve_left (List.ne_nil_of_mem hparent)
  have hempty := Finset.card_eq_zero.mp (Nat.le_zero.mp hcard)
  have hfound : new ∈ members.filter (· ∉ known) := Finset.mem_filter.mpr ⟨hmember, hunknown⟩
  simp [hempty] at hfound

/-- With fuel for every member that is still to be met, steps lead from what is known or comes up to
    nothing else. -/
private theorem mem_spread_of_mem_next {members : Finset α}
    (hfrontier : Frontier next known generation)
    (hfuelled : Fuelled next members fuel known generation) {member child : α}
    (hmember : member ∈ known ∨ member ∈ spread next fuel known generation)
    (hchild : child ∈ next member) : child ∈ known ∨ child ∈ spread next fuel known generation := by
  induction fuel generalizing known generation with
  | zero =>
    have hmember : member ∈ known := hmember.elim id (hfrontier.known_of_mem member)
    by_cases hlast : member ∈ generation
    · by_contra hnew
      have hfresh : child ∈ fresh known (generation.flatMap next) :=
        mem_fresh.mpr ⟨List.mem_flatMap.mpr ⟨member, hlast, hchild⟩,
          fun hknown => hnew (Or.inl hknown)⟩
      rw [hfuelled.fresh_eq_nil] at hfresh
      cases hfresh
    · exact Or.inl (hfrontier.closed member hmember hlast child hchild)
  | succ fuel ih =>
    cases generation with
    | nil =>
      have hmember : member ∈ known := hmember.elim id fun h => absurd h List.not_mem_nil
      exact Or.inl (hfrontier.closed member hmember List.not_mem_nil child hchild)
    | cons first others =>
      have hadvanced := hfuelled.advance (List.cons_ne_nil first others)
      have hnext := ih hfrontier.advance hadvanced (hmember.elim ?_ ?_)
      · obtain hknown | hlater := hnext
        · obtain hknown | hnew := mem_insertMany_iff.mp hknown
          · exact Or.inl hknown
          · exact Or.inr (List.mem_append_right _ (mem_spread_of_mem hnew))
        · exact Or.inr (List.mem_append_right _ hlater)
      · exact fun hknown => Or.inl (mem_insertMany_iff.mpr (Or.inl hknown))
      · intro hspread
        obtain hlast | hlater := List.mem_append.mp hspread
        · exact Or.inl (mem_insertMany_iff.mpr (Or.inl (hfrontier.known_of_mem member hlast)))
        · exact Or.inr hlater

/-- Fuel beyond that for all members that can still be met changes nothing. -/
private theorem spread_eq_of_le {members : Finset α} {more : Nat}
    (hfuelled : Fuelled next members fuel known generation) (hmore : fuel ≤ more) :
    spread next more known generation = spread next fuel known generation := by
  have hnone (fuel : Nat) (known : Std.TreeSet α) : spread next fuel known [] = [] := by
    cases fuel <;> rfl
  induction fuel generalizing more known generation with
  | zero =>
    cases more with
    | zero => rfl
    | succ more =>
      cases generation with
      | nil => rfl
      | cons first others =>
        simp only [spread, hfuelled.fresh_eq_nil, hnone, List.append_nil]
  | succ fuel ih =>
    obtain ⟨more, rfl⟩ : ∃ rest, more = rest + 1 := ⟨more - 1, by omega⟩
    cases generation with
    | nil => rfl
    | cons first others =>
      have hadvanced := hfuelled.advance (List.cons_ne_nil first others)
      simp only [spread, ih hadvanced (Nat.le_of_succ_le_succ hmore)]

omit [DecidableEq α] in
private theorem fuelled_distinct {starts : List α} {members : Finset α}
    (hmembers : ∀ start ∈ starts, ∀ member, Reaches next start member → member ∈ members)
    (hfuel : members.card ≤ fuel) : Fuelled next members fuel known (distinct starts) := by
  refine ⟨fun source hsource => hmembers source (mem_distinct.mp hsource), Or.inr ?_⟩
  exact (Finset.card_filter_le _ _).trans hfuel

/-- A search does not depend on its fuel, as long as that is enough for all that can be met. -/
theorem reach_eq_of_le {starts : List α} {more : Nat} (members : Finset α)
    (hmembers : ∀ start ∈ starts, ∀ member, Reaches next start member → member ∈ members)
    (hfuel : members.card ≤ fuel) (hmore : fuel ≤ more) :
    reach next more starts = reach next fuel starts :=
  spread_eq_of_le (fuelled_distinct hmembers hfuel) hmore

/-- A search with fuel for all that can be met finds exactly what steps lead to. -/
theorem mem_reach_iff {starts : List α} {member : α} (members : Finset α)
    (hmembers : ∀ start ∈ starts, ∀ member, Reaches next start member → member ∈ members)
    (hfuel : members.card ≤ fuel) :
    member ∈ reach next fuel starts ↔ ∃ start ∈ starts, Reaches next start member := by
  unfold reach
  have hstart (x : α) : x ∈ Std.TreeSet.ofList starts ↔ x ∈ distinct starts := by
    rw [mem_ofList_iff, mem_distinct]
  generalize Std.TreeSet.ofList starts = known at hstart
  constructor
  · intro hmem
    obtain ⟨start, hmem, hreach⟩ := reaches_of_mem_spread hmem
    exact ⟨start, mem_distinct.mp hmem, hreach⟩
  · rintro ⟨start, hmem, hreach⟩
    have hfound : member ∈ known ∨ member ∈ spread next fuel known (distinct starts) := by
      apply hreach.closed (P := fun x => x ∈ known ∨ x ∈ spread next fuel known (distinct starts))
      · intro x hx y hy
        have hfrontier : Frontier next known (distinct starts) :=
          ⟨fun z hz => (hstart z).mpr hz, fun z hz hold => absurd ((hstart z).mp hz) hold⟩
        exact mem_spread_of_mem_next hfrontier (fuelled_distinct hmembers hfuel) hx hy
      · exact Or.inl ((hstart start).mpr (mem_distinct.mpr hmem))
    obtain hfound | hfound := hfound
    · exact mem_spread_of_mem ((hstart member).mp hfound)
    · exact hfound

private theorem mem_generation_or_not_mem_known {member : α}
    (hmem : member ∈ spread next fuel known generation) : member ∈ generation ∨ member ∉ known := by
  induction fuel generalizing known generation with
  | zero => exact Or.inl hmem
  | succ fuel ih =>
    cases generation with
    | nil => exact Or.inl hmem
    | cons first others =>
      obtain hmem | hlater := List.mem_append.mp hmem
      · exact Or.inl hmem
      · obtain hchild | hnew := ih hlater
        · exact Or.inr (mem_fresh.mp hchild).2
        · exact Or.inr fun hknown => hnew (mem_insertMany_iff.mpr (Or.inl hknown))

private theorem nodup_spread (hknown : ∀ member ∈ generation, member ∈ known)
    (hnodup : generation.Nodup) : (spread next fuel known generation).Nodup := by
  induction fuel generalizing known generation with
  | zero => exact hnodup
  | succ fuel ih =>
    cases generation with
    | nil => exact hnodup
    | cons first others =>
      let children := fresh known ((first :: others).flatMap next)
      have hrest : (spread next fuel (known.insertMany children) children).Nodup :=
        ih (fun child hchild => mem_insertMany_iff.mpr (Or.inr hchild)) (nodup_fresh _ _)
      refine List.nodup_append'.mpr ⟨hnodup, hrest, fun member hmem hlater => ?_⟩
      -- the generation is known, and what comes behind it is not
      obtain hchild | hnew := mem_generation_or_not_mem_known hlater
      · exact (mem_fresh.mp hchild).2 (hknown member hmem)
      · exact hnew (mem_insertMany_iff.mpr (Or.inl (hknown member hmem)))

/-- A search meets nothing twice. -/
theorem nodup_reach (next : α → List α) (fuel : Nat) (starts : List α) :
    (reach next fuel starts).Nodup :=
  nodup_spread (fun _ hmem => mem_ofList_iff.mpr (mem_distinct.mp hmem)) (nodup_distinct starts)

section Related

variable {β : Type} [Ord β] [Std.TransOrd β] [Std.LawfulEqOrd β] [DecidableEq β] {P : α → β → Prop}
  {next' : β → List β} {known' : Std.TreeSet β} {generation' starts' : List β} {starts : List α}
  (hunique : Relator.BiUnique P)

include hunique

omit [DecidableEq α] [DecidableEq β] in
private theorem forall₂_fresh
    (hknown : ∀ {member member'}, P member member' → (member ∈ known ↔ member' ∈ known'))
    (hmembers : List.Forall₂ P generation generation') :
    List.Forall₂ P (fresh known generation) (fresh known' generation') := by
  induction hmembers generalizing known known' with
  | nil => exact .nil
  | @cons first first' rest rest' hfirst hrest ih =>
    simp only [fresh] at ih
    simp only [fresh, freshBy, id, Std.TreeSet.contains_iff_mem, hknown hfirst]
    split
    · exact ih hknown
    · refine .cons hfirst (ih fun {member member'} hmember => ?_)
      have heq : member = first ↔ member' = first' := Relator.rel_eq hunique hmember hfirst
      rw [mem_insert_iff, mem_insert_iff, heq, hknown hmember]

variable (hnext : ∀ {member member'}, P member member' →
  List.Forall₂ P (next member) (next' member'))

include hnext

private theorem forall₂_spread
    (hknown : ∀ {member member'}, P member member' → (member ∈ known ↔ member' ∈ known'))
    (hgeneration : List.Forall₂ P generation generation') :
    List.Forall₂ P (spread next fuel known generation) (spread next' fuel known' generation') := by
  induction fuel generalizing known known' generation generation' with
  | zero => exact hgeneration
  | succ fuel ih =>
    cases hgeneration with
    | nil => exact .nil
    | @cons first first' others others' hfirst hothers =>
      have hgeneration := List.Forall₂.cons hfirst hothers
      have hchildren := forall₂_fresh hunique hknown (List.rel_flatMap hgeneration fun _ _ => hnext)
      refine List.rel_append hgeneration (ih (fun {member member'} hmember => ?_) hchildren)
      have hmem : member ∈ fresh known ((first :: others).flatMap next) ↔
          member' ∈ fresh known' ((first' :: others').flatMap next') :=
            List.rel_mem hunique hmember hchildren
      rw [mem_insertMany_iff, mem_insertMany_iff, hknown hmember, hmem]

/-- Where corresponding members lead to corresponding ones, a search from corresponding starts finds
    corresponding members in the same order. -/
theorem forall₂_reach (hstarts : List.Forall₂ P starts starts') :
    List.Forall₂ P (reach next fuel starts) (reach next' fuel starts') := by
  have hdistinct : List.Forall₂ P (distinct starts) (distinct starts') :=
    forall₂_fresh hunique (fun _ => by simp) hstarts
  refine forall₂_spread hunique hnext (fun {member member'} hmember => ?_) hdistinct
  have hmem : member ∈ starts ↔ member' ∈ starts' := List.rel_mem hunique hmember hstarts
  rw [mem_ofList_iff, mem_ofList_iff, hmem]

end Related

/-- A search only depends on the steps from the members that it meets. -/
theorem reach_congr {next' : α → List α} {starts : List α}
    (hnext : ∀ start ∈ starts, ∀ member, Reaches next start member → next member = next' member) :
    reach next fuel starts = reach next' fuel starts := by
  let Met (member member' : α) := member = member' ∧ ∃ start ∈ starts, Reaches next start member
  have hunique : Relator.BiUnique Met := by
    constructor
    · rintro _ _ _ ⟨rfl, -⟩ ⟨rfl, -⟩
      rfl
    · rintro _ _ _ ⟨rfl, -⟩ ⟨rfl, -⟩
      rfl
  have hstarts : List.Forall₂ Met starts starts :=
    List.forall₂_same.mpr fun start hstart => ⟨rfl, start, hstart, .refl start⟩
  have hreach : List.Forall₂ Met (reach next fuel starts) (reach next' fuel starts) := by
    refine forall₂_reach hunique ?_ hstarts
    rintro member _ ⟨rfl, start, hstart, hreach⟩
    rw [← hnext start hstart member hreach]
    exact List.forall₂_same.mpr fun child hchild => ⟨rfl, start, hstart, hreach.tail hchild⟩
  have heq := hreach.imp fun _ _ hmet => hmet.1
  rwa [List.forall₂_eq_eq_eq] at heq

end Midrange.Graph
