import Mathlib.Data.List.Nodup
import Midrange.Depth.Agenda

namespace Midrange.Depth.Agenda

variable {agenda rest : Agenda} {arrival : Arrival} {entry : Entry} {nesting : Nesting}
  {depth : Int} {P : Arrival → Prop}

theorem improves_iff : agenda.improves arrival = true ↔
    ∀ nesting, agenda.walked[arrival.entry]? = some nesting →
      nesting.depth < arrival.nesting.depth := by
  unfold improves
  cases agenda.walked[arrival.entry]? <;> simp

theorem le_depth_deeper_left (earlier later : Nesting) :
    earlier.depth ≤ (deeper earlier later).depth := by
  unfold deeper
  split <;> omega

theorem le_depth_deeper_right (earlier later : Nesting) :
    later.depth ≤ (deeper earlier later).depth := by
  unfold deeper
  split <;> omega

theorem deeper_eq_or (earlier later : Nesting) :
    deeper earlier later = earlier ∨ deeper earlier later = later := by
  unfold deeper
  split
  · exact Or.inr rfl
  · exact Or.inl rfl

@[simp]
theorem walked_push : (agenda.push arrival).walked = agenda.walked := by
  unfold push
  simp only
  split
  · rfl
  · split <;> rfl

theorem mem_waiting_iff :
    entry ∈ agenda.waiting ↔ ∃ nesting, agenda.waiting[entry]? = some nesting := by
  rw [Std.TreeMap.mem_iff_isSome_getElem?, Option.isSome_iff_exists]

/-- What waits at an entry where an arrival is offered that improves on what was followed. -/
def joined (agenda : Agenda) (arrival : Arrival) : Nesting :=
  match agenda.waiting[arrival.entry]? with
  | some nesting => deeper nesting arrival.nesting
  | none => arrival.nesting

theorem le_depth_joined (agenda : Agenda) (arrival : Arrival) :
    arrival.nesting.depth ≤ (agenda.joined arrival).depth := by
  unfold joined
  split
  · exact le_depth_deeper_right _ _
  · exact Int.le_refl _

theorem push_eq_of_not_improves (hold : ¬ agenda.improves arrival = true) :
    (agenda.push arrival).waiting = agenda.waiting ∧
    (agenda.push arrival).order = agenda.order := by
  simp [push, hold]

theorem waiting_push_of_improves (himproves : agenda.improves arrival = true) :
    (agenda.push arrival).waiting =
      agenda.waiting.insert arrival.entry (agenda.joined arrival) := by
  unfold push joined
  simp only [himproves, Bool.not_true, Bool.false_eq_true, if_false]
  cases agenda.waiting[arrival.entry]? <;> rfl

theorem toList_order_push_of_improves (himproves : agenda.improves arrival = true) :
    (agenda.push arrival).order.toList =
      if arrival.entry ∈ agenda.waiting then agenda.order.toList
      else agenda.order.toList ++ [arrival.entry] := by
  unfold push
  simp only [himproves, Bool.not_true, Bool.false_eq_true, if_false,
    Std.TreeMap.mem_iff_isSome_getElem?]
  cases agenda.waiting[arrival.entry]? <;> simp

theorem getElem?_waiting_push_of_improves (himproves : agenda.improves arrival = true) :
    (agenda.push arrival).waiting[entry]? =
      if arrival.entry = entry then some (agenda.joined arrival) else agenda.waiting[entry]? := by
  simp only [waiting_push_of_improves himproves, Std.TreeMap.getElem?_insert, Std.compare_eq_iff_eq]

/-- An agenda whose order lists each waiting entry once. -/
structure Listed (agenda : Agenda) : Prop where
  nodup : agenda.order.toList.Nodup
  mem_order_iff : ∀ entry, entry ∈ agenda.order.toList ↔ entry ∈ agenda.waiting

/-- An agenda whose order lists each waiting entry once, with every arrival that waits deeper than
    the last one that was followed from its entry. -/
structure Valid (agenda : Agenda) : Prop where
  nodup : agenda.order.toList.Nodup
  mem_order_iff : ∀ entry, entry ∈ agenda.order.toList ↔ entry ∈ agenda.waiting
  improves : ∀ entry nesting, agenda.waiting[entry]? = some nesting →
    agenda.improves ⟨entry, nesting⟩ = true

/-- Everything that waits and everything that was followed last has a property. -/
structure All (P : Arrival → Prop) (agenda : Agenda) : Prop where
  waiting : ∀ entry nesting, agenda.waiting[entry]? = some nesting → P ⟨entry, nesting⟩
  walked : ∀ entry nesting, agenda.walked[entry]? = some nesting → P ⟨entry, nesting⟩

/-- An arrival at least so deep waits at an entry or was the last one that was followed from
    there. -/
def Covers (agenda : Agenda) (entry : Entry) (depth : Int) : Prop :=
  (∃ nesting, agenda.waiting[entry]? = some nesting ∧ depth ≤ nesting.depth) ∨
    ∃ nesting, agenda.walked[entry]? = some nesting ∧ depth ≤ nesting.depth

theorem Valid.listed (hvalid : agenda.Valid) : agenda.Listed :=
  ⟨hvalid.nodup, hvalid.mem_order_iff⟩

theorem Listed.push (hlisted : agenda.Listed) (arrival : Arrival) :
    (agenda.push arrival).Listed := by
  by_cases himproves : agenda.improves arrival = true
  · have horder := toList_order_push_of_improves himproves
    constructor
    case nodup =>
      rw [horder]
      split
      · exact hlisted.nodup
      · rename_i hnew
        rw [← hlisted.mem_order_iff] at hnew
        exact List.nodup_append.mpr ⟨hlisted.nodup, List.nodup_singleton _, by
          intro entry hentry other hother
          rintro rfl
          exact hnew (List.mem_singleton.mp hother ▸ hentry)⟩
    case mem_order_iff =>
      intro entry
      rw [horder, waiting_push_of_improves himproves, Std.TreeMap.mem_insert, Std.compare_eq_iff_eq]
      split
      · rename_i hmem
        rw [hlisted.mem_order_iff]
        constructor
        · exact Or.inr
        · rintro (rfl | hentry)
          · exact hmem
          · exact hentry
      · rw [List.mem_append, List.mem_singleton, hlisted.mem_order_iff, or_comm, eq_comm]
  · obtain ⟨hwaiting, horder⟩ := push_eq_of_not_improves himproves
    refine ⟨?_, fun entry => ?_⟩
    · rw [horder]
      exact hlisted.nodup
    · rw [horder, hwaiting]
      exact hlisted.mem_order_iff entry

theorem Valid.push (hvalid : agenda.Valid) (arrival : Arrival) : (agenda.push arrival).Valid := by
  obtain ⟨hnodup, hmem⟩ := hvalid.listed.push arrival
  refine ⟨hnodup, hmem, fun entry nesting hwaiting => ?_⟩
  rw [improves_iff, walked_push]
  by_cases himproves : agenda.improves arrival = true
  · rw [getElem?_waiting_push_of_improves himproves] at hwaiting
    split at hwaiting
    · rename_i heq
      obtain rfl := heq
      obtain rfl := Option.some.inj hwaiting
      intro found hfound
      have hless := improves_iff.mp himproves found hfound
      exact Int.lt_of_lt_of_le hless (agenda.le_depth_joined arrival)
    · exact improves_iff.mp (hvalid.improves entry nesting hwaiting)
  · rw [(push_eq_of_not_improves himproves).1] at hwaiting
    exact improves_iff.mp (hvalid.improves entry nesting hwaiting)

theorem All.push (hall : agenda.All P) (harrival : P arrival) : (agenda.push arrival).All P := by
  constructor
  case walked => simpa using hall.walked
  case waiting =>
    intro entry nesting hwaiting
    by_cases himproves : agenda.improves arrival = true
    · rw [getElem?_waiting_push_of_improves himproves] at hwaiting
      split at hwaiting
      · rename_i heq
        obtain rfl := heq
        obtain rfl := Option.some.inj hwaiting
        unfold joined
        split
        · rename_i found hfound
          obtain heq | heq := deeper_eq_or found arrival.nesting
          · rw [heq]
            exact hall.waiting _ _ hfound
          · rw [heq]
            exact harrival
        · exact harrival
      · exact hall.waiting entry nesting hwaiting
    · rw [(push_eq_of_not_improves himproves).1] at hwaiting
      exact hall.waiting entry nesting hwaiting

/-- An agenda does not forget what it covers when something is offered. -/
theorem Covers.push (hcovers : agenda.Covers entry depth) (arrival : Arrival) :
    (agenda.push arrival).Covers entry depth := by
  obtain ⟨nesting, hwaiting, hdepth⟩ | hwalked := hcovers
  · left
    by_cases himproves : agenda.improves arrival = true
    · rw [getElem?_waiting_push_of_improves himproves]
      split
      · rename_i heq
        obtain rfl := heq
        refine ⟨_, rfl, ?_⟩
        simp only [joined, hwaiting]
        exact Int.le_trans hdepth (le_depth_deeper_left nesting arrival.nesting)
      · exact ⟨nesting, hwaiting, hdepth⟩
    · rw [(push_eq_of_not_improves himproves).1]
      exact ⟨nesting, hwaiting, hdepth⟩
  · exact Or.inr (by simpa using hwalked)

/-- What is offered is covered: it waits, or something as deep does or was followed. -/
theorem covers_push (agenda : Agenda) (arrival : Arrival) :
    (agenda.push arrival).Covers arrival.entry arrival.nesting.depth := by
  by_cases himproves : agenda.improves arrival = true
  · left
    rw [getElem?_waiting_push_of_improves himproves, if_pos rfl]
    exact ⟨_, rfl, agenda.le_depth_joined arrival⟩
  · right
    rw [walked_push]
    simpa only [improves_iff, not_forall, exists_prop, Int.not_lt] using himproves

section Offers

variable (offers : List Arrival)

@[simp]
theorem walked_foldl_push (agenda : Agenda) :
    (offers.foldl push agenda).walked = agenda.walked := by
  induction offers generalizing agenda with
  | nil => rfl
  | cons offered rest ih => rw [List.foldl_cons, ih, walked_push]

theorem Valid.foldl_push (hvalid : agenda.Valid) : (offers.foldl Agenda.push agenda).Valid := by
  induction offers generalizing agenda with
  | nil => exact hvalid
  | cons offered rest ih => exact ih (hvalid.push offered)

theorem All.foldl_push (hall : agenda.All P) (hoffers : ∀ offered ∈ offers, P offered) :
    (offers.foldl Agenda.push agenda).All P := by
  induction offers generalizing agenda with
  | nil => exact hall
  | cons offered rest ih =>
    obtain ⟨hoffered, hrest⟩ := List.forall_mem_cons.mp hoffers
    exact ih (hall.push hoffered) hrest

theorem Covers.foldl_push (hcovers : agenda.Covers entry depth) :
    (offers.foldl Agenda.push agenda).Covers entry depth := by
  induction offers generalizing agenda with
  | nil => exact hcovers
  | cons offered rest ih => exact ih (hcovers.push offered)

theorem covers_foldl_push (agenda : Agenda) : ∀ offered ∈ offers,
    (offers.foldl push agenda).Covers offered.entry offered.nesting.depth := by
  induction offers generalizing agenda with
  | nil => exact fun _ hmem => absurd hmem List.not_mem_nil
  | cons offered rest ih =>
    refine List.forall_mem_cons.mpr ⟨?_, ih (agenda.push offered)⟩
    exact Covers.foldl_push rest (agenda.covers_push offered)

end Offers

/-- An arrival that waits is taken up, and the rest of the agenda is left. -/
structure Takes (agenda : Agenda) (arrival : Arrival) (rest : Agenda) : Prop where
  waiting : agenda.waiting[arrival.entry]? = some arrival.nesting
  waiting_rest : rest.waiting = agenda.waiting.erase arrival.entry
  walked_rest : rest.walked = agenda.walked
  order_rest : rest.order.toList = agenda.order.toList.erase arrival.entry

theorem takes_of_pop? (hpop : agenda.pop? = some (arrival, rest)) : agenda.Takes arrival rest := by
  simp only [pop?, Option.bind_eq_bind, Option.pure_def, Option.bind_eq_some_iff, Option.some.injEq,
    Prod.mk.injEq, Prod.exists] at hpop
  obtain ⟨entry, order, horder, nesting, hwaiting, rfl, rfl⟩ := hpop
  have hlist := Fifo.toList_of_pop?_eq_some horder
  exact ⟨hwaiting, rfl, rfl, by simp [hlist]⟩

/-- What is popped stands first in the order. -/
theorem toList_order_of_pop? (hpop : agenda.pop? = some (arrival, rest)) :
    agenda.order.toList = arrival.entry :: rest.order.toList := by
  simp only [pop?, Option.bind_eq_bind, Option.pure_def, Option.bind_eq_some_iff, Option.some.injEq,
    Prod.mk.injEq, Prod.exists] at hpop
  obtain ⟨entry, order, horder, nesting, _, rfl, rfl⟩ := hpop
  exact Fifo.toList_of_pop?_eq_some horder

/-- While anything waits there is something to take up. -/
theorem exists_pop? (hlisted : agenda.Listed) (hwaiting : agenda.waiting.isEmpty = false) :
    ∃ arrival rest, agenda.pop? = some (arrival, rest) := by
  obtain ⟨entry, hentry⟩ := Std.TreeMap.isEmpty_eq_false_iff_exists_mem.mp hwaiting
  have hlist : agenda.order.toList ≠ [] :=
    List.ne_nil_of_mem ((hlisted.mem_order_iff entry).mpr hentry)
  obtain ⟨⟨first, order⟩, horder⟩ :=
    Option.ne_none_iff_exists'.mp (mt Fifo.pop?_eq_none_iff.mp hlist)
  have hfirst : first ∈ agenda.waiting := by
    rw [← hlisted.mem_order_iff, Fifo.toList_of_pop?_eq_some horder]
    exact List.mem_cons_self
  obtain ⟨nesting, hnesting⟩ := mem_waiting_iff.mp hfirst
  exact ⟨⟨first, nesting⟩, { agenda with order, waiting := agenda.waiting.erase first },
    by simp [pop?, horder, hnesting]⟩

namespace Takes

variable (htakes : agenda.Takes arrival rest)

include htakes

theorem improves (hvalid : agenda.Valid) : rest.improves arrival = true := by
  have himproves := hvalid.improves _ _ htakes.waiting
  rwa [Agenda.improves, ← htakes.walked_rest] at himproves

theorem getElem?_waiting_walk :
    (rest.walk arrival.entry arrival.nesting).waiting[entry]? =
      if arrival.entry = entry then none else agenda.waiting[entry]? := by
  simp only [walk, htakes.waiting_rest, Std.TreeMap.getElem?_erase, Std.compare_eq_iff_eq]

theorem getElem?_walked_walk :
    (rest.walk arrival.entry arrival.nesting).walked[entry]? =
      if arrival.entry = entry then some arrival.nesting else agenda.walked[entry]? := by
  simp only [walk, htakes.walked_rest, Std.TreeMap.getElem?_insert, Std.compare_eq_iff_eq]

/-- The rest lists whatever else waits. -/
theorem listed_rest (hlisted : agenda.Listed) : rest.Listed := by
  constructor
  case nodup =>
    rw [htakes.order_rest]
    exact hlisted.nodup.erase arrival.entry
  case mem_order_iff =>
    intro entry
    rw [htakes.order_rest, htakes.waiting_rest, hlisted.nodup.mem_erase_iff, hlisted.mem_order_iff,
      Std.TreeMap.mem_erase, ne_eq, ne_eq, Std.compare_eq_iff_eq, eq_comm]

theorem valid_walk (hvalid : agenda.Valid) : (rest.walk arrival.entry arrival.nesting).Valid := by
  obtain ⟨hnodup, hmem⟩ := htakes.listed_rest hvalid.listed
  refine ⟨hnodup, hmem, fun entry nesting hwaiting => ?_⟩
  rw [htakes.getElem?_waiting_walk] at hwaiting
  split at hwaiting
  · cases hwaiting
  · rename_i hother
    rw [improves_iff, htakes.getElem?_walked_walk, if_neg hother]
    exact improves_iff.mp (hvalid.improves entry nesting hwaiting)

theorem all_rest (hall : agenda.All P) : rest.All P := by
  constructor
  case waiting =>
    intro entry nesting hwaiting
    rw [htakes.waiting_rest, Std.TreeMap.getElem?_erase] at hwaiting
    split at hwaiting
    · cases hwaiting
    · exact hall.waiting entry nesting hwaiting
  case walked =>
    rw [htakes.walked_rest]
    exact hall.walked

theorem all_walk (hall : agenda.All P) : (rest.walk arrival.entry arrival.nesting).All P := by
  constructor
  case waiting =>
    intro entry nesting hwaiting
    rw [htakes.getElem?_waiting_walk] at hwaiting
    split at hwaiting
    · cases hwaiting
    · exact hall.waiting entry nesting hwaiting
  case walked =>
    intro entry nesting hwalked
    rw [htakes.getElem?_walked_walk] at hwalked
    split at hwalked
    · rename_i heq
      obtain rfl := heq
      obtain rfl := Option.some.inj hwalked
      exact hall.waiting _ _ htakes.waiting
    · exact hall.walked entry nesting hwalked

/-- What an agenda covers is still covered when an arrival is taken up and followed. -/
theorem covers_walk (hvalid : agenda.Valid) (hcovers : agenda.Covers entry depth) :
    (rest.walk arrival.entry arrival.nesting).Covers entry depth := by
  unfold Covers
  rw [htakes.getElem?_waiting_walk, htakes.getElem?_walked_walk]
  by_cases heq : arrival.entry = entry
  · obtain rfl := heq
    rw [if_pos rfl, if_pos rfl]
    refine Or.inr ⟨_, rfl, ?_⟩
    obtain ⟨nesting, hwaiting, hdepth⟩ | ⟨nesting, hwalked, hdepth⟩ := hcovers
    · obtain rfl := Option.some.inj (htakes.waiting.symm.trans hwaiting)
      exact hdepth
    · have hless := improves_iff.mp (hvalid.improves _ _ htakes.waiting) nesting hwalked
      exact Int.le_trans hdepth (Int.le_of_lt hless)
  · rw [if_neg heq, if_neg heq]
    exact hcovers

end Takes

end Midrange.Depth.Agenda
