import Midrange.Proofs.Depth.Agenda

namespace Midrange.Depth

/-- How often anything was offered. -/
def Tally.offers (tally : Tally) : Nat :=
  tally.pushed + tally.merged + tally.dropped

namespace Agenda

/-- What is done with an agenda: work is offered, the work that has waited longest is taken, or the
    notes on what was followed change in whatever way. -/
inductive Deed where
  | push (arrival : Arrival)
  | pop
  | note (walked : Std.TreeMap Entry Nesting)

def Deed.isPush : Deed → Bool
  | push _ => true
  | pop | note _ => false

/-- The agenda behind a deed. To take something where nothing waits is refused and changes
    nothing. -/
def after (agenda : Agenda) : Deed → Agenda
  | .push arrival => agenda.push arrival
  | .pop => (agenda.pop?.map (·.2)).getD agenda
  | .note walked => { agenda with walked }

/-- What a deed takes from the agenda. -/
def taken? (agenda : Agenda) : Deed → Option Arrival
  | .pop => agenda.pop?.map (·.1)
  | .push _ | .note _ => none

/-- An offer that counts as dropped. -/
def Drops (agenda : Agenda) (arrival : Arrival) : Prop :=
  (agenda.push arrival).tally.dropped = agenda.tally.dropped + 1

/-- Deeds one after the other. At first nothing waits, whatever the notes. -/
structure History where
  walked : Std.TreeMap Entry Nesting
  deeds : List Deed

namespace History

/-- The agenda at a time, which is the number of the deeds that are done by then. -/
def agenda (history : History) (time : Nat) : Agenda :=
  (history.deeds.take time).foldl after { walked := history.walked }

/-- What the deed that is next at a time takes from the agenda. -/
def taken? (history : History) (time : Nat) : Option Arrival :=
  history.deeds[time]?.bind (history.agenda time).taken?

/-- Everything that has been taken before a time. -/
def taken (history : History) (now : Nat) : List Arrival :=
  (List.range now).filterMap history.taken?

/-- The number of offers before a time. -/
def offers (history : History) (now : Nat) : Nat :=
  (history.deeds.take now).countP Deed.isPush

/-- An entry came to wait by the deed at some time, and has waited ever since. -/
structure WaitsSince (history : History) (now : Nat) (entry : Entry) (since : Nat) : Prop where
  lt : since < now
  enters : entry ∉ (history.agenda since).waiting
  stays : ∀ time, since < time → time ≤ now → entry ∈ (history.agenda time).waiting

/-- An offer for an entry, made since some time, that was not dropped. -/
structure Keeps (history : History) (now since : Nat) (entry : Entry) (time : Nat)
    (nesting : Nesting) : Prop where
  le : since ≤ time
  lt : time < now
  offered : history.deeds[time]? = some (.push ⟨entry, nesting⟩)
  kept : ¬ (history.agenda time).Drops ⟨entry, nesting⟩

/-- Of the offers for an entry since some time that were not dropped, no other one is deeper, and
    none before it is as deep. -/
def FirstDeepest (history : History) (now since : Nat) (entry : Entry) (nesting : Nesting) : Prop :=
  ∃ time, history.Keeps now since entry time nesting ∧
    ∀ other found, history.Keeps now since entry other found →
      found.depth ≤ nesting.depth ∧ (other < time → found.depth < nesting.depth)

/-- One entry came to wait before the other did. -/
def WaitsLonger (history : History) (now : Nat) (first second : Entry) : Prop :=
  ∃ since later, history.WaitsSince now first since ∧ history.WaitsSince now second later ∧
    since < later

end History

variable {agenda rest : Agenda} {arrival : Arrival}

/-- All that an offer can do: it is dropped, it joins what waits at its entry, or it comes to
    wait. -/
theorem push_cases (agenda : Agenda) (arrival : Arrival) :
    (¬ agenda.improves arrival = true ∧
      agenda.push arrival = { agenda with
        tally := { agenda.tally with dropped := agenda.tally.dropped + 1 } }) ∨
    (agenda.improves arrival = true ∧ ∃ nesting, agenda.waiting[arrival.entry]? = some nesting ∧
      agenda.push arrival = { agenda with
        waiting := agenda.waiting.insert arrival.entry (deeper nesting arrival.nesting)
        tally := { agenda.tally with merged := agenda.tally.merged + 1 } }) ∨
    (agenda.improves arrival = true ∧ agenda.waiting[arrival.entry]? = none ∧
      agenda.push arrival = { agenda with
        order := agenda.order.push arrival.entry
        waiting := agenda.waiting.insert arrival.entry arrival.nesting
        tally := { agenda.tally with pushed := agenda.tally.pushed + 1 } }) := by
  by_cases himproves : agenda.improves arrival = true
  · right
    cases hwaiting : agenda.waiting[arrival.entry]? with
    | some nesting =>
      refine Or.inl ⟨himproves, nesting, rfl, ?_⟩
      simp [push, himproves, hwaiting]
    | none =>
      refine Or.inr ⟨himproves, rfl, ?_⟩
      simp [push, himproves, hwaiting]
  · left
    refine ⟨himproves, ?_⟩
    simp [push, himproves]

theorem drops_iff_not_improves : agenda.Drops arrival ↔ ¬ agenda.improves arrival = true := by
  unfold Drops
  obtain ⟨hnot, hpush⟩ | ⟨himproves, _, _, hpush⟩ | ⟨himproves, _, hpush⟩ :=
    push_cases agenda arrival
  · simp [hpush, hnot]
  · simp [hpush, himproves]
  · simp [hpush, himproves]

/-- An offer is dropped exactly if something as deep was followed last from its entry. -/
theorem drops_iff : agenda.Drops arrival ↔
    ∃ nesting, agenda.walked[arrival.entry]? = some nesting ∧
      arrival.nesting.depth ≤ nesting.depth := by
  rw [drops_iff_not_improves, improves_iff]
  simp only [not_forall, exists_prop, Int.not_lt]

theorem tally_of_pop? (hpop : agenda.pop? = some (arrival, rest)) : rest.tally = agenda.tally := by
  simp only [pop?, Option.bind_eq_bind, Option.pure_def, Option.bind_eq_some_iff, Option.some.injEq,
    Prod.mk.injEq, Prod.exists] at hpop
  obtain ⟨entry, order, _, nesting, _, rfl, rfl⟩ := hpop
  rfl

/-- Nothing can be taken exactly where nothing waits. -/
theorem Listed.pop?_eq_none_iff (hlisted : agenda.Listed) :
    agenda.pop? = none ↔ agenda.order.toList = [] := by
  constructor
  · intro hpop
    by_contra horder
    obtain ⟨entry, hentry⟩ := List.exists_mem_of_ne_nil _ horder
    have hwaiting : agenda.waiting.isEmpty = false :=
      Std.TreeMap.isEmpty_eq_false_iff_exists_mem.mpr ⟨entry,
        (hlisted.mem_order_iff entry).mp hentry⟩
    obtain ⟨arrival, rest, hsome⟩ := exists_pop? hlisted hwaiting
    rw [hpop] at hsome
    cases hsome
  · intro horder
    simp [pop?, Fifo.pop?_eq_none_iff.mpr horder]

/-- What comes to wait by a deed counts as such, and what no longer waits behind it has been
    taken. -/
theorem length_order_after (agenda : Agenda) (deed : Deed) :
    (agenda.after deed).order.toList.length + (agenda.taken? deed).toList.length +
      agenda.tally.pushed = agenda.order.toList.length + (agenda.after deed).tally.pushed := by
  cases deed with
  | note walked => rfl
  | push arrival =>
    simp only [after, taken?, Option.toList_none, List.length_nil, Nat.add_zero]
    obtain ⟨_, hpush⟩ | ⟨_, _, _, hpush⟩ | ⟨_, _, hpush⟩ := push_cases agenda arrival
    · rw [hpush]
    · rw [hpush]
    · rw [hpush, Fifo.toList_push, List.length_append, List.length_singleton]
      simp only
      omega
  | pop =>
    cases hpop : agenda.pop? with
    | none => simp [after, taken?, hpop]
    | some popped =>
      obtain ⟨arrival, rest⟩ := popped
      simp only [after, taken?, hpop, Option.map_some, Option.getD_some, Option.toList_some,
        List.length_singleton]
      rw [tally_of_pop? hpop, toList_order_of_pop? hpop, List.length_cons]

/-- An offer is counted once, and nothing else is. -/
theorem offers_tally_after (agenda : Agenda) (deed : Deed) :
    (agenda.after deed).tally.offers = agenda.tally.offers + if deed.isPush then 1 else 0 := by
  cases deed with
  | note walked => rfl
  | push arrival =>
    simp only [after, Deed.isPush, if_true, Tally.offers]
    obtain ⟨_, hpush⟩ | ⟨_, _, _, hpush⟩ | ⟨_, _, hpush⟩ := push_cases agenda arrival
    · rw [hpush]
      rfl
    · simp only [hpush]
      omega
    · simp only [hpush]
      omega
  | pop =>
    simp only [after, Deed.isPush, Bool.false_eq_true, if_false, Nat.add_zero]
    cases hpop : agenda.pop? with
    | none => rfl
    | some popped =>
      obtain ⟨arrival, rest⟩ := popped
      simp only [Option.map_some, Option.getD_some, tally_of_pop? hpop]

namespace History

variable {history : History} {now since later : Nat} {entry other : Entry} {nesting found : Nesting}
  {deed : Deed}

theorem agenda_succ (hdeed : history.deeds[now]? = some deed) :
    history.agenda (now + 1) = (history.agenda now).after deed := by
  simp [agenda, List.take_add_one, hdeed]

theorem agenda_succ_of_none (hdeed : history.deeds[now]? = none) :
    history.agenda (now + 1) = history.agenda now := by
  simp [agenda, List.take_add_one, hdeed]

/-- An entry has come to wait at one time only. -/
theorem WaitsSince.unique (hsince : history.WaitsSince now entry since)
    (hlater : history.WaitsSince now entry later) : since = later := by
  obtain hless | heq | hless := Nat.lt_trichotomy since later
  · exact absurd (hsince.stays later hless (Nat.le_of_lt hlater.lt)) hlater.enters
  · exact heq
  · exact absurd (hlater.stays since hless (Nat.le_of_lt hsince.lt)) hsince.enters

/-- An entry that goes on to wait has waited since the same time. -/
theorem WaitsSince.succ (hsince : history.WaitsSince now entry since)
    (hwaiting : entry ∈ (history.agenda (now + 1)).waiting) :
    history.WaitsSince (now + 1) entry since := by
  refine ⟨Nat.lt_succ_of_lt hsince.lt, hsince.enters, fun time hless hle => ?_⟩
  obtain hle | rfl := Nat.le_succ_iff.mp hle
  · exact hsince.stays time hless hle
  · exact hwaiting

/-- An entry comes to wait by the next deed. -/
theorem waitsSince_succ (hnew : entry ∉ (history.agenda now).waiting)
    (hwaiting : entry ∈ (history.agenda (now + 1)).waiting) :
    history.WaitsSince (now + 1) entry now := by
  refine ⟨Nat.lt_succ_self now, hnew, fun time hless hle => ?_⟩
  obtain rfl : time = now + 1 := by omega
  exact hwaiting

theorem WaitsLonger.succ (hlonger : history.WaitsLonger now entry other)
    (hwaiting : entry ∈ (history.agenda (now + 1)).waiting)
    (hwaiting' : other ∈ (history.agenda (now + 1)).waiting) :
    history.WaitsLonger (now + 1) entry other := by
  obtain ⟨since, later, hsince, hlater, hless⟩ := hlonger
  exact ⟨since, later, hsince.succ hwaiting, hlater.succ hwaiting', hless⟩

theorem Keeps.succ {time : Nat} (hkeeps : history.Keeps now since entry time nesting) :
    history.Keeps (now + 1) since entry time nesting :=
  ⟨hkeeps.le, Nat.lt_succ_of_lt hkeeps.lt, hkeeps.offered, hkeeps.kept⟩

theorem Keeps.eq_or {time : Nat} (hkeeps : history.Keeps (now + 1) since entry time nesting) :
    time = now ∨ history.Keeps now since entry time nesting := by
  obtain hless | heq := Nat.lt_succ_iff_lt_or_eq.mp hkeeps.lt
  · exact Or.inr ⟨hkeeps.le, hless, hkeeps.offered, hkeeps.kept⟩
  · exact Or.inl heq

/-- The offer that is kept is the one that is made. -/
theorem Keeps.eq_arrival {time : Nat} (hkeeps : history.Keeps now since entry time nesting)
    (hdeed : history.deeds[time]? = some (.push arrival)) : arrival = ⟨entry, nesting⟩ := by
  simpa [hdeed] using hkeeps.offered

theorem not_keeps {time : Nat} (hdeed : ∀ arrival, history.deeds[time]? ≠ some (.push arrival)) :
    ¬ history.Keeps now since entry time nesting :=
  fun hkeeps => hdeed _ hkeeps.offered

/-- A deed that keeps nothing for an entry leaves its deepest offer. -/
theorem FirstDeepest.succ (hdeepest : history.FirstDeepest now since entry nesting)
    (hnothing : ∀ found, ¬ history.Keeps (now + 1) since entry now found) :
    history.FirstDeepest (now + 1) since entry nesting := by
  obtain ⟨time, hkeeps, hall⟩ := hdeepest
  refine ⟨time, hkeeps.succ, fun other found hother => ?_⟩
  obtain rfl | hother := hother.eq_or
  · exact absurd hother (hnothing found)
  · exact hall other found hother

/-- Where an offer comes to wait, it is the deepest one. -/
theorem firstDeepest_succ (hdeed : history.deeds[now]? = some (.push ⟨entry, nesting⟩))
    (hkept : ¬ (history.agenda now).Drops ⟨entry, nesting⟩) :
    history.FirstDeepest (now + 1) now entry nesting := by
  refine ⟨now, ⟨Nat.le_refl now, Nat.lt_succ_self now, hdeed, hkept⟩, fun other found hother => ?_⟩
  obtain rfl : other = now := Nat.le_antisymm (Nat.le_of_lt_succ hother.lt) hother.le
  obtain rfl : nesting = found := by simpa [hdeed] using hother.offered
  exact ⟨Int.le_refl _, fun hless => absurd hless (Nat.lt_irrefl other)⟩

/-- Where an offer joins the deepest one so far, the deeper of the two is left, and of two equal
    ones the earlier. -/
theorem FirstDeepest.join (hdeepest : history.FirstDeepest now since entry found)
    (hsince : since ≤ now) (hdeed : history.deeds[now]? = some (.push ⟨entry, nesting⟩))
    (hkept : ¬ (history.agenda now).Drops ⟨entry, nesting⟩) :
    history.FirstDeepest (now + 1) since entry (deeper found nesting) := by
  obtain ⟨time, hkeeps, hall⟩ := hdeepest
  have hnow (offered : Nesting) (hoffered : history.Keeps (now + 1) since entry now offered) :
      nesting = offered :=
    congrArg Arrival.nesting (hoffered.eq_arrival hdeed)
  have hbefore := hkeeps.lt
  unfold deeper
  split
  · rename_i hdeeper
    refine ⟨now, ⟨hsince, Nat.lt_succ_self now, hdeed, hkept⟩, fun other offered hother => ?_⟩
    obtain rfl | hother := hother.eq_or
    · obtain rfl := hnow offered hother
      exact ⟨Int.le_refl _, fun hless => absurd hless (Nat.lt_irrefl other)⟩
    · have hle := (hall other offered hother).1
      omega
  · rename_i hdeeper
    refine ⟨time, hkeeps.succ, fun other offered hother => ?_⟩
    obtain rfl | hother := hother.eq_or
    · obtain rfl := hnow offered hother
      omega
    · exact hall other offered hother

/-- What holds at any time of what waits: the order lists it, those that came earlier in front, and
    each entry waits with the deepest of its offers. -/
structure Faithful (history : History) (now : Nat) : Prop where
  listed : (history.agenda now).Listed
  longer : (history.agenda now).order.toList.Pairwise (history.WaitsLonger now)
  deepest : ∀ entry nesting, (history.agenda now).waiting[entry]? = some nesting →
    ∃ since, history.WaitsSince now entry since ∧ history.FirstDeepest now since entry nesting

namespace Faithful

variable (hfaithful : history.Faithful now)

include hfaithful

/-- Entries that go on to wait stay in their order. -/
private theorem longer_succ {entries : List Entry}
    (hsublist : entries.Sublist (history.agenda now).order.toList)
    (hwaiting : ∀ entry ∈ entries, entry ∈ (history.agenda (now + 1)).waiting) :
    entries.Pairwise (history.WaitsLonger (now + 1)) := by
  refine (hfaithful.longer.sublist hsublist).imp_of_mem fun hfirst hsecond hlonger => ?_
  exact hlonger.succ (hwaiting _ hfirst) (hwaiting _ hsecond)

/-- An entry that goes on to wait unchanged, and for which nothing is kept, waits with its deepest
    offer. -/
private theorem deepest_succ (hsame : (history.agenda now).waiting[entry]? = some nesting)
    (hwaiting : entry ∈ (history.agenda (now + 1)).waiting)
    (hnothing : ∀ since found, ¬ history.Keeps (now + 1) since entry now found) :
    ∃ since, history.WaitsSince (now + 1) entry since ∧
      history.FirstDeepest (now + 1) since entry nesting := by
  obtain ⟨since, hsince, hdeepest⟩ := hfaithful.deepest entry nesting hsame
  exact ⟨since, hsince.succ hwaiting, hdeepest.succ (hnothing since)⟩

/-- A deed that keeps no offer, and behind which nothing waits that did not wait before. -/
private theorem succ_of_sublist (hlisted : (history.agenda (now + 1)).Listed)
    (hsublist : (history.agenda (now + 1)).order.toList.Sublist (history.agenda now).order.toList)
    (hsame : ∀ (entry : Entry) (nesting : Nesting),
      (history.agenda (now + 1)).waiting[entry]? = some nesting →
        (history.agenda now).waiting[entry]? = some nesting)
    (hnothing : ∀ since entry found, ¬ history.Keeps (now + 1) since entry now found) :
    history.Faithful (now + 1) := by
  refine ⟨hlisted, hfaithful.longer_succ hsublist fun entry hentry =>
    (hlisted.mem_order_iff entry).mp hentry, ?_⟩
  intro entry nesting hwaiting
  apply hfaithful.deepest_succ (hsame entry nesting hwaiting)
    (mem_waiting_iff.mpr ⟨nesting, hwaiting⟩)
  exact fun since found => hnothing since entry found

/-- An offer for one entry leaves the deepest offers for others as they are. -/
private theorem deepest_succ_of_ne (hdeed : history.deeds[now]? = some (.push arrival))
    (hne : arrival.entry ≠ entry) (hsame : (history.agenda now).waiting[entry]? = some nesting)
    (hwaiting : entry ∈ (history.agenda (now + 1)).waiting) :
    ∃ since, history.WaitsSince (now + 1) entry since ∧
      history.FirstDeepest (now + 1) since entry nesting := by
  refine hfaithful.deepest_succ hsame hwaiting fun since found hkeeps => ?_
  exact hne (congrArg Arrival.entry (hkeeps.eq_arrival hdeed))

private theorem succ_of_dropped (hdeed : history.deeds[now]? = some (.push arrival))
    (hdrops : (history.agenda now).Drops arrival) : history.Faithful (now + 1) := by
  have hnext : history.agenda (now + 1) = (history.agenda now).push arrival := agenda_succ hdeed
  obtain ⟨hwaiting, horder⟩ := push_eq_of_not_improves (drops_iff_not_improves.mp hdrops)
  rw [← hnext] at hwaiting horder
  have hlisted := hfaithful.listed.push arrival
  rw [← hnext] at hlisted
  refine hfaithful.succ_of_sublist hlisted ?_ ?_ ?_
  · rw [horder]
  · intro entry nesting hsame
    rwa [hwaiting] at hsame
  · intro since entry found hkeeps
    rw [hkeeps.eq_arrival hdeed] at hdrops
    exact hkeeps.kept hdrops

/-- An offer for an entry that waits joins what waits there, and the order stays as it is. -/
private theorem succ_of_joined (hdeed : history.deeds[now]? = some (.push ⟨entry, nesting⟩))
    (hkept : ¬ (history.agenda now).Drops ⟨entry, nesting⟩)
    (hfound : (history.agenda now).waiting[entry]? = some found) : history.Faithful (now + 1) := by
  have hnext : history.agenda (now + 1) = (history.agenda now).push ⟨entry, nesting⟩ :=
    agenda_succ hdeed
  have himproves := not_not.mp (mt drops_iff_not_improves.mpr hkept)
  have horder := toList_order_push_of_improves himproves
  rw [if_pos (mem_waiting_iff.mpr ⟨found, hfound⟩), ← hnext] at horder
  have hlisted := hfaithful.listed.push ⟨entry, nesting⟩
  rw [← hnext] at hlisted
  refine ⟨hlisted, hfaithful.longer_succ ?_ fun other => (hlisted.mem_order_iff other).mp, ?_⟩
  · rw [horder]
  · intro other deepest hother
    have hwaits := mem_waiting_iff.mpr ⟨deepest, hother⟩
    rw [hnext, getElem?_waiting_push_of_improves himproves] at hother
    split at hother
    · rename_i heq
      obtain rfl : entry = other := heq
      obtain rfl := Option.some.inj hother
      obtain ⟨since, hsince, hdeepest⟩ := hfaithful.deepest _ found hfound
      simp only [joined, hfound]
      exact ⟨since, hsince.succ hwaits, hdeepest.join (Nat.le_of_lt hsince.lt) hdeed hkept⟩
    · rename_i hne
      exact hfaithful.deepest_succ_of_ne hdeed hne hother hwaits

/-- An offer for an entry that does not wait comes to wait behind all others. -/
private theorem succ_of_entered (hdeed : history.deeds[now]? = some (.push ⟨entry, nesting⟩))
    (hkept : ¬ (history.agenda now).Drops ⟨entry, nesting⟩)
    (hnew : entry ∉ (history.agenda now).waiting) : history.Faithful (now + 1) := by
  have hnext : history.agenda (now + 1) = (history.agenda now).push ⟨entry, nesting⟩ :=
    agenda_succ hdeed
  have himproves := not_not.mp (mt drops_iff_not_improves.mpr hkept)
  have horder := toList_order_push_of_improves himproves
  rw [if_neg hnew, ← hnext] at horder
  have hlisted := hfaithful.listed.push ⟨entry, nesting⟩
  rw [← hnext] at hlisted
  have hwaits (other : Entry) (hother : other ∈ (history.agenda now).order.toList ++ [entry]) :
      other ∈ (history.agenda (now + 1)).waiting := by
    rw [← horder] at hother
    exact (hlisted.mem_order_iff other).mp hother
  have hlast :=
    waitsSince_succ hnew (hwaits entry (List.mem_append_right _ (List.mem_singleton_self _)))
  refine ⟨hlisted, ?_, ?_⟩
  · rw [horder, List.pairwise_append]
    refine ⟨?_, List.pairwise_singleton _ _, ?_⟩
    · apply hfaithful.longer_succ (List.Sublist.refl _)
      exact fun other hother => hwaits other (List.mem_append_left _ hother)
    · rintro first hfirst _ hsecond
      obtain rfl := List.mem_singleton.mp hsecond
      obtain ⟨deepest, hdeepest⟩ :=
        mem_waiting_iff.mp ((hfaithful.listed.mem_order_iff first).mp hfirst)
      obtain ⟨since, hsince, -⟩ := hfaithful.deepest first deepest hdeepest
      exact ⟨since, now, hsince.succ (hwaits first (List.mem_append_left _ hfirst)), hlast,
        hsince.lt⟩
  · intro other deepest hother
    have hwaits := mem_waiting_iff.mpr ⟨deepest, hother⟩
    rw [hnext, getElem?_waiting_push_of_improves himproves] at hother
    split at hother
    · rename_i heq
      obtain rfl : entry = other := heq
      obtain rfl := Option.some.inj hother
      simp only [joined, Std.TreeMap.getElem?_eq_none hnew]
      exact ⟨now, hlast, firstDeepest_succ hdeed hkept⟩
    · rename_i hne
      exact hfaithful.deepest_succ_of_ne hdeed hne hother hwaits

private theorem succ_of_push (hdeed : history.deeds[now]? = some (.push arrival)) :
    history.Faithful (now + 1) := by
  by_cases hdrops : (history.agenda now).Drops arrival
  · exact hfaithful.succ_of_dropped hdeed hdrops
  · cases hfound : (history.agenda now).waiting[arrival.entry]? with
    | some found => exact hfaithful.succ_of_joined hdeed hdrops hfound
    | none =>
      refine hfaithful.succ_of_entered hdeed hdrops fun hwaits => ?_
      obtain ⟨found, hsome⟩ := mem_waiting_iff.mp hwaits
      rw [hfound] at hsome
      cases hsome

/-- What is left behind stays in its order when the first one is taken. -/
private theorem succ_of_pop (hdeed : history.deeds[now]? = some .pop) :
    history.Faithful (now + 1) := by
  have hnothing (since : Nat) (entry : Entry) (found : Nesting) :
      ¬ history.Keeps (now + 1) since entry now found :=
    not_keeps (by simp [hdeed])
  have hnext := agenda_succ hdeed
  cases hpop : (history.agenda now).pop? with
  | none =>
    simp only [after, hpop, Option.map_none, Option.getD_none] at hnext
    refine hfaithful.succ_of_sublist ?_ ?_ ?_ hnothing
    · rw [hnext]
      exact hfaithful.listed
    · rw [hnext]
    · intro entry nesting hwaiting
      rwa [hnext] at hwaiting
  | some popped =>
    obtain ⟨arrival, rest⟩ := popped
    simp only [after, hpop, Option.map_some, Option.getD_some] at hnext
    have htakes := takes_of_pop? hpop
    refine hfaithful.succ_of_sublist ?_ ?_ ?_ hnothing
    · rw [hnext]
      exact htakes.listed_rest hfaithful.listed
    · rw [hnext, toList_order_of_pop? hpop]
      exact List.sublist_cons_self _ _
    · intro entry nesting hwaiting
      rw [hnext, htakes.waiting_rest, Std.TreeMap.getElem?_erase] at hwaiting
      split at hwaiting
      · cases hwaiting
      · exact hwaiting

theorem succ : history.Faithful (now + 1) := by
  cases hdeed : history.deeds[now]? with
  | none =>
    have hnext := agenda_succ_of_none hdeed
    refine hfaithful.succ_of_sublist ?_ ?_ ?_ ?_
    · rw [hnext]
      exact hfaithful.listed
    · rw [hnext]
    · intro entry nesting hwaiting
      rwa [hnext] at hwaiting
    · exact fun since entry found => not_keeps (by simp [hdeed])
  | some deed =>
    cases deed with
    | push arrival => exact hfaithful.succ_of_push hdeed
    | pop => exact hfaithful.succ_of_pop hdeed
    | note walked =>
      have hnext := agenda_succ hdeed
      refine hfaithful.succ_of_sublist ?_ ?_ ?_ ?_
      · rw [hnext]
        exact ⟨hfaithful.listed.nodup, hfaithful.listed.mem_order_iff⟩
      · rw [hnext]
        exact List.Sublist.refl _
      · intro entry nesting hwaiting
        rwa [hnext] at hwaiting
      · exact fun since entry found => not_keeps (by simp [hdeed])

end Faithful

theorem faithful (history : History) (now : Nat) : history.Faithful now := by
  induction now with
  | zero =>
    have hempty : history.agenda 0 = { walked := history.walked } := rfl
    refine ⟨⟨?_, ?_⟩, ?_, ?_⟩
    · simp [hempty, Fifo.toList]
    · simp [hempty, Fifo.toList]
    · simp [hempty, Fifo.toList]
    · simp [hempty]
  | succ now ih => exact ih.succ

theorem taken_succ (history : History) (now : Nat) :
    history.taken (now + 1) = history.taken now ++ (history.taken? now).toList := by
  simp only [taken, List.range_succ, List.filterMap_append, List.filterMap_cons, List.filterMap_nil]
  cases history.taken? now <;> rfl

theorem offers_succ (hdeed : history.deeds[now]? = some deed) :
    history.offers (now + 1) = history.offers now + if deed.isPush then 1 else 0 := by
  simp only [offers, List.take_add_one, hdeed, Option.toList_some, List.countP_append,
    List.countP_singleton]

theorem offers_succ_of_none (hdeed : history.deeds[now]? = none) :
    history.offers (now + 1) = history.offers now := by
  simp [offers, List.take_add_one, hdeed]

/-- What came to wait waits still or has been taken, and each offer came to wait, joined another one
    or was dropped. -/
structure Counted (history : History) (now : Nat) : Prop where
  waiting : (history.agenda now).order.toList.length + (history.taken now).length =
    (history.agenda now).tally.pushed
  offers : (history.agenda now).tally.offers = history.offers now

theorem Counted.succ (hcounted : history.Counted now) : history.Counted (now + 1) := by
  obtain ⟨hwaiting, hoffers⟩ := hcounted
  have htaken := history.taken_succ now
  cases hdeed : history.deeds[now]? with
  | none =>
    have hnothing : history.taken? now = none := by
      simp [taken?, hdeed]
    rw [hnothing, Option.toList_none, List.append_nil] at htaken
    constructor
    · rw [agenda_succ_of_none hdeed, htaken, hwaiting]
    · rw [agenda_succ_of_none hdeed, offers_succ_of_none hdeed, hoffers]
  | some deed =>
    have hfirst : history.taken? now = (history.agenda now).taken? deed := by
      simp [taken?, hdeed]
    constructor
    · have hlength := length_order_after (history.agenda now) deed
      rw [agenda_succ hdeed, htaken, hfirst, List.length_append]
      omega
    · rw [agenda_succ hdeed, offers_succ hdeed, offers_tally_after, hoffers]

theorem counted (history : History) (now : Nat) : history.Counted now := by
  induction now with
  | zero => constructor <;> rfl
  | succ now ih => exact ih.succ

/-- No work is lost, kept twice or taken out of turn, whatever is offered, taken and noted in
    whatever order. Each entry waits once. All that came to wait waits still or has been taken, and
    each offer came to wait, joined another one or was dropped, the last exactly if something as
    deep is noted at its entry. What is taken came to wait before all else that waits, and its
    nesting is the first of the deepest that were offered for it since and not dropped. Where
    nothing waits nothing is taken, and nothing changes. -/
theorem keeps_all_work (history : History) (now : Nat) :
    let agenda := history.agenda now
    agenda.order.toList.Nodup ∧
    (∀ entry, entry ∈ agenda.order.toList ↔ entry ∈ agenda.waiting) ∧
    agenda.order.toList.length + (history.taken now).length = agenda.tally.pushed ∧
    agenda.tally.pushed + agenda.tally.merged + agenda.tally.dropped = history.offers now ∧
    (∀ arrival, agenda.Drops arrival ↔
      ∃ nesting, agenda.walked[arrival.entry]? = some nesting ∧
        arrival.nesting.depth ≤ nesting.depth) ∧
    (∀ arrival rest, agenda.pop? = some (arrival, rest) → agenda.Takes arrival rest ∧
      ∃ since, history.WaitsSince now arrival.entry since ∧
        history.FirstDeepest now since arrival.entry arrival.nesting ∧
        ∀ entry ∈ agenda.waiting, entry ≠ arrival.entry →
          ∃ later, history.WaitsSince now entry later ∧ since < later) ∧
    (agenda.pop? = none ↔ agenda.order.toList = []) ∧
    (agenda.order.toList = [] → agenda.after .pop = agenda) := by
  intro agenda
  obtain ⟨hlisted, hlonger, hdeepest⟩ := history.faithful now
  obtain ⟨hwaiting, hoffers⟩ := history.counted now
  refine ⟨hlisted.nodup, hlisted.mem_order_iff, hwaiting, hoffers, fun arrival => drops_iff, ?_,
    hlisted.pop?_eq_none_iff, ?_⟩
  · intro arrival rest hpop
    have htakes := takes_of_pop? hpop
    have horder := toList_order_of_pop? hpop
    obtain ⟨since, hsince, hnesting⟩ := hdeepest arrival.entry arrival.nesting htakes.waiting
    refine ⟨htakes, since, hsince, hnesting, fun entry hentry hne => ?_⟩
    have hmem : entry ∈ agenda.order.toList := (hlisted.mem_order_iff entry).mpr hentry
    rw [horder, List.mem_cons, or_iff_right hne] at hmem
    rw [horder, List.pairwise_cons] at hlonger
    obtain ⟨earlier, later, hearlier, hlater, hless⟩ := hlonger.1 entry hmem
    rw [hearlier.unique hsince] at hless
    exact ⟨later, hlater, hless⟩
  · intro horder
    have hpop : agenda.pop? = none := hlisted.pop?_eq_none_iff.mpr horder
    simp [after, hpop]

end History

end Agenda

end Midrange.Depth
