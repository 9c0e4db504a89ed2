import Mathlib.Data.List.Forall2
import Mathlib.Data.List.Sort
import Midrange.Proofs.Graph.Recursion

namespace Midrange

open Midrange.Graph (Reaches)

theorem biUnique_eq {α : Type} : Relator.BiUnique (@Eq α) :=
  ⟨fun _ _ _ hleft hright => hleft.trans hright.symm,
    fun _ _ _ hleft hright => hleft.symm.trans hright⟩

theorem biUnique_flip {α β : Type} {P : α → β → Prop} (hunique : Relator.BiUnique P) :
    Relator.BiUnique (flip P) :=
  ⟨fun _ _ _ hleft hright => hunique.2 hleft hright, hunique.1.flip⟩

variable {R : String → String → Prop}

/-- Links that join related routines. -/
def Ends.Renames (R : String → String → Prop) (ends ends' : Ends) : Prop :=
  R ends.source ends'.source ∧ R ends.target ends'.target

theorem Ends.biUnique_renames (hunique : Relator.BiUnique R) :
    Relator.BiUnique (Ends.Renames R) := by
  constructor
  · rintro ⟨source, target⟩ ⟨source', target'⟩ ends ⟨hsource, htarget⟩ ⟨hsource', htarget'⟩
    obtain rfl : source = source' := hunique.1 hsource hsource'
    obtain rfl : target = target' := hunique.1 htarget htarget'
    rfl
  · rintro ends ⟨source, target⟩ ⟨source', target'⟩ ⟨hsource, htarget⟩ ⟨hsource', htarget'⟩
    obtain rfl : source = source' := hunique.2 hsource hsource'
    obtain rfl : target = target' := hunique.2 htarget htarget'
    rfl

namespace DepthFirst

variable {next next' : String → List String}
  {path path' targets targets' roots roots' : List String}
  {search search' after after' : DepthFirst}
  {routine routine' source source' target target' : String}

/-- Two searches that differ in the names of the routines: they have finished related ones and have
    noted related links in the same order. -/
structure Renames (R : String → String → Prop) (search search' : DepthFirst) : Prop where
  mem_finished_iff : ∀ {routine routine' : String}, R routine routine' →
    (routine ∈ search.finished ↔ routine' ∈ search'.finished)
  back : List.Forall₂ (Ends.Renames R) search.back.toList search'.back.toList

namespace Renames

variable (hrenames : Renames R search search')

include hrenames

theorem note (hsource : R source source') (htarget : R target target') :
    Renames R (search.note source target) (search'.note source' target') where
  mem_finished_iff := hrenames.mem_finished_iff
  back := by
    simp only [DepthFirst.note, Array.toList_push]
    exact List.rel_append hrenames.back (.cons ⟨hsource, htarget⟩ .nil)

theorem finish (hunique : Relator.BiUnique R) (hroutine : R routine routine') :
    Renames R (search.finish routine) (search'.finish routine') where
  mem_finished_iff {other other'} hother := by
    have heq : other = routine ↔ other' = routine' := Relator.rel_eq hunique hother hroutine
    rw [mem_finished_finish, mem_finished_finish, hrenames.mem_finished_iff hother, heq]
  back := hrenames.back

end Renames

private theorem head?_renames (hpath : List.Forall₂ R path path')
    (hsource : path.head? = some source) (hsource' : path'.head? = some source') :
    R source source' := by
  cases hpath with
  | nil => cases hsource
  | cons hhead _ =>
    obtain rfl := Option.some.inj hsource
    obtain rfl := Option.some.inj hsource'
    exact hhead

/-- Searches keep pace with each other as long as related routines lead to related ones in the same
    order. -/
theorem Scans.renames (hunique : Relator.BiUnique R)
    (hnext : ∀ {routine routine'}, R routine routine' →
      List.Forall₂ R (next routine) (next' routine'))
    (hscan : Scans next path targets search after)
    (hscan' : Scans next' path' targets' search' after') (hpath : List.Forall₂ R path path')
    (htargets : List.Forall₂ R targets targets') (hrenames : Renames R search search') :
    Renames R after after' := by
  induction hscan generalizing path' targets' search' after' with
  | done =>
    cases htargets
    cases hscan'
    exact hrenames
  | finished hfinished _ ih =>
    obtain _ | ⟨htarget, hrest⟩ := htargets
    have hfinished' := (hrenames.mem_finished_iff htarget).mp hfinished
    cases hscan' with
    | finished _ hscan' => exact ih hscan' hpath hrest hrenames
    | back hopen' | tree hopen' => exact absurd hfinished' hopen'
  | back hopen hsource hmem _ ih =>
    obtain _ | ⟨htarget, hrest⟩ := htargets
    have hopen' := mt (hrenames.mem_finished_iff htarget).mpr hopen
    have hmem' := (List.rel_mem hunique htarget hpath).mp hmem
    cases hscan' with
    | finished hfinished' => exact absurd hfinished' hopen'
    | tree _ hout' => exact absurd hmem' hout'
    | back _ hsource' _ hscan' =>
      have hlatest := head?_renames hpath hsource hsource'
      exact ih hscan' hpath hrest (hrenames.note hlatest htarget)
  | tree hopen hout _ _ ihinner ihrest =>
    obtain _ | ⟨htarget, hrest⟩ := htargets
    have hopen' := mt (hrenames.mem_finished_iff htarget).mpr hopen
    have hout' := mt (List.rel_mem hunique htarget hpath).mpr hout
    cases hscan' with
    | finished hfinished' => exact absurd hfinished' hopen'
    | back _ _ hmem' => exact absurd hmem' hout'
    | tree _ _ hinner' hscan' =>
      have hinner := ihinner hinner' (.cons htarget hpath) (hnext htarget) hrenames
      exact ihrest hscan' hpath hrest (hinner.finish hunique htarget)

/-- The routines from which links lead on. -/
def onward (next : String → List String) (routines : List String) : List String :=
  routines.filter fun routine => !(next routine).isEmpty

/-- Two searches that have noted the same links and have finished the same routines, those aside
    from which no links lead on. -/
structure AgreesOnward (next : String → List String) (search search' : DepthFirst) : Prop where
  mem_finished_iff : ∀ {routine : String}, next routine ≠ [] →
    (routine ∈ search.finished ↔ routine ∈ search'.finished)
  back : search.back = search'.back

/-- A search notes the same links without the routines from which no links lead on. -/
theorem Scans.exists_onward (hscan : Scans next path targets search after)
    (hpath : ∀ member ∈ path, next member ≠ []) (honward : AgreesOnward next search search') :
    ∃ after',
      Scans (fun routine => onward next (next routine)) path (onward next targets) search' after' ∧
      AgreesOnward next after after' := by
  induction hscan generalizing search' with
  | done => exact ⟨search', .done, honward⟩
  | @finished _ targets target _ _ hfinished _ ih =>
    obtain ⟨after', hscan', hafter⟩ := ih hpath honward
    by_cases hleads : next target = []
    · exact ⟨after', by simpa [onward, hleads] using hscan', hafter⟩
    · have hfinished' := (honward.mem_finished_iff hleads).mp hfinished
      exact ⟨after', by simpa [onward, hleads] using Scans.finished hfinished' hscan', hafter⟩
  | @back _ targets source target search _ hopen hsource hmem _ ih =>
    have hleads := hpath target hmem
    have hopen' := mt (honward.mem_finished_iff hleads).mpr hopen
    have hnoted : AgreesOnward next (search.note source target) (search'.note source target) :=
      ⟨honward.mem_finished_iff, by simp [note, honward.back]⟩
    obtain ⟨after', hscan', hafter⟩ := ih hpath hnoted
    exact ⟨after', by simpa [onward, hleads] using Scans.back hopen' hsource hmem hscan', hafter⟩
  | @tree _ targets target search inner _ hopen hout hinner _ ihinner ihrest =>
    by_cases hleads : next target = []
    · -- nothing is noted below such a routine: its scan only finishes it
      rw [hleads] at hinner
      cases hinner
      have hfinish : AgreesOnward next (search.finish target) search' := by
        refine ⟨fun {routine} hroutine => ?_, honward.back⟩
        rw [mem_finished_finish, honward.mem_finished_iff hroutine]
        exact or_iff_right (by rintro rfl; exact hroutine hleads)
      obtain ⟨after', hscan', hafter⟩ := ihrest hpath hfinish
      exact ⟨after', by simpa [onward, hleads] using hscan', hafter⟩
    · have hopen' := mt (honward.mem_finished_iff hleads).mpr hopen
      obtain ⟨inner', hinner', hafter⟩ := ihinner (List.forall_mem_cons.mpr ⟨hleads, hpath⟩) honward
      have hfinish : AgreesOnward next (inner.finish target) (inner'.finish target) :=
        ⟨fun hroutine => by simp [hafter.mem_finished_iff hroutine], hafter.back⟩
      obtain ⟨after', hscan', hafter⟩ := ihrest hpath hfinish
      exact ⟨after', by simpa [onward, hleads] using Scans.tree hopen' hout hinner' hscan', hafter⟩

/-- A search is determined by where it starts and what routines lead to. -/
theorem Scans.back_unique (hscan : Scans next [] roots {} after)
    (hscan' : Scans next [] roots {} after') : after.back = after'.back := by
  have hempty : Renames Eq {} {} := by
    constructor <;> simp
  have hback :=
    (hscan.renames biUnique_eq (fun h => by subst h; simp) hscan' .nil (by simp) hempty).back
  have hrenames : Ends.Renames Eq = Eq := by
    funext ends ends'
    cases ends
    cases ends'
    simp [Ends.Renames]
  rw [hrenames, List.forall₂_eq_eq_eq] at hback
  exact Array.toList_inj.mp hback

end DepthFirst

/-- Lists in order of some keys correspond to each other if their members do and corresponding ones
    have the same key. -/
private theorem forall₂_of_increasing {α β : Type} {P : α → β → Prop} (key : α → Int)
    (key' : β → Int) {members : List α} {members' : List β}
    (hkeys : members.Pairwise fun first second => key first < key second)
    (hkeys' : members'.Pairwise fun first second => key' first < key' second)
    (heq : ∀ member ∈ members, ∀ member' ∈ members', P member member' → key member = key' member')
    (hright : ∀ member ∈ members, ∃ member' ∈ members', P member member')
    (hleft : ∀ member' ∈ members', ∃ member ∈ members, P member member') :
    List.Forall₂ P members members' := by
  have hmap := List.pairwise_map.mpr hkeys
  have hmap' := List.pairwise_map.mpr hkeys'
  have hmem (value : Int) : value ∈ members.map key ↔ value ∈ members'.map key' := by
    simp only [List.mem_map]
    constructor
    · rintro ⟨member, hmember, rfl⟩
      obtain ⟨member', hmember', hpair⟩ := hright member hmember
      exact ⟨member', hmember', (heq member hmember member' hmember' hpair).symm⟩
    · rintro ⟨member', hmember', rfl⟩
      obtain ⟨member, hmember, hpair⟩ := hleft member' hmember'
      exact ⟨member, hmember, heq member hmember member' hmember' hpair⟩
  have hsame : List.Forall₂ (fun member member' => key member = key' member') members members' := by
    have hequal := hmap.eq_of_mem_iff hmap' hmem
    rwa [← List.forall₂_eq_eq_eq, List.forall₂_map_left_iff, List.forall₂_map_right_iff] at hequal
  have hnodup : (members'.map key').Nodup := hmap'.imp Int.ne_of_lt
  -- keys tell members apart, so that the counterpart of a member is the one with its key
  obtain ⟨hlength, hzip⟩ := List.forall₂_iff_zip.mp hsame
  refine List.forall₂_iff_zip.mpr ⟨hlength, fun {member member'} hpaired => ?_⟩
  obtain ⟨hmember, hmember'⟩ := List.of_mem_zip hpaired
  obtain ⟨other', hother', hpair⟩ := hright member hmember
  have hkey := (heq member hmember other' hother' hpair).symm.trans (hzip hpaired)
  obtain rfl := List.inj_on_of_nodup_map hnodup hother' hmember' hkey
  exact hpair

namespace CallGraph

open DepthFirst (onward)

variable {graph graph' : CallGraph} {roots roots' : List String} {ends ends' : Ends}
  {first first' second second' source source' : String}

/-- The same links close cycles without the roots from which no links lead on. -/
theorem back_depthFirst_onward (graph : CallGraph) (roots : List String) :
    (graph.depthFirst roots).back = (graph.depthFirst (onward graph.outgoing.of roots)).back := by
  have honward : DepthFirst.AgreesOnward graph.outgoing.of {} {} := ⟨fun _ => Iff.rfl, rfl⟩
  have hscans := graph.scans_depthFirst roots
  have hscans' := graph.scans_depthFirst (onward graph.outgoing.of roots)
  obtain ⟨after, hafter, hsame⟩ := hscans.exists_onward (List.forall_mem_nil _) honward
  obtain ⟨after', hafter', hsame'⟩ := hscans'.exists_onward (List.forall_mem_nil _) honward
  have hagain : onward graph.outgoing.of (onward graph.outgoing.of roots) =
      onward graph.outgoing.of roots := by
    simp [onward]
  rw [hagain] at hafter'
  rw [hsame.back, hsame'.back, hafter.back_unique hafter']

theorem mem_recursion_iff_back : ends ∈ graph.recursion roots ↔
    ends ∈ (graph.depthFirst roots).back ∧ graph.Recursive ends.target := by
  rw [mem_recursion_iff]
  refine and_congr_right fun hback => and_iff_right ?_
  obtain hnone | hfinished | hnone := (graph.scans_depthFirst roots).back_target hback
  · simp at hnone
  · exact ((graph.explores_depthFirst roots).mem_finished_iff _).mp hfinished
  · cases hnone

/-- Recursion is cut on the same links without the roots from which no links lead on. -/
theorem mem_recursion_onward_iff :
    ends ∈ graph.recursion roots ↔ ends ∈ graph.recursion (onward graph.outgoing.of roots) := by
  rw [mem_recursion_iff_back, mem_recursion_iff_back, ← back_depthFirst_onward]

/-- Two graphs that differ in the names of their routines. The routines to which links lead start
    where they do in the other graph, and no two of them start at one address, so that links are met
    in the same order in both. -/
structure Renames (R : String → String → Prop) (graph graph' : CallGraph) : Prop where
  unique : Relator.BiUnique R
  exists_right : ∀ {source target : String} {kind : BranchKind}, graph.Has ⟨source, target, kind⟩ →
    ∃ source' target', R source source' ∧ R target target' ∧ graph'.Has ⟨source', target', kind⟩
  exists_left : ∀ {source' target' : String} {kind : BranchKind},
    graph'.Has ⟨source', target', kind⟩ →
    ∃ source target, R source source' ∧ R target target' ∧ graph.Has ⟨source, target, kind⟩
  start_eq : ∀ {link link' : Link}, graph.Has link → graph'.Has link' → R link.target link'.target →
    (graph.entry link.target).start = (graph'.entry link'.target).start
  target_unique : ∀ {link other : Link}, graph.Has link → graph.Has other →
    (graph.entry link.target).start = (graph.entry other.target).start → link.target = other.target

private theorem mem_outgoing_entries {entry : Entry} :
    entry ∈ (graph.outgoing.getD source ∅).toList ↔
      ∃ kind target, graph.Has ⟨source, target, kind⟩ ∧ graph.entry target = entry := by
  rw [Std.TreeSet.mem_toList, CallGraph.outgoing, mem_getD_targets]
  simp only [mem_ends, joins_iff]
  tauto

namespace Renames

variable (hrenames : Renames R graph graph')

include hrenames

theorem symm : Renames (flip R) graph' graph where
  unique := biUnique_flip hrenames.unique
  exists_right hhas := by
    obtain ⟨source, target, hsource, htarget, hhas⟩ := hrenames.exists_left hhas
    exact ⟨source, target, hsource, htarget, hhas⟩
  exists_left hhas := by
    obtain ⟨source, target, hsource, htarget, hhas⟩ := hrenames.exists_right hhas
    exact ⟨source, target, hsource, htarget, hhas⟩
  start_eq hlink hlink' htarget := (hrenames.start_eq hlink' hlink htarget).symm
  target_unique {link other} hlink hother hstart := by
    obtain ⟨_, target, _, htarget, hhas⟩ := hrenames.exists_left hlink
    obtain ⟨_, target', _, htarget', hhas'⟩ := hrenames.exists_left hother
    have hleft := hrenames.start_eq hhas hlink htarget
    have hright := hrenames.start_eq hhas' hother htarget'
    obtain rfl : target = target' :=
      hrenames.target_unique hhas hhas' (hleft.trans (hstart.trans hright.symm))
    exact hrenames.unique.2 htarget htarget'

theorem exists_has {target : String} {kind : BranchKind} (hsource : R source source')
    (hhas : graph.Has ⟨source, target, kind⟩) :
    ∃ target', R target target' ∧ graph'.Has ⟨source', target', kind⟩ := by
  obtain ⟨other, target', hother, htarget, hhas'⟩ := hrenames.exists_right hhas
  obtain rfl := hrenames.unique.2 hother hsource
  exact ⟨target', htarget, hhas'⟩

/-- The links of a routine lead to routines in the order of the addresses where they start. -/
private theorem increasing : (graph.outgoing.getD source ∅).toList.Pairwise fun first second =>
    first.start < second.start := by
  have hordered := Std.TreeSet.ordered_toList (t := graph.outgoing.getD source ∅)
  refine hordered.imp_of_mem fun hfirst hsecond hless => ?_
  obtain ⟨_, target, hhas, rfl⟩ := mem_outgoing_entries.mp hfirst
  obtain ⟨_, target', hhas', rfl⟩ := mem_outgoing_entries.mp hsecond
  obtain hstart | ⟨hstart, -⟩ := Ordering.then_eq_lt.mp hless
  · exact Std.compare_eq_lt.mp hstart
  · obtain rfl : target = target' :=
      hrenames.target_unique hhas hhas' (Std.compare_eq_iff_eq.mp hstart)
    rw [Std.ReflOrd.compare_self] at hless
    cases hless

/-- The links of related routines lead to related routines in the same order. -/
theorem outgoing (hsource : R source source') :
    List.Forall₂ R (graph.outgoing.of source) (graph'.outgoing.of source') := by
  simp only [Neighbours.of, List.forall₂_map_left_iff, List.forall₂_map_right_iff]
  refine forall₂_of_increasing Entry.start Entry.start hrenames.increasing
    hrenames.symm.increasing ?_ ?_ ?_
  · intro entry hentry entry' hentry' hroutine
    obtain ⟨kind, target, hhas, rfl⟩ := mem_outgoing_entries.mp hentry
    obtain ⟨kind', target', hhas', rfl⟩ := mem_outgoing_entries.mp hentry'
    exact hrenames.start_eq hhas hhas' hroutine
  · intro entry hentry
    obtain ⟨kind, target, hhas, rfl⟩ := mem_outgoing_entries.mp hentry
    obtain ⟨target', htarget, hhas'⟩ := hrenames.exists_has hsource hhas
    exact ⟨_, mem_outgoing_entries.mpr ⟨kind, target', hhas', rfl⟩, htarget⟩
  · intro entry' hentry'
    obtain ⟨kind, target', hhas', rfl⟩ := mem_outgoing_entries.mp hentry'
    obtain ⟨target, htarget, hhas⟩ := hrenames.symm.exists_has hsource hhas'
    exact ⟨_, mem_outgoing_entries.mpr ⟨kind, target, hhas, rfl⟩, htarget⟩

theorem exists_reaches (hfirst : R first first') (hreach : Reaches graph.outgoing.of first second) :
    ∃ second', R second second' ∧ Reaches graph'.outgoing.of first' second' := by
  induction hreach with
  | refl => exact ⟨first', hfirst, .refl first'⟩
  | tail _ hstep ih =>
    obtain ⟨middle, hmiddle, hreach⟩ := ih
    obtain ⟨kind, hhas⟩ := joins_iff.mp (mem_outgoing.mp hstep)
    obtain ⟨target, htarget, hhas⟩ := hrenames.exists_has hmiddle hhas
    exact ⟨target, htarget, hreach.tail (mem_outgoing.mpr hhas.joins)⟩

theorem reaches (hfirst : R first first') (hsecond : R second second')
    (hreach : Reaches graph.outgoing.of first second) :
    Reaches graph'.outgoing.of first' second' := by
  obtain ⟨other, hother, hreach⟩ := hrenames.exists_reaches hfirst hreach
  obtain rfl := hrenames.unique.2 hother hsecond
  exact hreach

theorem recursive (hfirst : R first first') (hrecursive : graph.Recursive first) :
    graph'.Recursive first' := by
  obtain ⟨source, target, hcall, hsource, htarget⟩ := hrecursive
  have hhas : graph.Has ⟨source, target, .call⟩ := hcall
  obtain ⟨source', target', hsource', htarget', hhas'⟩ := hrenames.exists_right hhas
  have hmutual {second second' : String} (hsecond : R second second')
      (hmutual : graph.Mutual first second) : graph'.Mutual first' second' :=
    ⟨hrenames.reaches hfirst hsecond hmutual.1, hrenames.reaches hsecond hfirst hmutual.2⟩
  exact ⟨source', target', hhas', hmutual hsource' hsource, hmutual htarget' htarget⟩

/-- Recursion is cut on the same links whatever the routines are called. -/
theorem mem_recursion_iff (hroots : List.Forall₂ R roots roots') (hends : ends.Renames R ends') :
    ends ∈ graph.recursion roots ↔ ends' ∈ graph'.recursion roots' := by
  have hempty : DepthFirst.Renames R {} {} := by
    constructor <;> simp
  have hsearch := (graph.scans_depthFirst roots).renames hrenames.unique hrenames.outgoing
    (graph'.scans_depthFirst roots') .nil hroots hempty
  have hback : ends ∈ (graph.depthFirst roots).back.toList ↔
      ends' ∈ (graph'.depthFirst roots').back.toList :=
    List.rel_mem (Ends.biUnique_renames hrenames.unique) hends hsearch.back
  rw [Array.mem_toList_iff, Array.mem_toList_iff] at hback
  rw [mem_recursion_iff_back, mem_recursion_iff_back, hback]
  exact and_congr_right fun _ =>
    ⟨hrenames.recursive hends.2, hrenames.symm.recursive hends.2⟩

end Renames

end CallGraph

end Midrange
