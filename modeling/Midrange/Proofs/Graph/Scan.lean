import Mathlib.Tactic.Basic
import Midrange.Graph.DepthFirst
import Midrange.Proofs.Graph.Reach

namespace Midrange.DepthFirst

open Midrange.Graph (Reaches)

/-- Notes a link that leads back to the path. -/
def note (search : DepthFirst) (source target : String) : DepthFirst :=
  { search with back := search.back.push ⟨source, target⟩ }

/-- Finishes a routine. -/
def finish (search : DepthFirst) (routine : String) : DepthFirst :=
  { search with
    finished := search.finished.insert routine
    order := routine :: search.order }

/-- A search whose path has just reached its first routine takes up some targets of that routine one
    after the other. The first routine of the path is the latest, and below an empty path the
    targets are roots. -/
inductive Scans (next : String → List String) :
    List String → List String → DepthFirst → DepthFirst → Prop where
  | done {path : List String} {search : DepthFirst} : Scans next path [] search search
  | finished {path targets : List String} {target : String} {search after : DepthFirst}
      (hfinished : target ∈ search.finished) (hrest : Scans next path targets search after) :
      Scans next path (target :: targets) search after
  | back {path targets : List String} {source target : String} {search after : DepthFirst}
      (hopen : target ∉ search.finished) (hsource : path.head? = some source)
      (hpath : target ∈ path) (hrest : Scans next path targets (search.note source target) after) :
      Scans next path (target :: targets) search after
  | tree {path targets : List String} {target : String} {search inner after : DepthFirst}
      (hopen : target ∉ search.finished) (hpath : target ∉ path)
      (hinner : Scans next (target :: path) (next target) search inner)
      (hrest : Scans next path targets (inner.finish target) after) :
      Scans next path (target :: targets) search after

variable {next : String → List String} {path targets roots : List String}
  {search after : DepthFirst} {routine : String} {fuel : Nat}

@[simp]
theorem mem_finished_finish {other : String} :
    other ∈ (search.finish routine).finished ↔ other = routine ∨ other ∈ search.finished :=
  mem_insert_iff

@[simp]
theorem order_finish : (search.finish routine).order = routine :: search.order := rfl

@[simp]
theorem mem_back_note {source target : String} {ends : Ends} :
    ends ∈ (search.note source target).back ↔ ends ∈ search.back ∨ ends = ⟨source, target⟩ := by
  simp [note]

/-- A search of the targets of the latest routine is a scan of them, if a visit of each is one. -/
private theorem scans_foldl {above : Std.TreeSet String} {source : String}
    (habove : ∀ member, member ∈ above ↔ member ∈ path) (hsource : path.head? = some source)
    (hvisit : ∀ target ∈ targets, target ∉ path → ∀ search, ∃ inner,
      Scans next (target :: path) (next target) search inner ∧
        visit next fuel above target search = inner.finish target)
    (search : DepthFirst) :
    Scans next path targets search
      (targets.foldl
        (fun search target =>
          if search.finished.contains target then search
          else if above.contains target then
            { search with back := search.back.push ⟨source, target⟩ }
          else visit next fuel above target search)
        search) := by
  induction targets generalizing search with
  | nil => exact .done
  | cons target rest ih =>
    have hrest := ih fun other hother => hvisit other (List.mem_cons_of_mem _ hother)
    rw [List.foldl_cons]
    by_cases hfinished : target ∈ search.finished
    · rw [if_pos (Std.TreeSet.contains_iff_mem.mpr hfinished)]
      exact .finished hfinished (hrest search)
    · rw [if_neg (by simpa using hfinished)]
      by_cases hback : target ∈ path
      · rw [if_pos (Std.TreeSet.contains_iff_mem.mpr ((habove target).mpr hback))]
        exact .back hfinished hsource hback (hrest _)
      · rw [if_neg fun hmem => hback ((habove target).mp (Std.TreeSet.contains_iff_mem.mp hmem))]
        obtain ⟨inner, hinner, heq⟩ := hvisit target List.mem_cons_self hback search
        rw [heq]
        exact .tree hfinished hback hinner (hrest _)

/-- The fuel of a search outlasts its path: all that the routine leads to, with the path above it,
    is no more than the fuel and the length of the path. -/
theorem exists_scans_visit {above : Std.TreeSet String} {members : Finset String}
    (search : DepthFirst)
    (hmembers : ∀ member ∈ members, ∀ target ∈ next member, target ∈ members)
    (hroutine : routine ∈ members) (hsubset : ∀ member ∈ path, member ∈ members)
    (habove : ∀ member, member ∈ above ↔ member ∈ path) (hnodup : path.Nodup)
    (hnew : routine ∉ path) (hfuel : members.card ≤ fuel + path.length) :
    ∃ inner, Scans next (routine :: path) (next routine) search inner ∧
      visit next fuel above routine search = inner.finish routine := by
  have hlonger : (routine :: path).Nodup := List.nodup_cons.mpr ⟨hnew, hnodup⟩
  have hwithin : ∀ member ∈ routine :: path, member ∈ members :=
    List.forall_mem_cons.mpr ⟨hroutine, hsubset⟩
  induction fuel generalizing above path routine search with
  | zero =>
    have hcard : (routine :: path).toFinset.card ≤ members.card :=
      Finset.card_le_card fun member hmem => hwithin member (List.mem_toFinset.mp hmem)
    rw [List.toFinset_card_of_nodup hlonger, List.length_cons] at hcard
    omega
  | succ fuel ih =>
    have hpath (member : String) : member ∈ above.insert routine ↔ member ∈ routine :: path := by
      rw [mem_insert_iff, habove, List.mem_cons]
    refine ⟨_, scans_foldl hpath rfl (fun target htarget hopen search => ?_) search, rfl⟩
    have hmember := hmembers routine hroutine target htarget
    exact ih search hmember hwithin hpath hlonger hopen (by rw [List.length_cons]; omega)
      (List.nodup_cons.mpr ⟨hopen, hlonger⟩) (List.forall_mem_cons.mpr ⟨hmember, hwithin⟩)

/-- A search is a scan of its roots, given fuel for the routines that links lead to from any one. -/
theorem scans_visitAll
    (hfuel : ∀ root ∈ roots, ∃ members : Finset String, root ∈ members ∧
      (∀ member ∈ members, ∀ target ∈ next member, target ∈ members) ∧ members.card ≤ fuel) :
    Scans next [] roots {} (visitAll next fuel roots) := by
  unfold visitAll
  generalize ({} : DepthFirst) = search
  induction roots generalizing search with
  | nil => exact .done
  | cons root rest ih =>
    have hrest := ih fun other hother => hfuel other (List.mem_cons_of_mem _ hother)
    rw [List.foldl_cons]
    by_cases hfinished : root ∈ search.finished
    · rw [if_pos (Std.TreeSet.contains_iff_mem.mpr hfinished)]
      exact .finished hfinished (hrest search)
    · rw [if_neg (by simpa using hfinished)]
      obtain ⟨members, hroot, hmembers, hcard⟩ := hfuel root List.mem_cons_self
      have habove (member : String) : member ∈ (∅ : Std.TreeSet String) ↔ member ∈ [] := by simp
      obtain ⟨inner, hinner, hvisit⟩ := exists_scans_visit search hmembers hroot
        (List.forall_mem_nil _) habove List.nodup_nil List.not_mem_nil hcard
      rw [hvisit]
      exact .tree hfinished List.not_mem_nil hinner (hrest _)

namespace Scans

/-- What is finished stays so. -/
theorem mem_finished (hscan : Scans next path targets search after)
    (hfinished : routine ∈ search.finished) : routine ∈ after.finished := by
  induction hscan with
  | done => exact hfinished
  | finished _ _ ih => exact ih hfinished
  | back _ _ _ _ ih => exact ih hfinished
  | tree _ _ _ _ ihinner ihrest =>
    exact ihrest (mem_finished_finish.mpr (Or.inr (ihinner hfinished)))

/-- What is noted stays so. -/
theorem mem_back (hscan : Scans next path targets search after) {ends : Ends}
    (hback : ends ∈ search.back) : ends ∈ after.back := by
  induction hscan with
  | done => exact hback
  | finished _ _ ih => exact ih hback
  | back _ _ _ _ ih => exact ih (mem_back_note.mpr (Or.inl hback))
  | tree _ _ _ _ ihinner ihrest => exact ihrest (ihinner hback)

/-- Every target is finished in the end, unless it lies on the path and is noted. -/
theorem settled (hscan : Scans next path targets search after) {target : String}
    (htarget : target ∈ targets) :
    target ∈ after.finished ∨
      ∃ source, path.head? = some source ∧ ⟨source, target⟩ ∈ after.back := by
  induction hscan with
  | done => exact absurd htarget List.not_mem_nil
  | finished hfinished hrest ih =>
    obtain rfl | htarget := List.mem_cons.mp htarget
    · exact Or.inl (hrest.mem_finished hfinished)
    · exact ih htarget
  | back _ hsource _ hrest ih =>
    obtain rfl | htarget := List.mem_cons.mp htarget
    · exact Or.inr ⟨_, hsource, hrest.mem_back (mem_back_note.mpr (Or.inr rfl))⟩
    · exact ih htarget
  | tree _ _ _ hrest _ ih =>
    obtain rfl | htarget := List.mem_cons.mp htarget
    · exact Or.inl (hrest.mem_finished (mem_finished_finish.mpr (Or.inl rfl)))
    · exact ih htarget

/-- No routine of the path is finished while its targets are taken up. -/
theorem path_open (hscan : Scans next path targets search after)
    (hopen : ∀ member ∈ path, member ∉ search.finished) :
    ∀ member ∈ path, member ∉ after.finished := by
  induction hscan with
  | done => exact hopen
  | finished _ _ ih => exact ih hopen
  | back _ _ _ _ ih => exact ih hopen
  | tree htarget hpath _ _ ihinner ihrest =>
    have hinner := ihinner (List.forall_mem_cons.mpr ⟨htarget, hopen⟩)
    refine ihrest fun member hmember hfinished => ?_
    obtain rfl | hfinished := mem_finished_finish.mp hfinished
    · exact hpath hmember
    · exact hinner member (List.mem_cons_of_mem _ hmember) hfinished

/-- The order lists what is finished. -/
theorem mem_order_iff (hscan : Scans next path targets search after)
    (horder : ∀ member, member ∈ search.order ↔ member ∈ search.finished) :
    ∀ member, member ∈ after.order ↔ member ∈ after.finished := by
  induction hscan with
  | done => exact horder
  | finished _ _ ih => exact ih horder
  | back _ _ _ _ ih => exact ih horder
  | tree _ _ _ _ ihinner ihrest =>
    refine ihrest fun member => ?_
    rw [order_finish, List.mem_cons, mem_finished_finish, ihinner horder]

/-- What gets finished can be reached from the targets. -/
theorem reaches (hscan : Scans next path targets search after)
    (hfinished : routine ∈ after.finished) :
    routine ∈ search.finished ∨ ∃ target ∈ targets, Reaches next target routine := by
  induction hscan with
  | done => exact Or.inl hfinished
  | finished _ _ ih | back _ _ _ _ ih =>
    obtain hbefore | ⟨target, htarget, hreach⟩ := ih hfinished
    · exact Or.inl hbefore
    · exact Or.inr ⟨target, List.mem_cons_of_mem _ htarget, hreach⟩
  | tree _ _ _ _ ihinner ihrest =>
    obtain hbefore | ⟨target, htarget, hreach⟩ := ihrest hfinished
    · obtain rfl | hbefore := mem_finished_finish.mp hbefore
      · exact Or.inr ⟨_, List.mem_cons_self, .refl _⟩
      · obtain hbefore | ⟨target, htarget, hreach⟩ := ihinner hbefore
        · exact Or.inl hbefore
        · exact Or.inr ⟨_, List.mem_cons_self, .head htarget hreach⟩
    · exact Or.inr ⟨target, List.mem_cons_of_mem _ htarget, hreach⟩

/-- A link is noted when its target lies on the path, and in the end that is finished or on the path
    still. -/
theorem back_target (hscan : Scans next path targets search after) {ends : Ends}
    (hback : ends ∈ after.back) :
    ends ∈ search.back ∨ ends.target ∈ after.finished ∨ ends.target ∈ path := by
  induction hscan with
  | done => exact Or.inl hback
  | finished _ _ ih => exact ih hback
  | back _ _ hpath _ ih =>
    obtain hbefore | hafter := ih hback
    · obtain hbefore | rfl := mem_back_note.mp hbefore
      · exact Or.inl hbefore
      · exact Or.inr (Or.inr hpath)
    · exact Or.inr hafter
  | tree _ _ _ hrest ihinner ihrest =>
    obtain hbefore | hafter := ihrest hback
    · obtain hbefore | hfinished | hpath := ihinner hbefore
      · exact Or.inl hbefore
      · exact Or.inr (Or.inl (hrest.mem_finished (mem_finished_finish.mpr (Or.inr hfinished))))
      · obtain heq | hpath := List.mem_cons.mp hpath
        · exact Or.inr (Or.inl (hrest.mem_finished (mem_finished_finish.mpr (Or.inl heq))))
        · exact Or.inr (Or.inr hpath)
    · exact Or.inr hafter

/-- A link is noted for one of the targets, or on the way through a routine that was neither
    finished nor on the path. -/
theorem back_source (hscan : Scans next path targets search after) {ends : Ends}
    (hback : ends ∈ after.back) :
    ends ∈ search.back ∨ (path.head? = some ends.source ∧ ends.target ∈ targets) ∨
      (ends.source ∉ path ∧ ends.source ∉ search.finished ∧ ends.source ∈ after.finished) := by
  induction hscan with
  | done => exact Or.inl hback
  | finished _ _ ih =>
    obtain hbefore | ⟨hsource, htarget⟩ | hnew := ih hback
    · exact Or.inl hbefore
    · exact Or.inr (Or.inl ⟨hsource, List.mem_cons_of_mem _ htarget⟩)
    · exact Or.inr (Or.inr hnew)
  | back _ hhead _ _ ih =>
    obtain hbefore | ⟨hsource, htarget⟩ | hnew := ih hback
    · obtain hbefore | rfl := mem_back_note.mp hbefore
      · exact Or.inl hbefore
      · exact Or.inr (Or.inl ⟨hhead, List.mem_cons_self⟩)
    · exact Or.inr (Or.inl ⟨hsource, List.mem_cons_of_mem _ htarget⟩)
    · exact Or.inr (Or.inr hnew)
  | tree hopen hpath hinner hrest ihinner ihrest =>
    obtain hbefore | ⟨hsource, htarget⟩ | ⟨hout, hnew, hafter⟩ := ihrest hback
    · obtain hbefore | ⟨hhead, _⟩ | ⟨hout, hnew, hafter⟩ := ihinner hbefore
      · exact Or.inl hbefore
      · obtain rfl : _ = ends.source := Option.some.inj hhead
        exact Or.inr (Or.inr
          ⟨hpath, hopen, hrest.mem_finished (mem_finished_finish.mpr (Or.inl rfl))⟩)
      · exact Or.inr (Or.inr ⟨fun hmem => hout (List.mem_cons_of_mem _ hmem), hnew,
          hrest.mem_finished (mem_finished_finish.mpr (Or.inr hafter))⟩)
    · exact Or.inr (Or.inl ⟨hsource, List.mem_cons_of_mem _ htarget⟩)
    · refine Or.inr (Or.inr ⟨hout, fun hmem => hnew ?_, hafter⟩)
      exact mem_finished_finish.mpr (Or.inr (hinner.mem_finished hmem))

end Scans

end Midrange.DepthFirst
