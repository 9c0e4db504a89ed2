import Midrange.Proofs.Graph.Scan

namespace Midrange.DepthFirst

open Midrange.Graph (Reaches)

variable {next : String → List String} {path targets roots : List String}
  {search after : DepthFirst} {back : Array Ends} {source target : String}

/-- An order of finishing in which every target of a routine stands behind it, unless the link
    between them is noted. -/
def Ordered (next : String → List String) (back : Array Ends) : List String → Prop
  | [] => True
  | routine :: rest =>
    routine ∉ rest ∧ (∀ target ∈ next routine, target ∈ rest ∨ ⟨routine, target⟩ ∈ back) ∧
      Ordered next back rest

theorem Ordered.mono {more : Array Ends} {order : List String}
    (hmore : ∀ ends ∈ back, ends ∈ more) (hordered : Ordered next back order) :
    Ordered next more order := by
  induction order with
  | nil => trivial
  | cons routine rest ih =>
    obtain ⟨hnew, htargets, hrest⟩ := hordered
    exact ⟨hnew, fun target htarget => (htargets target htarget).imp_right (hmore _), ih hrest⟩

/-- Links that are not noted lead down, so that they close no cycle. -/
theorem Ordered.exists_rank {order : List String}
    (hordered : Ordered next back order) :
    ∃ rank : String → Nat, (∀ routine ∈ order, rank routine ≤ order.length) ∧
      ∀ routine ∈ order, ∀ target ∈ next routine,
        ⟨routine, target⟩ ∈ back ∨ target ∈ order ∧ rank target < rank routine := by
  induction order with
  | nil => exact ⟨fun _ => 0, by simp, by simp⟩
  | cons first rest ih =>
    obtain ⟨hnew, htargets, hrest⟩ := hordered
    obtain ⟨rank, hbound, hrank⟩ := ih hrest
    have hother (routine : String) (hmem : routine ∈ rest) :
        Function.update rank first (rest.length + 1) routine = rank routine :=
      Function.update_of_ne (by rintro rfl; exact hnew hmem) _ _
    refine ⟨Function.update rank first (rest.length + 1), ?_, ?_⟩
    · intro routine hmem
      obtain rfl | hmem := List.mem_cons.mp hmem
      · rw [Function.update_self, List.length_cons]
      · rw [hother routine hmem, List.length_cons]
        exact (hbound routine hmem).trans (Nat.le_succ _)
    · intro routine hmem target htarget
      obtain rfl | hmem := List.mem_cons.mp hmem
      · obtain hbehind | hback := htargets target htarget
        · rw [Function.update_self, hother target hbehind]
          exact Or.inr ⟨List.mem_cons_of_mem _ hbehind, Nat.lt_succ_of_le (hbound target hbehind)⟩
        · exact Or.inl hback
      · obtain hback | ⟨hbehind, hless⟩ := hrank routine hmem target htarget
        · exact Or.inl hback
        · rw [hother routine hmem, hother target hbehind]
          exact Or.inr ⟨List.mem_cons_of_mem _ hbehind, hless⟩

theorem Scans.ordered (hscan : Scans next path targets search after)
    (hopen : ∀ member ∈ path, member ∉ search.finished)
    (horder : ∀ member, member ∈ search.order ↔ member ∈ search.finished)
    (hordered : Ordered next search.back search.order) : Ordered next after.back after.order := by
  induction hscan with
  | done => exact hordered
  | finished _ _ ih => exact ih hopen horder hordered
  | back _ _ _ _ ih =>
    exact ih hopen horder (hordered.mono fun _ hends => mem_back_note.mpr (Or.inl hends))
  | @tree path _ target search inner _ htarget hpath hinner _ ihinner ihrest =>
    have hopen' : ∀ member ∈ target :: path, member ∉ search.finished :=
      List.forall_mem_cons.mpr ⟨htarget, hopen⟩
    have horder' := hinner.mem_order_iff horder
    have hbelow : target ∉ inner.order := fun hmem =>
      hinner.path_open hopen' target List.mem_cons_self ((horder' target).mp hmem)
    refine ihrest ?_ ?_ ⟨hbelow, fun other hother => ?_, ihinner hopen' horder hordered⟩
    · intro member hmember hfinished
      obtain rfl | hfinished := mem_finished_finish.mp hfinished
      · exact hpath hmember
      · exact hinner.path_open hopen' member (List.mem_cons_of_mem _ hmember) hfinished
    · intro member
      rw [order_finish, List.mem_cons, mem_finished_finish, horder']
    · obtain hfinished | ⟨source, hsource, hback⟩ := hinner.settled hother
      · exact Or.inl ((horder' other).mpr hfinished)
      · obtain rfl : target = source := Option.some.inj hsource
        exact Or.inr hback

/-- A link that is not noted. -/
def Keeps (next : String → List String) (back : Array Ends) (source target : String) : Prop :=
  target ∈ next source ∧ ⟨source, target⟩ ∉ back

/-- Links that are not noted lead from some root to a routine. -/
def Kept (next : String → List String) (back : Array Ends) (roots : List String)
    (routine : String) : Prop :=
  ∃ root ∈ roots, Relation.ReflTransGen (Keeps next back) root routine

theorem Kept.step (hkept : Kept next back roots source) (hstep : Keeps next back source target) :
    Kept next back roots target := by
  obtain ⟨root, hroot, hreach⟩ := hkept
  exact ⟨root, hroot, hreach.tail hstep⟩

/-- A path on which links that are not noted lead from a root to the latest routine, which comes
    first. -/
inductive Trail (next : String → List String) (back : Array Ends) (roots : List String) :
    List String → Prop where
  | nil : Trail next back roots []
  | root {root : String} (hroot : root ∈ roots) : Trail next back roots [root]
  | cons {source target : String} {rest : List String} (hstep : Keeps next back source target)
      (htrail : Trail next back roots (source :: rest)) :
      Trail next back roots (target :: source :: rest)

namespace Trail

theorem kept (htrail : Trail next back roots path) :
    ∀ member ∈ path, Kept next back roots member := by
  induction htrail with
  | nil => exact fun _ hmem => absurd hmem List.not_mem_nil
  | root hroot => exact List.forall_mem_singleton.mpr ⟨_, hroot, .refl⟩
  | cons hstep _ ih =>
    exact List.forall_mem_cons.mpr ⟨(ih _ List.mem_cons_self).step hstep, ih⟩

/-- Every routine of a path leads to the latest one. -/
theorem reaches (htrail : Trail next back roots path) (hsource : path.head? = some source) :
    ∀ member ∈ path, Reaches next member source := by
  induction htrail generalizing source with
  | nil => exact fun _ hmem => absurd hmem List.not_mem_nil
  | root hroot =>
    obtain rfl := Option.some.inj hsource
    exact List.forall_mem_singleton.mpr (.refl _)
  | cons hstep _ ih =>
    obtain rfl := Option.some.inj hsource
    exact List.forall_mem_cons.mpr ⟨.refl _, fun member hmem => (ih rfl member hmem).tail hstep.1⟩

/-- Links of other routines may be noted, those of the latest one among them. -/
theorem mono {more : Array Ends} (htrail : Trail next back roots path)
    (hmore : ∀ ends ∈ more, ends ∈ back ∨ ends.source ∉ path.tail) :
    Trail next more roots path := by
  induction htrail with
  | nil => exact .nil
  | root hroot => exact .root hroot
  | cons hstep _ ih =>
    refine .cons ⟨hstep.1, fun hmem => ?_⟩ (ih fun ends hends => ?_)
    · obtain hmem | hout := hmore _ hmem
      · exact hstep.2 hmem
      · exact hout List.mem_cons_self
    · exact (hmore ends hends).imp_right fun hout hmem => hout (List.mem_of_mem_tail hmem)

end Trail

/-- A noted link leads to a routine of the path, to which other links lead that are not noted. -/
theorem Kept.note {routine : String} (hkept : Kept next search.back roots routine)
    (htrail : Trail next (search.note source target).back roots path) (hpath : target ∈ path) :
    Kept next (search.note source target).back roots routine := by
  obtain ⟨root, hroot, hreach⟩ := hkept
  induction hreach with
  | refl => exact ⟨root, hroot, .refl⟩
  | @tail first second _ hstep ih =>
    by_cases hnew : first = source ∧ second = target
    · obtain ⟨rfl, rfl⟩ := hnew
      exact htrail.kept second hpath
    · refine ih.step ⟨hstep.1, fun hnoted => ?_⟩
      obtain hnoted | heq := mem_back_note.mp hnoted
      · exact hstep.2 hnoted
      · exact hnew (Ends.mk.inj heq)

/-- A search in the midst of the targets of the latest routine of its path. -/
structure Along (next : String → List String) (roots path targets : List String)
    (search : DepthFirst) : Prop where
  trail : Trail next search.back roots path
  nodup : path.Nodup
  path_open : ∀ member ∈ path, member ∉ search.finished
  keeps : ∀ source, path.head? = some source → ∀ target ∈ targets,
    Keeps next search.back source target
  distinct : path ≠ [] → targets.Nodup
  roots_mem : path = [] → ∀ target ∈ targets, target ∈ roots
  back_source : ∀ ends ∈ search.back, ends.source ∈ search.finished ∨ ends.source ∈ path

/-- A search begins with its roots. -/
theorem Along.start : Along next roots [] roots {} :=
  ⟨.nil, List.nodup_nil, by simp, by simp, fun h => absurd rfl h, fun _ _ h => h, by simp⟩

namespace Along

variable {inner : DepthFirst} (halong : Along next roots path (target :: targets) search)

include halong

theorem tail : Along next roots path targets search where
  trail := halong.trail
  nodup := halong.nodup
  path_open := halong.path_open
  keeps source hsource other hother :=
    halong.keeps source hsource other (List.mem_cons_of_mem _ hother)
  distinct hpath := (List.nodup_cons.mp (halong.distinct hpath)).2
  roots_mem hpath other hother := halong.roots_mem hpath other (List.mem_cons_of_mem _ hother)
  back_source := halong.back_source

theorem note (hsource : path.head? = some source) :
    Along next roots path targets (search.note source target) where
  trail := by
    refine halong.trail.mono fun ends hends => ?_
    obtain hends | rfl := mem_back_note.mp hends
    · exact Or.inl hends
    · obtain ⟨rest, rfl⟩ := List.head?_eq_some_iff.mp hsource
      exact Or.inr (List.nodup_cons.mp halong.nodup).1
  nodup := halong.nodup
  path_open := halong.path_open
  keeps source' hsource' other hother := by
    obtain rfl : source = source' := Option.some.inj (hsource.symm.trans hsource')
    obtain ⟨hmem, hunnoted⟩ := halong.keeps source hsource other (List.mem_cons_of_mem _ hother)
    refine ⟨hmem, fun hnoted => ?_⟩
    obtain hnoted | heq := mem_back_note.mp hnoted
    · exact hunnoted hnoted
    · obtain ⟨-, rfl⟩ := Ends.mk.inj heq
      have hpath : path ≠ [] := by
        rintro rfl
        cases hsource
      exact (List.nodup_cons.mp (halong.distinct hpath)).1 hother
  distinct := halong.tail.distinct
  roots_mem := halong.tail.roots_mem
  back_source ends hends := by
    obtain hends | rfl := mem_back_note.mp hends
    · exact halong.back_source ends hends
    · exact Or.inr (List.mem_of_mem_head? hsource)

theorem enter (hnext : (next target).Nodup) (hopen : target ∉ search.finished)
    (hpath : target ∉ path) : Along next roots (target :: path) (next target) search where
  trail := by
    cases hcase : path with
    | nil => exact .root (halong.roots_mem hcase target List.mem_cons_self)
    | cons source rest =>
      subst hcase
      exact .cons (halong.keeps source rfl target List.mem_cons_self) halong.trail
  nodup := List.nodup_cons.mpr ⟨hpath, halong.nodup⟩
  path_open := List.forall_mem_cons.mpr ⟨hopen, halong.path_open⟩
  keeps source hsource other hother := by
    obtain rfl := Option.some.inj hsource
    refine ⟨hother, fun hnoted => ?_⟩
    exact (halong.back_source _ hnoted).elim hopen hpath
  distinct _ := hnext
  roots_mem hnil := absurd hnil (List.cons_ne_nil _ _)
  back_source ends hends := (halong.back_source ends hends).imp_right (List.mem_cons_of_mem _)

theorem leave (hscan : Scans next (target :: path) (next target) search inner)
    (hopen : target ∉ search.finished) (hpath : target ∉ path) :
    Along next roots path targets (inner.finish target) := by
  -- no link of the path above is noted below the target
  have hnoted (ends : Ends) (hends : ends ∈ inner.back) :
      ends ∈ search.back ∨
        ends.source ∉ path ∧ (ends.source = target ∨ ends.source ∈ inner.finished) := by
    obtain hbefore | ⟨hsource, _⟩ | ⟨hout, _, hfinished⟩ := hscan.back_source hends
    · exact Or.inl hbefore
    · obtain rfl : target = ends.source := Option.some.inj hsource
      exact Or.inr ⟨hpath, Or.inl rfl⟩
    · exact Or.inr ⟨fun hmem => hout (List.mem_cons_of_mem _ hmem), Or.inr hfinished⟩
  constructor
  case trail =>
    refine halong.trail.mono fun ends hends => ?_
    exact (hnoted ends hends).imp_right fun hnew hmem => hnew.1 (List.mem_of_mem_tail hmem)
  case nodup => exact halong.nodup
  case path_open =>
    intro member hmember hfinished
    obtain rfl | hfinished := mem_finished_finish.mp hfinished
    · exact hpath hmember
    · exact hscan.path_open (List.forall_mem_cons.mpr ⟨hopen, halong.path_open⟩) member
        (List.mem_cons_of_mem _ hmember) hfinished
  case keeps =>
    intro source hsource other hother
    obtain ⟨hmem, hunnoted⟩ := halong.keeps source hsource other (List.mem_cons_of_mem _ hother)
    refine ⟨hmem, fun hends => ?_⟩
    obtain hends | ⟨hout, _⟩ := hnoted _ hends
    · exact hunnoted hends
    · exact hout (List.mem_of_mem_head? hsource)
  case distinct => exact halong.tail.distinct
  case roots_mem => exact halong.tail.roots_mem
  case back_source =>
    intro ends hends
    obtain hends | ⟨_, hfinished⟩ := hnoted ends hends
    · refine (halong.back_source ends hends).imp_left fun hfinished => ?_
      exact mem_finished_finish.mpr (Or.inr (hscan.mem_finished hfinished))
    · exact Or.inl (mem_finished_finish.mpr hfinished)

end Along

namespace Scans

/-- Every link that is noted closes a cycle. -/
theorem back_closes (hnext : ∀ routine, (next routine).Nodup)
    (hscan : Scans next path targets search after) (halong : Along next roots path targets search)
    {ends : Ends} (hback : ends ∈ after.back) :
    ends ∈ search.back ∨ ends.target ∈ next ends.source ∧ Reaches next ends.target ends.source := by
  induction hscan with
  | done => exact Or.inl hback
  | finished _ _ ih => exact ih halong.tail hback
  | back _ hsource hpath _ ih =>
    obtain hbefore | hcloses := ih (halong.note hsource) hback
    · obtain hbefore | rfl := mem_back_note.mp hbefore
      · exact Or.inl hbefore
      · exact Or.inr ⟨(halong.keeps _ hsource _ List.mem_cons_self).1,
          halong.trail.reaches hsource _ hpath⟩
    · exact Or.inr hcloses
  | tree hopen hpath hinner _ ihinner ihrest =>
    obtain hbefore | hcloses := ihrest (halong.leave hinner hopen hpath) hback
    · exact ihinner (halong.enter (hnext _) hopen hpath) hbefore
    · exact Or.inr hcloses

/-- What can be reached without the noted links stays the same when a search goes on. -/
theorem kept (hnext : ∀ routine, (next routine).Nodup)
    (hscan : Scans next path targets search after) (halong : Along next roots path targets search)
    {routine : String} (hkept : Kept next search.back roots routine) :
    Kept next after.back roots routine := by
  induction hscan with
  | done => exact hkept
  | finished _ _ ih => exact ih halong.tail hkept
  | back _ hsource hpath _ ih =>
    have halong := halong.note hsource
    exact ih halong (hkept.note halong.trail hpath)
  | tree hopen hpath hinner _ ihinner ihrest =>
    exact ihrest (halong.leave hinner hopen hpath)
      (ihinner (halong.enter (hnext _) hopen hpath) hkept)

/-- No link is noted twice: a link is noted while it is taken up, which happens once for each
    routine. -/
theorem nodup_back (hnext : ∀ routine, (next routine).Nodup)
    (hscan : Scans next path targets search after) (halong : Along next roots path targets search)
    (hnodup : search.back.toList.Nodup) : after.back.toList.Nodup := by
  induction hscan with
  | done => exact hnodup
  | finished _ _ ih => exact ih halong.tail hnodup
  | back _ hsource _ _ ih =>
    have hnew := (halong.keeps _ hsource _ List.mem_cons_self).2
    refine ih (halong.note hsource) ?_
    rw [DepthFirst.note, Array.toList_push, List.nodup_append_comm, List.singleton_append,
      List.nodup_cons, Array.mem_toList_iff]
    exact ⟨hnew, hnodup⟩
  | tree hopen hpath hinner _ ihinner ihrest =>
    exact ihrest (halong.leave hinner hopen hpath)
      (ihinner (halong.enter (hnext _) hopen hpath) hnodup)

end Scans

/-- What a finished search from some roots knows: what it met, the links that close cycles among the
    links it met, and that the others close none but lead as far. -/
structure Explores (next : String → List String) (roots : List String) (search : DepthFirst) :
    Prop where
  mem_finished_iff (routine : String) :
    routine ∈ search.finished ↔ ∃ root ∈ roots, Reaches next root routine
  mem_order_iff (routine : String) : routine ∈ search.order ↔ routine ∈ search.finished
  back_closes (ends : Ends) (hback : ends ∈ search.back) :
    ends.target ∈ next ends.source ∧ Reaches next ends.target ends.source
  exists_rank : ∃ rank : String → Nat, ∀ source ∈ search.finished, ∀ target ∈ next source,
    ⟨source, target⟩ ∈ search.back ∨ rank target < rank source
  kept (routine : String) (hfinished : routine ∈ search.finished) :
    Kept next search.back roots routine

theorem explores_of_scans (hnext : ∀ routine, (next routine).Nodup)
    (hscan : Scans next [] roots {} after) : Explores next roots after := by
  have halong : Along next roots [] roots {} := Along.start
  have horder := hscan.mem_order_iff (by simp)
  obtain ⟨rank, _, hrank⟩ := (hscan.ordered (by simp) (by simp) trivial).exists_rank
  have hroots (root : String) (hroot : root ∈ roots) : root ∈ after.finished := by
    obtain hfinished | ⟨_, hnone, _⟩ := hscan.settled hroot
    · exact hfinished
    · cases hnone
  have hclosed (source : String) (hsource : source ∈ after.finished) (target : String)
      (htarget : target ∈ next source) : target ∈ after.finished := by
    obtain hback | ⟨hmem, _⟩ := hrank source ((horder source).mpr hsource) target htarget
    · obtain hnone | hfinished | hnone := hscan.back_target hback
      · simp at hnone
      · exact hfinished
      · cases hnone
    · exact (horder target).mp hmem
  have hfinished (routine : String) :
      routine ∈ after.finished ↔ ∃ root ∈ roots, Reaches next root routine := by
    constructor
    · intro hmem
      exact (hscan.reaches hmem).resolve_left (by simp)
    · rintro ⟨root, hroot, hreach⟩
      exact hreach.closed hclosed (hroots root hroot)
  refine ⟨hfinished, horder, fun ends hback => ?_, ⟨rank, fun source hsource target htarget => ?_⟩,
    fun routine hmem => ?_⟩
  · exact (hscan.back_closes hnext halong hback).resolve_left (by simp)
  · exact (hrank source ((horder source).mpr hsource) target htarget).imp_right And.right
  · obtain ⟨root, hroot, hreach⟩ := (hfinished routine).mp hmem
    have hall : (fun source target => target ∈ next source) ≤ Keeps next #[] :=
      fun _ _ htarget => ⟨htarget, by simp⟩
    exact hscan.kept hnext halong ⟨root, hroot, Relation.ReflTransGen.mono hall _ _ hreach⟩

end Midrange.DepthFirst
