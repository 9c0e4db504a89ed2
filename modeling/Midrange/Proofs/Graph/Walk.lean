import Midrange.Proofs.Graph.Neighbours

namespace Midrange

open Midrange.Graph (Reaches)

/-- A walk between two routines along links that are admitted, the first link first. -/
inductive Walk (admits : Link → Prop) : String → List Link → String → Prop where
  | nil (routine : String) : Walk admits routine [] routine
  | cons {link : Link} {rest : List Link} {last : String} (hlink : admits link)
      (hrest : Walk admits link.target rest last) : Walk admits link.source (link :: rest) last

namespace Walk

variable {admits : Link → Prop} {links : List Link} {link : Link} {first second : String}

theorem append {more : List Link} {third : String} (hfirst : Walk admits first links second)
    (hsecond : Walk admits second more third) : Walk admits first (links ++ more) third := by
  induction hfirst with
  | nil => exact hsecond
  | cons hlink _ ih => exact .cons hlink (ih hsecond)

theorem mono {more : Link → Prop} (hmore : ∀ link, admits link → more link)
    (hwalk : Walk admits first links second) : Walk more first links second := by
  induction hwalk with
  | nil routine => exact .nil routine
  | cons hlink _ ih => exact .cons (hmore _ hlink) ih

theorem restrict {more : Link → Prop} (hwalk : Walk admits first links second)
    (hmore : ∀ link ∈ links, more link) :
    Walk (fun link => admits link ∧ more link) first links second := by
  induction hwalk with
  | nil routine => exact .nil routine
  | cons hlink _ ih =>
    obtain ⟨hfirst, hrest⟩ := List.forall_mem_cons.mp hmore
    exact .cons ⟨hlink, hfirst⟩ (ih hrest)

/-- Every link of a walk is admitted, and the walk goes up to it and on behind it. -/
theorem split (hwalk : Walk admits first links second) (hmem : link ∈ links) :
    admits link ∧ ∃ before behind, Walk admits first before link.source ∧
      Walk admits link.target behind second := by
  induction hwalk with
  | nil => exact absurd hmem List.not_mem_nil
  | @cons head rest last hlink hrest ih =>
    obtain rfl | hmem := List.mem_cons.mp hmem
    · exact ⟨hlink, [], rest, .nil _, hrest⟩
    · obtain ⟨hadmits, before, behind, hbefore, hbehind⟩ := ih hmem
      exact ⟨hadmits, head :: before, behind, .cons hlink hbefore, hbehind⟩

theorem eq_of_nil (hwalk : Walk admits first [] second) : first = second := by
  cases hwalk
  rfl

/-- A walk along links that lead down ends below its start. -/
theorem rank_lt {rank : String → Nat} (hwalk : Walk admits first links second)
    (hdown : ∀ link ∈ links, rank link.target < rank link.source) (hlinks : links ≠ []) :
    rank second < rank first := by
  induction hwalk with
  | nil => exact absurd rfl hlinks
  | @cons link rest last _ hrest ih =>
    have hfirst := hdown link List.mem_cons_self
    by_cases hend : rest = []
    · subst hend
      rwa [← hrest.eq_of_nil]
    · exact (ih (fun other hother => hdown other (List.mem_cons_of_mem _ hother)) hend).trans hfirst

end Walk

namespace CallGraph

variable {graph : CallGraph} {links : List Link} {first second : String}

/-- A call or a goto of a graph. -/
def Has (graph : CallGraph) (link : Link) : Prop :=
  match link.kind with
  | .call => link.ends ∈ graph.calls
  | .goto => link.ends ∈ graph.gotos

theorem Has.joins {link : Link} (hlink : graph.Has link) : graph.Joins link.source link.target := by
  obtain ⟨source, target, kind⟩ := link
  cases kind with
  | call => exact Or.inl hlink
  | goto => exact Or.inr hlink

theorem joins_iff : graph.Joins first second ↔ ∃ kind, graph.Has ⟨first, second, kind⟩ := by
  constructor
  · rintro (hcall | hgoto)
    · exact ⟨.call, hcall⟩
    · exact ⟨.goto, hgoto⟩
  · exact fun ⟨_, hlink⟩ => hlink.joins

theorem reaches_of_walk (hwalk : Walk graph.Has first links second) :
    Reaches graph.outgoing.of first second := by
  induction hwalk with
  | nil routine => exact .refl routine
  | cons hlink _ ih => exact .head (mem_outgoing.mpr hlink.joins) ih

theorem exists_walk_of_reaches (hreach : Reaches graph.outgoing.of first second) :
    ∃ links, Walk graph.Has first links second := by
  induction hreach with
  | refl => exact ⟨[], .nil first⟩
  | tail _ hstep ih =>
    obtain ⟨links, hwalk⟩ := ih
    obtain ⟨kind, hlink⟩ := joins_iff.mp (mem_outgoing.mp hstep)
    exact ⟨links ++ [⟨_, _, kind⟩], hwalk.append (.cons hlink (.nil _))⟩

end CallGraph

end Midrange
