import Mathlib.Data.List.Chain
import Midrange.Proofs.Graph.Recursion

namespace Midrange

/-- Calls that nest within each other, the innermost first, and the routine in which control is by
    then. It starts in a root and goes on along links that are admitted. -/
inductive Chain (admits : Link → Prop) (roots : List String) : List String → String → Prop where
  | root {root : String} (hroot : root ∈ roots) : Chain admits roots [root] root
  | goto {calls : List String} {routine target : String} (hchain : Chain admits roots calls routine)
      (hlink : admits ⟨routine, target, .goto⟩) : Chain admits roots calls target
  | call {calls : List String} {routine target : String} (hchain : Chain admits roots calls routine)
      (hlink : admits ⟨routine, target, .call⟩) : Chain admits roots (target :: calls) target

/-- A routine calls another one, either itself or from a routine to which gotos lead from there. -/
def Calls (admits : Link → Prop) (caller callee : String) : Prop :=
  ∃ routine,
    Relation.ReflTransGen (fun source target => admits ⟨source, target, .goto⟩) caller routine ∧
    admits ⟨routine, callee, .call⟩

namespace Chain

variable {admits : Link → Prop} {roots calls : List String} {routine : String}

/-- From each of the calls a walk leads to where control is. -/
theorem exists_walk (hchain : Chain admits roots calls routine) :
    ∀ label ∈ calls, ∃ links, Walk admits label links routine := by
  induction hchain with
  | @root root _ => exact List.forall_mem_singleton.mpr ⟨[], .nil root⟩
  | goto _ hlink ih =>
    intro label hlabel
    obtain ⟨links, hwalk⟩ := ih label hlabel
    exact ⟨_, hwalk.append (.cons hlink (.nil _))⟩
  | call _ hlink ih =>
    refine List.forall_mem_cons.mpr ⟨⟨[], .nil _⟩, fun label hlabel => ?_⟩
    obtain ⟨links, hwalk⟩ := ih label hlabel
    exact ⟨_, hwalk.append (.cons hlink (.nil _))⟩

/-- What holds of the roots and of all targets of links holds of the calls. -/
theorem forall_mem {P : String → Prop} (hchain : Chain admits roots calls routine)
    (hroots : ∀ root ∈ roots, P root) (htargets : ∀ link, admits link → P link.target) :
    ∀ label ∈ calls, P label := by
  induction hchain with
  | root hroot => exact List.forall_mem_singleton.mpr (hroots _ hroot)
  | goto _ _ ih => exact ih
  | call _ hlink ih => exact List.forall_mem_cons.mpr ⟨htargets _ hlink, ih⟩

/-- Each of the calls is made below the one around it, and gotos lead from the innermost one to
    where control is. -/
theorem isChain_calls (hchain : Chain admits roots calls routine) :
    calls.reverse.IsChain (Calls admits) ∧ ∃ innermost rest, calls = innermost :: rest ∧
      Relation.ReflTransGen (fun source target => admits ⟨source, target, .goto⟩)
        innermost routine := by
  rw [List.isChain_reverse]
  induction hchain with
  | root => exact ⟨List.isChain_singleton _, _, [], rfl, .refl⟩
  | goto _ hlink ih =>
    obtain ⟨hcalls, innermost, rest, heq, hgotos⟩ := ih
    exact ⟨hcalls, innermost, rest, heq, hgotos.tail hlink⟩
  | @call calls routine target _ hlink ih =>
    obtain ⟨hcalls, innermost, rest, rfl, hgotos⟩ := ih
    have hcall : Calls admits innermost target := ⟨routine, hgotos, hlink⟩
    exact ⟨List.isChain_cons_cons.mpr ⟨hcall, hcalls⟩, target, _, rfl, .refl⟩

variable {graph : CallGraph} {cut : Std.TreeSet Ends}

theorem reached (hchain : Chain (graph.Spares cut) roots calls routine) :
    graph.Reached roots routine := by
  induction hchain with
  | root hroot => exact ⟨_, hroot, .refl _⟩
  | goto _ hlink ih | call _ hlink ih =>
    obtain ⟨root, hroot, hreach⟩ := ih
    exact ⟨root, hroot, hreach.tail (CallGraph.mem_outgoing.mpr hlink.1.joins)⟩

/-- Where recursion is cut, no routine is called again before it returns: a walk would lead from the
    routine to itself through the second call. -/
theorem nodup (hchain : Chain (graph.Spares (graph.recursion roots)) roots calls routine) :
    calls.Nodup := by
  induction hchain with
  | root => exact List.nodup_singleton _
  | goto _ _ ih => exact ih
  | @call calls routine target hchain hlink ih =>
    refine List.nodup_cons.mpr ⟨fun hmem => ?_, ih⟩
    obtain ⟨links, hwalk⟩ := hchain.exists_walk target hmem
    have hclosed := hwalk.append (.cons hlink (.nil target))
    have hreached := (hchain.call hlink).reached
    exact CallGraph.kind_ne_call_of_closed_walk hreached hclosed
      (List.mem_append_right _ (List.mem_singleton_self _)) rfl

end Chain

end Midrange
