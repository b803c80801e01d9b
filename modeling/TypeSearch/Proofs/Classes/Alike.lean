import TypeSearch.Proofs.Classes.Entail

/-!
# Graphs with the same solutions

First-order graphs that have the same solutions may have different roots, since that depends on the
order in which equalities were added. They still reduce every type alike, up to the names of the
variables that are left: a class without a concrete type in one graph is such a class in the other,
and two such classes are never one. So the graphs agree on which types are equal.
-/

namespace TypeSearch.Classes

variable {graph other : Classes} {v w : Variable} {s t u : Ty}

def unknowns (graph : Classes) : Set VarId := {id | graph.facts.find? id = none}

/-- Both graphs reduce all types, and they agree on which types are then equal. -/
def ReduceAlike (graph other : Classes) : Prop :=
  ∀ s t, ∃ x y x' y',
    graph.reduce s = (.ok x : Outcome Mismatch Ty) ∧
    graph.reduce t = (.ok y : Outcome Mismatch Ty) ∧
    other.reduce s = (.ok x' : Outcome Mismatch Ty) ∧
    other.reduce t = (.ok y' : Outcome Mismatch Ty) ∧ x.same y = x'.same y'

theorem FirstOrderGraph.acyclic_facts (hgraph : FirstOrderGraph graph) : graph.facts.Acyclic :=
  hgraph.sound.wellFormed.acyclic_facts_iff.mpr hgraph.sound.acyclic

theorem FirstOrderGraph.plain_facts (hgraph : FirstOrderGraph graph) : graph.facts.Plain Set.univ :=
  Facts.plain_univ_iff.mpr
    (hgraph.sound.wellFormed.firstOrder_facts (hgraph.sound.firstOrder trivial))

theorem FirstOrderGraph.solves_solution (hgraph : FirstOrderGraph graph) :
    graph.Solves graph.facts.solution :=
  hgraph.sound.wellFormed.solves_facts_iff.mp
    (hgraph.acyclic_facts.solves_solution (Facts.plain_univ_iff.mp hgraph.plain_facts))

theorem solution_of_unknown {id : VarId} (hid : id ∈ graph.unknowns) :
    graph.facts.solution id = .var ⟨id, ""⟩ := by
  have hreduce : graph.facts.reduce (.var ⟨id, ""⟩) =
      (.ok (.var ⟨id, ""⟩) : Outcome Mismatch Ty) :=
    Facts.reduce_var_of_free (w := ⟨id, ""⟩) hid
  rw [Facts.solution, hreduce]

theorem FirstOrderGraph.entails_resolves (hgraph : FirstOrderGraph graph)
    (hresolves : graph.facts.Resolves v t) : Entails graph (.var v) t := by
  refine ⟨.var v, (hresolves.plain hgraph.plain_facts (Set.mem_univ _)).1, fun σ hsolves => ?_⟩
  refine hresolves.agree hgraph.plain_facts (Facts.solvesOn_univ_iff.mpr ?_) (Set.mem_univ _)
  exact hgraph.sound.wellFormed.solves_facts_iff.mpr hsolves

section SameSolutions

variable (hgraph : FirstOrderGraph graph) (hother : FirstOrderGraph other)
  (hsolves : ∀ σ, graph.Solves σ ↔ other.Solves σ)
include hgraph hother hsolves

theorem concrete?_of_unknown {id : VarId} (hid : id ∈ graph.unknowns) :
    other.concrete? (other.root id) = none := by
  have hsolution := (hsolves _).mp hgraph.solves_solution
  rw [Option.eq_none_iff_forall_ne_some]
  intro t ht
  obtain ⟨hfirst, hbuilt⟩ := hother.sound.firstOrder trivial _ t ht
  have hsame := Ty.same_trans (hsolution.root hother.sound.wellFormed id)
    (hsolution.concrete? _ t ht)
  rw [solution_of_unknown hid] at hsame
  obtain ⟨x, hx, -⟩ := Ty.same_var_iff.mp hsame
  obtain ⟨v, rfl⟩ := hfirst.exists_var_of_apply hx
  cases hbuilt

theorem injOn_root_unknowns : Set.InjOn other.root graph.unknowns := by
  intro id hid id' hid' hroot
  have hsolution := (hsolves _).mp hgraph.solves_solution
  have hsame := (hother.sound.wellFormed.solves_iff.mp hsolution).1 id id' hroot
  rw [solution_of_unknown hid, solution_of_unknown hid'] at hsame
  obtain ⟨x, hx, hxid⟩ := Ty.same_var_iff.mp hsame
  cases hx
  exact hxid

omit hgraph in
theorem same_reduction_of_entails (hentails : Entails graph t u) :
    (other.reduction t).same (other.reduction u) = true :=
  hother.same_of_entails (hentails.mono fun σ => (hsolves σ).mpr)

theorem reduction_of_unknown (hv : v.id ∈ graph.unknowns) :
    ∃ w : Variable, other.reduction (.var v) = .var w ∧ w.id = other.root v.id := by
  obtain ⟨w, hw, hresolves⟩ := hother.sound.wellFormed.resolves_of_none
    (concrete?_of_unknown hgraph hother hsolves hv)
  have hreduce : other.reduce (.var v) = (.ok (.var w) : Outcome Mismatch Ty) :=
    hother.acyclic_facts.reduce_of_resolves hresolves
      (Facts.reduce_var_of_free (hresolves.find?_eq_none rfl))
  exact ⟨w, Outcome.ok.inj ((hother.reduce_eq _).symm.trans hreduce), hw⟩

theorem renamed_reduction {r : Ty} (hreduce : graph.reduce t = (.ok r : Outcome Mismatch Ty)) :
    Ty.Renamed other.root graph.unknowns r (other.reduction t) := by
  refine Facts.reduceWithin_induct
    (R := fun t r => Ty.Renamed other.root graph.unknowns r (other.reduction t))
    ?_ ?_ ?_ hreduce
  · intro v w hresolves
    have hw : w.id ∈ graph.unknowns := hresolves.find?_eq_none rfl
    obtain ⟨x, hx, hroot⟩ := reduction_of_unknown hgraph hother hsolves hw
    have hsame := same_reduction_of_entails hother hsolves (hgraph.entails_resolves hresolves).symm
    rw [hx] at hsame
    obtain ⟨y, hy, hyid⟩ := Ty.same_var_iff.mp hsame
    rw [hy]
    exact Ty.renamed_var hw (hyid.symm.trans hroot)
  · intro v t r hresolves _ hrenamed
    have hsame := same_reduction_of_entails hother hsolves (hgraph.entails_resolves hresolves)
    exact ⟨hrenamed.isOver, Ty.same_trans hsame hrenamed.same⟩
  · intro head ts rs hall
    rw [hother.reduction_build]
    exact Ty.renamed_rebuild (injOn_root_unknowns hgraph hother hsolves) head
      (List.forall₂_map_left_iff.mpr hall).flip

/-- **Graphs with the same solutions agree on which types are equal.** -/
theorem FirstOrderGraph.reduceAlike : ReduceAlike graph other := fun s t =>
  ⟨_, _, _, _, hgraph.reduce_eq s, hgraph.reduce_eq t, hother.reduce_eq s, hother.reduce_eq t,
    (renamed_reduction hgraph hother hsolves (hgraph.reduce_eq s)).same_eq
      (injOn_root_unknowns hgraph hother hsolves)
      (renamed_reduction hgraph hother hsolves (hgraph.reduce_eq t))⟩

end SameSolutions

end TypeSearch.Classes
