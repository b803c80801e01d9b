import TypeSearch.Proofs.Classes.Alike
import TypeSearch.Proofs.Type.Fresh

/-!
# Graphs with corresponding solutions

Two graphs may say the same of different variables, as when the same expression is inferred twice.
Here every solution of one graph gives a solution of the other and the other way around, along
functions between their variables. Then what the graphs reduce corresponding types to is the same up
to a renaming of variables: the most general solution of each graph is an instance of the other's.
-/

namespace TypeSearch

open List

namespace Ty

variable {r : Ty} {σ : VarId → Ty}

theorem FirstOrder.same_var_of_fixed (hr : r.FirstOrder) (hfixed : r.same (r.apply σ) = true)
    {id : VarId} (hid : r.occurs id = true) : (Ty.var ⟨id, ""⟩).same (σ id) = true := by
  induction r using inductBuild with
  | var v =>
    obtain rfl := occurs_var_iff.mp hid
    obtain ⟨w, hw, hvw⟩ := same_var_iff.mp hfixed
    exact same_var_iff.mpr ⟨w, hw, hvw⟩
  | build head ts ih =>
    rw [hr.apply_build, same_build_iff] at hfixed
    obtain ⟨us, heq, hsame⟩ := hfixed
    have hus := congrArg components heq
    rw [components_build, components_build] at hus
    rw [← hus, forall₂_map_right_iff, forall₂_same] at hsame
    obtain ⟨t, ht, hin⟩ := occurs_build_iff.mp hid
    exact ih t ht (hr.of_build t ht) (hsame t ht) hin

theorem FirstOrder.same_rename_of_apply (hr : r.FirstOrder) {S : Set VarId} (hover : r.Over S)
    {ρ : VarId → VarId} (hσ : ∀ id ∈ S, ∀ hint, (σ id).same (Ty.var ⟨ρ id, hint⟩) = true) :
    (r.apply σ).same (r.rename ρ) = true := by
  induction r using inductBuild with
  | var v => exact hσ v.id (hover v.id (occurs_var_iff.mpr rfl)) v.hint
  | build head ts ih =>
    rw [hr.apply_build, rename_build, same_build_iff]
    refine ⟨_, rfl, ?_⟩
    rw [forall₂_map_left_iff, forall₂_map_right_iff, forall₂_same]
    exact fun t ht => ih t ht (hr.of_build t ht) (over_build_iff.mp hover t ht)

end Ty

namespace Classes

variable {graph other : Classes} {t u : Ty} {D : Set VarId} {forth back : VarId → VarId}

section Graph

variable (hgraph : FirstOrderGraph graph)
include hgraph

theorem FirstOrderGraph.entails_reduction (ht : t.FirstOrder) :
    Entails graph t (graph.reduction t) := by
  refine Facts.reduceWithin_induct (R := fun t r => t.FirstOrder → Entails graph t r)
    ?_ ?_ ?_ (hgraph.reduce_eq t) ht
  · exact fun v w hresolves _ => hgraph.entails_resolves hresolves
  · intro v t r hresolves _ ih _
    have hentails := hgraph.entails_resolves hresolves
    exact hentails.trans (ih hentails.right)
  · intro head ts rs hall hfirst
    rw [hfirst.rebuild_eq]
    exact entails_build head hfirst (forall₂_of_mem hall hfirst.of_build)

theorem FirstOrderGraph.solution_eq (id : VarId) :
    graph.facts.solution id = graph.reduction (.var ⟨id, ""⟩) := by
  have hreduce : graph.facts.reduce (.var ⟨id, ""⟩) =
      (.ok (graph.reduction (.var ⟨id, ""⟩)) : Outcome Mismatch Ty) := hgraph.reduce_eq _
  rw [Facts.solution, hreduce]

theorem FirstOrderGraph.same_apply_solution (ht : t.FirstOrder) :
    (t.apply graph.facts.solution).same (graph.reduction t) = true :=
  hgraph.acyclic_facts.same_apply_solution ht (hgraph.reduce_eq t)

theorem FirstOrderGraph.over_unknowns (t : Ty) : (graph.reduction t).Over graph.unknowns :=
  (renamed_reduction hgraph hgraph (fun _ => Iff.rfl) (hgraph.reduce_eq t)).isOver

end Graph

/-- What a type becomes under the solutions of the graph depends on the given variables only. -/
def Depends (graph : Classes) (D : Set VarId) (t : Ty) : Prop :=
  ∀ σ σ', Set.EqOn σ σ' D → graph.Solves σ → (t.apply σ).same (t.apply σ') = true

/-- Whether something solves the graph depends on the given variables only. -/
def Local (graph : Classes) (D : Set VarId) : Prop :=
  ∀ σ σ', Set.EqOn σ σ' D → graph.Solves σ → graph.Solves σ'

open Classical in
theorem FirstOrderGraph.over_of_depends (hgraph : FirstOrderGraph graph) (hlocal : graph.Local D)
    (ht : t.FirstOrder) (hdepends : graph.Depends D t) : (graph.reduction t).Over D := by
  intro id hoccurs
  by_contra hid
  let changed : VarId → Ty := fun id => if id ∈ D then graph.facts.solution id else .number
  have hsame : Set.EqOn graph.facts.solution changed D := fun id hmem => (if_pos hmem).symm
  have hsolves := hlocal _ _ hsame hgraph.solves_solution
  have hentails := hgraph.entails_reduction ht
  have hfixed : (graph.reduction t).same ((graph.reduction t).apply changed) = true :=
    Ty.same_trans (Ty.same_symm (hgraph.same_apply_solution ht))
      (Ty.same_trans (hdepends _ _ hsame hgraph.solves_solution) (hentails.agree _ hsolves))
  have hvar := hentails.right.same_var_of_fixed hfixed hoccurs
  obtain ⟨x, hx, -⟩ := Ty.same_var_iff.mp hvar
  rw [show changed id = .number from if_neg hid] at hx
  cases hx

/-- Solutions of either graph give solutions of the other, along functions between the variables
that undo one another on the variables that count. -/
structure Corresponds (graph other : Classes) (D : Set VarId) (forth back : VarId → VarId) :
    Prop where
  isLocal : graph.Local D
  solves : ∀ σ, graph.Solves σ → other.Solves (σ ∘ back)
  solves_back : ∀ χ, other.Solves χ → graph.Solves (χ ∘ forth)
  back_forth : ∀ id ∈ D, back (forth id) = id

section Corresponding

variable (hgraph : FirstOrderGraph graph) (hother : FirstOrderGraph other)
  (hcorresponds : graph.Corresponds other D forth back)
include hgraph hother hcorresponds

theorem Corresponds.exists_variable {id : VarId} (hid : id ∈ graph.unknowns ∩ D) :
    ∃ y : Variable, other.facts.solution (forth id) = .var y ∧
      (Ty.var ⟨id, ""⟩).same (graph.facts.solution (back y.id)) = true := by
  have hsolves := hcorresponds.solves _ hgraph.solves_solution
  have hentails := hother.entails_reduction (.var ⟨forth id, ""⟩)
  have hsame : (graph.facts.solution (back (forth id))).same
      ((other.reduction (.var ⟨forth id, ""⟩)).apply (graph.facts.solution ∘ back)) = true :=
    hentails.agree _ hsolves
  rw [hcorresponds.back_forth id hid.2, solution_of_unknown hid.1, ← hother.solution_eq] at hsame
  have hfirst := hentails.right
  rw [← hother.solution_eq] at hfirst
  obtain ⟨x, hx, -⟩ := Ty.same_var_iff.mp hsame
  generalize other.facts.solution (forth id) = found at hfirst hsame hx
  obtain ⟨y, rfl⟩ := hfirst.exists_var_of_apply hx
  exact ⟨y, rfl, hsame⟩

/-- **Corresponding graphs reduce corresponding types alike, up to a renaming of the variables that
are left.** -/
theorem Corresponds.exists_renaming : ∃ ρ, Set.InjOn ρ (graph.unknowns ∩ D) ∧
    ∀ t u : Ty, t.FirstOrder → u.FirstOrder → graph.Depends D t →
      (∀ χ, other.Solves χ → (u.apply χ).same (t.apply (χ ∘ forth)) = true) →
      Ty.Renamed ρ (graph.unknowns ∩ D) (graph.reduction t) (other.reduction u) := by
  have hvariable : ∀ id ∈ graph.unknowns ∩ D, ∃ y : Variable,
      other.facts.solution (forth id) = .var y ∧
        (Ty.var ⟨id, ""⟩).same (graph.facts.solution (back y.id)) = true :=
    fun _ hid => hcorresponds.exists_variable hgraph hother hid
  choose! y hsolution hvar using hvariable
  refine ⟨fun id => (y id).id, ?_, fun t u ht hu hdepends hcorresponding => ?_⟩
  · intro id hid id' hid' (heq : (y id).id = (y id').id)
    have hleft := hvar id hid
    rw [heq] at hleft
    obtain ⟨x, hx, hxid⟩ := Ty.same_var_iff.mp (Ty.same_trans hleft (Ty.same_symm (hvar id' hid')))
    cases hx
    exact hxid
  · have hover : (graph.reduction t).Over (graph.unknowns ∩ D) :=
      fun id hoccurs => ⟨hgraph.over_unknowns t id hoccurs,
        hgraph.over_of_depends hcorresponds.isLocal ht hdepends id hoccurs⟩
    have hentails := hgraph.entails_reduction ht
    have hsolves := hcorresponds.solves_back _ hother.solves_solution
    have hrename : ((graph.reduction t).apply (other.facts.solution ∘ forth)).same
        ((graph.reduction t).rename fun id => (y id).id) = true := by
      refine hentails.right.same_rename_of_apply hover fun id hid hint => ?_
      rw [Function.comp_apply, hsolution id hid]
      exact Ty.same_var_iff.mpr ⟨_, rfl, rfl⟩
    refine ⟨hover, Ty.same_trans (Ty.same_symm (hother.same_apply_solution hu)) ?_⟩
    exact Ty.same_trans (hcorresponding _ hother.solves_solution)
      (Ty.same_trans (hentails.agree _ hsolves) hrename)

end Corresponding

/-! ### Copies -/

section Copies

variable {S : Set VarId} {here copy : List VarId} {states : (VarId → Ty) → List Ty → Ty → Prop}
  {links : (VarId → Ty) → Prop}

/-- What is stated of the variables `here` can be stated of their copies. What more is stated there,
the links, is true of all copies. -/
structure Copy (S : Set VarId) (here copy : List VarId) (back : VarId → VarId)
    (states : (VarId → Ty) → List Ty → Ty → Prop) (links : (VarId → Ty) → Prop) : Prop where
  congr : ∀ σ σ' values s, Set.EqOn σ σ' S → states σ values s → states σ' values s
  nodup : here.Nodup
  length_eq : here.length = copy.length
  new : ∀ v ∈ here, v ∉ S
  old : ∀ v ∈ S, back v = v
  map_back : copy.map back = here
  linked : ∀ σ, links (σ ∘ back)

variable (hcopy : Copy S here copy back states links)
include hcopy

theorem Copy.states_copy {σ : VarId → Ty} {s : Ty} (hstates : states σ (here.map σ) s) :
    states (σ ∘ back) (copy.map (σ ∘ back)) s ∧ links (σ ∘ back) := by
  refine ⟨hcopy.congr σ _ _ _ (fun v hv => ?_) ?_, hcopy.linked σ⟩
  · rw [Function.comp_apply, hcopy.old v hv]
  · rwa [← map_map, hcopy.map_back]

theorem Copy.forth_of_mem {v : VarId} (hv : v ∈ S) : override here copy id v = v :=
  override_of_not_mem fun hmem => hcopy.new v hmem hv

theorem Copy.map_forth : here.map (override here copy id) = copy :=
  map_override hcopy.nodup hcopy.length_eq

section Graphs

variable (hsolves : ∀ σ s, states σ (here.map σ) s ↔
    graph.Solves σ ∧ s.same (t.apply σ) = true)
  (hcopied : ∀ χ s, (states χ (copy.map χ) s ∧ links χ) ↔
    other.Solves χ ∧ s.same (u.apply χ) = true)
include hsolves

theorem Copy.solves_congr {σ σ' : VarId → Ty} (heq : Set.EqOn σ σ' (S ∪ {v | v ∈ here}))
    (hσ : graph.Solves σ) : graph.Solves σ' ∧ (t.apply σ).same (t.apply σ') = true := by
  have hstates := (hsolves σ _).mpr ⟨hσ, Ty.same_refl (t.apply σ)⟩
  rw [map_congr_left fun v hv => heq (.inr hv)] at hstates
  exact (hsolves σ' _).mp (hcopy.congr σ σ' _ _ (heq.mono Set.subset_union_left) hstates)

include hcopied

theorem Copy.solves_back {χ : VarId → Ty} (hχ : other.Solves χ) :
    graph.Solves (χ ∘ override here copy id) ∧
      (u.apply χ).same (t.apply (χ ∘ override here copy id)) = true := by
  obtain ⟨hstates, -⟩ := (hcopied χ _).mpr ⟨hχ, Ty.same_refl (u.apply χ)⟩
  refine (hsolves _ _).mp (hcopy.congr χ _ _ _ (fun v hv => ?_) ?_)
  · rw [Function.comp_apply, hcopy.forth_of_mem hv]
  · rwa [← map_map, hcopy.map_forth]

theorem Copy.corresponds :
    graph.Corresponds other (S ∪ {v | v ∈ here}) (override here copy id) back where
  isLocal _ _ heq hσ := (hcopy.solves_congr hsolves heq hσ).1
  solves σ hσ := by
    have hstates := (hsolves σ _).mpr ⟨hσ, Ty.same_refl (t.apply σ)⟩
    exact ((hcopied _ _).mp (hcopy.states_copy hstates)).1
  solves_back _ hχ := (hcopy.solves_back hsolves hcopied hχ).1
  back_forth := by
    rintro v (hv | hv)
    · rw [hcopy.forth_of_mem hv, hcopy.old v hv]
    · have hmap : here.map (back ∘ override here copy id) = here.map id := by
        rw [← map_map, hcopy.map_forth, hcopy.map_back, map_id]
      exact map_inj_left.mp hmap v hv

theorem Copy.exists_renaming (hgraph : FirstOrderGraph graph) (hother : FirstOrderGraph other)
    (ht : t.FirstOrder) (hu : u.FirstOrder) :
    ∃ ρ V, Set.InjOn ρ V ∧ Ty.Renamed ρ V (graph.reduction t) (other.reduction u) ∧
      ∀ v : Variable, v.id ∈ S →
        Ty.Renamed ρ V (graph.reduction (.var v)) (other.reduction (.var v)) := by
  obtain ⟨ρ, hinj, hrenamed⟩ := (hcopy.corresponds hsolves hcopied).exists_renaming hgraph hother
  refine ⟨ρ, _, hinj, hrenamed t u ht hu ?_ ?_, fun v hv => ?_⟩
  · exact fun σ σ' heq hσ => (hcopy.solves_congr hsolves heq hσ).2
  · exact fun χ hχ => (hcopy.solves_back hsolves hcopied hχ).2
  · refine hrenamed _ _ (.var v) (.var v) (fun σ σ' heq _ => ?_) fun χ _ => ?_
    · change (σ v.id).same (σ' v.id) = true
      rw [heq (.inl hv)]
      exact Ty.same_refl _
    · change (χ v.id).same (χ (override here copy id v.id)) = true
      rw [hcopy.forth_of_mem hv]
      exact Ty.same_refl _

end Graphs

end Copies

end Classes

end TypeSearch
