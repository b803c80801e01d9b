import TypeSearch.Proofs.Classes.Refinement

/-!
# The equations that a graph entails

A first-order graph entails that two types are equal if every one of its solutions makes them equal.
What it entails stays entailed by every graph with fewer solutions, so by all that are made of it
by unification and by building, and types that are entailed to be equal are equal once they are
reduced.
-/

namespace TypeSearch

open List

namespace Ty

theorem firstOrder_list {t : Ty} (ht : t.FirstOrder) : (Ty.list t).FirstOrder :=
  .parametric (by decide) (by simpa using ht)

theorem firstOrder_tuple {ts : List Ty} (hts : ∀ t ∈ ts, t.FirstOrder) : (Ty.tuple ts).FirstOrder :=
  .parametric (by decide) hts

theorem firstOrder_map {key value : Ty} (hkey : key.FirstOrder) (hvalue : value.FirstOrder) :
    (Ty.map key value).FirstOrder :=
  .parametric (by decide) (by simp [hkey, hvalue])

theorem firstOrder_boolean : Ty.boolean.FirstOrder := .parametric (by decide) nofun

end Ty

namespace Classes

variable {classes next last : Classes} {a b t u w : Ty}

def Narrows (classes next : Classes) : Prop := ∀ σ, next.Solves σ → classes.Solves σ

theorem Narrows.trans (hleft : Narrows classes next) (hright : Narrows next last) :
    Narrows classes last := fun σ hsolves => hleft σ (hright σ hsolves)

/-- All solutions of the graph make the two types, which are first-order, equal. -/
structure Entails (classes : Classes) (t u : Ty) : Prop where
  left : t.FirstOrder
  right : u.FirstOrder
  agree : ∀ σ, classes.Solves σ → Ty.Agree σ t u

theorem Entails.refl (ht : t.FirstOrder) : Entails classes t t :=
  ⟨ht, ht, fun _ _ => Ty.Agree.refl t⟩

theorem Entails.symm (hentails : Entails classes t u) : Entails classes u t :=
  ⟨hentails.right, hentails.left, fun σ hsolves => (hentails.agree σ hsolves).symm⟩

theorem Entails.trans (hleft : Entails classes t u) (hright : Entails classes u w) :
    Entails classes t w :=
  ⟨hleft.left, hright.right, fun σ hsolves =>
    (hleft.agree σ hsolves).trans (hright.agree σ hsolves)⟩

theorem Entails.mono (hentails : Entails classes t u) (hnarrows : Narrows classes next) :
    Entails next t u :=
  ⟨hentails.left, hentails.right, fun σ hsolves => hentails.agree σ (hnarrows σ hsolves)⟩

theorem entails_build (head : Ty.Head) {ts us : List Ty} (hfirst : (head.build ts).FirstOrder)
    (hall : Forall₂ (Entails classes) ts us) :
    Entails classes (head.build ts) (head.build us) := by
  have hus := hfirst.build fun u hu =>
    (exists_left_of_forall₂ hall hu).elim fun _ hentails => hentails.2.right
  refine ⟨hfirst, hus, fun σ hsolves => ?_⟩
  rw [Ty.Agree, hfirst.apply_build, hus.apply_build, Ty.same_build_iff]
  refine ⟨_, rfl, ?_⟩
  rw [forall₂_map_left_iff, forall₂_map_right_iff]
  exact hall.imp fun _ _ hentails => hentails.agree σ hsolves

theorem entails_curried {ts us : List Ty} (hall : Forall₂ (Entails classes) ts us) :
    Entails classes (.curried ts) (.curried us) :=
  entails_build .curried (.curried fun _ ht =>
    (exists_right_of_forall₂ hall ht).elim fun _ hentails => hentails.2.left) hall

/-! ### Adding equations -/

theorem FirstOrderGraph.unified (hgraph : FirstOrderGraph classes) (ha : a.FirstOrder)
    (hb : b.FirstOrder) (hunify : classes.unify a b = .ok (t, next)) :
    Narrows classes next ∧ Entails next a b ∧ Entails next t a := by
  have hsound := hgraph.sound
  have hadds := hsound.adds_of_unify_eq_ok (fun _ => ha) (fun _ => hb) hunify
  have hsolves : ∀ σ, next.Solves σ ↔ classes.Solves σ ∧ Ty.Agree σ a b := hadds.solves_iff trivial
  refine ⟨fun σ hnext => ((hsolves σ).mp hnext).1,
    ⟨ha, hb, fun σ hnext => ((hsolves σ).mp hnext).2⟩, ?_⟩
  rcases hsound.wellFormed.unify_cases hsound.acyclic a b with
    ⟨mismatch, -, hfailed⟩ | ⟨unified, grown, other, hfacts, -, hok, hreflects⟩
  · cases hunify.symm.trans hfailed
  · cases hunify.symm.trans hok
    have hanswers := fun σ => Facts.unify_answers (σ := σ)
      (Facts.plain_univ_iff.mpr (hsound.wellFormed.firstOrder_facts (hsound.firstOrder trivial)))
      ha.plain hb.plain
    simp only [hfacts] at hanswers
    refine ⟨(hanswers fun v => .var ⟨v, ""⟩).type_plain.1, ha, fun σ hnext => ?_⟩
    refine (hanswers σ).agree (Facts.solvesOn_univ_iff.mpr ?_)
    exact hreflects.solves_iff.mp hnext

theorem FirstOrderGraph.equated (hgraph : FirstOrderGraph classes) (ha : a.FirstOrder)
    (hb : b.FirstOrder) (hequate : classes.equate a b = .ok next) :
    Narrows classes next ∧ Entails next a b := by
  obtain ⟨t, hunify⟩ := unify_of_equate hequate
  obtain ⟨hnarrows, hentails, -⟩ := hgraph.unified ha hb hunify
  exact ⟨hnarrows, hentails⟩

theorem FirstOrderGraph.exists_equate (hgraph : FirstOrderGraph classes) (ha : a.FirstOrder)
    (hb : b.FirstOrder) {σ : VarId → Ty} (hsolves : classes.Solves σ) (hagree : Ty.Agree σ a b) :
    ∃ next, classes.equate a b = .ok next := by
  have hsettles := hgraph.sound.unify (fun _ => ha) fun _ => hb
  rw [Classes.equate]
  cases hunify : classes.unify a b with
  | ok result => exact ⟨result.2, rfl⟩
  | failed mismatch =>
    rw [hunify] at hsettles
    exact absurd ⟨hsolves, hagree⟩ (hsettles trivial σ)
  | halted cause =>
    rw [hunify] at hsettles
    exact hsettles.elim

theorem FirstOrderGraph.built (hclasses : FirstOrderGraph classes) (hlast : FirstOrderGraph last)
    (hbuild : Classes.build [some classes, some last] = .ok next) :
    FirstOrderGraph next ∧ Narrows classes next ∧ Narrows last next := by
  have hgraphs : ∀ graph, some graph ∈ [some classes, some last] → FirstOrderGraph graph := by
    intro graph hmem
    have hcase : graph = classes ∨ graph = last := by simpa using hmem
    rcases hcase with rfl | rfl
    · exact hclasses
    · exact hlast
  have hsolves := solves_build_iff hgraphs hbuild
  refine ⟨.build hgraphs hbuild, fun σ hnext => ?_, fun σ hnext => ?_⟩
  · exact (hsolves σ).mp hnext classes (by simp)
  · exact (hsolves σ).mp hnext last (by simp)

/-! ### Looking at types -/

section FirstOrderGraph

variable (hgraph : FirstOrderGraph classes)

include hgraph

theorem FirstOrderGraph.entails_resolve (ht : t.FirstOrder) :
    Entails classes t (classes.resolve t) := by
  cases ht with
  | parametric hname hparams => exact .refl (.parametric hname hparams)
  | curried hparams => exact .refl (.curried hparams)
  | var v =>
    have hwf := hgraph.sound.wellFormed
    rw [resolve, representative]
    by_cases hhas : classes.has v.id = true
    · rw [if_pos hhas]
      dsimp only
      have hroot : Entails classes (.var v) (.var (classes.variableAt (classes.root v.id))) := by
        refine ⟨.var v, .var _, fun σ hsolves => ?_⟩
        rw [Ty.Agree, Ty.apply_var, Ty.apply_var, hwf.variableAt_id]
        exact hsolves.root hwf v.id
      cases hconcrete : classes.concrete? (classes.root v.id) with
      | none => exact hroot
      | some u =>
        refine hroot.trans ⟨.var _, ?_, fun σ hsolves => ?_⟩
        · exact (hgraph.sound.firstOrder trivial _ u hconcrete).1
        · rw [Ty.Agree, Ty.apply_var, hwf.variableAt_id]
          exact hsolves.concrete? _ u hconcrete
    · rw [if_neg hhas]
      exact .refl (.var v)

/-! ### Reduced types -/

def reduction (classes : Classes) (t : Ty) : Ty :=
  match (classes.reduce t : Outcome Mismatch Ty) with
  | .ok r => r
  | _ => t

theorem FirstOrderGraph.reduce_eq (t : Ty) :
    classes.reduce t = (.ok (classes.reduction t) : Outcome Mismatch Ty) := by
  have hacyclic := hgraph.sound.wellFormed.acyclic_facts_iff.mpr hgraph.sound.acyclic
  obtain ⟨r, hr⟩ := hacyclic.exists_reduce t
  have hreduce : classes.reduce t = (.ok r : Outcome Mismatch Ty) := hr
  rw [reduction, hreduce]

theorem FirstOrderGraph.forall₂_reduce (ts : List Ty) :
    Forall₂ (fun t r => classes.facts.reduce t = (.ok r : Outcome Mismatch Ty)) ts
      (ts.map classes.reduction) := by
  rw [forall₂_map_right_iff, forall₂_same]
  exact fun t _ => hgraph.reduce_eq t

theorem FirstOrderGraph.reduction_build (head : Ty.Head)
    (ts : List Ty) :
    classes.reduction (head.build ts) = head.rebuild (ts.map classes.reduction) :=
  Outcome.ok.inj ((hgraph.reduce_eq _).symm.trans
    (Facts.reduce_build head (hgraph.forall₂_reduce ts)))

theorem FirstOrderGraph.reduction_parametric (name : String)
    (ts : List Ty) :
    classes.reduction (.parametric name ts) = .parametric name (ts.map classes.reduction) :=
  hgraph.reduction_build (.parametric name) ts

theorem FirstOrderGraph.same_of_entails
    (hentails : Entails classes t u) : (classes.reduction t).same (classes.reduction u) = true := by
  have hwf := hgraph.sound.wellFormed
  have hacyclic := hwf.acyclic_facts_iff.mpr hgraph.sound.acyclic
  have hsolves := hacyclic.solves_solution (hwf.firstOrder_facts (hgraph.sound.firstOrder trivial))
  refine hacyclic.same_of_agree hentails.left hentails.right (hentails.agree _ ?_)
    (hgraph.reduce_eq t) (hgraph.reduce_eq u)
  exact hwf.solves_facts_iff.mp hsolves

end FirstOrderGraph

end Classes

end TypeSearch
