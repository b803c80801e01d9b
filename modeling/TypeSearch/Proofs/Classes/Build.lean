import TypeSearch.Proofs.Classes.Merge

/-!
# Building first-order graphs

Unification of types in classes absorbs what it finds out and never halts. Building graphs that were
made from first-order types in any way is their conjunction: the result has exactly the solutions
that all of them have, and building fails only if there are none. So the order of the graphs changes
neither success nor the solutions.
-/

namespace TypeSearch.Classes

variable {classes next : Classes} {plain : Prop} {a b : Ty}

section Unify

theorem WellFormed.unify_cases (hwf : classes.WellFormed) (hacyclic : classes.Acyclic) (a b : Ty) :
    (∃ mismatch, Facts.unify a b classes.facts = .failed mismatch ∧
        classes.unify a b = .failed mismatch) ∨
      ∃ unified grown next, Facts.unify a b classes.facts = .ok (unified, grown) ∧
        grown.Acyclic ∧ classes.unify a b = .ok (unified, next) ∧
        Reflects classes grown [] next := by
  have hfacts := hwf.acyclic_facts_iff.mpr hacyclic
  have hends := hfacts.unify_ends a b
  cases hunify : Facts.unify a b classes.facts with
  | failed mismatch =>
    refine .inl ⟨mismatch, rfl, ?_⟩
    rw [Classes.unify, hunify]
    rfl
  | halted cause => exact absurd hunify (hends.ne_halted cause)
  | ok result =>
    obtain ⟨unified, grown⟩ := result
    rw [hunify] at hends
    have hgrows : Facts.Grows Set.univ classes.facts grown := hends
    have hgrown := hgrows.acyclic hfacts
    right
    by_cases hsize : grown.size = classes.facts.size
    · obtain rfl := hgrows.eq_of_size_eq hsize
      refine ⟨unified, _, classes, rfl, hgrown, ?_, hwf.reflects_facts⟩
      rw [Classes.unify, hunify]
      exact if_pos rfl
    · obtain ⟨last, habsorb, hreflects⟩ := hwf.absorb (meet (classes.weight + grown.weight))
        ⟨fun _ _ => hgrows.find?_eq_some, fun _ => Iff.rfl, fun _ _ => rfl⟩ hgrows
        hwf.nodup_keys_facts hgrown
      obtain ⟨hrefreshed, halike⟩ := hreflects.wellFormed.refresh
      refine ⟨unified, grown, last.refresh, rfl, hgrown, ?_,
        hreflects.congr hrefreshed halike.root halike.concrete?⟩
      rw [Classes.unify, hunify]
      refine (if_neg hsize).trans ?_
      rw [habsorb]
      rfl

/-- **Unification in classes.** It never halts, and it enforces that the two types are equal. -/
theorem Sound.unify (hsound : Sound plain classes) (ha : plain → a.FirstOrder)
    (hb : plain → b.FirstOrder) :
    (classes.unify a b).Settles False
      (fun result => Adds plain classes (fun σ => Ty.Agree σ a b) result.2)
      (plain → ∀ σ, ¬ (classes.Solves σ ∧ Ty.Agree σ a b)) := by
  have hwf := hsound.wellFormed
  have hanswers := fun hplain σ => Facts.unify_answers (σ := σ)
    (Facts.plain_univ_iff.mpr (hwf.firstOrder_facts (hsound.firstOrder hplain)))
    (ha hplain).plain (hb hplain).plain
  rcases hwf.unify_cases hsound.acyclic a b with
    ⟨mismatch, hunify, hfailed⟩ | ⟨unified, grown, next, hunify, hgrown, hok, hreflects⟩
  · rw [hfailed]
    intro hplain σ
    have hrefused := hanswers hplain σ
    rw [hunify] at hrefused
    rwa [← hwf.solves_facts_iff, ← Facts.solvesOn_univ_iff]
  · rw [hok]
    simp only [hunify] at hanswers
    refine hreflects.adds hgrown (fun hplain => ?_) ?_ fun hplain σ => ?_
    · exact Facts.plain_univ_iff.mp (hanswers hplain fun v => .var ⟨v, ""⟩).facts_plain
    · exact fun hplain id u hu => (hsound.firstOrder hplain id u hu).2
    · have hsolves := (hanswers hplain σ).solves_iff
      rwa [Facts.solvesOn_univ_iff, Facts.solvesOn_univ_iff, hwf.solves_facts_iff] at hsolves

end Unify

section Conjunction

/-- Graphs made from none by unification of first-order types and by building. -/
inductive FirstOrderGraph : Classes → Prop
  | empty : FirstOrderGraph empty
  | unify {classes next : Classes} {a b t : Ty} (hgraph : FirstOrderGraph classes)
      (ha : a.FirstOrder) (hb : b.FirstOrder) (hunify : classes.unify a b = .ok (t, next)) :
      FirstOrderGraph next
  | equate {classes next : Classes} {a b : Ty} (hgraph : FirstOrderGraph classes)
      (ha : a.FirstOrder) (hb : b.FirstOrder) (hequate : classes.equate a b = .ok next) :
      FirstOrderGraph next
  | build {graphs : List (Option Classes)} {next : Classes}
      (hgraphs : ∀ graph, some graph ∈ graphs → FirstOrderGraph graph)
      (hbuild : build graphs = .ok next) : FirstOrderGraph next

theorem mergeEnforces_merge : MergeEnforces True True merge := fun _ _ hsound hsource =>
  hsound.mergeWith (fun _ _ _ _ hmeeting => hmeeting.enforces trivial _) hsource

theorem Sound.adds_of_unify_eq_ok (hsound : Sound plain classes) (ha : plain → a.FirstOrder)
    (hb : plain → b.FirstOrder) {t : Ty} (hunify : classes.unify a b = .ok (t, next)) :
    Adds plain classes (fun σ => Ty.Agree σ a b) next := by
  have hsettles := hsound.unify ha hb
  rwa [hunify] at hsettles

theorem unify_of_equate (hequate : classes.equate a b = .ok next) :
    ∃ t, classes.unify a b = .ok (t, next) := by
  obtain ⟨⟨t, last⟩, hunify, hlast⟩ := Outcome.bind_eq_ok hequate
  cases hlast
  exact ⟨t, hunify⟩

theorem FirstOrderGraph.sound (hgraph : FirstOrderGraph classes) : Sound True classes := by
  induction hgraph with
  | empty => exact sound_empty True
  | unify _ ha hb hunify ih =>
    exact (ih.adds_of_unify_eq_ok (fun _ => ha) (fun _ => hb) hunify).toSound
  | equate _ ha hb hequate ih =>
    obtain ⟨t, hunify⟩ := unify_of_equate hequate
    exact (ih.adds_of_unify_eq_ok (fun _ => ha) (fun _ => hb) hunify).toSound
  | build _ hbuild ih =>
    have hsettles := buildWith_settles mergeEnforces_merge ih
    rw [← build_eq, hbuild] at hsettles
    exact hsettles.1

theorem Sound.exists_solution (hsound : Sound True classes) : ∃ σ, classes.Solves σ := by
  have hwf := hsound.wellFormed
  refine ⟨classes.facts.solution, hwf.solves_facts_iff.mp ?_⟩
  exact (hwf.acyclic_facts_iff.mpr hsound.acyclic).solves_solution
    (hwf.firstOrder_facts (hsound.firstOrder trivial))

def SolvesAll (σ : VarId → Ty) (graphs : List (Option Classes)) : Prop :=
  ∀ graph, some graph ∈ graphs → graph.Solves σ

variable {graphs : List (Option Classes)}

theorem solves_build_iff (hgraphs : ∀ graph, some graph ∈ graphs → FirstOrderGraph graph)
    (hbuild : build graphs = .ok next) (σ : VarId → Ty) : next.Solves σ ↔ SolvesAll σ graphs := by
  have hsettles := buildWith_settles mergeEnforces_merge
    fun graph hmem => (hgraphs graph hmem).sound
  rw [← build_eq, hbuild] at hsettles
  exact hsettles.2 trivial σ

theorem exists_build_iff (hgraphs : ∀ graph, some graph ∈ graphs → FirstOrderGraph graph) :
    (∃ next, build graphs = .ok next) ↔ ∃ σ, SolvesAll σ graphs := by
  have hsettles := buildWith_settles mergeEnforces_merge
    fun graph hmem => (hgraphs graph hmem).sound
  rw [← build_eq] at hsettles
  constructor
  · rintro ⟨next, hbuild⟩
    rw [hbuild] at hsettles
    obtain ⟨σ, hsolves⟩ := hsettles.1.exists_solution
    exact ⟨σ, (solves_build_iff hgraphs hbuild σ).mp hsolves⟩
  · rintro ⟨σ, hsolves⟩
    cases hbuild : build graphs with
    | ok next => exact ⟨next, rfl⟩
    | failed mismatch =>
      rw [hbuild] at hsettles
      exact absurd hsolves (hsettles trivial σ)
    | halted cause =>
      rw [hbuild] at hsettles
      exact absurd hsolves (hsettles.2 trivial σ)

theorem exists_firstOrderGraph (ha : a.FirstOrder) (hb : b.FirstOrder)
    (hunify : ∃ result, Facts.unify a b Facts.empty = .ok result) :
    ∃ graph, FirstOrderGraph graph ∧ ∀ σ, graph.Solves σ ↔ Ty.Agree σ a b := by
  obtain ⟨result, hunify⟩ := hunify
  have hsound := sound_empty True
  rcases hsound.wellFormed.unify_cases hsound.acyclic a b with
    ⟨mismatch, hfailed, -⟩ | ⟨t, grown, next, -, -, hnext, -⟩
  · cases hfailed.symm.trans hunify
  · have hadds := hsound.adds_of_unify_eq_ok (fun _ => ha) (fun _ => hb) hnext
    refine ⟨next, .unify .empty ha hb hnext, fun σ => ?_⟩
    rw [hadds.solves_iff trivial, and_iff_right (solves_empty σ)]

/-- **Building is the conjunction of first-order graphs.** An answer has the solutions that all
graphs have, and there is a failure only if nothing solves all of them. Whether there is an answer,
and what solves it, does not depend on the order of the graphs. -/
theorem build_conjunction (graphs : List (Option Classes))
    (hgraphs : ∀ graph, some graph ∈ graphs → FirstOrderGraph graph) :
    (∀ next, build graphs = .ok next → ∀ σ, next.Solves σ ↔ SolvesAll σ graphs) ∧
      (∀ mismatch, build graphs = .failed mismatch → ∀ σ, ¬ SolvesAll σ graphs) ∧
      ((∃ next, build graphs = .ok next) ↔ ∃ σ, SolvesAll σ graphs) ∧
      ∀ others : List (Option Classes), others.Perm graphs →
        ((∃ next, build graphs = .ok next) ↔ ∃ last, build others = .ok last) ∧
        ∀ next last, build graphs = .ok next → build others = .ok last →
          ∀ σ, next.Solves σ ↔ last.Solves σ := by
  refine ⟨fun next => solves_build_iff hgraphs, fun mismatch hbuild σ hsolves => ?_,
    exists_build_iff hgraphs, fun others hperm => ?_⟩
  · obtain ⟨next, hnext⟩ := (exists_build_iff hgraphs).mpr ⟨σ, hsolves⟩
    rw [hbuild] at hnext
    cases hnext
  · have hothers : ∀ graph, some graph ∈ others → FirstOrderGraph graph :=
      fun graph hmem => hgraphs graph (hperm.mem_iff.mp hmem)
    have hsame : ∀ σ, SolvesAll σ graphs ↔ SolvesAll σ others := by
      intro σ
      simp only [SolvesAll, hperm.mem_iff]
    refine ⟨?_, fun next last hnext hlast σ => ?_⟩
    · rw [exists_build_iff hgraphs, exists_build_iff hothers]
      simp only [hsame]
    · rw [solves_build_iff hgraphs hnext, solves_build_iff hothers hlast, hsame]

theorem build_conjunction_of_lists :
    ∃ first second next, FirstOrderGraph first ∧ FirstOrderGraph second ∧
      build [some first, none, some second] = .ok next ∧
      ∀ σ, next.Solves σ ↔
        Ty.Agree σ (.var ⟨1, "a"⟩) (.list (.var ⟨2, "b"⟩)) ∧
          Ty.Agree σ (.var ⟨1, "a"⟩) (.list .number) := by
  have hlist : ∀ {t : Ty}, t.FirstOrder → (Ty.list t).FirstOrder := fun ht =>
    .parametric (by decide) (by simpa using ht)
  have hnumber : Ty.number.FirstOrder := .parametric (by decide) (by simp)
  obtain ⟨first, hfirst, hsolves⟩ := exists_firstOrderGraph (.var ⟨1, "a"⟩)
    (hlist (.var ⟨2, "b"⟩)) ⟨(.list (.var ⟨2, "b"⟩), ⟨[(1, .list (.var ⟨2, "b"⟩))]⟩), rfl⟩
  obtain ⟨second, hsecond, hsolves'⟩ := exists_firstOrderGraph (.var ⟨1, "a"⟩)
    (hlist hnumber) ⟨(.list .number, ⟨[(1, .list .number)]⟩), rfl⟩
  have hgraphs : ∀ graph, some graph ∈ [some first, none, some second] → FirstOrderGraph graph := by
    simp [hfirst, hsecond]
  have hall : ∀ σ, SolvesAll σ [some first, none, some second] ↔
      first.Solves σ ∧ second.Solves σ := by
    simp [SolvesAll]
  obtain ⟨hok, -, hexists, -⟩ := build_conjunction [some first, none, some second] hgraphs
  obtain ⟨next, hnext⟩ := hexists.mpr ⟨fun v => if v = 1 then .list .number else .number, by
    rw [hall, hsolves, hsolves']
    exact ⟨rfl, rfl⟩⟩
  refine ⟨first, second, next, hfirst, hsecond, hnext, fun σ => ?_⟩
  rw [hok next hnext, hall, hsolves, hsolves']

end Conjunction

end TypeSearch.Classes
