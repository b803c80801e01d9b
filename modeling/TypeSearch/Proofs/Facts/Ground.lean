import TypeSearch.Classes.Build
import TypeSearch.Proofs.Facts.MostGeneral

/-!
# Types without variables

Whether two types without variables unify, and to which type, does not depend on facts, and nothing
is learnt from it. `Ty.meet?` is this unification. Among types without unions and `Void` it is
equality. A union meets a type as the first of its members that meets it.
-/

namespace TypeSearch

open List

variable {ts members : List Ty} {t : Ty} {depth : Nat}

namespace Ty

variable {t u : Ty}

abbrev Ground (t : Ty) : Prop := t.Over ∅

theorem Ground.component {component : Ty} (ht : t.Ground) (hcomponent : component ∈ t.components) :
    component.Ground :=
  (over_iff_components (isVariable_eq_false_of_mem hcomponent)).mp ht component hcomponent

theorem Ground.ne_var (ht : t.Ground) (v : Variable) : t ≠ .var v := by
  rintro rfl
  exact ht v.id (occurs_var_iff.mpr rfl)

theorem eq_of_forall₂_same {us : List Ty} (hts : ∀ t ∈ ts, ∀ u, same t u = true → t = u)
    (hsame : Forall₂ (fun t u => same t u = true) ts us) : ts = us :=
  (congrFun (congrFun forall₂_eq_eq_eq ts) us).mp (forall₂_of_same hts hsame)

theorem Ground.eq_of_same (ht : t.Ground) (hsame : same t u = true) : t = u := by
  induction t using inductBuild generalizing u with
  | var v => exact absurd rfl (ht.ne_var v)
  | build head ts ih =>
    obtain ⟨us, rfl, hus⟩ := (same_build_iff head).mp hsame
    rw [eq_of_forall₂_same (fun t hmem _ => ih t hmem (over_build_iff.mp ht t hmem)) hus]

theorem Ground.apply_eq (ht : t.Ground) (hfirst : t.FirstOrder) (σ : VarId → Ty) :
    t.apply σ = t := by
  induction t using inductBuild with
  | var v => exact absurd rfl (ht.ne_var v)
  | build head ts ih =>
    rw [hfirst.apply_build, map_congr_left fun t hmem =>
      ih t hmem (over_build_iff.mp ht t hmem) (hfirst.of_build t hmem), map_id']

end Ty

namespace Facts

variable {α β : Type} {facts facts' : Facts} {step step' : Step} {lefts rights : List Ty}
  {left right : Ty} {build : List Ty → Ty}

/-- Unless the first computation halts, it learns nothing and the second one, which starts from
other facts, ends in the same way. -/
def Alike (facts facts' : Facts) :
    Outcome Mismatch (α × Facts) → Outcome Mismatch (α × Facts) → Prop
  | .ok (value, next), other => next = facts ∧ other = .ok (value, facts')
  | .failed mismatch, other => other = .failed mismatch
  | .halted _, _ => True

theorem Alike.cases {first second : Outcome Mismatch (α × Facts)}
    (halike : Alike facts facts' first second) :
    (∃ value, first = .ok (value, facts) ∧ second = .ok (value, facts')) ∨
      (∃ mismatch, first = .failed mismatch ∧ second = .failed mismatch) ∨
        ∃ cause, first = .halted cause := by
  cases first with
  | ok result =>
    obtain ⟨rfl, hother⟩ := halike
    exact .inl ⟨result.1, rfl, hother⟩
  | failed mismatch => exact .inr (.inl ⟨mismatch, rfl, halike⟩)
  | halted cause => exact .inr (.inr ⟨cause, rfl⟩)

theorem Alike.bind {first second : Outcome Mismatch (α × Facts)}
    {next next' : α × Facts → Outcome Mismatch (β × Facts)}
    (halike : Alike facts facts' first second)
    (hnext : ∀ value, first = .ok (value, facts) →
      Alike facts facts' (next (value, facts)) (next' (value, facts'))) :
    Alike facts facts' (first >>= next) (second >>= next') := by
  rcases halike.cases with ⟨value, rfl, rfl⟩ | ⟨mismatch, rfl, rfl⟩ | ⟨cause, rfl⟩
  · exact hnext value rfl
  · exact rfl
  · trivial

def StepAlike (step step' : Step) : Prop :=
  ∀ ⦃left right : Ty⦄ (facts facts' : Facts), left.Ground → right.Ground →
    Alike facts facts' (step left right facts) (step' left right facts')

theorem StepAlike.unifyPairwise (hstep : StepAlike step step') (hlefts : ∀ t ∈ lefts, t.Ground)
    (hrights : ∀ t ∈ rights, t.Ground) :
    Alike facts facts' (unifyPairwise step lefts rights facts)
      (Facts.unifyPairwise step' lefts rights facts') := by
  induction lefts generalizing rights with
  | nil => exact ⟨rfl, rfl⟩
  | cons left lefts ih =>
    cases rights with
    | nil => exact ⟨rfl, rfl⟩
    | cons right rights =>
      rw [forall_mem_cons] at hlefts hrights
      refine (hstep facts facts' hlefts.1 hrights.1).bind fun t _ => ?_
      exact (ih hlefts.2 hrights.2).bind fun ts _ => ⟨rfl, rfl⟩

theorem Alike.unifyFirst {attempt attempt' : Ty → Outcome Mismatch (Ty × Facts)}
    {otherwise : Mismatch}
    (hattempt : ∀ member ∈ members, Alike facts facts' (attempt member) (attempt' member)) :
    Alike facts facts' (unifyFirst attempt otherwise members)
      (Facts.unifyFirst attempt' otherwise members) := by
  induction members with
  | nil => exact rfl
  | cons member members ih =>
    rw [forall_mem_cons] at hattempt
    rw [Facts.unifyFirst, Facts.unifyFirst]
    rcases hattempt.1.cases with ⟨t, hok, hok'⟩ | ⟨_, hfailed, hfailed'⟩ | ⟨_, hhalted⟩
    · rw [hok, hok']
      exact ⟨rfl, rfl⟩
    · rw [hfailed, hfailed']
      exact ih hattempt.2
    · rw [hhalted]
      trivial

section Step

variable (hstep : StepAlike step step')
include hstep

theorem StepAlike.unifyInto {candidate : Ty} (hcandidate : candidate.Ground)
    (hmembers : ∀ t ∈ members, t.Ground) :
    Alike facts facts' (unifyInto step candidate facts members)
      (Facts.unifyInto step' candidate facts' members) := by
  induction members with
  | nil => exact ⟨rfl, rfl⟩
  | cons member members ih =>
    rw [forall_mem_cons] at hmembers
    rw [Facts.unifyInto, Facts.unifyInto]
    rcases (hstep facts facts' hmembers.1 hcandidate).cases with
      ⟨t, hok, hok'⟩ | ⟨_, hfailed, hfailed'⟩ | ⟨_, hhalted⟩
    · rw [hok, hok']
      exact ⟨rfl, rfl⟩
    · rw [hfailed, hfailed']
      exact (ih hmembers.2).bind fun rest _ => ⟨rfl, rfl⟩
    · rw [hhalted]
      trivial

theorem StepAlike.unifyMembers (hgrows : StepGrows step) {candidates : List Ty}
    (hmembers : ∀ t ∈ members, t.Ground) (hcandidates : ∀ t ∈ candidates, t.Ground) :
    Alike facts facts' (unifyMembers step members candidates facts)
      (Facts.unifyMembers step' members candidates facts') := by
  induction candidates generalizing members with
  | nil => exact ⟨rfl, rfl⟩
  | cons candidate candidates ih =>
    rw [forall_mem_cons] at hcandidates
    refine (hstep.unifyInto hcandidates.1 hmembers).bind fun widened hinto => ?_
    have hclosed : facts.Closed ∅ := fun v hv => hv.elim
    obtain ⟨-, hwidened⟩ := hgrows.carries.unifyInto ⟨hclosed, hcandidates.1⟩
      (fun t ht => ⟨hclosed, hmembers t ht⟩) hinto
    exact ih (fun t ht => (hwidened t ht).2) hcandidates.2

theorem StepAlike.unifyParams (hlefts : ∀ t ∈ lefts, t.Ground) (hrights : ∀ t ∈ rights, t.Ground) :
    Alike facts facts' (unifyParams step left right build lefts rights facts)
      (Facts.unifyParams step' left right build lefts rights facts') := by
  rw [Facts.unifyParams, Facts.unifyParams]
  split
  · exact rfl
  · rcases (hstep.unifyPairwise hlefts hrights).cases with
      ⟨ts, hok, hok'⟩ | ⟨_, hfailed, hfailed'⟩ | ⟨_, hhalted⟩
    · rw [hok, hok']
      exact ⟨rfl, rfl⟩
    · rw [hfailed, hfailed']
      exact rfl
    · rw [hhalted]
      trivial

theorem StepAlike.unifyResolved (hgrows : StepGrows step) (hleft : left.Ground)
    (hright : right.Ground) : Alike facts facts' (unifyResolved step left right facts)
      (Facts.unifyResolved step' left right facts') := by
  have hlefts : ∀ t ∈ left.components, t.Ground := fun t => hleft.component
  have hrights : ∀ t ∈ right.components, t.Ground := fun t => hright.component
  cases left with
  | var v => exact absurd rfl (hleft.ne_var v)
  | union lefts =>
    cases right with
    | var w => exact absurd rfl (hright.ne_var w)
    | union rights =>
      exact (hstep.unifyMembers hgrows hlefts hrights).bind fun members _ => ⟨rfl, rfl⟩
    | parametric | curried =>
      exact .unifyFirst fun member hmember => hstep facts facts' (hlefts member hmember) hright
  | parametric name lefts =>
    cases right with
    | var w => exact absurd rfl (hright.ne_var w)
    | union rights =>
      exact .unifyFirst fun member hmember => hstep facts facts' hleft (hrights member hmember)
    | parametric name' rights =>
      simp only [Facts.unifyResolved]
      split
      · exact rfl
      · exact hstep.unifyParams hlefts hrights
    | curried rights => exact rfl
  | curried lefts =>
    cases right with
    | var w => exact absurd rfl (hright.ne_var w)
    | union rights =>
      exact .unifyFirst fun member hmember => hstep facts facts' hleft (hrights member hmember)
    | parametric name rights => exact rfl
    | curried rights =>
      exact hstep.unifyParams (fun t ht => hlefts t (Ty.mem_of_mem_dropVoid ht))
        fun t ht => hrights t (Ty.mem_of_mem_dropVoid ht)

end Step

theorem resolveTop_of_ground {ε : Type} (ht : t.Ground) (facts : Facts) :
    facts.resolveTop t = (.ok t : Outcome ε Ty) := by
  cases t with
  | var v => exact absurd rfl (ht.ne_var v)
  | _ => rfl

theorem unifyWithin_ground (hleft : left.Ground) (hright : right.Ground) (depth : Nat)
    (facts : Facts) :
    unifyWithin (depth + 1) left right facts =
      unifyResolved (unifyWithin depth) left right facts := by
  rw [unifyWithin, resolveTop_of_ground hleft, resolveTop_of_ground hright]
  rfl

/-- On ground types more depth or other facts change no answer, and no fact is added. -/
theorem stepAlike_unifyWithin {more : Nat} (hle : depth ≤ more) :
    StepAlike (unifyWithin depth) (unifyWithin more) := by
  induction depth generalizing more with
  | zero => exact fun _ _ _ _ _ _ => trivial
  | succ depth ih =>
    intro left right facts facts' hleft hright
    obtain ⟨less, rfl⟩ := Nat.exists_eq_add_of_le' (Nat.le_of_add_left_le hle)
    rw [unifyWithin_ground hleft hright, unifyWithin_ground hleft hright]
    exact (ih (Nat.le_of_add_le_add_right hle)).unifyResolved (stepGrows_unifyWithin depth) hleft
      hright

/-! ### Types that do not refuse themselves -/

def StepAdmits (step : Step) : Prop :=
  ∀ ⦃t : Ty⦄ (facts : Facts), t.Ground → ∀ mismatch, step t t facts ≠ .failed mismatch

theorem StepAdmits.unifyPairwise (hadmits : StepAdmits step) (hts : ∀ t ∈ ts, t.Ground)
    (facts : Facts) (mismatch : Mismatch) : unifyPairwise step ts ts facts ≠ .failed mismatch := by
  induction ts generalizing facts with
  | nil => nofun
  | cons t ts ih =>
    rw [forall_mem_cons] at hts
    refine Outcome.bind_ne_failed (hadmits facts hts.1 mismatch) fun found hrest => ?_
    exact ih hts.2 found.2 (Outcome.failed_of_bind_pure hrest)

theorem unifyInto_ne_failed (candidate : Ty) (facts : Facts) (members : List Ty)
    (mismatch : Mismatch) : unifyInto step candidate facts members ≠ .failed mismatch := by
  intro hfailed
  induction members with
  | nil => cases hfailed
  | cons member members ih =>
    rw [unifyInto] at hfailed
    split at hfailed
    · cases hfailed
    · exact ih (Outcome.failed_of_bind_pure hfailed)
    · cases hfailed

theorem unifyMembers_ne_failed (members candidates : List Ty) (facts : Facts)
    (mismatch : Mismatch) : unifyMembers step members candidates facts ≠ .failed mismatch := by
  induction candidates generalizing members facts with
  | nil => nofun
  | cons candidate candidates ih =>
    exact Outcome.bind_ne_failed (unifyInto_ne_failed candidate facts members mismatch)
      fun found => ih found.1 found.2

theorem StepAdmits.unifyParams (hadmits : StepAdmits step) (hts : ∀ t ∈ ts, t.Ground)
    (facts : Facts) (mismatch : Mismatch) :
    unifyParams step t t build ts ts facts ≠ .failed mismatch := by
  rw [Facts.unifyParams, if_neg (by simp)]
  cases hcase : Facts.unifyPairwise step ts ts facts with
  | ok result => nofun
  | failed other => exact absurd hcase (hadmits.unifyPairwise hts facts other)
  | halted cause => nofun

theorem stepAdmits_unifyWithin (depth : Nat) : StepAdmits (unifyWithin depth) := by
  induction depth with
  | zero => exact fun _ _ _ _ => nofun
  | succ depth ih =>
    intro t facts ht mismatch
    have hcomponents : ∀ component ∈ t.components, component.Ground := fun component => ht.component
    rw [unifyWithin_ground ht ht]
    cases t with
    | var v => exact absurd rfl (ht.ne_var v)
    | parametric name params =>
      simp only [unifyResolved, ne_eq, not_true_eq_false, if_false]
      exact ih.unifyParams hcomponents facts mismatch
    | curried params =>
      exact ih.unifyParams (fun t hmem => hcomponents t (Ty.mem_of_mem_dropVoid hmem)) facts
        mismatch
    | union members =>
      exact fun hfailed =>
        unifyMembers_ne_failed _ _ _ _ (Outcome.failed_of_bind_pure hfailed)

end Facts

/-! ### Meeting types -/

namespace Ty

open Facts

variable {t u r : Ty}

/-- The type that comes of unifying two types when nothing is known, if they unify. -/
def meet? (t u : Ty) : Option Ty :=
  match unify t u Facts.empty with
  | .ok (r, _) => some r
  | _ => none

theorem unifyDepth_le (t u : Ty) (facts : Facts) :
    unifyDepth t u Facts.empty ≤ unifyDepth t u facts := by
  apply Nat.pow_le_pow_right (by decide)
  have hweight : Facts.empty.weight = 0 := rfl
  omega

theorem unifyWithin_cases (ht : t.Ground) (hu : u.Ground)
    (hdepth : unifyDepth t u Facts.empty ≤ depth) (facts : Facts) :
    (∃ r, meet? t u = some r ∧ unifyWithin depth t u facts = .ok (r, facts)) ∨
      meet? t u = none ∧ ∃ mismatch, unifyWithin depth t u facts = .failed mismatch := by
  have halike := stepAlike_unifyWithin hdepth Facts.empty facts ht hu
  have hends := acyclic_empty.unify_ends t u
  unfold meet?
  unfold unify at hends ⊢
  cases hcase : unifyWithin (unifyDepth t u Facts.empty) t u Facts.empty with
  | ok result =>
    rw [hcase] at halike
    exact .inl ⟨result.1, rfl, halike.2⟩
  | failed mismatch =>
    rw [hcase] at halike
    exact .inr ⟨rfl, mismatch, halike⟩
  | halted cause =>
    rw [hcase] at hends
    exact hends.elim

theorem meet?_self (ht : t.Ground) : ∃ r, meet? t t = some r := by
  rcases unifyWithin_cases ht ht le_rfl Facts.empty with ⟨r, hmeet, -⟩ | ⟨-, mismatch, hfailed⟩
  · exact ⟨r, hmeet⟩
  · exact absurd hfailed (stepAdmits_unifyWithin _ Facts.empty ht mismatch)

theorem meet?_eq_some_iff (ht : t.Ground) (hu : u.Ground) (htf : t.FirstOrder)
    (huf : u.FirstOrder) : meet? t u = some r ↔ u = t ∧ r = t := by
  have hequal : ∀ {u r}, u.Ground → u.FirstOrder → meet? t u = some r → u = t ∧ r = t := by
    intro u r hu huf hmeet
    rcases unifyWithin_cases ht hu le_rfl Facts.empty with ⟨r', hmeet', hok⟩ | ⟨hnone, -⟩
    · obtain rfl := Option.some.inj (hmeet'.symm.trans hmeet)
      have hplain : Facts.empty.Plain Set.univ := fun _ _ _ => nofun
      have hanswers := unify_answers (σ := fun v => .var ⟨v, ""⟩) hplain htf.plain huf.plain
      have hclosed : Facts.empty.Closed ∅ := fun v hv => hv.elim
      have hr : r'.Ground := (grows_of_unify hclosed ht hu hok).2
      rw [unify, hok] at hanswers
      have hsolves : Facts.empty.SolvesOn Set.univ fun v => .var ⟨v, ""⟩ := fun _ _ _ => nofun
      have hagree := (hanswers.solves_iff.mp hsolves).2
      have hagree' := hanswers.agree hsolves
      rw [Agree, ht.apply_eq htf] at hagree hagree'
      rw [hu.apply_eq huf] at hagree
      rw [hr.apply_eq hanswers.type_plain.firstOrder] at hagree'
      exact ⟨(ht.eq_of_same hagree).symm, hr.eq_of_same hagree'⟩
    · cases hnone.symm.trans hmeet
  refine ⟨hequal hu huf, ?_⟩
  rintro ⟨rfl, rfl⟩
  obtain ⟨r, hmeet⟩ := meet?_self ht
  rw [hmeet, (hequal ht htf hmeet).2]

theorem unifyFirst_eq_findSome?
    (hdepth : ∀ member ∈ members, unifyDepth member u Facts.empty ≤ depth)
    (hmembers : ∀ member ∈ members, member.Ground) (hu : u.Ground) (otherwise : Mismatch) :
    (match unifyFirst (fun member => unifyWithin depth member u Facts.empty) otherwise members with
      | .ok (r, _) => some r
      | _ => none) = members.findSome? (meet? · u) := by
  induction members with
  | nil => rfl
  | cons member members ih =>
    rw [forall_mem_cons] at hdepth hmembers
    rw [unifyFirst, findSome?_cons]
    rcases unifyWithin_cases hmembers.1 hu hdepth.1 Facts.empty with
      ⟨r, hmeet, hok⟩ | ⟨hmeet, mismatch, hfailed⟩
    · rw [hok, hmeet]
    · rw [hfailed, hmeet]
      exact ih hdepth.2 hmembers.2

theorem meet?_union (hmembers : (union members).Ground) (hu : u.Ground)
    (hunion : u.isUnion = false) : meet? (.union members) u = members.findSome? (meet? · u) := by
  obtain ⟨less, hless⟩ : ∃ less, unifyDepth (.union members) u Facts.empty = less + 1 :=
    Nat.exists_eq_add_of_le' (Nat.one_le_two_pow ..)
  have hresolved : unify (.union members) u Facts.empty =
      unifyFirst (fun member => unifyWithin less member u Facts.empty)
        { expected := .union members, actual := u } members := by
    rw [unify, hless, unifyWithin_ground hmembers hu]
    cases u with
    | var v => exact absurd rfl (hu.ne_var v)
    | union => cases hunion
    | parametric | curried => rfl
  rw [meet?, hresolved]
  refine unifyFirst_eq_findSome? (fun member hmember => ?_) (fun _ => hmembers.component) hu _
  have hsize : member.size < (union members).size := size_component_lt hmember
  rw [← Nat.lt_succ_iff, Nat.succ_eq_add_one, ← hless]
  exact Nat.pow_lt_pow_right (by decide) (by omega)

end Ty

namespace Classes

theorem unify_ground {u : Ty} (ht : t.Ground) (hu : u.Ground) (classes : Classes) :
    (∃ r, Ty.meet? t u = some r ∧ classes.unify t u = .ok (r, classes)) ∨
      Ty.meet? t u = none ∧ ∃ mismatch, classes.unify t u = .failed mismatch := by
  rcases Ty.unifyWithin_cases ht hu (Ty.unifyDepth_le t u classes.facts) classes.facts with
    ⟨r, hmeet, hok⟩ | ⟨hmeet, mismatch, hfailed⟩
  · refine .inl ⟨r, hmeet, ?_⟩
    rw [unify, Facts.unify, hok]
    exact if_pos rfl
  · refine .inr ⟨hmeet, mismatch, ?_⟩
    rw [unify, Facts.unify, hfailed]
    rfl

end Classes

end TypeSearch
