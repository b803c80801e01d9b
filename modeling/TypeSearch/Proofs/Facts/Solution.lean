import TypeSearch.Proofs.Facts.Unification

/-!
# Solutions of facts

A substitution solves facts when it makes every variable equal to the type it stands for. On types
without unions and without `Void`, unification neither loses nor invents solutions: its answer is
solved exactly by the solutions of the given facts that make the two types equal, and it fails only
when there are none. All this is relative to a closed set `S` of variables, so that facts outside
of `S` play no part, and needs no assumption on cycles.
-/

namespace TypeSearch

open List

variable {t : Ty} {w : VarId}

namespace Ty

def apply (σ : VarId → Ty) (t : Ty) : Ty := t.subst fun v => σ v.id

def Agree (σ : VarId → Ty) (t u : Ty) : Prop := same (t.apply σ) (u.apply σ) = true

/-- A type without unions and without types named `Void`. -/
inductive FirstOrder : Ty → Prop
  | var (v : Variable) : FirstOrder (.var v)
  | parametric {name : String} {params : List Ty} (hname : name ≠ "Void")
      (hparams : ∀ t ∈ params, FirstOrder t) : FirstOrder (.parametric name params)
  | curried {params : List Ty} (hparams : ∀ t ∈ params, FirstOrder t) :
      FirstOrder (.curried params)

variable {σ : VarId → Ty} {S : Set VarId} {params params' ts us : List Ty} {head : Head}

@[simp]
theorem apply_var (v : Variable) : (var v).apply σ = σ v.id := rfl

@[simp]
theorem apply_parametric (name : String) (params : List Ty) :
    (parametric name params).apply σ = parametric name (params.map (apply σ)) :=
  subst_build _ (.parametric name) params

@[simp]
theorem apply_curried (params : List Ty) :
    (curried params).apply σ = curried (params.map (apply σ)) :=
  subst_build _ .curried params

theorem Agree.refl (t : Ty) : Agree σ t t := same_refl _

theorem Agree.symm {u : Ty} (hagree : Agree σ t u) : Agree σ u t := same_symm hagree

theorem Agree.trans {u w : Ty} (hleft : Agree σ t u) (hright : Agree σ u w) : Agree σ t w :=
  same_trans hleft hright

theorem agree_parametric_iff {name name' : String} :
    Agree σ (.parametric name params) (.parametric name' params') ↔
      name = name' ∧ Forall₂ (Agree σ) params params' := by
  simp only [Agree, apply_parametric, same, Bool.and_eq_true, beq_iff_eq, sameAll_iff,
    forall₂_map_left_iff, forall₂_map_right_iff]
  rfl

theorem agree_curried_iff :
    Agree σ (.curried params) (.curried params') ↔ Forall₂ (Agree σ) params params' := by
  simp only [Agree, apply_curried, same, sameAll_iff, forall₂_map_left_iff,
    forall₂_map_right_iff]
  rfl

theorem FirstOrder.component {component : Ty} (ht : t.FirstOrder)
    (hcomponent : component ∈ t.components) : component.FirstOrder := by
  cases ht with
  | var v => cases hcomponent
  | parametric _ hparams | curried hparams => exact hparams component hcomponent

section Build

variable (ht : (head.build ts).FirstOrder)
include ht

theorem FirstOrder.of_build : ∀ t ∈ ts, t.FirstOrder :=
  fun t hmem => ht.component (by simpa using hmem)

theorem FirstOrder.rebuild_eq (us : List Ty) : head.rebuild us = head.build us := by
  cases head with
  | union => cases ht
  | _ => rfl

theorem FirstOrder.build (hus : ∀ u ∈ us, u.FirstOrder) : (head.build us).FirstOrder := by
  cases head with
  | parametric name =>
    cases ht with
    | parametric hname _ => exact .parametric hname hus
  | curried => exact .curried hus
  | union => cases ht

theorem FirstOrder.apply_build (σ : VarId → Ty) :
    (head.build ts).apply σ = head.build (ts.map (apply σ)) :=
  (subst_build _ head ts).trans (ht.rebuild_eq _)

end Build

theorem FirstOrder.exists_var_of_apply (ht : t.FirstOrder) {v : Variable}
    (hvar : t.apply σ = .var v) : ∃ w, t = .var w := by
  induction t using inductBuild with
  | var w => exact ⟨w, rfl⟩
  | build head ts =>
    rw [ht.apply_build] at hvar
    cases head <;> cases hvar

theorem dropVoid_eq_self (hparams : ∀ t ∈ params, t.FirstOrder) : dropVoid params = params := by
  unfold dropVoid
  split
  · rename_i first second rest
    have hfirst := hparams first (.head _)
    have hvoid : same first void = false := by
      cases hfirst with
      | var v => rfl
      | parametric hname _ => simp [same, void, hname]
      | curried _ => rfl
    simp [hvoid]
  · rfl

theorem size_apply_component_lt {component : Ty} (ht : t.FirstOrder)
    (hcomponent : component ∈ t.components) : (component.apply σ).size < (t.apply σ).size := by
  induction t using inductBuild with
  | var v => cases hcomponent
  | build head ts =>
    rw [components_build] at hcomponent
    rw [ht.apply_build]
    exact size_component_lt (by simpa using ⟨_, hcomponent, rfl⟩)

theorem size_apply_le_of_occurs (ht : t.FirstOrder) (hoccurs : t.occurs w = true) :
    (σ w).size ≤ (t.apply σ).size := by
  induction t using inductComponents with
  | var v =>
    obtain rfl := occurs_var_iff.mp hoccurs
    exact Nat.le_refl _
  | built t hbuilt ih =>
    obtain ⟨component, hmem, hin⟩ := (occurs_iff_components hbuilt).mp hoccurs
    exact (ih component hmem (ht.component hmem) hin).trans (size_apply_component_lt ht hmem).le

theorem size_apply_lt_of_occurs (ht : t.FirstOrder) (hbuilt : t.isVariable = false)
    (hoccurs : t.occurs w = true) : (σ w).size < (t.apply σ).size := by
  obtain ⟨component, hmem, hin⟩ := (occurs_iff_components hbuilt).mp hoccurs
  exact (size_apply_le_of_occurs (ht.component hmem) hin).trans_lt (size_apply_component_lt ht hmem)

structure Plain (S : Set VarId) (t : Ty) : Prop where
  firstOrder : t.FirstOrder
  isOver : t.Over S

theorem FirstOrder.plain (ht : t.FirstOrder) : t.Plain Set.univ := ⟨ht, fun _ _ => Set.mem_univ _⟩

theorem Plain.component {component : Ty} (ht : t.Plain S) (hcomponent : component ∈ t.components) :
    component.Plain S := by
  have hbuilt := isVariable_eq_false_of_mem hcomponent
  exact ⟨ht.firstOrder.component hcomponent,
    (over_iff_components hbuilt).mp ht.isOver component hcomponent⟩

end Ty

namespace Facts

open Relation

variable {ε : Type} {facts next : Facts} {σ : VarId → Ty} {S : Set VarId} {v : Variable}
  {lefts rights : List Ty} {left right : Ty}

def Solves (σ : VarId → Ty) (facts : Facts) : Prop :=
  ∀ v t, facts.find? v = some t → Ty.same (σ v) (t.apply σ) = true

def SolvesOn (S : Set VarId) (σ : VarId → Ty) (facts : Facts) : Prop :=
  ∀ v ∈ S, ∀ t, facts.find? v = some t → Ty.same (σ v) (t.apply σ) = true

theorem solvesOn_univ_iff : facts.SolvesOn Set.univ σ ↔ facts.Solves σ :=
  ⟨fun hsolves v t hfind => hsolves v (Set.mem_univ v) t hfind, fun hsolves v _ => hsolves v⟩

def Plain (S : Set VarId) (facts : Facts) : Prop :=
  ∀ v ∈ S, ∀ t, facts.find? v = some t → t.Plain S

theorem Plain.closed (hplain : facts.Plain S) : facts.Closed S :=
  fun v hv t hfind => (hplain v hv t hfind).isOver

theorem Plain.insert (hplain : facts.Plain S) {v : VarId} (ht : t.Plain S) :
    (facts.insert v t).Plain S := by
  intro w hw s hfind
  rw [find?_insert] at hfind
  split at hfind
  · exact Option.some.inj hfind ▸ ht
  · exact hplain w hw s hfind

/-! ### Resolving and reducing under a solution -/

section Plain

variable (hplain : facts.Plain S)
include hplain

theorem Resolves.plain (hv : v.id ∈ S) (hresolves : facts.Resolves v t) : t.Plain S := by
  induction hresolves with
  | @free v _ => exact ⟨.var v, by simpa [Ty.Over] using hv⟩
  | @follow v w t hfind _ ih => exact ih ((hplain v.id hv _ hfind).isOver w.id (by simp))
  | @stop v t hfind _ => exact hplain v.id hv t hfind

theorem Resolves.agree (hsolves : facts.SolvesOn S σ) (hv : v.id ∈ S)
    (hresolves : facts.Resolves v t) : Ty.Agree σ (.var v) t := by
  induction hresolves with
  | free _ => exact .refl _
  | @follow v w t hfind _ ih =>
    have hstep : Ty.Agree σ (.var v) (.var w) := hsolves v.id hv _ hfind
    exact hstep.trans (ih ((hplain v.id hv _ hfind).isOver w.id (by simp)))
  | @stop v t hfind _ => exact hsolves v.id hv t hfind

theorem ResolvesTop.agree (hsolves : facts.SolvesOn S σ) {s : Ty} (ht : t.Plain S)
    (hresolves : facts.ResolvesTop t s) : Ty.Agree σ t s := by
  rcases hresolves with ⟨-, rfl⟩ | ⟨v, rfl, hv⟩
  · exact .refl _
  · exact hv.agree hplain hsolves (ht.isOver v.id (by simp))

theorem ResolvesTop.plain {s : Ty} (ht : t.Plain S) (hresolves : facts.ResolvesTop t s) :
    s.Plain S := by
  rcases hresolves with ⟨-, rfl⟩ | ⟨v, rfl, hv⟩
  · exact ht
  · exact hv.plain hplain (ht.isOver v.id (by simp))

theorem SolvesOn.size_le_of_reflTransGen (hsolves : facts.SolvesOn S σ) {v : VarId} (hv : v ∈ S)
    (hreach : ReflTransGen facts.Mentions v w) : (σ w).size ≤ (σ v).size := by
  induction hreach with
  | refl => exact Nat.le_refl _
  | tail hbefore hstep ih =>
    obtain ⟨t, hfind, hoccurs⟩ := hstep
    have hmem := hplain.closed.mem_of_reflTransGen hv hbefore
    have hsize := Ty.size_eq_of_same (hsolves _ hmem t hfind)
    exact ((Ty.size_apply_le_of_occurs (hplain _ hmem t hfind).firstOrder hoccurs).trans
      hsize.ge).trans ih

theorem SolvesOn.size_lt_of_leads (hsolves : facts.SolvesOn S σ) (ht : t.Plain S)
    (hbuilt : t.isVariable = false) (hleads : facts.Leads t w) : (σ w).size < (t.apply σ).size := by
  obtain ⟨v, hv, hreach⟩ := hleads
  exact (hsolves.size_le_of_reflTransGen hplain (ht.isOver v hv) hreach).trans_lt
    (Ty.size_apply_lt_of_occurs ht.firstOrder hbuilt hv)

end Plain

/-! ### Binding a variable -/

theorem solvesOn_insert_iff {v : VarId} (hv : v ∈ S) (hfresh : facts.find? v = none) :
    (facts.insert v t).SolvesOn S σ ↔
      facts.SolvesOn S σ ∧ Ty.same (σ v) (t.apply σ) = true := by
  constructor
  · intro hsolves
    refine ⟨fun w hw s hfind => hsolves w hw s ?_, hsolves v hv t (by simp [find?_insert])⟩
    rw [find?_insert, if_neg, hfind]
    rintro rfl
    rw [hfresh] at hfind
    cases hfind
  · rintro ⟨hsolves, hagree⟩ w hw s hfind
    rw [find?_insert] at hfind
    split at hfind
    · rename_i heq
      obtain rfl := Option.some.inj hfind
      exact heq ▸ hagree
    · exact hsolves w hw s hfind

theorem solvesOn_of_bind (hplain : facts.Plain S) (hv : v.id ∈ S) (ht : t.Plain S)
    (hbind : facts.bind v t = .ok next) :
    next.Plain S ∧
      (next.SolvesOn S σ ↔ facts.SolvesOn S σ ∧ Ty.Agree σ (.var v) t) := by
  obtain ⟨s, hresolves, ⟨w, rfl, hid, rfl⟩ | ⟨hrecords, rfl⟩⟩ := bind_eq_ok hbind
  · refine ⟨hplain, fun hsolves => ⟨hsolves, ?_⟩, fun hsolves => hsolves.1⟩
    have hagree := hresolves.agree hplain hsolves ht
    rw [Ty.Agree, Ty.apply_var, hid] at hagree
    exact Ty.same_symm hagree
  · refine ⟨hplain.insert (hresolves.plain hplain ht), ?_⟩
    rw [solvesOn_insert_iff hv hrecords.fresh]
    refine and_congr_right fun hsolves => ?_
    have hagree := hresolves.agree hplain hsolves ht
    exact ⟨fun hv => Ty.Agree.trans hv hagree.symm, fun hv => Ty.Agree.trans hv hagree⟩

theorem not_solves_of_bind_failed (hplain : facts.Plain S) (ht : t.Plain S) {mismatch : Mismatch}
    (hbind : facts.bind v t = .failed mismatch) :
    ¬ (facts.SolvesOn S σ ∧ Ty.Agree σ (.var v) t) := by
  rintro ⟨hsolves, hagree⟩
  obtain ⟨s, hresolves, hbuilt, hleads, -⟩ := bind_eq_failed hbind
  have hsize := Ty.size_eq_of_same (hagree.trans (hresolves.agree hplain hsolves ht))
  have hlt := hsolves.size_lt_of_leads hplain (hresolves.plain hplain ht) hbuilt hleads
  rw [Ty.apply_var] at hsize
  omega

theorem bind_answers (hplain : facts.Plain S) (hv : v.id ∈ S) (ht : t.Plain S) :
    (facts.bind v t).Answers
      (fun next => next.Plain S ∧
        (next.SolvesOn S σ ↔ facts.SolvesOn S σ ∧ Ty.Agree σ (.var v) t))
      (¬ (facts.SolvesOn S σ ∧ Ty.Agree σ (.var v) t)) := by
  cases hbind : facts.bind v t with
  | ok next => exact solvesOn_of_bind hplain hv ht hbind
  | failed mismatch => exact not_solves_of_bind_failed hplain ht hbind
  | halted cause => trivial

/-! ### Unifying types -/

/-- The answer is solved exactly by the solutions of facts that make the two types equal, and under
them the unified type is equal to both. -/
structure PairSolves (S : Set VarId) (σ : VarId → Ty) (facts : Facts) (left right : Ty)
    (result : Ty × Facts) : Prop where
  facts_plain : result.2.Plain S
  type_plain : result.1.Plain S
  solves_iff : result.2.SolvesOn S σ ↔ facts.SolvesOn S σ ∧ Ty.Agree σ left right
  agree : result.2.SolvesOn S σ → Ty.Agree σ result.1 left

structure ListSolves (S : Set VarId) (σ : VarId → Ty) (facts : Facts) (lefts rights : List Ty)
    (result : List Ty × Facts) : Prop where
  facts_plain : result.2.Plain S
  types_plain : ∀ t ∈ result.1, t.Plain S
  solves_iff : result.2.SolvesOn S σ ↔
    facts.SolvesOn S σ ∧ List.Forall₂ (Ty.Agree σ) lefts rights
  agree : result.2.SolvesOn S σ → List.Forall₂ (Ty.Agree σ) result.1 lefts

def StepSolves (S : Set VarId) (σ : VarId → Ty) (step : Step) : Prop :=
  ∀ ⦃facts : Facts⦄ ⦃left right : Ty⦄, facts.Plain S → left.Plain S → right.Plain S →
    (step left right facts).Answers (PairSolves S σ facts left right)
      (¬ (facts.SolvesOn S σ ∧ Ty.Agree σ left right))

variable {step : Step}

theorem StepSolves.unifyPairwise (hstep : StepSolves S σ step) (hplain : facts.Plain S)
    (hlefts : ∀ t ∈ lefts, t.Plain S) (hrights : ∀ t ∈ rights, t.Plain S)
    (hlength : lefts.length = rights.length) :
    (unifyPairwise step lefts rights facts).Answers (ListSolves S σ facts lefts rights)
      (¬ (facts.SolvesOn S σ ∧ Forall₂ (Ty.Agree σ) lefts rights)) := by
  induction lefts generalizing rights facts with
  | nil =>
    obtain rfl := length_eq_zero_iff.mp hlength.symm
    exact ⟨hplain, by simp, by simp, fun _ => .nil⟩
  | cons left lefts ih =>
    cases rights with
    | nil => cases hlength
    | cons right rights =>
      rw [forall_mem_cons] at hlefts hrights
      refine (hstep hplain hlefts.1 hrights.1).bind ?_ ?_
      · rintro hnone ⟨hsolves, hall⟩
        exact hnone ⟨hsolves, (forall₂_cons.mp hall).1⟩
      rintro ⟨t, middle⟩ hhead
      refine (ih hhead.facts_plain hlefts.2 hrights.2 (Nat.succ.inj hlength)).bind ?_ ?_
      · rintro hnone ⟨hsolves, hall⟩
        obtain ⟨hagree, hrest⟩ := forall₂_cons.mp hall
        exact hnone ⟨hhead.solves_iff.mpr ⟨hsolves, hagree⟩, hrest⟩
      rintro ⟨ts, last⟩ htail
      refine ⟨htail.facts_plain, forall_mem_cons.mpr ⟨hhead.type_plain, htail.types_plain⟩,
        ?_, fun hsolves => ?_⟩
      · rw [htail.solves_iff, hhead.solves_iff, forall₂_cons, and_assoc]
      · exact .cons (hhead.agree (htail.solves_iff.mp hsolves).1) (htail.agree hsolves)

theorem StepSolves.unifyParams (hstep : StepSolves S σ step) {build : List Ty → Ty}
    (hplain : facts.Plain S) (hlefts : ∀ t ∈ lefts, t.Plain S) (hrights : ∀ t ∈ rights, t.Plain S)
    (hagree : ∀ {ts us}, Ty.Agree σ (build ts) (build us) ↔ Forall₂ (Ty.Agree σ) ts us)
    (hbuild : ∀ {ts}, (∀ t ∈ ts, t.Plain S) → (build ts).Plain S) :
    (unifyParams step (build lefts) (build rights) build lefts rights facts).Answers
      (PairSolves S σ facts (build lefts) (build rights))
      (¬ (facts.SolvesOn S σ ∧ Ty.Agree σ (build lefts) (build rights))) := by
  unfold Facts.unifyParams
  split
  · rename_i hlength
    rintro ⟨-, hall⟩
    exact hlength (hagree.mp hall).length_eq
  · rename_i hlength
    have hpairs := hstep.unifyPairwise hplain hlefts hrights (not_not.mp hlength)
    split
    · rename_i params next hok
      rw [hok] at hpairs
      exact ⟨hpairs.facts_plain, hbuild hpairs.types_plain, by rw [hpairs.solves_iff, hagree],
        fun hsolves => hagree.mpr (hpairs.agree hsolves)⟩
    · rename_i mismatch hfailed
      rw [hfailed] at hpairs
      rwa [← hagree] at hpairs
    · trivial

theorem PairSolves.symm {result : Ty × Facts} (hpair : PairSolves S σ facts left right result) :
    PairSolves S σ facts right left result := by
  refine ⟨hpair.facts_plain, hpair.type_plain, ?_, fun hsolves => ?_⟩
  · rw [hpair.solves_iff]
    exact and_congr_right fun _ => ⟨Ty.Agree.symm, Ty.Agree.symm⟩
  · exact (hpair.agree hsolves).trans (hpair.solves_iff.mp hsolves).2

theorem bindVariable_answers (hplain : facts.Plain S) (hv : v.id ∈ S) (ht : t.Plain S) :
    (do
      let facts ← facts.bind v t
      return (t, facts)).Answers (PairSolves S σ facts (.var v) t)
        (¬ (facts.SolvesOn S σ ∧ Ty.Agree σ (.var v) t)) := by
  refine (bind_answers hplain hv ht).bind id ?_
  rintro next ⟨hnext, hiff⟩
  exact ⟨hnext, ht, hiff, fun hsolves => (hiff.mp hsolves).2.symm⟩

theorem StepSolves.unifyResolved (hstep : StepSolves S σ step) (hplain : facts.Plain S)
    (hleft : left.Plain S) (hright : right.Plain S) :
    (unifyResolved step left right facts).Answers (PairSolves S σ facts left right)
      (¬ (facts.SolvesOn S σ ∧ Ty.Agree σ left right)) := by
  unfold Facts.unifyResolved
  split
  · split
    · rename_i v w hid
      refine ⟨hplain, hleft, ⟨fun hsolves => ⟨hsolves, ?_⟩, And.left⟩, fun _ => .refl _⟩
      simp [Ty.Agree, hid]
    · exact bindVariable_answers hplain (hleft.isOver _ (by simp)) hright
  · exact bindVariable_answers hplain (hleft.isOver _ (by simp)) hright
  · refine (bindVariable_answers hplain (hright.isOver _ (by simp)) hleft).mono ?_
      fun result => PairSolves.symm
    exact fun hnone hboth => hnone ⟨hboth.1, hboth.2.symm⟩
  · cases hleft.firstOrder
  · cases hleft.firstOrder
  · cases hright.firstOrder
  · split
    · rename_i name lefts name' rights hname
      rintro ⟨-, hagree⟩
      exact hname (Ty.agree_parametric_iff.mp hagree).1
    · rename_i name lefts name' rights hname
      obtain rfl := not_not.mp hname
      refine hstep.unifyParams hplain (fun t ht => hleft.component ht)
        (fun t ht => hright.component ht) (by simp [Ty.agree_parametric_iff]) fun hts => ?_
      cases hleft.firstOrder with
      | parametric hvoid _ =>
        exact ⟨.parametric hvoid fun t ht => (hts t ht).firstOrder,
          (Ty.over_iff_components rfl).mpr fun t ht => (hts t ht).isOver⟩
  · rename_i lefts rights
    have hlefts : Ty.dropVoid lefts = lefts :=
      Ty.dropVoid_eq_self fun t ht => (hleft.component ht).firstOrder
    have hrights : Ty.dropVoid rights = rights :=
      Ty.dropVoid_eq_self fun t ht => (hright.component ht).firstOrder
    rw [hlefts, hrights]
    refine hstep.unifyParams hplain (fun t ht => hleft.component ht)
      (fun t ht => hright.component ht) Ty.agree_curried_iff fun hts => ?_
    exact ⟨.curried fun t ht => (hts t ht).firstOrder,
      (Ty.over_iff_components rfl).mpr fun t ht => (hts t ht).isOver⟩
  · rename_i hleftVariable _ hrightVariable _ _ _ hparametric hcurried
    rintro ⟨-, hagree⟩
    cases hleft.firstOrder with
    | var v => exact hleftVariable v rfl
    | parametric _ _ =>
      cases hright.firstOrder with
      | var w => exact hrightVariable w rfl
      | parametric _ _ => exact hparametric _ _ _ _ rfl rfl
      | curried _ => simp [Ty.Agree, Ty.same] at hagree
    | curried _ =>
      cases hright.firstOrder with
      | var w => exact hrightVariable w rfl
      | parametric _ _ => simp [Ty.Agree, Ty.same] at hagree
      | curried _ => exact hcurried _ _ rfl rfl

/-- At every depth success adds exactly the equation of its sides and failure refutes it. -/
theorem stepSolves_unifyWithin (depth : Nat) : StepSolves S σ (unifyWithin depth) := by
  induction depth with
  | zero =>
    intro facts left right _ _ _
    trivial
  | succ depth ih =>
    intro facts left right hplain hleft hright
    rw [unifyWithin]
    cases hleft' : facts.resolveTop (ε := Mismatch) left with
    | halted cause => trivial
    | failed mismatch => exact absurd hleft' (resolveTop_ne_failed left mismatch)
    | ok left' =>
      cases hright' : facts.resolveTop (ε := Mismatch) right with
      | halted cause => trivial
      | failed mismatch => exact absurd hright' (resolveTop_ne_failed right mismatch)
      | ok right' =>
        have hresolvesLeft := resolvesTop_of_resolveTop hleft'
        have hresolvesRight := resolvesTop_of_resolveTop hright'
        have hiff : facts.SolvesOn S σ ∧ Ty.Agree σ left right ↔
            facts.SolvesOn S σ ∧ Ty.Agree σ left' right' := by
          refine and_congr_right fun hsolves => ?_
          have hl := hresolvesLeft.agree hplain hsolves hleft
          have hr := hresolvesRight.agree hplain hsolves hright
          exact ⟨fun h => hl.symm.trans (h.trans hr), fun h => hl.trans (h.trans hr.symm)⟩
        refine (ih.unifyResolved hplain (hresolvesLeft.plain hplain hleft)
          (hresolvesRight.plain hplain hright)).mono (by rw [hiff]; exact id) ?_
        rintro ⟨t, next⟩ hanswer
        refine ⟨hanswer.facts_plain, hanswer.type_plain, by rw [hanswer.solves_iff, hiff],
          fun hsolves => (hanswer.agree hsolves).trans ?_⟩
        have hfacts := (hanswer.solves_iff.mp hsolves).1
        exact (hresolvesLeft.agree hplain hfacts hleft).symm

theorem unify_answers (hplain : facts.Plain S) (hleft : left.Plain S) (hright : right.Plain S) :
    (unify left right facts).Answers (PairSolves S σ facts left right)
      (¬ (facts.SolvesOn S σ ∧ Ty.Agree σ left right)) :=
  stepSolves_unifyWithin _ hplain hleft hright

theorem isVariable_of_unify (hleft : left.FirstOrder) (hright : right.FirstOrder)
    (hbuilt : left.isVariable = false) (hbuilt' : right.isVariable = false)
    (hunify : unify left right facts = .ok (t, next)) : t.isVariable = false := by
  rw [unify] at hunify
  generalize unifyDepth left right facts = depth at hunify
  obtain _ | depth := depth
  · cases hunify
  obtain ⟨left', right', hleft', hright', hunified⟩ := unifyWithin_eq_ok hunify
  rcases hleft' with ⟨-, rfl⟩ | ⟨v, rfl, -⟩
  · rcases hright' with ⟨-, rfl⟩ | ⟨w, rfl, -⟩
    · cases hunified with
      | same | left => cases hbuilt
      | right => cases hbuilt'
      | unions | memberOfLeft => cases hleft
      | memberOfRight => cases hright
      | parametric | curried => rfl
    · cases hbuilt'
  · cases hbuilt

end Facts

end TypeSearch
