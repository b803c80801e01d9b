import TypeSearch.Proofs.Facts.MostGeneral

/-!
# Types with a finite expansion

Facts with a cycle expand some types without end. Unification of first-order types never makes such
a type equal to one with a finite expansion: where it records a fact it expands the type first, and
everywhere else it compares types component by component.
-/

namespace TypeSearch.Facts

open Relation

variable {ε : Type} {facts next : Facts} {v : Variable} {t s left right : Ty} {ts : List Ty}
  {depth : Nat}

def Finite (facts : Facts) (t : Ty) : Prop := ∃ depth, facts.Within depth t

theorem finite_of_free (hfree : facts.find? v.id = none) : facts.Finite (.var v) := ⟨0, .free hfree⟩

theorem finite_var_iff (hfind : facts.find? v.id = some t) :
    facts.Finite (.var v) ↔ facts.Finite t := by
  constructor
  · rintro ⟨depth, hwithin⟩
    cases hwithin with
    | free hfree =>
      rw [hfind] at hfree
      cases hfree
    | known hfind' ht =>
      obtain rfl := Option.some.inj (hfind.symm.trans hfind')
      exact ⟨depth, ht⟩
    | built hbuilt => cases hbuilt
  · rintro ⟨depth, hwithin⟩
    exact ⟨depth, .known hfind hwithin⟩

theorem exists_within_of_finite (hts : ∀ t ∈ ts, facts.Finite t) :
    ∃ depth, ∀ t ∈ ts, facts.Within depth t := by
  induction ts with
  | nil => exact ⟨0, by simp⟩
  | cons t ts ih =>
    obtain ⟨depth, ht⟩ := hts t (.head _)
    obtain ⟨more, hrest⟩ := ih fun u hu => hts u (.tail _ hu)
    refine ⟨max depth more, List.forall_mem_cons.mpr ⟨ht.mono (le_max_left _ _), ?_⟩⟩
    exact fun u hu => (hrest u hu).mono (le_max_right _ _)

theorem finite_iff_components (hbuilt : t.isVariable = false) :
    facts.Finite t ↔ ∀ component ∈ t.components, facts.Finite component := by
  constructor
  · rintro ⟨depth, hwithin⟩ component hmem
    obtain ⟨less, -, hcomponents⟩ := hwithin.components hbuilt
    exact ⟨less, hcomponents component hmem⟩
  · intro hcomponents
    obtain ⟨depth, hwithin⟩ := exists_within_of_finite hcomponents
    exact ⟨depth + 1, .built hbuilt hwithin⟩

theorem Resolves.finite_iff (hresolves : facts.Resolves v t) :
    facts.Finite (.var v) ↔ facts.Finite t := by
  induction hresolves with
  | free _ => rfl
  | follow hfind _ ih => rw [finite_var_iff hfind, ih]
  | stop hfind _ => exact finite_var_iff hfind

theorem ResolvesTop.finite_iff (hresolves : facts.ResolvesTop t s) :
    facts.Finite t ↔ facts.Finite s := by
  rcases hresolves with ⟨-, rfl⟩ | ⟨v, rfl, hresolves⟩
  · rfl
  · exact hresolves.finite_iff

theorem finite_of_reduceWithin {r : Ty}
    (hreduce : facts.reduceWithin depth t = (.ok r : Outcome ε Ty)) : facts.Finite t := by
  refine reduceWithin_induct (R := fun t _ => facts.Finite t) ?_ ?_ (fun head ts rs hall => ?_)
    hreduce
  · intro v w hresolves
    exact hresolves.finite_iff.mpr (finite_of_free (hresolves.find?_eq_none rfl))
  · exact fun v t r hresolves _ hfinite => hresolves.finite_iff.mpr hfinite
  · rw [finite_iff_components (Ty.isVariable_build head ts), Ty.components_build]
    exact fun t ht => (exists_right_of_forall₂ hall ht).elim fun _ hfinite => hfinite.2

theorem Within.of_insert {v : VarId} (hfresh : facts.find? v = none)
    (hwithin : (facts.insert v s).Within depth t) : facts.Within depth t := by
  induction hwithin with
  | free hfree =>
    rw [find?_insert] at hfree
    split at hfree
    · cases hfree
    · exact .free hfree
  | known hfind _ ih =>
    rw [find?_insert] at hfind
    split at hfind
    · rename_i heq
      exact .free (heq ▸ hfresh)
    · exact .known hfind ih
  | built hbuilt _ ih => exact .built hbuilt ih

theorem Within.congr (hwithin : facts.Within depth t) (hfind : ∀ v, next.find? v = facts.find? v) :
    next.Within depth t := by
  induction hwithin with
  | free hfree => exact .free ((hfind _).trans hfree)
  | known hknown _ ih => exact .known ((hfind _).trans hknown) ih
  | built hbuilt _ ih => exact .built hbuilt ih

theorem Acyclic.finite (hacyclic : facts.Acyclic) (t : Ty) : facts.Finite t :=
  ⟨_, hacyclic.within fun _ _ hkey => hacyclic.rank_lt_size hkey⟩

theorem Records.finite_iff {v : VarId} (hrecords : facts.Records v s) :
    (facts.insert v s).Finite t ↔ facts.Finite t := by
  obtain ⟨r, hreduce, -⟩ := hrecords.reduced
  obtain ⟨added, hs⟩ := finite_of_reduceWithin hreduce
  constructor
  · rintro ⟨depth, hwithin⟩
    exact ⟨depth, hwithin.of_insert hrecords.fresh⟩
  · rintro ⟨depth, hwithin⟩
    exact ⟨depth + added, hwithin.record hrecords hs⟩

structure PairFinite (facts next : Facts) (left right : Ty) : Prop where
  finite_iff : facts.Finite left ↔ facts.Finite right
  later : ∀ t, next.Finite t ↔ facts.Finite t
  firstOrder : next.FirstOrder

theorem PairFinite.symm (hpair : PairFinite facts next left right) :
    PairFinite facts next right left :=
  ⟨hpair.finite_iff.symm, hpair.later, hpair.firstOrder⟩

theorem pairFinite_of_bind (hfirst : facts.FirstOrder) (hfree : facts.find? v.id = none)
    (ht : t.FirstOrder) (hbind : facts.bind v t = .ok next) : PairFinite facts next (.var v) t := by
  have hv := finite_of_free hfree
  obtain ⟨s, hresolves, ⟨w, rfl, hid, rfl⟩ | ⟨hrecords, rfl⟩⟩ := bind_eq_ok hbind
  · have ht := hresolves.finite_iff.mpr (finite_of_free hresolves.find?_eq_none)
    exact ⟨iff_of_true hv ht, fun _ => Iff.rfl, hfirst⟩
  · obtain ⟨r, hreduce, -⟩ := hrecords.reduced
    have ht' := hresolves.finite_iff.mpr (finite_of_reduceWithin hreduce)
    have hplain := hresolves.plain (plain_univ_iff.mpr hfirst) ht.plain
    exact ⟨iff_of_true hv ht', fun _ => hrecords.finite_iff,
      plain_univ_iff.mp ((plain_univ_iff.mpr hfirst).insert hplain)⟩

def StepFinite (step : Step) : Prop :=
  ∀ ⦃facts next : Facts⦄ ⦃left right t : Ty⦄, facts.FirstOrder → left.FirstOrder →
    right.FirstOrder → step left right facts = .ok (t, next) → PairFinite facts next left right

variable {step : Step}

structure ListFinite (facts next : Facts) (lefts rights : List Ty) : Prop where
  finite_iff : (∀ t ∈ lefts, facts.Finite t) ↔ ∀ t ∈ rights, facts.Finite t
  later : ∀ t, next.Finite t ↔ facts.Finite t
  firstOrder : next.FirstOrder

theorem StepFinite.unifyPairwise (hstep : StepFinite step) {lefts rights : List Ty}
    (hfirst : facts.FirstOrder) (hlefts : ∀ t ∈ lefts, t.FirstOrder)
    (hrights : ∀ t ∈ rights, t.FirstOrder) (hlength : lefts.length = rights.length)
    (hpairs : unifyPairwise step lefts rights facts = .ok (ts, next)) :
    ListFinite facts next lefts rights := by
  induction lefts generalizing rights ts facts with
  | nil =>
    obtain rfl := List.eq_nil_of_length_eq_zero hlength.symm
    cases hpairs
    exact ⟨Iff.rfl, fun _ => Iff.rfl, hfirst⟩
  | cons left lefts ih =>
    cases rights with
    | nil => cases hlength
    | cons right rights =>
      obtain ⟨⟨t, middle⟩, hhead, hpairs⟩ := Outcome.bind_eq_ok hpairs
      obtain ⟨⟨rest, last⟩, htail, hpairs⟩ := Outcome.bind_eq_ok hpairs
      cases hpairs
      rw [List.forall_mem_cons] at hlefts hrights
      have hpair := hstep hfirst hlefts.1 hrights.1 hhead
      have hrest := ih hpair.firstOrder hlefts.2 hrights.2 (Nat.succ.inj hlength) htail
      refine ⟨?_, fun u => (hrest.later u).trans (hpair.later u), hrest.firstOrder⟩
      have hiff := hrest.finite_iff
      simp only [hpair.later] at hiff
      rw [List.forall_mem_cons, List.forall_mem_cons, hpair.finite_iff, hiff]

theorem ListFinite.pair (hlist : ListFinite facts next left.components right.components)
    (hleft : left.isVariable = false) (hright : right.isVariable = false) :
    PairFinite facts next left right :=
  ⟨by rw [finite_iff_components hleft, finite_iff_components hright, hlist.finite_iff],
    hlist.later, hlist.firstOrder⟩

/-- One successful step leaves the same types finite. -/
theorem StepFinite.unified (hstep : StepFinite step) (hfirst : facts.FirstOrder)
    (hleft : left.FirstOrder) (hright : right.FirstOrder)
    (hfreeLeft : ∀ v : Variable, left = .var v → facts.find? v.id = none)
    (hfreeRight : ∀ w : Variable, right = .var w → facts.find? w.id = none)
    (hunified : Unified step facts left right t next) : PairFinite facts next left right := by
  cases hunified with
  | same hid =>
    exact ⟨iff_of_true (finite_of_free (hfreeLeft _ rfl)) (finite_of_free (hfreeRight _ rfl)),
      fun _ => Iff.rfl, hfirst⟩
  | left _ hbind => exact pairFinite_of_bind hfirst (hfreeLeft _ rfl) hright hbind
  | right _ hbind => exact (pairFinite_of_bind hfirst (hfreeRight _ rfl) hleft hbind).symm
  | unions | memberOfLeft => cases hleft
  | memberOfRight => cases hright
  | parametric hlength hparams =>
    have hlist := hstep.unifyPairwise hfirst (fun _ => hleft.component)
      (fun _ => hright.component) hlength hparams
    exact ListFinite.pair hlist rfl rfl
  | @curried lefts rights _ _ hlength hparams =>
    have hlefts : ∀ t ∈ lefts, t.FirstOrder := fun _ => hleft.component
    have hrights : ∀ t ∈ rights, t.FirstOrder := fun _ => hright.component
    rw [Ty.dropVoid_eq_self hlefts, Ty.dropVoid_eq_self hrights] at hlength hparams
    exact ListFinite.pair (hstep.unifyPairwise hfirst hlefts hrights hlength hparams) rfl rfl

/-- Unification of every depth leaves the same types finite. -/
theorem stepFinite_unifyWithin (depth : Nat) : StepFinite (unifyWithin depth) := by
  induction depth with
  | zero => exact fun _ _ _ _ _ _ _ _ => nofun
  | succ depth ih =>
    intro facts next left right t hfirst hleft hright hunify
    obtain ⟨left', right', hleft', hright', hunified⟩ := unifyWithin_eq_ok hunify
    have hplain := plain_univ_iff.mpr hfirst
    have hpair := ih.unified hfirst (hleft'.plain hplain hleft.plain).firstOrder
      (hright'.plain hplain hright.plain).firstOrder
      (fun v hv => (hv ▸ hleft').find?_eq_none) (fun w hw => (hw ▸ hright').find?_eq_none)
      hunified
    exact ⟨by rw [hleft'.finite_iff, hright'.finite_iff, hpair.finite_iff], hpair.later,
      hpair.firstOrder⟩

theorem Finite.not_leads {v : VarId} (hfinite : facts.Finite t)
    (hcycle : TransGen facts.Mentions v v) : ¬ facts.Leads t v := by
  obtain ⟨depth, hwithin⟩ := hfinite
  induction hwithin with
  | free hfree =>
    intro hleads
    obtain rfl := eq_of_reflTransGen_of_free hfree (leads_var_iff.mp hleads)
    obtain ⟨w, ⟨t, hfind, -⟩, -⟩ := TransGen.head'_iff.mp hcycle
    rw [hfree] at hfind
    cases hfind
  | known hfind _ ih =>
    intro hleads
    refine ih (leads_of_transGen hfind ?_)
    rcases reflTransGen_iff_eq_or_transGen.mp (leads_var_iff.mp hleads) with heq | hpath
    · rw [heq] at hcycle ⊢
      exact hcycle
    · exact hpath
  | built hbuilt _ ih =>
    intro hleads
    obtain ⟨component, hmem, hcomponent⟩ := (leads_iff_components hbuilt).mp hleads
    exact ih component hmem hcomponent

end TypeSearch.Facts
