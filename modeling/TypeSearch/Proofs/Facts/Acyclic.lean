import Mathlib.Data.Finset.Card
import Mathlib.Logic.Relation
import TypeSearch.Proofs.Type.Proper

/-!
# Facts without cycles

A fact leads from its variable to the variables of the type it stands for. When no variable leads
back to itself, the number of variables with a fact that are reached falls along every step, so
following facts from variable to variable ends within the steps that `resolve` allows and nested
expansions end within the depth that `reduce` allows. A reduced type mentions exactly the variables
without a fact to which the type leads.
-/

namespace TypeSearch

open List

namespace Facts

open Relation

variable {ε : Type} {facts : Facts} {v : Variable} {w : VarId} {t r : Ty} {steps depth : Nat}
  {R : Ty → Ty → Prop} {ts : List Ty} {replace : Variable → Outcome ε Ty} {error : ε}

def Mentions (facts : Facts) (v w : VarId) : Prop :=
  ∃ t, facts.find? v = some t ∧ t.occurs w = true

/-- No variable with a fact is reached from the type it stands for. -/
def Acyclic (facts : Facts) : Prop := ∀ v, ¬ TransGen facts.Mentions v v

theorem Acyclic.mono {fewer : Facts} (hacyclic : facts.Acyclic)
    (hfewer : ∀ v t, fewer.find? v = some t → facts.find? v = some t) : fewer.Acyclic := by
  intro v hcycle
  refine hacyclic v (TransGen.mono (fun x y => ?_) v v hcycle)
  rintro ⟨t, hfind, hoccurs⟩
  exact ⟨t, hfewer x t hfind, hoccurs⟩

def Leads (facts : Facts) (t : Ty) (w : VarId) : Prop :=
  ∃ v, t.occurs v = true ∧ ReflTransGen facts.Mentions v w

theorem leads_var_iff : facts.Leads (.var v) w ↔ ReflTransGen facts.Mentions v.id w := by
  simp [Leads]

theorem leads_iff_components (hbuilt : t.isVariable = false) :
    facts.Leads t w ↔ ∃ component ∈ t.components, facts.Leads component w := by
  constructor
  · rintro ⟨v, hv, hreach⟩
    obtain ⟨component, hmem, hin⟩ := (Ty.occurs_iff_components hbuilt).mp hv
    exact ⟨component, hmem, v, hin, hreach⟩
  · rintro ⟨component, hmem, v, hin, hreach⟩
    exact ⟨v, (Ty.occurs_iff_components hbuilt).mpr ⟨component, hmem, hin⟩, hreach⟩

theorem leads_build_iff {head : Ty.Head} :
    facts.Leads (head.build ts) w ↔ ∃ t ∈ ts, facts.Leads t w := by
  rw [leads_iff_components (Ty.isVariable_build head ts), Ty.components_build]

theorem transGen_of_leads {v : VarId} (hfind : facts.find? v = some t) (hleads : facts.Leads t w) :
    TransGen facts.Mentions v w := by
  obtain ⟨x, hx, hreach⟩ := hleads
  exact TransGen.head' ⟨t, hfind, hx⟩ hreach

theorem leads_of_transGen {v : VarId} (hfind : facts.find? v = some t)
    (hreach : TransGen facts.Mentions v w) : facts.Leads t w := by
  obtain ⟨x, ⟨t', hfind', hx⟩, hrest⟩ := TransGen.head'_iff.mp hreach
  obtain rfl : t = t' := Option.some.inj (hfind.symm.trans hfind')
  exact ⟨x, hx, hrest⟩

theorem eq_of_reflTransGen_of_free {v : VarId} (hfree : facts.find? v = none)
    (hreach : ReflTransGen facts.Mentions v w) : v = w := by
  rcases ReflTransGen.cases_head hreach with heq | ⟨x, ⟨t, hfind, -⟩, -⟩
  · exact heq
  · rw [hfree] at hfind
    cases hfind

/-! ### The rank of a variable -/

def keys (facts : Facts) : List VarId := facts.entries.map Prod.fst

theorem mem_keys_iff {v : VarId} : v ∈ facts.keys ↔ ∃ t, facts.find? v = some t := by
  obtain ⟨entries⟩ := facts
  simp only [keys, find?]
  induction entries with
  | nil => simp
  | cons entry rest ih =>
    obtain ⟨key, t⟩ := entry
    by_cases heq : v = key
    · simp [heq]
    · rw [map_cons, mem_cons, lookup_cons, beq_eq_false_iff_ne.mpr heq]
      simpa [heq] using ih

theorem mem_entries_of_find? {v : VarId} (hfind : facts.find? v = some t) :
    (v, t) ∈ facts.entries := by
  obtain ⟨entries⟩ := facts
  simp only [find?] at hfind
  induction entries with
  | nil => cases hfind
  | cons entry rest ih =>
    obtain ⟨key, s⟩ := entry
    by_cases heq : v = key
    · subst heq
      simp only [lookup_cons, beq_self_eq_true, Option.some.injEq] at hfind
      exact hfind ▸ mem_cons_self
    · rw [lookup_cons, beq_eq_false_iff_ne.mpr heq] at hfind
      exact .tail _ (ih hfind)

open Classical in
/-- The number of variables with a fact that are reached from a variable by at least one fact. -/
noncomputable def rank (facts : Facts) (v : VarId) : Nat :=
  (facts.keys.toFinset.filter fun w => TransGen facts.Mentions v w).card

theorem Acyclic.rank_lt_rank (hacyclic : facts.Acyclic) {v : VarId}
    (hreach : TransGen facts.Mentions v w) (hfact : w ∈ facts.keys) :
    facts.rank w < facts.rank v := by
  classical
  apply Finset.card_lt_card
  rw [Finset.ssubset_iff_of_subset]
  · refine ⟨w, ?_, ?_⟩
    · simp [hfact, hreach]
    · simp [hacyclic w]
  · intro x hx
    rw [Finset.mem_filter] at hx ⊢
    exact ⟨hx.1, hreach.trans hx.2⟩

theorem Acyclic.rank_lt_size (hacyclic : facts.Acyclic) {v : VarId} (hfact : v ∈ facts.keys) :
    facts.rank v < facts.size := by
  classical
  have hcard : facts.keys.toFinset.card ≤ facts.size := by
    simpa [keys, size] using toFinset_card_le facts.keys
  refine lt_of_lt_of_le (Finset.card_lt_card ?_) hcard
  rw [Finset.ssubset_iff_of_subset (Finset.filter_subset _ _)]
  exact ⟨v, by simpa using hfact, by simp [hacyclic v]⟩

/-! ### Resolving a variable -/

/-- Following facts from `v` ends in `t`. -/
inductive Resolves (facts : Facts) : Variable → Ty → Prop
  | free {v : Variable} (hfree : facts.find? v.id = none) : Resolves facts v (.var v)
  | follow {v w : Variable} {t : Ty} (hfind : facts.find? v.id = some (.var w))
      (hrest : Resolves facts w t) : Resolves facts v t
  | stop {v : Variable} {t : Ty} (hfind : facts.find? v.id = some t)
      (hbuilt : t.isVariable = false) : Resolves facts v t

theorem resolves_of_resolveWithin (hresolve : facts.resolveWithin steps v = some t) :
    facts.Resolves v t := by
  induction steps generalizing v with
  | zero => cases hresolve
  | succ steps ih =>
    simp only [resolveWithin] at hresolve
    split at hresolve
    · rename_i hfree
      obtain rfl := Option.some.inj hresolve
      exact .free hfree
    · rename_i w hfind
      exact .follow hfind (ih hresolve)
    · rename_i s hvariable hfind
      obtain rfl := Option.some.inj hresolve
      exact .stop hfind (Ty.isVariable_eq_false hvariable)

theorem resolves_of_resolve (hresolve : facts.resolve v = (.ok t : Outcome ε Ty)) :
    facts.Resolves v t := by
  unfold resolve at hresolve
  split at hresolve
  · rename_i s hwithin
    cases hresolve
    exact resolves_of_resolveWithin hwithin
  · cases hresolve

theorem Acyclic.exists_resolveWithin (hacyclic : facts.Acyclic)
    (hsteps : v.id ∈ facts.keys → facts.rank v.id < steps) :
    ∃ t, facts.resolveWithin (steps + 1) v = some t := by
  induction steps generalizing v with
  | zero =>
    have hfree : facts.find? v.id = none := by
      by_contra hsome
      exact absurd (hsteps (mem_keys_iff.mpr (Option.ne_none_iff_exists'.mp hsome))) (by omega)
    exact ⟨_, by rw [resolveWithin, hfree]⟩
  | succ steps ih =>
    rw [resolveWithin]
    split
    · exact ⟨_, rfl⟩
    · rename_i w hfind
      apply ih
      intro hfact
      have hmention : facts.Mentions v.id w.id := ⟨_, hfind, by simp⟩
      have hrank := hacyclic.rank_lt_rank (.single hmention) hfact
      have := hsteps (mem_keys_iff.mpr ⟨_, hfind⟩)
      omega
    · exact ⟨_, rfl⟩

theorem Acyclic.exists_resolve (hacyclic : facts.Acyclic) (v : Variable) :
    ∃ t, facts.resolve v = (.ok t : Outcome ε Ty) := by
  obtain ⟨t, ht⟩ := hacyclic.exists_resolveWithin (v := v) fun hfact => hacyclic.rank_lt_size hfact
  exact ⟨t, by rw [resolve, ht]⟩

theorem Acyclic.exists_resolveTop (hacyclic : facts.Acyclic) (t : Ty) :
    ∃ s, facts.resolveTop t = (.ok s : Outcome ε Ty) := by
  cases t with
  | var v => exact hacyclic.exists_resolve v
  | _ => exact ⟨_, rfl⟩

section Resolves

variable (hresolves : facts.Resolves v t)
include hresolves

theorem Resolves.find?_eq_none {w : Variable} (ht : t = .var w) : facts.find? w.id = none := by
  induction hresolves with
  | free hfree =>
    obtain rfl := Ty.var.inj ht
    exact hfree
  | follow _ _ ih => exact ih ht
  | stop _ hbuilt =>
    subst ht
    cases hbuilt

theorem Resolves.reflTransGen (hoccurs : t.occurs w = true) :
    ReflTransGen facts.Mentions v.id w := by
  induction hresolves with
  | free _ =>
    rw [Ty.occurs_var_iff.mp hoccurs]
  | @follow v next t hfind _ ih =>
    exact .head ⟨_, hfind, by simp⟩ (ih hoccurs)
  | stop hfind _ => exact .single ⟨_, hfind, hoccurs⟩

theorem Resolves.transGen (hbuilt : t.isVariable = false) (hoccurs : t.occurs w = true) :
    TransGen facts.Mentions v.id w := by
  induction hresolves with
  | free _ => cases hbuilt
  | follow hfind _ ih => exact .head ⟨_, hfind, by simp⟩ (ih hbuilt hoccurs)
  | stop hfind _ => exact .single ⟨_, hfind, hoccurs⟩

theorem Resolves.leads_iff (hfree : facts.find? w = none) :
    facts.Leads t w ↔ ReflTransGen facts.Mentions v.id w := by
  constructor
  · rintro ⟨x, hx, hreach⟩
    exact (hresolves.reflTransGen hx).trans hreach
  · intro hreach
    induction hresolves with
    | free _ => exact leads_var_iff.mpr hreach
    | follow hfind _ ih =>
      rcases ReflTransGen.cases_head hreach with rfl | ⟨x, ⟨s, hfind', hx⟩, hrest⟩
      · rw [hfree] at hfind
        cases hfind
      · obtain rfl := Option.some.inj (hfind.symm.trans hfind')
        rw [← Ty.occurs_var_iff.mp hx] at hrest
        exact ih hrest
    | stop hfind _ =>
      rcases ReflTransGen.cases_head hreach with rfl | ⟨x, ⟨s, hfind', hx⟩, hrest⟩
      · rw [hfree] at hfind
        cases hfind
      · obtain rfl := Option.some.inj (hfind.symm.trans hfind')
        exact ⟨x, hx, hrest⟩

end Resolves

/-! ### Reducing a type -/

theorem expand_induct
    (hvar : ∀ v r, replace v = .ok r → R (.var v) r)
    (hbuild : ∀ (head : Ty.Head) ts rs, Forall₂ R ts rs →
      R (head.build ts) (head.rebuild rs))
    (hexpand : t.expand replace = .ok r) : R t r := by
  induction t using Ty.inductBuild generalizing r with
  | var v => exact hvar v r (by simpa [Ty.expand] using hexpand)
  | build head ts ih =>
    rw [Ty.expand_build] at hexpand
    obtain ⟨rs, hrs, hr⟩ := Outcome.bind_eq_ok hexpand
    cases hr
    have hall := (Outcome.forall₂_of_mapM hrs).imp fun t r hr (ht : ∀ r, _ → R t r) => ht r hr
    exact hbuild head ts rs (forall₂_of_mem hall fun t ht r => ih t ht)

theorem expandVariable_eq_ok {next : Ty → Outcome ε Ty}
    (hexpand : facts.expandVariable next v = .ok r) :
    ∃ t, facts.Resolves v t ∧
      ((∃ w, t = .var w ∧ r = .var w) ∨ (t.isVariable = false ∧ next t = .ok r)) := by
  obtain ⟨t, ht, hnext⟩ := Outcome.bind_eq_ok hexpand
  refine ⟨t, resolves_of_resolve ht, ?_⟩
  cases t with
  | var w =>
    cases hnext
    exact .inl ⟨w, rfl, rfl⟩
  | _ => exact .inr ⟨rfl, hnext⟩

/-- Induction over the reduction of a type: a variable without a fact stays, another one is reduced
as the type in which it ends, and a type is reduced component by component. -/
theorem reduceWithin_induct (hfree : ∀ v w, facts.Resolves v (.var w) → R (.var v) (.var w))
    (hknown : ∀ v t r, facts.Resolves v t → t.isVariable = false → R t r → R (.var v) r)
    (hbuild : ∀ (head : Ty.Head) ts rs, Forall₂ R ts rs →
      R (head.build ts) (head.rebuild rs))
    (hreduce : facts.reduceWithin depth t = (.ok r : Outcome ε Ty)) :
    R t r := by
  induction depth generalizing t r with
  | zero =>
    refine expand_induct (fun v r hr => ?_) hbuild hreduce
    obtain ⟨t, hresolves, ⟨w, rfl, rfl⟩ | ⟨-, hnext⟩⟩ := expandVariable_eq_ok hr
    · exact hfree v w hresolves
    · cases hnext
  | succ depth ih =>
    refine expand_induct (fun v r hr => ?_) hbuild hreduce
    obtain ⟨t, hresolves, ⟨w, rfl, rfl⟩ | ⟨hbuilt, hnext⟩⟩ := expandVariable_eq_ok hr
    · exact hfree v w hresolves
    · exact hknown v t r hresolves hbuilt (ih hnext)

theorem occurs_iff_leads_of_forall₂ {u : VarId} {rs : List Ty}
    (hall : Forall₂
      (fun t r => r.occurs u = true ↔ facts.find? u = none ∧ facts.Leads t u) ts rs) :
    (∃ r ∈ rs, r.occurs u = true) ↔ facts.find? u = none ∧ ∃ t ∈ ts, facts.Leads t u := by
  constructor
  · rintro ⟨r, hr, hoccurs⟩
    obtain ⟨t, ht, hiff⟩ := exists_left_of_forall₂ hall hr
    exact ⟨(hiff.mp hoccurs).1, t, ht, (hiff.mp hoccurs).2⟩
  · rintro ⟨hfree, t, ht, hleads⟩
    obtain ⟨r, hr, hiff⟩ := exists_right_of_forall₂ hall ht
    exact ⟨r, hr, hiff.mpr ⟨hfree, hleads⟩⟩

theorem occurs_reduceWithin_iff (hreduce : facts.reduceWithin depth t = (.ok r : Outcome ε Ty))
    (u : VarId) : r.occurs u = true ↔ facts.find? u = none ∧ facts.Leads t u := by
  refine reduceWithin_induct
    (R := fun t r => r.occurs u = true ↔ facts.find? u = none ∧ facts.Leads t u)
    ?_ ?_ ?_ hreduce
  · intro v w hresolves
    have hfree := hresolves.find?_eq_none rfl
    rw [Ty.occurs_var_iff]
    constructor
    · rintro rfl
      exact ⟨hfree, leads_var_iff.mpr (hresolves.reflTransGen (by simp))⟩
    · rintro ⟨hu, hleads⟩
      have hreach := (hresolves.leads_iff hu).mpr (leads_var_iff.mp hleads)
      exact eq_of_reflTransGen_of_free hfree (leads_var_iff.mp hreach)
  · intro v t r hresolves _ hiff
    rw [hiff, leads_var_iff]
    exact and_congr_right fun hu => hresolves.leads_iff hu
  · intro head ts rs hall
    rw [Ty.occurs_rebuild_iff, leads_build_iff]
    exact occurs_iff_leads_of_forall₂ hall

theorem resolve_ne_failed (v : Variable) (error : ε) : facts.resolve v ≠ .failed error := by
  unfold resolve
  split <;> simp

theorem resolveTop_ne_failed (t : Ty) (error : ε) : facts.resolveTop t ≠ .failed error := by
  cases t with
  | var v => exact resolve_ne_failed v error
  | _ => simp [resolveTop]

theorem expand_ne_failed
    (hreplace : ∀ v, replace v ≠ .failed error) (t : Ty) : t.expand replace ≠ .failed error := by
  induction t using Ty.inductBuild with
  | var v => simpa [Ty.expand] using hreplace v
  | build head ts ih =>
    rw [Ty.expand_build]
    exact Outcome.bind_ne_failed (Outcome.mapM_ne_failed ih) fun _ => nofun

theorem expandVariable_ne_failed {next : Ty → Outcome ε Ty}
    (hnext : ∀ t, next t ≠ .failed error) (v : Variable) :
    facts.expandVariable next v ≠ .failed error := by
  refine Outcome.bind_ne_failed (resolve_ne_failed v error) fun t => ?_
  split
  · exact nofun
  · exact hnext _

theorem reduceWithin_ne_failed (depth : Nat) (t : Ty) (error : ε) :
    facts.reduceWithin depth t ≠ .failed error := by
  induction depth generalizing t with
  | zero => exact expand_ne_failed (expandVariable_ne_failed (by simp)) t
  | succ depth ih => exact expand_ne_failed (expandVariable_ne_failed ih) t

theorem exists_mapM_expand (hts : ∀ t ∈ ts, ∃ r, t.expand replace = .ok r) :
    ∃ rs, ts.mapM (Ty.expand replace) = .ok rs := by
  induction ts with
  | nil => exact ⟨[], rfl⟩
  | cons t ts ih =>
    obtain ⟨r, hr⟩ := hts t (.head _)
    obtain ⟨rs, hrs⟩ := ih fun t ht => hts t (.tail _ ht)
    exact ⟨r :: rs, by simp [hr, hrs, pure]⟩

theorem exists_expand
    (hreplace : ∀ v : Variable, t.occurs v.id = true → ∃ r, replace v = .ok r) :
    ∃ r, t.expand replace = .ok r := by
  induction t using Ty.inductBuild with
  | var v => simpa [Ty.expand] using hreplace v (by simp)
  | build head ts ih =>
    obtain ⟨rs, hrs⟩ := exists_mapM_expand fun t ht => ih t ht fun v hv =>
      hreplace v (Ty.occurs_build_iff.mpr ⟨t, ht, hv⟩)
    exact ⟨_, by rw [Ty.expand_build, hrs]; rfl⟩

/-- Depth above every rank is enough for a reduction to end. -/
theorem Acyclic.exists_reduceWithin (hacyclic : facts.Acyclic)
    (hdepth : ∀ v, t.occurs v = true → v ∈ facts.keys → facts.rank v < depth) :
    ∃ r, facts.reduceWithin depth t = (.ok r : Outcome ε Ty) := by
  induction depth generalizing t with
  | zero =>
    refine exists_expand fun v hv => ?_
    obtain ⟨s, hs⟩ := hacyclic.exists_resolve (ε := ε) v
    have hfree : facts.find? v.id = none := by
      by_contra hsome
      have hfact := mem_keys_iff.mpr (Option.ne_none_iff_exists'.mp hsome)
      exact absurd (hdepth v.id hv hfact) (by omega)
    cases resolves_of_resolve hs with
    | free _ => exact ⟨.var v, by simp [expandVariable, hs, pure]⟩
    | follow hfind _ | stop hfind _ => simp [hfree] at hfind
  | succ depth ih =>
    refine exists_expand fun v hv => ?_
    obtain ⟨s, hs⟩ := hacyclic.exists_resolve (ε := ε) v
    by_cases hvariable : s.isVariable = true
    · obtain ⟨w, rfl⟩ := Ty.isVariable_iff.mp hvariable
      exact ⟨.var w, by simp [expandVariable, hs, pure]⟩
    · have hbuilt : s.isVariable = false := by simpa using hvariable
      obtain ⟨r, hr⟩ := ih (t := s) fun w hw hfact => by
        have hreach := (resolves_of_resolve hs).transGen hbuilt hw
        have hrank := hacyclic.rank_lt_rank hreach hfact
        obtain ⟨x, ⟨t', hfind, -⟩, -⟩ := TransGen.head'_iff.mp hreach
        have := hdepth v.id hv (mem_keys_iff.mpr ⟨t', hfind⟩)
        omega
      refine ⟨r, ?_⟩
      simp only [expandVariable, hs, Outcome.bind_ok]
      cases s with
      | var w => cases hbuilt
      | _ => exact hr

theorem Acyclic.exists_reduce (hacyclic : facts.Acyclic) (t : Ty) :
    ∃ r, facts.reduce t = (.ok r : Outcome ε Ty) :=
  hacyclic.exists_reduceWithin fun _ _ hfact => hacyclic.rank_lt_size hfact

end Facts

end TypeSearch
