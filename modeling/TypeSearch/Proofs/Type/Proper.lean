import TypeSearch.Facts.Basic
import TypeSearch.Proofs.Outcome
import TypeSearch.Proofs.Type.Union

/-!
# Proper types

A type is proper if every union in it has a member and every function in it has a result. Types that
are made from proper ones by substitution or by forming a union of some of them are proper again, so
nobody who starts from proper types ever forms the union of no types.
-/

namespace TypeSearch.Ty

open List

variable {params members ts us : List Ty} {t : Ty} {replace : Variable → Ty}

inductive Proper : Ty → Prop
  | var (v : Variable) : Proper (.var v)
  | parametric {name : String} {params : List Ty} (hparams : ∀ t ∈ params, Proper t) :
      Proper (.parametric name params)
  | curried {params : List Ty} (hresult : params ≠ []) (hparams : ∀ t ∈ params, Proper t) :
      Proper (.curried params)
  | union {members : List Ty} (hmember : members ≠ []) (hmembers : ∀ t ∈ members, Proper t) :
      Proper (.union members)

attribute [simp] Proper.var

@[simp]
theorem proper_parametric_iff {name : String} :
    (parametric name params).Proper ↔ ∀ t ∈ params, t.Proper :=
  ⟨fun hproper => by cases hproper with | parametric hparams => exact hparams, .parametric⟩

@[simp]
theorem proper_curried_iff : (curried params).Proper ↔ params ≠ [] ∧ ∀ t ∈ params, t.Proper :=
  ⟨fun hproper => by cases hproper with | curried hresult hparams => exact ⟨hresult, hparams⟩,
    fun hproper => .curried hproper.1 hproper.2⟩

@[simp]
theorem proper_union_iff : (union members).Proper ↔ members ≠ [] ∧ ∀ t ∈ members, t.Proper :=
  ⟨fun hproper => by cases hproper with | union hmember hmembers => exact ⟨hmember, hmembers⟩,
    fun hproper => .union hproper.1 hproper.2⟩

theorem proper_void : void.Proper := .parametric nofun

theorem proper_boolean : boolean.Proper := .parametric nofun

@[simp]
theorem proper_list_iff {element : Ty} : (list element).Proper ↔ element.Proper := by
  simp [list]

@[simp]
theorem proper_map_iff {key value : Ty} : (map key value).Proper ↔ key.Proper ∧ value.Proper := by
  simp [map]

theorem Proper.alternatives (hproper : t.Proper) :
    t.alternatives ≠ [] ∧ ∀ u ∈ t.alternatives, u.Proper := by
  cases t with
  | union members => exact proper_union_iff.mp hproper
  | _ => exact ⟨cons_ne_nil _ _, fun u hu => mem_singleton.mp hu ▸ hproper⟩

theorem proper_unionOf (hmember : members ≠ []) (hmembers : ∀ t ∈ members, t.Proper) :
    (unionOf members).Proper := by
  have hdistinct : ∀ t ∈ distinct members, t.Proper := by
    intro t ht
    obtain ⟨member, hin, halternative⟩ := exists_of_mem_distinct ht
    exact (hmembers member hin).alternatives.2 t halternative
  rcases unionOf_eq members with heq | heq
  · obtain ⟨first, hfirst⟩ := exists_mem_of_ne_nil _ hmember
    obtain ⟨t, ht⟩ := exists_mem_of_ne_nil _ (hmembers first hfirst).alternatives.1
    obtain ⟨u, hu, -⟩ := exists_mem_distinct hfirst ht
    rw [heq]
    exact .union (ne_nil_of_mem hu) hdistinct
  · exact hdistinct _ (heq ▸ mem_singleton_self _)

theorem Proper.of_build {head : Head} (hproper : (head.build ts).Proper) : ∀ t ∈ ts, t.Proper := by
  cases head with
  | parametric name => exact proper_parametric_iff.mp hproper
  | curried => exact (proper_curried_iff.mp hproper).2
  | union => exact (proper_union_iff.mp hproper).2

theorem Proper.rebuild {head : Head} (hproper : (head.build ts).Proper)
    (hlength : us.length = ts.length) (hus : ∀ u ∈ us, u.Proper) : (head.rebuild us).Proper := by
  have hsome (hts : ts ≠ []) : us ≠ [] :=
    ne_nil_of_length_pos (hlength ▸ length_pos_of_ne_nil hts)
  cases head with
  | parametric name => exact .parametric hus
  | curried => exact .curried (hsome (proper_curried_iff.mp hproper).1) hus
  | union => exact proper_unionOf (hsome (proper_union_iff.mp hproper).1) hus

/-! ### Substitution -/

theorem Proper.subst (hreplace : ∀ v, (replace v).Proper) (hproper : t.Proper) :
    (t.subst replace).Proper := by
  induction t using inductBuild with
  | var v => exact hreplace v
  | build head ts ih =>
    rw [subst_build]
    exact hproper.rebuild (length_map _)
      (forall_mem_map.mpr fun t ht => ih t ht (hproper.of_build t ht))

theorem Proper.substitute {pairs : List (VarId × Ty)} (hpairs : ∀ pair ∈ pairs, pair.2.Proper)
    (hproper : t.Proper) : (t.substitute pairs).Proper := by
  unfold Ty.substitute
  split
  · exact hproper
  · apply hproper.subst
    intro v
    cases hlookup : pairs.reverse.lookup v.id with
    | none => exact .var v
    | some u =>
      obtain ⟨before, after, hsplit, -⟩ := lookup_eq_some_iff.mp hlookup
      have hmem : (v.id, u) ∈ pairs.reverse := by simp [hsplit]
      exact hpairs _ (mem_reverse.mp hmem)

theorem Proper.instantiate (hproper : t.Proper) (quantified : List VarId) (fresher : Fresher) :
    (t.instantiate quantified fresher).1.Proper := by
  unfold Ty.instantiate
  split
  · exact hproper
  · apply hproper.substitute
    intro pair hpair
    obtain ⟨v, -, hv⟩ := mem_map.mp (of_mem_zip hpair).2
    exact hv ▸ .var v

/-! ### Expansion -/

section Expand

variable {ε : Type} {replace : Variable → Outcome ε Ty} {fails : ε → Prop} {P : Prop}

theorem expandAll_eq_mapM (replace : Variable → Outcome ε Ty) (ts : List Ty) :
    expandAll replace ts = ts.mapM (expand replace) := by
  induction ts with
  | nil => rfl
  | cons t ts ih => rw [expandAll, ih, mapM_cons]

theorem expand_build (replace : Variable → Outcome ε Ty) (head : Head) (ts : List Ty) :
    (head.build ts).expand replace = (do return head.rebuild (← ts.mapM (expand replace))) := by
  rw [← expandAll_eq_mapM]
  cases head <;> rfl

theorem expand_meets (hreplace : ∀ v, (replace v).Meets (fun u => P → u.Proper) fails) (t : Ty)
    (hproper : P → t.Proper) : (expand replace t).Meets (fun u => P → u.Proper) fails := by
  induction t using inductBuild with
  | var v => exact hreplace v
  | build head ts ih =>
    rw [expand_build]
    have hts := Outcome.meets_mapM fun t ht => ih t ht fun hP => (hproper hP).of_build t ht
    exact hts.bind fun us hus hP => (hproper hP).rebuild hus.1 fun u hu => hus.2 u hu hP

end Expand

end TypeSearch.Ty
