import TypeSearch.Proofs.Type.Fresh
import TypeSearch.Proofs.Type.Renaming
import TypeSearch.Proofs.Type.WellFormed

/-!
# Instances rename the quantified variables

An instance of a type is built by substitution, which builds every union anew. New variables are not
confused with those of the type, nor with each other, so no members of a union become equal: the
instance is the type itself with other variables in the place of the quantified ones.
-/

namespace TypeSearch

open List

/-! ### Distinct values for distinct variables -/

section Override

variable {α : Type} {ids : List VarId} {values : List α} {rest : VarId → α} {id : VarId}

theorem override_mem (hid : id ∈ ids) (hlength : ids.length = values.length) :
    override ids values rest id ∈ values := by
  induction ids generalizing values rest with
  | nil => cases hid
  | cons first ids ih =>
    cases values with
    | nil => cases hlength
    | cons value values =>
      rw [override]
      by_cases hmem : id ∈ ids
      · exact .tail _ (ih hmem (Nat.succ.inj hlength))
      · obtain rfl := (mem_cons.mp hid).resolve_right hmem
        rw [override_of_not_mem hmem, Function.update_self]
        exact .head _

theorem override_injOn (hlength : ids.length = values.length) (hvalues : values.Nodup) :
    Set.InjOn (override ids values rest) {id | id ∈ ids} := by
  induction ids generalizing values rest with
  | nil =>
    intro id hid
    cases hid
  | cons first ids ih =>
    cases values with
    | nil => cases hlength
    | cons value values =>
      obtain ⟨hnew, hnodup⟩ := nodup_cons.mp hvalues
      -- the value of `first` is no later value, unless `first` comes again
      have hfirst : ∀ id ∉ ids, id ∈ first :: ids → ∀ other ∈ ids,
          override (first :: ids) (value :: values) rest id ≠
            override (first :: ids) (value :: values) rest other := by
        intro id hout hin other hother heq
        obtain rfl := (mem_cons.mp hin).resolve_right hout
        rw [override, override_of_not_mem hout, Function.update_self] at heq
        exact hnew (heq ▸ override_mem hother (Nat.succ.inj hlength))
      intro x hx y hy heq
      by_cases hxin : x ∈ ids
      · by_cases hyin : y ∈ ids
        · exact ih (Nat.succ.inj hlength) hnodup hxin hyin heq
        · exact absurd heq.symm (hfirst y hyin hy x hxin)
      · by_cases hyin : y ∈ ids
        · exact absurd heq (hfirst x hxin hx y hyin)
        · rw [(mem_cons.mp hx).resolve_right hxin, (mem_cons.mp hy).resolve_right hyin]

end Override

namespace Ty

variable {f : Variable → Variable} {ρ : VarId → VarId} {S : Set VarId} {t : Ty} {x : VarId}
  {quantified : List VarId} {fresher : Fresher}

/-! ### Other variables -/

mutual

/-- Puts other variables in the place of those of the type and leaves the rest as it is. -/
def relabel (f : Variable → Variable) : Ty → Ty
  | var v => var (f v)
  | parametric name params => parametric name (relabelAll f params)
  | curried params => curried (relabelAll f params)
  | union members => union (relabelAll f members)

def relabelAll (f : Variable → Variable) : List Ty → List Ty
  | [] => []
  | t :: ts => relabel f t :: relabelAll f ts

end

theorem relabelAll_eq_map (ts : List Ty) : relabelAll f ts = ts.map (relabel f) :=
  eq_map_of_cons rfl (fun _ _ => rfl) ts

theorem relabel_build (head : Head) (ts : List Ty) :
    (head.build ts).relabel f = head.build (ts.map (relabel f)) := by
  cases head <;> simp [Head.build, relabel, relabelAll_eq_map]

theorem relabel_eq_self (hf : ∀ v, f v = v) (t : Ty) : t.relabel f = t := by
  induction t using inductBuild with
  | var v => rw [relabel, hf]
  | build head ts ih => rw [relabel_build, map_congr_left ih, map_id']

theorem renamed_relabel (hf : ∀ v, (f v).id = ρ v.id) (ht : t.Over S) :
    Renamed ρ S t (t.relabel f) := by
  induction t using inductBuild with
  | var v => exact renamed_var (ht _ (occurs_var_iff.mpr rfl)) (hf v)
  | build head ts ih =>
    rw [relabel_build]
    refine renamed_build head ?_
    rw [forall₂_map_right_iff, forall₂_same]
    exact fun t hmem => ih t hmem (over_build_iff.mp ht t hmem)

theorem WellFormed.subst_eq_relabel (hf : ∀ v, (f v).id = ρ v.id) (hinj : Set.InjOn ρ S)
    (hwf : t.WellFormed) (ht : t.Over S) : (t.subst fun v => .var (f v)) = t.relabel f := by
  induction hwf with
  | var v => rfl
  | parametric _ ih | curried _ ih =>
    rw [subst, relabel, substAll_eq_map, relabelAll_eq_map]
    exact congrArg _ (map_congr_left fun t hmem =>
      ih t hmem ((over_iff_components rfl).mp ht t hmem))
  | @union members _ hflat hapart hseveral ih =>
    have hover := (over_iff_components rfl).mp ht
    rw [subst, relabel, substAll_eq_map, relabelAll_eq_map,
      map_congr_left fun t hmem => ih t hmem (hover t hmem)]
    refine unionOf_eq_union (forall_mem_map.mpr fun t hmem => ?_) ?_ ?_
    · have hmember := hflat t hmem
      cases t with
      | union members => cases hmember
      | _ => rfl
    · refine pairwise_map.mpr (hapart.imp_of_mem fun {t u} hmem hmem' hsame => ?_)
      rw [← (renamed_relabel hf (hover t hmem)).same_eq hinj (renamed_relabel hf (hover u hmem'))]
      exact hsame
    · rw [length_map]
      omega

theorem exists_occurs_of_relabel (hf : ∀ v, (f v).id = ρ v.id)
    (hoccurs : (t.relabel f).occurs x = true) : ∃ other, t.occurs other = true ∧ ρ other = x := by
  induction t using inductBuild with
  | var v => exact ⟨v.id, occurs_var_iff.mpr rfl, (hf v).symm.trans (occurs_var_iff.mp hoccurs)⟩
  | build head ts ih =>
    rw [relabel_build, occurs_build_iff] at hoccurs
    obtain ⟨_, hmem, hin⟩ := hoccurs
    obtain ⟨t, ht, rfl⟩ := mem_map.mp hmem
    obtain ⟨other, hother, heq⟩ := ih t ht hin
    exact ⟨other, occurs_build_iff.mpr ⟨t, ht, hother⟩, heq⟩

/-! ### Instances -/

section Instances

variable (hwf : t.WellFormed) (hvars : ∀ id, t.occurs id = true → id ≤ fresher.last)
  (hquantified : ∀ id ∈ quantified, id ≤ fresher.last)
  (hroom : fresher.last.toNat + quantified.length < 2 ^ 64)

include hroom

theorem override_upcoming_new (hx : x ∈ quantified) :
    fresher.last.toNat < (override quantified (fresher.upcoming quantified.length) id x).toNat ∧
      (override quantified (fresher.upcoming quantified.length) id x).toNat ≤
        fresher.last.toNat + quantified.length :=
  Fresher.mem_upcoming hroom (override_mem hx (fresher.length_upcoming _).symm)

theorem override_upcoming_injOn :
    Set.InjOn (override quantified (fresher.upcoming quantified.length) id)
      {x | x ≤ fresher.last} := by
  have hnew : ∀ x ∈ quantified, ∀ y ≤ fresher.last,
      override quantified (fresher.upcoming quantified.length) id x ≠ y := by
    rintro x hx _ hy rfl
    exact absurd (UInt64.le_iff_toNat_le.mp hy) (Nat.not_le.mpr (override_upcoming_new hroom hx).1)
  intro x hx y hy heq
  by_cases hxin : x ∈ quantified
  · by_cases hyin : y ∈ quantified
    · exact override_injOn (fresher.length_upcoming _).symm (Fresher.nodup_upcoming hroom) hxin hyin
        heq
    · rw [override_of_not_mem hyin] at heq
      exact absurd heq (hnew x hxin y hy)
  · rw [override_of_not_mem hxin] at heq
    by_cases hyin : y ∈ quantified
    · exact absurd heq.symm (hnew y hyin x hx)
    · rwa [override_of_not_mem hyin] at heq

include hwf hvars

theorem exists_relabel :
    ∃ f : Variable → Variable,
      (t.instantiate quantified fresher).1 = t.relabel f ∧
      (∀ v, v.id ∉ quantified → f v = v) ∧
      (∀ v w, v.id = w.id → v.id ∈ quantified → f v = f w) ∧
      ∀ v, (f v).id = override quantified (fresher.upcoming quantified.length) id v.id := by
  by_cases hsome : quantified = []
  · subst hsome
    exact ⟨fun v => v, (relabel_eq_self (fun _ => rfl) t).symm, fun _ _ => rfl,
      fun _ _ _ hv => absurd hv not_mem_nil, fun _ => rfl⟩
  · obtain ⟨f, hfree, hsame, hids, hsubst⟩ := t.exists_instantiate hsome fresher
    exact ⟨f, hsubst.trans (hwf.subst_eq_relabel hids (override_upcoming_injOn hroom) hvars),
      hfree, hsame, hids⟩

theorem occurs_instantiate (hoccurs : (t.instantiate quantified fresher).1.occurs x = true) :
    (t.occurs x = true ∧ x ∉ quantified) ∨
      fresher.last.toNat < x.toNat ∧ x.toNat ≤ fresher.last.toNat + quantified.length := by
  obtain ⟨f, hrelabel, -, -, hids⟩ := exists_relabel hwf hvars hroom
  rw [hrelabel] at hoccurs
  obtain ⟨other, hother, rfl⟩ := exists_occurs_of_relabel hids hoccurs
  by_cases hmem : other ∈ quantified
  · exact .inr (override_upcoming_new hroom hmem)
  · rw [override_of_not_mem hmem]
    exact .inl ⟨hother, hmem⟩

include hquantified in
/-- **Instances rename and capture nothing.** If the source of variables is past those of a
well-formed type and of the list of quantified ones, an instance is the type with one new variable
in the place of each quantified one and nothing else changed. No quantified variable is left, and
two instances, one after the other, share only variables of the type that are not quantified. -/
theorem instantiate_renames :
    (∃ f : Variable → Variable,
      (t.instantiate quantified fresher).1 = t.relabel f ∧
      (∀ v, v.id ∉ quantified → f v = v) ∧
      (∀ v w, v.id = w.id → v.id ∈ quantified → f v = f w) ∧
      (∀ v, v.id ∈ quantified → fresher.last < (f v).id) ∧
      ∀ v w, v.id ∈ quantified → w.id ∈ quantified → (f v).id = (f w).id → v.id = w.id) ∧
    (∀ id ∈ quantified, (t.instantiate quantified fresher).1.occurs id = false) ∧
    (fresher.last.toNat + 2 * quantified.length < 2 ^ 64 → ∀ id,
      (t.instantiate quantified fresher).1.occurs id = true →
      (t.instantiate quantified (t.instantiate quantified fresher).2).1.occurs id = true →
        t.occurs id = true ∧ id ∉ quantified) := by
  refine ⟨?_, fun x hx => ?_, fun htwice x hfirst hsecond => ?_⟩
  · obtain ⟨f, hrelabel, hfree, hsame, hids⟩ := exists_relabel hwf hvars hroom
    refine ⟨f, hrelabel, hfree, hsame, fun v hv => ?_, fun v w hv hw heq => ?_⟩
    · rw [hids, UInt64.lt_iff_toNat_lt]
      exact (override_upcoming_new hroom hv).1
    · rw [hids, hids] at heq
      exact override_injOn (fresher.length_upcoming _).symm (Fresher.nodup_upcoming hroom) hv hw heq
  · rw [Bool.eq_false_iff]
    intro hoccurs
    rcases occurs_instantiate hwf hvars hroom hoccurs with ⟨-, hnot⟩ | ⟨hnew, -⟩
    · exact hnot hx
    · exact absurd (UInt64.le_iff_toNat_le.mp (hquantified x hx)) (Nat.not_le.mpr hnew)
  · rw [instantiate_snd] at hsecond
    have hlast := Fresher.toNat_skip hroom
    have hlater : fresher.last ≤ (fresher.skip quantified.length).last := by
      rw [UInt64.le_iff_toNat_le]
      omega
    rcases occurs_instantiate hwf hvars hroom hfirst with hold | ⟨-, hsmall⟩
    · exact hold
    · rcases occurs_instantiate hwf (fun x hx => UInt64.le_trans (hvars x hx) hlater) (by omega)
        hsecond with hold | ⟨hbig, -⟩
      · exact hold
      · omega

end Instances

/-- The type `a -> List<a> | b`. -/
def unionResult : Ty :=
  .curried [.var ⟨1, "a"⟩, .union [.list (.var ⟨1, "x"⟩), .var ⟨2, "b"⟩]]

theorem wellFormed_unionResult : unionResult.WellFormed := by
  have hvar (v : Variable) : (Ty.var v).WellFormed := .var v
  refine .curried (forall_mem_cons.mpr ⟨hvar _, forall_mem_singleton.mpr ?_⟩)
  refine .union (forall_mem_cons.mpr ⟨?_, forall_mem_singleton.mpr (hvar _)⟩) ?_
    (by decide) (by decide)
  · exact .parametric (forall_mem_singleton.mpr (hvar _))
  · exact forall_mem_cons.mpr ⟨rfl, forall_mem_singleton.mpr rfl⟩

/-- `a` is quantified twice, and so is a variable that does not occur. -/
theorem instantiate_renames_of_union :
    unionResult.WellFormed ∧ (∀ x, unionResult.occurs x = true → x ≤ 9) ∧
    (∀ x ∈ [1, 7, 1], x ≤ (9 : UInt64)) ∧ (9 : UInt64).toNat + [1, 7, 1].length < 2 ^ 64 ∧
    (∃ f : Variable → Variable, (unionResult.instantiate [1, 7, 1] ⟨9⟩).1 = unionResult.relabel f ∧
      f ⟨2, "b"⟩ = ⟨2, "b"⟩ ∧ f ⟨1, "x"⟩ = f ⟨1, "a"⟩ ∧ 9 < (f ⟨1, "a"⟩).id) ∧
    (unionResult.instantiate [1, 7, 1] ⟨9⟩).1.occurs 1 = false := by
  have hvars : ∀ x, unionResult.occurs x = true → x ≤ 9 := by
    intro x hx
    simp only [unionResult, list, occurs, occursAny, Bool.or_false, Bool.or_eq_true,
      beq_iff_eq] at hx
    rcases hx with rfl | rfl | rfl <;> decide
  have hquantified : ∀ x ∈ [1, 7, 1], x ≤ (9 : UInt64) := by simp
  have hroom : (9 : UInt64).toNat + [1, 7, 1].length < 2 ^ 64 := by simp
  obtain ⟨⟨f, hrelabel, hfree, hsame, hnew, -⟩, hnone, -⟩ :=
    @instantiate_renames _ _ ⟨9⟩ wellFormed_unionResult hvars hquantified hroom
  exact ⟨wellFormed_unionResult, hvars, hquantified, hroom, ⟨f, hrelabel, hfree _ (by decide),
    hsame _ _ rfl (by decide), hnew _ (by decide)⟩, hnone 1 (by decide)⟩

end Ty

end TypeSearch
