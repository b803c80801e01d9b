import TypeSearch.Proofs.Facts.Growth

/-!
# Renaming variables

A renaming that is injective on the variables of some types keeps apart what was apart among them,
so it commutes with building unions.
-/

namespace TypeSearch.Ty

open List

variable {ρ : VarId → VarId} {S : Set VarId} {t u : Ty} {ts us : List Ty}

mutual

def rename (ρ : VarId → VarId) : Ty → Ty
  | var v => var ⟨ρ v.id, v.hint⟩
  | parametric name params => parametric name (renameAll ρ params)
  | curried params => curried (renameAll ρ params)
  | union members => union (renameAll ρ members)

def renameAll (ρ : VarId → VarId) : List Ty → List Ty
  | [] => []
  | t :: ts => rename ρ t :: renameAll ρ ts

end

theorem renameAll_eq_map (ts : List Ty) : renameAll ρ ts = ts.map (rename ρ) :=
  eq_map_of_cons rfl (fun _ _ => rfl) ts

@[simp]
theorem rename_var (v : Variable) : (var v).rename ρ = var ⟨ρ v.id, v.hint⟩ := rfl

theorem rename_build (head : Head) (ts : List Ty) :
    (head.build ts).rename ρ = head.build (ts.map (rename ρ)) := by
  cases head <;> simp [Head.build, rename, renameAll_eq_map]

@[simp]
theorem rename_parametric (name : String) (params : List Ty) :
    (parametric name params).rename ρ = parametric name (params.map (rename ρ)) :=
  rename_build (.parametric name) params

@[simp]
theorem rename_curried (params : List Ty) :
    (curried params).rename ρ = curried (params.map (rename ρ)) :=
  rename_build .curried params

@[simp]
theorem rename_union (members : List Ty) :
    (union members).rename ρ = union (members.map (rename ρ)) :=
  rename_build .union members

theorem sameAll_rename_of_over (ts us : List Ty) (hts : ∀ t ∈ ts, t.Over S)
    (hus : ∀ u ∈ us, u.Over S)
    (ih : ∀ t ∈ ts, ∀ {u : Ty}, t.Over S → u.Over S → same (t.rename ρ) (u.rename ρ) = same t u) :
    sameAll (ts.map (rename ρ)) (us.map (rename ρ)) = sameAll ts us := by
  induction ts generalizing us with
  | nil => cases us <;> rfl
  | cons t ts ihlist =>
    cases us with
    | nil => rfl
    | cons u us =>
      rw [forall_mem_cons] at hts hus ih
      simp only [map_cons, sameAll, ih.1 hts.1 hus.1, ihlist us hts.2 hus.2 ih.2]

theorem same_rename (hinj : Set.InjOn ρ S) (ht : t.Over S) (hu : u.Over S) :
    same (t.rename ρ) (u.rename ρ) = same t u := by
  induction t using inductBuild generalizing u with
  | var v =>
    cases u with
    | var w =>
      have hv : v.id ∈ S := ht _ (occurs_var_iff.mpr rfl)
      have hw : w.id ∈ S := hu _ (occurs_var_iff.mpr rfl)
      rw [rename_var, rename_var, same, same, Bool.eq_iff_iff, beq_iff_eq, beq_iff_eq]
      exact hinj.eq_iff hv hw
    | _ => simp [same]
  | build head ts ih =>
    induction u using inductBuild with
    | var w => cases head <;> rfl
    | build head' us =>
      have hall := sameAll_rename_of_over ts us (over_build_iff.mp ht) (over_build_iff.mp hu) ih
      rw [rename_build, rename_build]
      cases head <;> cases head' <;> simp [Head.build, same, hall]

/-- The second type is the first one, which is over `S`, with its variables renamed. -/
structure Renamed (ρ : VarId → VarId) (S : Set VarId) (t u : Ty) : Prop where
  isOver : t.Over S
  same : same u (t.rename ρ) = true

theorem Renamed.same_eq (hinj : Set.InjOn ρ S) {t' u' : Ty} (ht : Renamed ρ S t u)
    (ht' : Renamed ρ S t' u') : Ty.same t t' = Ty.same u u' := by
  rw [← same_rename hinj ht.isOver ht'.isOver, Bool.eq_iff_iff]
  exact (same_congr ht.same ht'.same).symm

theorem renamed_var {v w : Variable} (hv : v.id ∈ S) (hw : w.id = ρ v.id) :
    Renamed ρ S (.var v) (.var w) := by
  refine ⟨fun id hid => ?_, ?_⟩
  · rwa [← occurs_var_iff.mp hid]
  · rw [rename_var, same_var_iff]
    exact ⟨_, rfl, hw⟩

theorem forall₂_renamed (hall : Forall₂ (Renamed ρ S) ts us) :
    (∀ t ∈ ts, t.Over S) ∧
      Forall₂ (fun u t => Ty.same u t = true) us (ts.map (rename ρ)) := by
  induction hall with
  | nil => exact ⟨by simp, .nil⟩
  | cons hhead _ ih => exact ⟨forall_mem_cons.mpr ⟨hhead.isOver, ih.1⟩, .cons hhead.same ih.2⟩

theorem renamed_build (head : Head) (hall : Forall₂ (Renamed ρ S) ts us) :
    Renamed ρ S (head.build ts) (head.build us) := by
  obtain ⟨hover, hsame⟩ := forall₂_renamed hall
  refine ⟨over_build_iff.mpr hover, ?_⟩
  rw [rename_build]
  exact (same_build_iff head).mpr ⟨_, rfl, hsame⟩

theorem Renamed.alternatives (hrenamed : Renamed ρ S t u) :
    Forall₂ (Renamed ρ S) t.alternatives u.alternatives := by
  have hsame := hrenamed.same
  induction t using inductBuild with
  | var v =>
    obtain ⟨w, rfl, -⟩ := same_var_iff.mp (same_symm hsame)
    exact .cons hrenamed .nil
  | build head ts =>
    rw [rename_build] at hsame
    obtain ⟨us, rfl, hall⟩ := (same_build_iff head).mp (same_symm hsame)
    cases head with
    | union =>
      rw [forall₂_map_left_iff] at hall
      exact forall₂_of_mem (hall.imp fun _ _ hmember hin => ⟨hin, same_symm hmember⟩)
        (over_build_iff.mp hrenamed.isOver)
    | parametric | curried => exact .cons hrenamed .nil

theorem renamed_unionOf (hinj : Set.InjOn ρ S) (hall : Forall₂ (Renamed ρ S) ts us) :
    Renamed ρ S (unionOf ts) (unionOf us) :=
  unionOf_rel (fun _ _ _ _ ht ht' => ht.same_eq hinj ht') (renamed_build .union)
    Renamed.alternatives hall

theorem renamed_rebuild (hinj : Set.InjOn ρ S) (head : Head)
    (hall : Forall₂ (Renamed ρ S) ts us) :
    Renamed ρ S (head.rebuild ts) (head.rebuild us) := by
  cases head with
  | union => exact renamed_unionOf hinj hall
  | parametric name => exact renamed_build (.parametric name) hall
  | curried => exact renamed_build .curried hall

end TypeSearch.Ty
