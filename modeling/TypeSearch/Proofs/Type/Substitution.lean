import TypeSearch.Proofs.Facts.Solution
import TypeSearch.Proofs.Type.Normal

/-!
# Substitution in unions

A substitution may make members of a union equal that were apart, and may put a union in the place
of a member. Flattening and dropping repetitions before the substitution changes nothing about what
is left after it: `subst_unionOf` says that substituting normal types commutes with building unions.
-/

namespace TypeSearch

open List

section Firsts

variable {α β : Type} {same : α → α → Bool} {same' : β → β → Bool}

theorem firsts_of_represented {kept items : List α}
    (hitems : ∀ item ∈ items, ∃ other ∈ kept, same other item = true) :
    firsts same kept items = kept := by
  induction items with
  | nil => rfl
  | cons item items ih =>
    rw [forall_mem_cons] at hitems
    rw [firsts, if_pos (any_eq_true.mpr hitems.1)]
    exact ih hitems.2

theorem firsts_flatMap_firsts (hrefl : ∀ y, same' y y = true)
    (htrans : ∀ x y z, same' x y = true → same' y z = true → same' x z = true) {f : α → List β}
    (hf : ∀ x x', same x x' = true → ∀ y' ∈ f x', ∃ y ∈ f x, same' y y' = true)
    (kept : List β) (seen items : List α) :
    firsts same' kept ((firsts same seen items).flatMap f) =
      firsts same' kept ((seen ++ items).flatMap f) := by
  induction items generalizing seen with
  | nil => rw [firsts, append_nil]
  | cons item items ih =>
    rw [firsts, ih]
    split
    · rename_i hseen
      obtain ⟨other, hother, hsame⟩ := any_eq_true.mp hseen
      -- all that comes from `item` is represented by what comes from `other`
      have hrepresented : ∀ y ∈ f item,
          ∃ z ∈ firsts same' kept (seen.flatMap f), same' z y = true := by
        intro y hy
        obtain ⟨x, hx, hxy⟩ := hf other item hsame y hy
        obtain ⟨z, hz, hzx⟩ :=
          exists_mem_firsts hrefl kept (mem_flatMap.mpr ⟨other, hother, hx⟩)
        exact ⟨z, hz, htrans z x y hzx hxy⟩
      simp only [flatMap_append, flatMap_cons, firsts_append]
      rw [firsts_of_represented hrepresented]
    · rw [append_assoc, singleton_append]

theorem firsts_firsts (hrefl : ∀ x, same x x = true)
    (htrans : ∀ x y z, same x y = true → same y z = true → same x z = true) (kept items : List α) :
    firsts same kept (firsts same [] items) = firsts same kept items := by
  have hsingle : ∀ x x', same x x' = true → ∀ y' ∈ [x'], ∃ y ∈ [x], same y y' = true :=
    fun x x' hsame y' hy' => ⟨x, mem_singleton_self x, mem_singleton.mp hy' ▸ hsame⟩
  have hflat := firsts_flatMap_firsts hrefl htrans hsingle kept [] items
  simpa only [flatMap_singleton', nil_append] using hflat

end Firsts

namespace Ty

variable {t u : Ty} {members : List Ty} {replace : Variable → Ty}

theorem alternatives_unionOf (hmembers : ∀ u ∈ members, u.Normal) :
    (unionOf members).alternatives = distinct members := by
  have hflat : ∀ u ∈ distinct members, u.alternatives = [u] := by
    intro u hu
    obtain ⟨member, hmember, halternative⟩ := exists_of_mem_distinct hu
    exact ((hmembers member hmember).alternatives.1 u halternative).2
  rw [unionOf_eq_distinct]
  split
  · rename_i only honly
    rw [honly, hflat only (by simp [honly])]
  · rfl

theorem alternatives_of_same (hsame : same t u = true) :
    Forall₂ (fun t u => same t u = true) t.alternatives u.alternatives := by
  induction t using inductBuild with
  | var v =>
    obtain ⟨w, rfl, -⟩ := same_var_iff.mp hsame
    exact .cons hsame .nil
  | build head ts =>
    obtain ⟨us, rfl, hall⟩ := (same_build_iff head).mp hsame
    cases head with
    | union => exact hall
    | parametric | curried => exact .cons hsame .nil

theorem same_unionOf {ts us : List Ty} (hall : Forall₂ (fun t u => same t u = true) ts us) :
    same (unionOf ts) (unionOf us) = true := by
  refine unionOf_rel (R := fun t u => same t u = true) ?_ ?_ alternatives_of_same hall
  · intro x x' y y' hx hx'
    exact Bool.eq_iff_iff.mpr (same_congr hx hx')
  · exact fun hmembers => same_union_iff.mpr ⟨_, rfl, hmembers⟩

theorem same_rebuild (head : Head) {ts us : List Ty}
    (hall : Forall₂ (fun t u => same t u = true) ts us) :
    same (head.rebuild ts) (head.rebuild us) = true := by
  cases head with
  | union => exact same_unionOf hall
  | parametric name => exact same_parametric_iff.mpr ⟨_, rfl, hall⟩
  | curried => exact same_curried_iff.mpr ⟨_, rfl, hall⟩

/-- All values are normal, and the hint of a variable makes no difference to its value. -/
structure Stable (replace : Variable → Ty) : Prop where
  normal : ∀ v, (replace v).Normal
  same : ∀ v w : Variable, v.id = w.id → Ty.same (replace v) (replace w) = true

section Stable

variable (hstable : Stable replace)
include hstable

theorem Stable.normal_subst (t : Ty) : (t.subst replace).Normal := by
  induction t using inductBuild with
  | var v => exact hstable.normal v
  | build head ts ih =>
    rw [subst_build]
    exact normal_rebuild head (forall_mem_map.mpr ih)

theorem Stable.same_subst (hsame : Ty.same t u = true) :
    Ty.same (t.subst replace) (u.subst replace) = true := by
  induction t using inductBuild generalizing u with
  | var v =>
    obtain ⟨w, rfl, hid⟩ := same_var_iff.mp hsame
    exact hstable.same v w hid
  | build head ts ih =>
    obtain ⟨us, rfl, hus⟩ := (same_build_iff head).mp hsame
    rw [subst_build, subst_build]
    refine same_rebuild head ?_
    rw [forall₂_map_left_iff, forall₂_map_right_iff]
    exact forall₂_of_same (fun t ht u hu => ih t ht hu) hus

theorem Stable.firsts_flatMap_alternatives (kept members : List Ty) : firsts Ty.same kept
        ((members.flatMap alternatives).flatMap fun u => (u.subst replace).alternatives) =
      firsts Ty.same kept (members.flatMap fun u => (u.subst replace).alternatives) := by
  induction members generalizing kept with
  | nil => rfl
  | cons member members ih =>
    rw [flatMap_cons, flatMap_append, firsts_append, flatMap_cons, firsts_append, ih]
    congr 1
    cases member with
    | union parts =>
      have hparts : ∀ u ∈ substAll replace parts, u.Normal := by
        rw [substAll_eq_map]
        exact forall_mem_map.mpr fun u _ => hstable.normal_subst u
      rw [subst, alternatives_unionOf hparts, distinct,
        firsts_firsts same_refl (fun _ _ _ => same_trans), substAll_eq_map, flatMap_map]
      rfl
    | _ => simp [alternatives]

theorem Stable.subst_unionOf (members : List Ty) :
    (unionOf members).subst replace = unionOf (members.map (subst replace)) := by
  have hmember : (unionOf members).subst replace =
      unionOf ((distinct members).map (subst replace)) := by
    rw [unionOf_eq_distinct]
    split
    · rename_i only honly
      rw [honly]
      exact ((hstable.normal_subst only).unionOf_copies (cons_ne_nil _ _)
        fun u hu => mem_singleton.mp hu).symm
    · rw [subst, substAll_eq_map]
  have hparts : ∀ x x', Ty.same x x' = true → ∀ y' ∈ (x'.subst replace).alternatives,
      ∃ y ∈ (x.subst replace).alternatives, Ty.same y y' = true :=
    fun x x' hsame y' => exists_left_of_forall₂ (alternatives_of_same (hstable.same_subst hsame))
  have hkept := firsts_flatMap_firsts same_refl (fun _ _ _ => same_trans) hparts [] []
    (members.flatMap alternatives)
  let parts (u : Ty) : List Ty := (u.subst replace).alternatives
  calc
    (unionOf members).subst replace = unionOf ((distinct members).map (subst replace)) := hmember
    _ = join (firsts Ty.same [] ((distinct members).flatMap parts)) := by
      rw [unionOf_eq_join, distinct, flatMap_map]
    _ = join (firsts Ty.same [] ((members.flatMap alternatives).flatMap parts)) :=
      congrArg join hkept
    _ = join (firsts Ty.same [] (members.flatMap parts)) := by
      rw [hstable.firsts_flatMap_alternatives]
    _ = unionOf (members.map (subst replace)) := by
      rw [unionOf_eq_join, distinct, flatMap_map]

theorem Stable.subst_rebuild (head : Head) (ts : List Ty) :
    (head.rebuild ts).subst replace = head.rebuild (ts.map (subst replace)) := by
  cases head with
  | union => exact hstable.subst_unionOf ts
  | parametric name => exact subst_build replace (.parametric name) ts
  | curried => exact subst_build replace .curried ts

end Stable

end Ty

end TypeSearch
