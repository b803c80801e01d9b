import Mathlib.Data.List.Forall2
import TypeSearch.Type.Scheme

/-!
# The shape of types

Induction over types with a hypothesis for every component, the equality of types up to hints, and
which variables a type mentions. A union that is built anew mentions what its members mention: only
members equal to an earlier one are dropped.
-/

namespace TypeSearch

open List

variable {α β : Type} {R : α → β → Prop} {xs : List α} {ys : List β}

theorem exists_right_of_forall₂
    (hall : Forall₂ R xs ys) {x : α} (hx : x ∈ xs) : ∃ y ∈ ys, R x y := by
  induction hall with
  | nil => cases hx
  | cons hhead _ ih =>
    rcases mem_cons.mp hx with rfl | htail
    · exact ⟨_, .head _, hhead⟩
    · obtain ⟨y, hy, hrel⟩ := ih htail
      exact ⟨y, .tail _ hy, hrel⟩

theorem exists_left_of_forall₂
    (hall : Forall₂ R xs ys) {y : β} (hy : y ∈ ys) : ∃ x ∈ xs, R x y :=
  exists_right_of_forall₂ (R := fun y x => R x y) hall.flip hy

theorem forall₂_of_mem {P : α → Prop}
    (hall : Forall₂ (fun x y => P x → R x y) xs ys) (hxs : ∀ x ∈ xs, P x) :
    Forall₂ R xs ys :=
  ((forall₂_and_left xs ys).mpr ⟨hxs, hall⟩).imp fun _ _ hpair => hpair.2 hpair.1

theorem eq_map_of_cons {f : α → β} {g : List α → List β} (hnil : g [] = [])
    (hcons : ∀ x xs, g (x :: xs) = f x :: g xs) (xs : List α) : g xs = xs.map f := by
  induction xs with
  | nil => exact hnil
  | cons x xs ih => rw [hcons, ih, map_cons]

theorem eq_flatMap_of_cons {f : α → List β} {g : List α → List β} (hnil : g [] = [])
    (hcons : ∀ x xs, g (x :: xs) = f x ++ g xs) (xs : List α) : g xs = xs.flatMap f := by
  induction xs with
  | nil => exact hnil
  | cons x xs ih => rw [hcons, ih, flatMap_cons]

namespace Ty

variable {motive : Ty → Prop} {ts us params members : List Ty} {v : Variable} {t u component : Ty}
  {id : VarId}

@[induction_eliminator]
theorem induct (var : ∀ v, motive (.var v))
    (parametric : ∀ name params, (∀ t ∈ params, motive t) → motive (.parametric name params))
    (curried : ∀ params, (∀ t ∈ params, motive t) → motive (.curried params))
    (union : ∀ members, (∀ t ∈ members, motive t) → motive (.union members)) (t : Ty) :
    motive t := by
  refine @Ty.rec motive (fun ts => ∀ t ∈ ts, motive t) var parametric curried union ?_ ?_ t
  · simp
  · intro first rest hfirst hrest u hu
    rcases mem_cons.mp hu with rfl | hmem
    · exact hfirst
    · exact hrest u hmem

inductive Head
  | parametric (name : String)
  | curried
  | union

def Head.build : Head → List Ty → Ty
  | .parametric name, params => .parametric name params
  | .curried, params => .curried params
  | .union, members => .union members

/-- The type that is built anew: a union is flattened, and loses its repetitions. -/
def Head.rebuild : Head → List Ty → Ty
  | .union, members => unionOf members
  | head, ts => head.build ts

/-- Induction that does not tell apart the ways in which a type is built from its components. -/
theorem inductBuild (var : ∀ v, motive (.var v))
    (build : ∀ (head : Head) ts, (∀ t ∈ ts, motive t) → motive (head.build ts)) (t : Ty) :
    motive t := by
  induction t with
  | var v => exact var v
  | parametric name params ih => exact build (.parametric name) params ih
  | curried params ih => exact build .curried params ih
  | union members ih => exact build .union members ih

/-! ### Equality up to hints -/

theorem sameAll_iff : sameAll ts us = true ↔ Forall₂ (fun t u => same t u = true) ts us := by
  induction ts generalizing us with
  | nil => cases us <;> simp [sameAll]
  | cons t ts ih => cases us <;> simp [sameAll, ih]

@[simp]
theorem same_refl (t : Ty) : same t t = true := by
  induction t with
  | var v => simp [same]
  | parametric name params ih | curried params ih | union members ih =>
    simpa [same, sameAll_iff, forall₂_same] using ih

theorem same_var_iff : same (.var v) t = true ↔ ∃ w, t = .var w ∧ v.id = w.id := by
  cases t <;> simp [same]

theorem same_build_iff (head : Head) :
    same (head.build ts) t = true ↔
      ∃ us, t = head.build us ∧ Forall₂ (fun t u => same t u = true) ts us := by
  cases head <;> cases t <;> simp [Head.build, same, sameAll_iff]
  grind

theorem same_parametric_iff {name : String} :
    same (.parametric name params) t = true ↔
      ∃ params', t = .parametric name params' ∧
        Forall₂ (fun t u => same t u = true) params params' :=
  same_build_iff (.parametric name)

theorem same_curried_iff :
    same (.curried params) t = true ↔
      ∃ params', t = .curried params' ∧
        Forall₂ (fun t u => same t u = true) params params' :=
  same_build_iff .curried

theorem same_union_iff :
    same (.union members) t = true ↔
      ∃ members', t = .union members' ∧
        Forall₂ (fun t u => same t u = true) members members' :=
  same_build_iff .union

theorem forall₂_of_same {R : Ty → Ty → Prop} (hts : ∀ t ∈ ts, ∀ u, same t u = true → R t u)
    (hsame : Forall₂ (fun t u => same t u = true) ts us) : Forall₂ R ts us :=
  forall₂_of_mem (hsame.imp fun _ u htu ht => ht u htu) hts

theorem same_symm (hsame : same t u = true) : same u t = true := by
  induction t using inductBuild generalizing u with
  | var v =>
    obtain ⟨w, rfl, hid⟩ := same_var_iff.mp hsame
    simp [same, hid]
  | build head ts ih =>
    obtain ⟨us, rfl, hus⟩ := (same_build_iff head).mp hsame
    exact (same_build_iff head).mpr
      ⟨ts, rfl, (forall₂_of_same (fun t ht u hu => ih t ht hu) hus).flip⟩

theorem forall₂_same_trans {ws : List Ty}
    (hts : ∀ t ∈ ts, ∀ u w, same t u = true → same u w = true → same t w = true)
    (hleft : Forall₂ (fun t u => same t u = true) ts us)
    (hright : Forall₂ (fun t u => same t u = true) us ws) :
    Forall₂ (fun t u => same t u = true) ts ws := by
  induction hleft generalizing ws with
  | nil => exact hright
  | cons hhead _ ih =>
    cases hright with
    | cons hhead' htail' =>
      exact .cons (hts _ (.head _) _ _ hhead hhead') (ih (fun t ht => hts t (.tail _ ht)) htail')

theorem same_trans {w : Ty} (hleft : same t u = true) (hright : same u w = true) :
    same t w = true := by
  induction t using inductBuild generalizing u w with
  | var v =>
    obtain ⟨x, rfl, hx⟩ := same_var_iff.mp hleft
    obtain ⟨y, rfl, hy⟩ := same_var_iff.mp hright
    exact same_var_iff.mpr ⟨y, rfl, hx.trans hy⟩
  | build head ts ih =>
    obtain ⟨us, rfl, hus⟩ := (same_build_iff head).mp hleft
    obtain ⟨ws, rfl, hws⟩ := (same_build_iff head).mp hright
    exact (same_build_iff head).mpr ⟨ws, rfl, forall₂_same_trans (fun t ht _ _ => ih t ht) hus hws⟩

theorem same_congr {t' u' : Ty} (ht : same t t' = true) (hu : same u u' = true) :
    same t u = true ↔ same t' u' = true :=
  ⟨fun hsame => same_trans (same_symm ht) (same_trans hsame hu),
    fun hsame => same_trans ht (same_trans hsame (same_symm hu))⟩

/-! ### Variables and components -/

def isVariable : Ty → Bool
  | var _ => true
  | _ => false

def components : Ty → List Ty
  | var _ => []
  | parametric _ params | curried params => params
  | union members => members

theorem isVariable_iff : t.isVariable = true ↔ ∃ v, t = .var v := by
  cases t <;> simp [isVariable]

theorem isVariable_eq_false (hvariable : ∀ v, t = .var v → False) : t.isVariable = false := by
  cases t with
  | var v => exact (hvariable v rfl).elim
  | _ => rfl

theorem isVariable_eq_false_of_mem (hmem : component ∈ t.components) : t.isVariable = false := by
  cases t with
  | var v => cases hmem
  | _ => rfl

@[simp]
theorem components_build (head : Head) (ts : List Ty) : (head.build ts).components = ts := by
  cases head <;> rfl

@[simp]
theorem isVariable_build (head : Head) (ts : List Ty) : (head.build ts).isVariable = false := by
  cases head <;> rfl

theorem inductComponents (var : ∀ v, motive (.var v)) (built : ∀ t, t.isVariable = false → (∀
      component ∈ t.components, motive component) → motive t) (t : Ty) : motive t := by
  induction t using inductBuild with
  | var v => exact var v
  | build head ts ih => exact built _ (isVariable_build head ts) (by rwa [components_build])

theorem occursAny_iff : occursAny id ts = true ↔ ∃ t ∈ ts, occurs id t = true := by
  induction ts with
  | nil => simp [occursAny]
  | cons t ts ih => simp [occursAny, ih]

@[simp]
theorem occurs_var_iff : occurs id (.var v) = true ↔ v.id = id := by
  simp [occurs]

theorem occurs_iff_components (hbuilt : t.isVariable = false) :
    occurs id t = true ↔ ∃ component ∈ t.components, occurs id component = true := by
  cases t with
  | var v => cases hbuilt
  | parametric name params | curried params | union members =>
    simp [occurs, occursAny_iff, components]

theorem occurs_build_iff {head : Head} :
    occurs id (head.build ts) = true ↔ ∃ t ∈ ts, occurs id t = true := by
  rw [occurs_iff_components (isVariable_build head ts), components_build]

theorem size_le_sizeAll (ht : t ∈ ts) : t.size ≤ sizeAll ts := by
  induction ts with
  | nil => cases ht
  | cons first rest ih =>
    rcases mem_cons.mp ht with rfl | hrest
    · simp [sizeAll]
    · have := ih hrest
      simp only [sizeAll]
      omega

theorem size_component_lt (hcomponent : component ∈ t.components) : component.size < t.size := by
  cases t with
  | var v => cases hcomponent
  | parametric name params | curried params | union members =>
    exact Nat.lt_succ_of_le (size_le_sizeAll hcomponent)

theorem size_pos (t : Ty) : 0 < t.size := by
  cases t <;> simp [size]

theorem occurs_of_same (hsame : same t u = true) (hoccurs : t.occurs id = true) :
    u.occurs id = true := by
  induction t using inductBuild generalizing u with
  | var v =>
    obtain ⟨w, rfl, hid⟩ := same_var_iff.mp hsame
    simpa [← hid] using hoccurs
  | build head ts ih =>
    obtain ⟨us, rfl, hus⟩ := (same_build_iff head).mp hsame
    obtain ⟨t, ht, hin⟩ := occurs_build_iff.mp hoccurs
    obtain ⟨u, hu, hsame⟩ := exists_right_of_forall₂ hus ht
    exact occurs_build_iff.mpr ⟨u, hu, ih t ht hsame hin⟩

theorem sizeAll_eq_of_forall₂ (hsizes : Forall₂ (fun t u => size t = size u) ts us) :
    sizeAll ts = sizeAll us := by
  induction hsizes with
  | nil => rfl
  | cons hhead _ ih => simp [sizeAll, hhead, ih]

theorem size_build (head : Head) (ts : List Ty) : (head.build ts).size = sizeAll ts + 1 := by
  cases head <;> rfl

theorem size_eq_of_same (hsame : same t u = true) : t.size = u.size := by
  induction t using inductBuild generalizing u with
  | var v =>
    obtain ⟨w, rfl, -⟩ := same_var_iff.mp hsame
    rfl
  | build head ts ih =>
    obtain ⟨us, rfl, hus⟩ := (same_build_iff head).mp hsame
    rw [size_build, size_build, sizeAll_eq_of_forall₂ (forall₂_of_same (fun t ht _ => ih t ht) hus)]

theorem mem_collectAll_iff
    (hts : ∀ t ∈ ts, ∀ seen, id ∈ (collectVariables seen t).map (·.id) ↔
      id ∈ seen.map (·.id) ∨ t.occurs id = true) (seen : List Variable) :
    id ∈ (collectAll seen ts).map (·.id) ↔
      id ∈ seen.map (·.id) ∨ ∃ t ∈ ts, t.occurs id = true := by
  induction ts generalizing seen with
  | nil => simp [collectAll]
  | cons t ts ih =>
    rw [forall_mem_cons] at hts
    rw [collectAll, ih hts.2, hts.1, exists_mem_cons_iff, or_assoc]

theorem mem_collectVariables_iff (t : Ty) (seen : List Variable) :
    id ∈ (collectVariables seen t).map (·.id) ↔
      id ∈ seen.map (·.id) ∨ t.occurs id = true := by
  induction t generalizing seen with
  | var v =>
    rw [collectVariables]
    split
    · rename_i hseen
      obtain ⟨w, hw, hid⟩ := any_eq_true.mp hseen
      have hv : v.id ∈ seen.map (·.id) := mem_map.mpr ⟨w, hw, beq_iff_eq.mp hid⟩
      constructor
      · exact .inl
      · rintro (hmem | hoccurs)
        · exact hmem
        · exact occurs_var_iff.mp hoccurs ▸ hv
    · rw [map_append, mem_append, map_singleton, mem_singleton,
        occurs_var_iff, eq_comm]
  | parametric name params ih | curried params ih | union members ih =>
    rw [occurs_iff_components rfl]
    exact mem_collectAll_iff ih seen

theorem mem_freeVariables_iff : id ∈ t.freeVariables.map (·.id) ↔ t.occurs id = true := by
  simpa [freeVariables] using mem_collectVariables_iff t []

theorem length_collectAll_le
    (hts : ∀ t ∈ ts, ∀ seen, (collectVariables seen t).length ≤ seen.length + t.size)
    (seen : List Variable) : (collectAll seen ts).length ≤ seen.length + sizeAll ts := by
  induction ts generalizing seen with
  | nil => simp [collectAll]
  | cons t ts ih =>
    rw [forall_mem_cons] at hts
    have hhead := hts.1 seen
    have htail := ih hts.2 (collectVariables seen t)
    simp only [collectAll, sizeAll]
    omega

theorem length_collectVariables_le (t : Ty) (seen : List Variable) :
    (collectVariables seen t).length ≤ seen.length + t.size := by
  induction t generalizing seen with
  | var v =>
    rw [collectVariables]
    split <;> simp [size]
  | parametric name params ih | curried params ih | union members ih =>
    exact Nat.le_succ_of_le (length_collectAll_le ih seen)

theorem length_freeVariables_le (t : Ty) : t.freeVariables.length ≤ t.size := by
  simpa [freeVariables] using length_collectVariables_le t []

/-! ### Unions built anew -/

theorem mem_alternatives (hu : u ∈ t.alternatives) : u = t ∨ u ∈ t.components := by
  cases t with
  | union members => exact .inr hu
  | _ => exact .inl (mem_singleton.mp hu)

theorem occurs_iff_alternatives :
    t.occurs id = true ↔ ∃ u ∈ t.alternatives, u.occurs id = true := by
  cases t with
  | union members => exact occurs_iff_components rfl
  | _ => simp [alternatives]

/-! ### Substitution -/

theorem substAll_eq_map (replace : Variable → Ty) (ts : List Ty) :
    substAll replace ts = ts.map (subst replace) :=
  eq_map_of_cons rfl (fun _ _ => rfl) ts

theorem subst_build (replace : Variable → Ty) (head : Head) (ts : List Ty) :
    (head.build ts).subst replace = head.rebuild (ts.map (subst replace)) := by
  cases head <;> simp only [Head.build, Head.rebuild, subst, substAll_eq_map]

end Ty

end TypeSearch
