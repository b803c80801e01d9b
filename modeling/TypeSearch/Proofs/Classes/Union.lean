import TypeSearch.Proofs.Classes.Reach
import TypeSearch.Proofs.Facts.Growth

/-!
# What one equality does to classes

`union` and `assign` by cases: which classes are joined, and which concrete types of them meet. The
variables that join on the way and the shorter ways to roots do not show in the classes.
-/

namespace TypeSearch.Classes

open Relation

variable {classes next : Classes} {id root child : VarId} {t : Ty} {concrete : Option Ty}

theorem Admits.alike {last : Classes} (hadmits : Admits classes next id) (hlast : last.WellFormed)
    (halike : next.Alike last) : Admits classes last id := by
  refine ⟨hlast, ?_, halike.root.trans hadmits.root, halike.concrete?.trans hadmits.concrete?⟩
  rw [halike.has]
  exact hadmits.has_iff

def meetConcrete (meet : Meet) (linked : Classes) (root : VarId) :
    Option Ty → Option Ty → Outcome Mismatch Classes
  | some t, some u => meet root t u linked
  | some t, none => linked.assignConcrete root t
  | none, some u => linked.assignConcrete root u
  | none, none => .ok linked

theorem union_eq (meet : Meet) (classes : Classes) (id : VarId) (other : Variable) :
    classes.union meet id other =
      let left := (classes.addVariable other).find id
      let right := left.2.find other.id
      let roots := if right.2.rank left.1 < right.2.rank right.1 then (right.1, left.1)
        else (left.1, right.1)
      if left.1 = right.1 then .ok right.2
      else meetConcrete meet (right.2.link roots.1 roots.2) roots.1
        (right.2.concrete? roots.1) (right.2.concrete? roots.2) := by
  rcases hleft : (classes.addVariable other).find id with ⟨left, first⟩
  rcases hright : first.find other.id with ⟨right, prepared⟩
  simp only [union, hleft, hright]
  split
  · rfl
  · generalize (if prepared.rank left < prepared.rank right then (right, left) else (left, right)) =
      roots
    unfold meetConcrete
    rfl

theorem assign_var_eq (meet : Meet) (classes : Classes) (id : VarId) (v : Variable) :
    classes.assign meet id (.var v) = (classes.addVariable ⟨id, ""⟩).union meet id v := rfl

def meetType (meet : Meet) (classes : Classes) (root : VarId) (t : Ty) :
    Option Ty → Outcome Mismatch Classes
  | none => classes.assignConcrete root t
  | some existing => meet root existing t classes

theorem assign_eq (meet : Meet) (classes : Classes) (id : VarId) (hbuilt : t.isVariable = false) :
    classes.assign meet id t =
      let found := (classes.addVariable ⟨id, ""⟩).find id
      meetType meet found.2 found.1 t (found.2.concrete? found.1) := by
  cases t with
  | var v => cases hbuilt
  | parametric name params | curried params | union members => rfl

/-- How `union` goes on when the two variables are in different classes. -/
structure Merges (meet : Meet) (classes prepared : Classes) (left right : VarId)
    (outcome : Outcome Mismatch Classes) (root child : VarId) : Prop where
  roots : (root = left ∧ child = right) ∨ (root = right ∧ child = left)
  joins : Joins prepared (prepared.link root child) root child
  eq : outcome = meetConcrete meet (prepared.link root child) root
    (classes.concrete? root) (classes.concrete? child)

theorem WellFormed.union_cases (hwf : classes.WellFormed) (meet : Meet)
    (hhas : classes.has id = true) (other : Variable) :
    ∃ prepared, Admits classes prepared other.id ∧
      ((classes.root id = classes.root other.id ∧ classes.union meet id other = .ok prepared) ∨
        ∃ root child, Merges meet classes prepared (classes.root id) (classes.root other.id)
          (classes.union meet id other) root child) := by
  have hadded := hwf.addVariable other
  obtain ⟨hleft, hfound, halike⟩ := hadded.wellFormed.find id
  obtain ⟨hright, hfound', halike'⟩ := hfound.find other.id
  have hadmits := (hadded.alike hfound halike).alike hfound' halike'
  rw [halike.root, hadded.root] at hright
  rw [hadded.root] at hleft
  generalize hprepared : (((classes.addVariable other).find id).2.find other.id).2 = prepared
    at hadmits
  refine ⟨prepared, hadmits, ?_⟩
  simp only [union_eq, hleft, hright, hprepared]
  by_cases hsame : classes.root id = classes.root other.id
  · exact .inl ⟨hsame, if_pos hsame⟩
  · right
    have hroots : ∀ x, prepared.root (classes.root x) = classes.root x := fun x => by
      rw [hadmits.root, hwf.root_root]
    have hin : prepared.has (classes.root id) = true :=
      (hadmits.has_iff _).mpr (.inl (hwf.has_root_iff.mpr hhas))
    have hin' : prepared.has (classes.root other.id) = true := by
      rw [← hadmits.root, hadmits.wellFormed.has_root_iff]
      exact (hadmits.has_iff _).mpr (.inr rfl)
    rw [if_neg hsame]
    by_cases hrank : prepared.rank (classes.root id) < prepared.rank (classes.root other.id)
    · simp only [hrank, if_true]
      refine ⟨classes.root other.id, classes.root id, .inr ⟨rfl, rfl⟩, ?_, ?_⟩
      · exact hadmits.wellFormed.link hin' (hroots _) hin (hroots _) (Ne.symm hsame) hrank.le
      · rw [hadmits.concrete?]
    · simp only [hrank, if_false]
      refine ⟨classes.root id, classes.root other.id, .inl ⟨rfl, rfl⟩, ?_, ?_⟩
      · exact hadmits.wellFormed.link hin (hroots _) hin' (hroots _) hsame (Nat.le_of_not_lt hrank)
      · rw [hadmits.concrete?]

theorem WellFormed.assign_var (hwf : classes.WellFormed) (meet : Meet) (id : VarId) (v : Variable) :
    ∃ prepared, Admits classes prepared id ∧
      classes.assign meet id (.var v) = prepared.union meet id v :=
  ⟨classes.addVariable ⟨id, ""⟩, hwf.addVariable ⟨id, ""⟩, assign_var_eq meet classes id v⟩

theorem WellFormed.assign_built (hwf : classes.WellFormed) (meet : Meet) (id : VarId)
    (hbuilt : t.isVariable = false) :
    ∃ prepared, Admits classes prepared id ∧
      classes.assign meet id t = meetType meet prepared (classes.root id) t
        (classes.concrete? (classes.root id)) := by
  have hadded := hwf.addVariable ⟨id, ""⟩
  obtain ⟨hroot, hfound, halike⟩ := hadded.wellFormed.find id
  have hadmits := hadded.alike hfound halike
  refine ⟨_, hadmits, ?_⟩
  simp only [assign_eq meet classes id hbuilt, hroot, hadded.root, hadmits.concrete?]

theorem Joins.root_linked (hjoins : Joins classes next root child) : next.root root = root := by
  rw [hjoins.root, hjoins.root_root, if_neg hjoins.ne]

theorem Joins.concrete?_linked (hjoins : Joins classes next root child) :
    next.concrete? root = classes.concrete? root := by
  rw [hjoins.concrete?, Function.update_of_ne hjoins.ne]

theorem WellFormed.assignConcrete_cases (hwf : classes.WellFormed) (hhas : classes.has id = true)
    (t : Ty) :
    (classes.Reaches t id ∧
        classes.assignConcrete id t = .failed (.infinite (classes.variableAt id) t)) ∨
      (¬ classes.Reaches t id ∧ classes.assignConcrete id t = .ok (classes.setConcrete id t)) := by
  rw [← hwf.occursInClass_iff hhas, assignConcrete]
  by_cases hoccurs : classes.occursInClass id t = true
  · exact .inl ⟨hoccurs, if_pos hoccurs⟩
  · exact .inr ⟨hoccurs, if_neg hoccurs⟩

theorem Reaches.of_ne (hroot : next.root = classes.root)
    (hconcrete : ∀ other u, other ≠ id → classes.concrete? other = some u →
      next.concrete? other = some u) (hreaches : classes.Reaches t id) : next.Reaches t id := by
  obtain ⟨w, hw, hpath⟩ := hreaches
  rw [← hroot] at hpath
  refine ⟨w, hw, ?_⟩
  generalize next.root w = first at hpath ⊢
  induction hpath using ReflTransGen.head_induction_on with
  | refl => exact .refl
  | head hrefers _ ih =>
    rename_i here there _
    by_cases hhere : here = id
    · rw [hhere]
    · obtain ⟨u, x, hu, hx, rfl⟩ := hrefers
      exact .head ⟨u, x, hconcrete here u hhere hu, hx, by rw [hroot]⟩ ih

section Sets

variable (hsets : Sets classes next id concrete)
include hsets

theorem Sets.symm (hwf : classes.WellFormed) : Sets next classes id (classes.concrete? id) :=
  ⟨hwf, hsets.has.symm, hsets.root.symm, hsets.variableAt.symm, by
    rw [hsets.concrete?, Function.update_idem, Function.update_eq_self]⟩

theorem Sets.reaches_iff : next.Reaches t id ↔ classes.Reaches t id := by
  constructor
  · refine Reaches.of_ne hsets.root.symm fun other u hother hu => ?_
    rwa [hsets.concrete?, Function.update_of_ne hother] at hu
  · refine Reaches.of_ne hsets.root fun other u hother hu => ?_
    rwa [hsets.concrete?, Function.update_of_ne hother]

theorem Sets.find?_facts (hwf : classes.WellFormed) (hroot : classes.root id = id) (v : VarId) :
    next.facts.find? v = if v = id then concrete else classes.facts.find? v := by
  rw [hwf.find?_facts, hsets.wellFormed.find?_facts, fact?, fact?, hsets.root, hsets.variableAt,
    hsets.concrete?, Function.update_apply]
  by_cases hv : v = id
  · rw [if_pos hv, if_pos hv, hv, if_pos hroot]
  · rw [if_neg hv, if_neg hv]

end Sets

theorem Sets.acyclic (hsets : Sets classes next id (some t)) (hwf : classes.WellFormed)
    (hroot : classes.root id = id) (hacyclic : classes.Acyclic) (hapart : ¬ classes.Reaches t id) :
    next.Acyclic := by
  rw [← hsets.wellFormed.acyclic_facts_iff]
  rw [← hwf.acyclic_facts_iff] at hacyclic
  rw [← hwf.leads_iff hroot] at hapart
  refine (hacyclic.insert hapart).mono fun v u hfind => ?_
  rw [hsets.find?_facts hwf hroot] at hfind
  rwa [Facts.find?_insert]

theorem Sets.acyclic_none (hsets : Sets classes next id none) (hacyclic : classes.Acyclic) :
    next.Acyclic := by
  intro root hcycle
  refine hacyclic root (TransGen.mono (fun here there => ?_) _ _ hcycle)
  rintro ⟨u, w, hu, hw, hthere⟩
  rw [hsets.concrete?, Function.update_apply] at hu
  split at hu
  · cases hu
  · exact ⟨u, w, hu, hw, by rw [← hsets.root, hthere]⟩

theorem WellFormed.assignConcrete_eq_ok (hwf : classes.WellFormed) (hhas : classes.has id = true)
    (hroot : classes.root id = id) (hacyclic : (classes.setConcrete id t).Acyclic) :
    classes.assignConcrete id t = .ok (classes.setConcrete id t) := by
  have hsets := hwf.setConcrete hhas hroot t
  rcases hwf.assignConcrete_cases hhas t with ⟨hreaches, -⟩ | ⟨-, hok⟩
  · have hconcrete : (classes.setConcrete id t).concrete? id = some t := by
      rw [hsets.concrete?, Function.update_self]
    exact absurd (transGen_of_reaches hconcrete (hsets.reaches_iff.mpr hreaches)) (hacyclic id)
  · exact hok

end TypeSearch.Classes
