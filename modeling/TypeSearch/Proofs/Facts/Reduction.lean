import TypeSearch.Proofs.Facts.MostGeneral
import TypeSearch.Proofs.Facts.Proper
import TypeSearch.Proofs.Type.Substitution

/-!
# Reduction is a normal form

On facts without cycles, reducing a type is substituting what its variables are reduced to. What
comes out has no variable with a fact and only unions in normal form. A type may be reduced early:
after more facts were learnt, its reduction and the type itself are still reduced to one type.
-/

namespace TypeSearch

namespace Ty

/-- `u` is the type itself or stands somewhere inside of it. -/
inductive PartOf (u : Ty) : Ty → Prop
  | self : PartOf u u
  | inside {t component : Ty} (hcomponent : component ∈ t.components)
      (hpart : PartOf u component) : PartOf u t

variable {t u : Ty}

theorem Normal.part (hnormal : t.Normal) (hpart : PartOf u t) : u.Normal := by
  induction hpart with
  | self => exact hnormal
  | inside hcomponent _ ih =>
    refine ih ?_
    cases hnormal with
    | var v => cases hcomponent
    | parametric hparams | curried hparams => exact hparams _ hcomponent
    | union hmembers _ _ _ => exact hmembers _ hcomponent

theorem Proper.part (hproper : t.Proper) (hpart : PartOf u t) : u.Proper := by
  induction hpart with
  | self => exact hproper
  | inside hcomponent _ ih =>
    refine ih ?_
    cases hproper with
    | var v => cases hcomponent
    | parametric hparams | curried _ hparams => exact hparams _ hcomponent
    | union _ hmembers => exact hmembers _ hcomponent

theorem isUnion_eq_false_of_alternatives (hflat : t.alternatives = [t]) : t.isUnion = false := by
  cases t with
  | union members =>
    have hsize := congrArg sizeAll hflat
    simp only [alternatives, sizeAll, size] at hsize
    omega
  | _ => rfl

section Expand

variable {ε : Type} {replace : Variable → Outcome ε Ty} {values : Variable → Ty}

theorem expand_eq_subst (hreplace : ∀ v, replace v = .ok (values v)) (t : Ty) :
    t.expand replace = .ok (t.subst values) := by
  induction t using inductBuild with
  | var v => exact hreplace v
  | build head ts ih =>
    have hall : List.Forall₂ (fun t r => t.expand replace = .ok r) ts (ts.map (subst values)) :=
      List.forall₂_map_right_iff.mpr (List.forall₂_same.mpr ih)
    rw [expand_build, Outcome.mapM_of_forall₂ hall, subst_build]
    rfl

end Expand

end Ty

namespace Facts

variable {facts next : Facts} {t r : Ty}

def image (facts : Facts) (v : Variable) : Ty :=
  match (facts.reduce (.var v) : Outcome Mismatch Ty) with
  | .ok r => r
  | _ => .var v

theorem Acyclic.reduce_var (hacyclic : facts.Acyclic) (v : Variable) :
    facts.reduce (.var v) = (.ok (facts.image v) : Outcome Mismatch Ty) := by
  obtain ⟨r, hr⟩ := hacyclic.exists_reduce (ε := Mismatch) (.var v)
  rw [image, hr]

theorem Acyclic.reduce_eq_subst (hacyclic : facts.Acyclic) (t : Ty) :
    facts.reduce t = (.ok (t.subst facts.image) : Outcome Mismatch Ty) := by
  rw [reduce, reduceWithin_eq_expand]
  exact Ty.expand_eq_subst hacyclic.reduce_var t

theorem Acyclic.stable_image (hacyclic : facts.Acyclic) : Ty.Stable facts.image where
  normal v := normal_of_reduce (hacyclic.reduce_var v)
  same v w hid := by
    have hv := hacyclic.same_solution (hacyclic.reduce_var v)
    have hw := hacyclic.same_solution (hacyclic.reduce_var w)
    rw [← hid] at hw
    exact Ty.same_trans (Ty.same_symm hv) hw

theorem Acyclic.image_of_find? (hacyclic : facts.Acyclic) {v : Variable}
    (hfind : facts.find? v.id = some t) : facts.image v = t.subst facts.image := by
  have hreduce := hacyclic.reduce_of_find? hfind (hacyclic.reduce_var v)
  rw [hacyclic.reduce_eq_subst] at hreduce
  exact (Outcome.ok.inj hreduce).symm

def Extends (next facts : Facts) : Prop := ∀ v t, facts.find? v = some t → next.find? v = some t

theorem Acyclic.image_of_resolves (hnext : next.Acyclic) (hextends : next.Extends facts)
    {v : Variable} (hresolves : facts.Resolves v t) : next.image v = t.subst next.image := by
  induction hresolves with
  | free _ => rfl
  | follow hfind _ ih =>
    rw [hnext.image_of_find? (hextends _ _ hfind)]
    exact ih
  | stop hfind _ => exact hnext.image_of_find? (hextends _ _ hfind)

theorem map_subst_eq_of_forall₂ {replace : Variable → Ty} {ts rs : List Ty}
    (hall : List.Forall₂ (fun t r => r.subst replace = t.subst replace) ts rs) :
    rs.map (Ty.subst replace) = ts.map (Ty.subst replace) := by
  induction hall with
  | nil => rfl
  | cons hhead _ ih => rw [List.map_cons, List.map_cons, hhead, ih]

theorem Acyclic.subst_of_reduce (hnext : next.Acyclic) (hextends : next.Extends facts)
    (hreduce : facts.reduce t = (.ok r : Outcome Mismatch Ty)) :
    r.subst next.image = t.subst next.image := by
  refine reduceWithin_induct (R := fun t r => r.subst next.image = t.subst next.image)
    ?_ ?_ (fun head ts rs hall => ?_) hreduce
  · exact fun v w hresolves => (hnext.image_of_resolves hextends hresolves).symm
  · exact fun v t r hresolves _ hr => hr.trans (hnext.image_of_resolves hextends hresolves).symm
  · -- an early reduction has flattened unions and dropped repetitions
    rw [hnext.stable_image.subst_rebuild, map_subst_eq_of_forall₂ hall, Ty.subst_build]

theorem proper_of_reduce (hfacts : facts.Proper) (ht : t.Proper)
    (hreduce : facts.reduce t = (.ok r : Outcome Mismatch Ty)) : r.Proper := by
  have hmeets : (facts.reduce t).Meets (fun u => True → u.Proper) fun _ : Mismatch => True :=
    reduce_meets (fun _ => hfacts) fun _ => ht
  rw [hreduce] at hmeets
  exact hmeets trivial

/-- **Reduction is a normal form and composes.** On facts without cycles every type is reduced. No
variable with a fact occurs in the reduction; the members of a union anywhere in it are no unions,
no two of them are equal, and there are at least two of them if no union or function of the type and
the facts is empty. Reducing once more changes nothing. If there are further facts, the reduction
and the type itself are reduced to one type. -/
theorem reduce_normal_and_composes (hacyclic : facts.Acyclic) (t : Ty) :
    ∃ r, facts.reduce t = (.ok r : Outcome Mismatch Ty) ∧
      (∀ v, r.occurs v = true → facts.find? v = none) ∧
      (∀ members, Ty.PartOf (.union members) r →
        (∀ member ∈ members, member.isUnion = false) ∧
        members.Pairwise (fun member other => Ty.same member other = false) ∧
        (t.Proper → facts.Proper → 2 ≤ members.length)) ∧
      facts.reduce r = (.ok r : Outcome Mismatch Ty) ∧
      ∀ next : Facts, next.Acyclic → next.Extends facts →
        ∃ r', next.reduce r = (.ok r' : Outcome Mismatch Ty) ∧
          next.reduce t = (.ok r' : Outcome Mismatch Ty) := by
  obtain ⟨r, hreduce⟩ := hacyclic.exists_reduce (ε := Mismatch) t
  have hnormal := normal_of_reduce hreduce
  have hfree : ∀ v, r.occurs v = true → facts.find? v = none := fun v hv =>
    ((occurs_reduceWithin_iff hreduce v).mp hv).1
  refine ⟨r, hreduce, hfree, fun members hpart => ?_, reduce_eq_self hnormal hfree, ?_⟩
  · cases hnormal.part hpart with
    | union _ hflat hapart hseveral =>
      refine ⟨fun member hmember => Ty.isUnion_eq_false_of_alternatives (hflat member hmember),
        hapart, fun ht hfacts => ?_⟩
      have hmember := (Ty.proper_union_iff.mp ((proper_of_reduce hfacts ht hreduce).part hpart)).1
      have := List.length_pos_of_ne_nil hmember
      omega
  · intro next hnext hextends
    refine ⟨t.subst next.image, ?_, hnext.reduce_eq_subst t⟩
    rw [hnext.reduce_eq_subst, hnext.subst_of_reduce hextends hreduce]

def unionFact : Facts := history [.add ⟨1, "a"⟩ (.union [.var ⟨2, "b"⟩, .number])]

/-- While `b` is free, `Number | a` is reduced to a union of two types; that and the type itself are
`Number` once `b` is. -/
theorem reduce_normal_and_composes_of_union :
    unionFact.Acyclic ∧ (unionFact.after (.add ⟨2, "b"⟩ .number)).Acyclic ∧
    (unionFact.after (.add ⟨2, "b"⟩ .number)).Extends unionFact ∧
    unionFact.reduce (.union [.number, .var ⟨1, "a"⟩]) =
      (.ok (.union [.number, .var ⟨2, "b"⟩]) : Outcome Mismatch Ty) ∧
    unionFact.reduce (.union [.number, .var ⟨2, "b"⟩]) =
      (.ok (.union [.number, .var ⟨2, "b"⟩]) : Outcome Mismatch Ty) ∧
    (unionFact.after (.add ⟨2, "b"⟩ .number)).reduce (.union [.number, .var ⟨2, "b"⟩]) =
      (.ok .number : Outcome Mismatch Ty) ∧
    (unionFact.after (.add ⟨2, "b"⟩ .number)).reduce (.union [.number, .var ⟨1, "a"⟩]) =
      (.ok .number : Outcome Mismatch Ty) := by
  have hacyclic : unionFact.Acyclic := acyclic_history _
  have hgrows := hacyclic.grows_after (.add ⟨2, "b"⟩ .number)
  have hnext := hgrows.acyclic hacyclic
  have hextends : (unionFact.after (.add ⟨2, "b"⟩ .number)).Extends unionFact :=
    fun v t hfind => hgrows.find?_eq_some hfind
  have hreduce : unionFact.reduce (.union [.number, .var ⟨1, "a"⟩]) =
      (.ok (.union [.number, .var ⟨2, "b"⟩]) : Outcome Mismatch Ty) := rfl
  have hlater : (unionFact.after (.add ⟨2, "b"⟩ .number)).reduce
      (.union [.number, .var ⟨1, "a"⟩]) = (.ok .number : Outcome Mismatch Ty) := rfl
  obtain ⟨r, hr, -, -, hagain, hcomposes⟩ :=
    reduce_normal_and_composes hacyclic (.union [.number, .var ⟨1, "a"⟩])
  obtain rfl := Outcome.ok.inj (hreduce.symm.trans hr)
  obtain ⟨r', hr', ht'⟩ := hcomposes _ hnext hextends
  obtain rfl := Outcome.ok.inj (hlater.symm.trans ht')
  exact ⟨hacyclic, hnext, hextends, hr, hagain, hr', hlater⟩

end Facts

end TypeSearch
