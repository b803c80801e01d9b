import TypeSearch.Proofs.Facts.Acyclic

/-!
# Types in normal form

A type is normal if every union in it is as `unionOf` leaves it: flat, without repetitions, and of
more than one member. What a type reduces to is normal. Reducing a normal type none of whose
variables has a fact gives back the type itself, and so does a union of copies of a normal type.
-/

namespace TypeSearch

open List

section Firsts

variable {α : Type} {same : α → α → Bool}

theorem firsts_append (kept xs ys : List α) :
    firsts same kept (xs ++ ys) = firsts same (firsts same kept xs) ys := by
  induction xs generalizing kept with
  | nil => rfl
  | cons x xs ih => rw [cons_append, firsts, firsts, ih]

theorem firsts_of_subset (hrefl : ∀ x, same x x = true) {kept items : List α}
    (hitems : items ⊆ kept) : firsts same kept items = kept := by
  induction items with
  | nil => rfl
  | cons item items ih =>
    have hkept : kept.any (same · item) = true :=
      any_eq_true.mpr ⟨item, hitems (.head _), hrefl item⟩
    rw [firsts, if_pos hkept]
    exact ih fun other hother => hitems (.tail _ hother)

theorem pairwise_firsts {kept : List α} (hkept : kept.Pairwise fun x y => same x y = false)
    (items : List α) : (firsts same kept items).Pairwise fun x y => same x y = false := by
  induction items generalizing kept with
  | nil => exact hkept
  | cons item items ih =>
    rw [firsts]
    apply ih
    split
    · exact hkept
    · rename_i hnew
      refine pairwise_append.mpr ⟨hkept, pairwise_singleton _ _, ?_⟩
      intro other hother last hlast
      obtain rfl := mem_singleton.mp hlast
      by_contra hsame
      exact hnew (any_eq_true.mpr ⟨other, hother, by simpa using hsame⟩)

end Firsts

namespace Ty

inductive Normal : Ty → Prop
  | var (v : Variable) : Normal (.var v)
  | parametric {name : String} {params : List Ty} (hparams : ∀ t ∈ params, Normal t) :
      Normal (.parametric name params)
  | curried {params : List Ty} (hparams : ∀ t ∈ params, Normal t) : Normal (.curried params)
  | union {members : List Ty} (hmembers : ∀ t ∈ members, Normal t)
      (hflat : ∀ t ∈ members, t.alternatives = [t])
      (hapart : members.Pairwise fun t u => same t u = false) (hseveral : members.length ≠ 1) :
      Normal (.union members)

variable {t : Ty} {members : List Ty}

def join : List Ty → Ty
  | [t] => t
  | several => .union several

theorem unionOf_eq_join (members : List Ty) : unionOf members = join (distinct members) :=
  unionOf_eq_distinct members

theorem join_alternatives (hnormal : t.Normal) : join t.alternatives = t := by
  cases hnormal with
  | union _ _ _ hseveral =>
    rw [alternatives, join]
    rintro u rfl
    exact hseveral rfl
  | _ => rfl

theorem Normal.alternatives (hnormal : t.Normal) :
    (∀ u ∈ t.alternatives, u.Normal ∧ u.alternatives = [u]) ∧
      t.alternatives.Pairwise fun u w => same u w = false := by
  cases hnormal with
  | union hmembers hflat hapart _ => exact ⟨fun u hu => ⟨hmembers u hu, hflat u hu⟩, hapart⟩
  | var v =>
    exact ⟨forall_mem_singleton.mpr ⟨.var v, rfl⟩, pairwise_singleton _ _⟩
  | parametric hparams =>
    exact ⟨forall_mem_singleton.mpr ⟨.parametric hparams, rfl⟩, pairwise_singleton _ _⟩
  | curried hparams =>
    exact ⟨forall_mem_singleton.mpr ⟨.curried hparams, rfl⟩, pairwise_singleton _ _⟩

theorem normal_join (hmembers : ∀ u ∈ members, u.Normal ∧ u.alternatives = [u])
    (hapart : members.Pairwise fun u w => same u w = false) : (join members).Normal := by
  by_cases hseveral : members.length = 1
  · obtain ⟨only, rfl⟩ := length_eq_one_iff.mp hseveral
    exact (hmembers only (mem_singleton_self only)).1
  · have hunion : join members = .union members := by
      rw [join]
      rintro only rfl
      exact hseveral rfl
    rw [hunion]
    exact .union (fun u hu => (hmembers u hu).1) (fun u hu => (hmembers u hu).2) hapart hseveral

theorem normal_unionOf (hmembers : ∀ u ∈ members, u.Normal) : (unionOf members).Normal := by
  rw [unionOf_eq_join]
  refine normal_join (fun u hu => ?_) (pairwise_firsts Pairwise.nil _)
  obtain ⟨member, hmember, halternative⟩ := exists_of_mem_distinct hu
  exact (hmembers member hmember).alternatives.1 u halternative

theorem normal_rebuild (head : Head) (hmembers : ∀ u ∈ members, u.Normal) :
    (head.rebuild members).Normal := by
  cases head with
  | parametric name => exact .parametric hmembers
  | curried => exact .curried hmembers
  | union => exact normal_unionOf hmembers

theorem Normal.unionOf_copies (hnormal : t.Normal) {copies : List Ty} (hsome : copies ≠ [])
    (hcopies : ∀ u ∈ copies, u = t) : unionOf copies = t := by
  obtain ⟨first, rest, rfl⟩ := exists_cons_of_ne_nil hsome
  rw [forall_mem_cons] at hcopies
  obtain ⟨rfl, hrest⟩ := hcopies
  have hfirst : firsts same [] first.alternatives = [] ++ first.alternatives :=
    firsts_eq_append hnormal.alternatives.2
  have hsubset : rest.flatMap Ty.alternatives ⊆ first.alternatives := by
    intro u hu
    obtain ⟨copy, hcopy, halternative⟩ := mem_flatMap.mp hu
    rwa [hrest copy hcopy] at halternative
  rw [unionOf_eq_join, distinct, flatMap_cons, firsts_append, hfirst, nil_append,
    firsts_of_subset same_refl hsubset, join_alternatives hnormal]

theorem unionOf_eq_union (hflat : ∀ u ∈ members, u.alternatives = [u])
    (hapart : members.Pairwise fun u w => same u w = false) (hseveral : members.length ≠ 1) :
    unionOf members = .union members := by
  have hmembers : members.flatMap Ty.alternatives = members :=
    (flatMap_congr hflat).trans (flatMap_singleton' members)
  have hdistinct : firsts same [] members = [] ++ members := firsts_eq_append hapart
  rw [unionOf_eq_join, distinct, hmembers, hdistinct, nil_append, join]
  rintro only rfl
  exact hseveral rfl

theorem Normal.unionOf_members (hnormal : (Ty.union members).Normal) :
    unionOf members = .union members := by
  cases hnormal with
  | union _ hflat hapart hseveral => exact unionOf_eq_union hflat hapart hseveral

/-! ### Expansion -/

section Expand

variable {ε : Type} {replace : Variable → Outcome ε Ty}

theorem expandAll_eq_self {ts : List Ty} (hts : ∀ t ∈ ts, t.expand replace = .ok t) :
    expandAll replace ts = .ok ts := by
  rw [expandAll_eq_mapM]
  exact Outcome.mapM_of_forall₂ (forall₂_same.mpr hts)

theorem Normal.expand_eq_self (hnormal : t.Normal)
    (hreplace : ∀ v : Variable, t.occurs v.id = true → replace v = .ok (.var v)) :
    t.expand replace = .ok t := by
  induction hnormal with
  | var v =>
    rw [expand]
    exact hreplace v (by simp)
  | parametric _ ih | curried _ ih =>
    rw [expand, expandAll_eq_self fun t ht => ih t ht fun v hv =>
      hreplace v ((occurs_iff_components rfl).mpr ⟨t, ht, hv⟩)]
    rfl
  | union hmembers hflat hapart hseveral ih =>
    rw [expand, expandAll_eq_self fun t ht => ih t ht fun v hv =>
      hreplace v ((occurs_iff_components rfl).mpr ⟨t, ht, hv⟩)]
    exact congrArg Outcome.ok (Normal.union hmembers hflat hapart hseveral).unionOf_members

end Expand

end Ty

namespace Facts

variable {ε : Type} {facts : Facts} {t r : Ty}

theorem normal_of_reduce (hreduce : facts.reduce t = (.ok r : Outcome ε Ty)) : r.Normal := by
  refine reduceWithin_induct (R := fun _ r => r.Normal) (fun _ w _ => .var w)
    (fun _ _ _ _ _ hnormal => hnormal) (fun head _ _ hall => Ty.normal_rebuild head ?_) hreduce
  exact fun r hr => (exists_left_of_forall₂ hall hr).elim fun _ hnormal => hnormal.2

theorem reduce_eq_self (hnormal : t.Normal)
    (hfree : ∀ id, t.occurs id = true → facts.find? id = none) :
    facts.reduce t = (.ok t : Outcome ε Ty) := by
  have hstays : ∀ (next : Ty → Outcome ε Ty) (v : Variable), t.occurs v.id = true →
      facts.expandVariable next v = .ok (.var v) := by
    intro next v hv
    simp [expandVariable, resolve, resolveWithin, hfree v.id hv, pure]
  unfold reduce
  cases facts.size with
  | zero | succ depth => exact hnormal.expand_eq_self (hstays _)

end Facts

end TypeSearch
