import TypeSearch.Proofs.Type.Substitution

/-!
# Unions are what their plain definition says

The set by which a union is built finds its elements by hash. As equal types have equal hashes, it
keeps the first of each group of equal members, whichever other types share their hashes. So a union
of well-formed types is the list of their alternatives without repetitions, it is well formed again,
and a union among the members may be built before or together with the others.
-/

namespace TypeSearch

open List

theorem firsts_eq_eraseDupsBy {α : Type} {same : α → α → Bool}
    (hsymm : ∀ x y, same x y = same y x) (items : List α) :
    firsts same [] items = items.eraseDupsBy same := by
  -- the library's loop has what it keeps in reverse
  have hloop : ∀ kept items : List α,
      firsts same kept.reverse items = eraseDupsBy.loop same items kept := by
    intro kept items
    induction items generalizing kept with
    | nil => rfl
    | cons item items ih =>
      have hany : kept.reverse.any (same · item) = kept.any (same item) := by
        rw [any_reverse]
        exact congrArg kept.any (funext fun other => hsymm other item)
      rw [firsts, eraseDupsBy.loop, hany]
      cases kept.any (same item) with
      | true => exact ih kept
      | false =>
        rw [if_neg Bool.false_ne_true, ← reverse_cons]
        exact ih (item :: kept)
  exact hloop [] items

namespace Ty

/-- Every union in the type has at least two members, none of them a union and no two of them
equal. -/
inductive WellFormed : Ty → Prop
  | var (v : Variable) : WellFormed (.var v)
  | parametric {name : String} {params : List Ty} (hparams : ∀ t ∈ params, WellFormed t) :
      WellFormed (.parametric name params)
  | curried {params : List Ty} (hparams : ∀ t ∈ params, WellFormed t) : WellFormed (.curried params)
  | union {members : List Ty} (hmembers : ∀ t ∈ members, WellFormed t)
      (hflat : ∀ t ∈ members, t.isUnion = false)
      (hapart : members.Pairwise fun t u => same t u = false) (hseveral : 2 ≤ members.length) :
      WellFormed (.union members)

variable {t : Ty} {members : List Ty}

theorem alternatives_of_isUnion_eq_false (hflat : t.isUnion = false) : t.alternatives = [t] := by
  cases t with
  | union members => cases hflat
  | _ => rfl

theorem WellFormed.normal (hwf : t.WellFormed) : t.Normal := by
  induction hwf with
  | var v => exact .var v
  | parametric _ ih => exact .parametric ih
  | curried _ ih => exact .curried ih
  | union _ hflat hapart hseveral ih =>
    exact .union ih (fun t ht => alternatives_of_isUnion_eq_false (hflat t ht)) hapart (by omega)

theorem WellFormed.alternatives (hwf : t.WellFormed) :
    t.alternatives ≠ [] ∧ ∀ u ∈ t.alternatives, u.WellFormed ∧ u.isUnion = false := by
  cases t with
  | union members =>
    cases hwf with
    | union hmembers hflat _ hseveral =>
      refine ⟨fun hnil => ?_, fun u hu => ⟨hmembers u hu, hflat u hu⟩⟩
      rw [Ty.alternatives] at hnil
      rw [hnil] at hseveral
      exact absurd hseveral (by decide)
  | _ =>
    exact ⟨cons_ne_nil _ _, forall_mem_singleton.mpr ⟨hwf, rfl⟩⟩

theorem wellFormed_join (hsome : members ≠ [])
    (hmembers : ∀ u ∈ members, u.WellFormed ∧ u.isUnion = false)
    (hapart : members.Pairwise fun u w => same u w = false) : (join members).WellFormed := by
  obtain ⟨first, rest, rfl⟩ := exists_cons_of_ne_nil hsome
  cases rest with
  | nil => exact (hmembers first (.head _)).1
  | cons second rest =>
    exact .union (fun u hu => (hmembers u hu).1) (fun u hu => (hmembers u hu).2) hapart
      (Nat.le_add_left 2 rest.length)

theorem wellFormed_unionOf (hsome : members ≠ []) (hmembers : ∀ t ∈ members, t.WellFormed) :
    (unionOf members).WellFormed := by
  rw [unionOf_eq_join]
  refine wellFormed_join ?_ (fun u hu => ?_) (pairwise_firsts Pairwise.nil _)
  · obtain ⟨member, hmember⟩ := exists_mem_of_ne_nil _ hsome
    obtain ⟨u, hu⟩ := exists_mem_of_ne_nil _ (hmembers member hmember).alternatives.1
    obtain ⟨kept, hkept, -⟩ := exists_mem_distinct hmember hu
    exact ne_nil_of_mem hkept
  · obtain ⟨member, hmember, halternative⟩ := exists_of_mem_distinct hu
    exact (hmembers member hmember).alternatives.2 u halternative

theorem unionOf_unionOf (before after : List Ty) (hmembers : ∀ t ∈ members, t.Normal) :
    unionOf (before ++ [unionOf members] ++ after) = unionOf (before ++ members ++ after) := by
  have hinner : (unionOf members).alternatives = firsts same [] (members.flatMap Ty.alternatives) :=
    alternatives_unionOf hmembers
  rw [unionOf_eq_join (_ ++ _ ++ _), unionOf_eq_join (_ ++ _ ++ _)]
  refine congrArg join ?_
  simp only [distinct, flatMap_append, flatMap_singleton, firsts_append]
  rw [hinner, firsts_firsts same_refl fun _ _ _ => same_trans]

theorem same_comm (t u : Ty) : same t u = same u t := Bool.eq_iff_iff.mpr ⟨same_symm, same_symm⟩

/-- **Unions are what their plain definition says.** The union of well-formed types has the
alternatives of these types as its members, of equal ones the first only, or is the one that is
left. It is well formed, and a union that is built of it and other types is the union of all of
them. Any hash that equal types share keeps the same members. -/
theorem unionOf_plain (hsome : members ≠ []) (hmembers : ∀ t ∈ members, t.WellFormed) :
    unionOf members = join ((members.flatMap alternatives).eraseDupsBy same) ∧
    (unionOf members).WellFormed ∧
    (∀ before after : List Ty,
      unionOf (before ++ [unionOf members] ++ after) = unionOf (before ++ members ++ after)) ∧
    ∀ hash : Ty → UInt32, (∀ t u, same t u = true → hash t = hash u) →
      (BucketSet.ofList ⟨hash, same⟩ (members.flatMap alternatives)).toList =
        (members.flatMap alternatives).eraseDupsBy same := by
  refine ⟨?_, wellFormed_unionOf hsome hmembers, fun before after => ?_, fun hash hhash => ?_⟩
  · rw [unionOf_eq_join, distinct, firsts_eq_eraseDupsBy same_comm]
  · exact unionOf_unionOf before after fun t ht => (hmembers t ht).normal
  · exact (BucketSet.toList_ofList hhash _).trans (firsts_eq_eraseDupsBy same_comm _)

/-- `Number`, `String | Number` and twice a list of one variable, under two hints. -/
def repeatedMembers : List Ty :=
  [.number, .union [.string, .number], .list (.var ⟨1, "a"⟩), .list (.var ⟨1, "b"⟩)]

theorem wellFormed_repeatedMembers : ∀ t ∈ repeatedMembers, t.WellFormed := by
  have hprimitive (name : String) : (parametric name []).WellFormed := .parametric (by simp)
  have hlist (v : Variable) : (list (.var v)).WellFormed := .parametric (by simp [WellFormed.var])
  simp only [repeatedMembers, forall_mem_cons]
  refine ⟨hprimitive _, .union ?_ ?_ (by decide) (by decide), hlist _, hlist _, by simp⟩
  · exact forall_mem_cons.mpr ⟨hprimitive _, forall_mem_singleton.mpr (hprimitive _)⟩
  · exact forall_mem_cons.mpr ⟨rfl, forall_mem_singleton.mpr rfl⟩

theorem unionOf_plain_of_repeated :
    repeatedMembers ≠ [] ∧ (∀ t ∈ repeatedMembers, t.WellFormed) ∧
    unionOf repeatedMembers = .union [.number, .string, .list (.var ⟨1, "a"⟩)] := by
  have hsome : repeatedMembers ≠ [] := List.cons_ne_nil _ _
  obtain ⟨hplain, -⟩ := unionOf_plain hsome wellFormed_repeatedMembers
  exact ⟨hsome, wellFormed_repeatedMembers, hplain.trans rfl⟩

end Ty

end TypeSearch
