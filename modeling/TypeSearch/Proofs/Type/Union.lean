import TypeSearch.Proofs.Type.Structure

/-!
# Unions without hashes

Equal types have equal hashes, so looking into the bucket of a hash finds every type that is equal
to a given one. What a union keeps of its members is then the first of each group of equal ones, and
two lists of types that correspond one to one and are told apart in the same way give unions that
correspond.
-/

namespace TypeSearch

open List

/-- The first of each group of items that `same` does not tell apart, after those of `kept`. -/
def firsts {α : Type} (same : α → α → Bool) (kept : List α) : List α → List α
  | [] => kept
  | item :: items =>
    firsts same (if kept.any (same · item) then kept else kept ++ [item]) items

theorem forall₂_firsts {α β : Type} {same : α → α → Bool} {same' : β → β → Bool}
    {R : α → β → Prop} (hR : ∀ x x' y y', R x y → R x' y' → same x x' = same' y y')
    {kept xs : List α} {kept' ys : List β} (hkept : Forall₂ R kept kept')
    (hall : Forall₂ R xs ys) :
    Forall₂ R (firsts same kept xs) (firsts same' kept' ys) := by
  induction hall generalizing kept kept' with
  | nil => exact hkept
  | @cons x y xs ys hhead _ ih =>
    have hany : kept.any (same · x) = kept'.any (same' · y) := by
      clear ih
      induction hkept with
      | nil => rfl
      | cons hfirst _ ih => rw [any_cons, any_cons, ih, hR _ _ _ _ hfirst hhead]
    rw [firsts, firsts, hany]
    apply ih
    split
    · exact hkept
    · exact rel_append hkept (.cons hhead .nil)

theorem firsts_eq_append {α : Type} {same : α → α → Bool} {kept items : List α}
    (hpairwise : (kept ++ items).Pairwise fun x y => same x y = false) :
    firsts same kept items = kept ++ items := by
  induction items generalizing kept with
  | nil => exact (append_nil kept).symm
  | cons item items ih =>
    have hnew : kept.any (same · item) = false := by
      rw [any_eq_false]
      intro other hother
      rw [(pairwise_append.mp hpairwise).2.2 other hother item (.head _)]
      exact Bool.false_ne_true
    have hsplit : kept ++ item :: items = kept ++ [item] ++ items := by simp
    rw [firsts, hnew, hsplit]
    rw [hsplit] at hpairwise
    exact ih hpairwise

section Firsts

variable {α : Type} {same : α → α → Bool}

theorem mem_of_mem_firsts {kept items : List α} {item : α} (hitem : item ∈ firsts same kept items) :
    item ∈ kept ∨ item ∈ items := by
  induction items generalizing kept with
  | nil => exact .inl hitem
  | cons first items ih =>
    rw [firsts] at hitem
    rcases ih hitem with hkept | hrest
    · split at hkept
      · exact .inl hkept
      · rcases mem_append.mp hkept with hold | hnew
        · exact .inl hold
        · exact .inr (mem_singleton.mp hnew ▸ mem_cons_self)
    · exact .inr (.tail _ hrest)

theorem subset_firsts (kept items : List α) : kept ⊆ firsts same kept items := by
  induction items generalizing kept with
  | nil => exact Subset.refl _
  | cons item items ih =>
    rw [firsts]
    refine Subset.trans ?_ (ih _)
    split
    · exact Subset.refl _
    · exact subset_append_left _ _

theorem exists_mem_firsts (hrefl : ∀ x, same x x = true) (kept : List α) {items : List α} {item : α}
    (hitem : item ∈ items) : ∃ other ∈ firsts same kept items, same other item = true := by
  induction items generalizing kept with
  | nil => cases hitem
  | cons first items ih =>
    rw [firsts]
    rcases mem_cons.mp hitem with rfl | hrest
    · split
      · rename_i hkept
        obtain ⟨other, hother, hsame⟩ := any_eq_true.mp hkept
        exact ⟨other, subset_firsts _ _ hother, hsame⟩
      · exact ⟨item, subset_firsts _ _ (by simp), hrefl item⟩
    · exact ih _ hrest

end Firsts

namespace BucketSet

variable {α : Type} {hashing : Hashing α} {set : BucketSet α}

def Indexed (hashing : Hashing α) (set : BucketSet α) : Prop :=
  ∀ position item, set.items[position]? = some item →
    position ∈ set.bucket (hashing.hash item)

theorem indexed_empty : Indexed hashing (empty : BucketSet α) := by
  intro position item hitem
  simp [empty] at hitem

theorem Indexed.contains_eq (hindexed : Indexed hashing set)
    (hhash : ∀ x y, hashing.same x y = true → hashing.hash x = hashing.hash y) (item : α) :
    set.contains hashing item = set.toList.any (hashing.same · item) := by
  rw [Bool.eq_iff_iff, contains, any_eq_true, any_eq_true]
  constructor
  · rintro ⟨position, -, hposition⟩
    split at hposition
    · rename_i other hother
      exact ⟨other, Array.mem_toList_iff.mpr (Array.mem_of_getElem? hother), hposition⟩
    · cases hposition
  · rintro ⟨other, hother, hsame⟩
    obtain ⟨position, hposition⟩ := mem_iff_getElem?.mp hother
    rw [toList, Array.getElem?_toList] at hposition
    refine ⟨position, ?_, ?_⟩
    · rw [← hhash other item hsame]
      exact hindexed position other hposition
    · rw [hposition]
      exact hsame

theorem Indexed.insert (hindexed : Indexed hashing set) (item : α) :
    Indexed hashing (set.insert hashing item) := by
  unfold BucketSet.insert
  split
  · exact hindexed
  · intro position other hother
    rw [Array.getElem?_push] at hother
    rw [bucket, lookup_cons]
    split at hother
    · cases hother
      simpa using .inr ‹position = set.items.size›
    · have hold := hindexed position other hother
      split
      · rename_i heq
        rw [← beq_iff_eq.mp heq]
        exact mem_append_left _ hold
      · exact hold

theorem Indexed.toList_insertAll (hindexed : Indexed hashing set)
    (hhash : ∀ x y, hashing.same x y = true → hashing.hash x = hashing.hash y) (items : List α) :
    (set.insertAll hashing items).toList = firsts hashing.same set.toList items := by
  induction items generalizing set with
  | nil => rfl
  | cons item items ih =>
    have hstep : (set.insert hashing item).toList =
        if set.toList.any (hashing.same · item) then set.toList else set.toList ++ [item] := by
      rw [← hindexed.contains_eq hhash, BucketSet.insert]
      split <;> simp [toList]
    rw [insertAll, foldl_cons, firsts, ← hstep]
    exact ih (hindexed.insert item)

theorem toList_ofList (hhash : ∀ x y, hashing.same x y = true → hashing.hash x = hashing.hash y)
    (items : List α) : (ofList hashing items).toList = firsts hashing.same [] items :=
  indexed_empty.toList_insertAll hhash items

end BucketSet

namespace Ty

variable {members ts : List Ty} {t u : Ty} {id : VarId}

theorem hashOnto_eq_of_forall₂ {ts us : List Ty}
    (hall : Forall₂ (fun t u => hash t = hash u) ts us) (digest : UInt64) :
    hashOnto digest ts = hashOnto digest us := by
  induction hall generalizing digest with
  | nil => rfl
  | cons hhead _ ih => rw [hashOnto, hashOnto, hhead, ih]

theorem hash_eq_of_same {t u : Ty} (hsame : same t u = true) : t.hash = u.hash := by
  induction t using inductBuild generalizing u with
  | var v =>
    obtain ⟨w, rfl, hid⟩ := same_var_iff.mp hsame
    rw [hash, hash, hid]
  | build head ts ih =>
    obtain ⟨us, rfl, hus⟩ := (same_build_iff head).mp hsame
    have hall := hashOnto_eq_of_forall₂ (forall₂_of_same (fun t ht _ => ih t ht) hus)
    cases head <;> simp only [Head.build, hash, hall]

/-- The members that a union built from types has. -/
def distinct (members : List Ty) : List Ty := firsts same [] (members.flatMap alternatives)

theorem unionOf_eq_distinct (members : List Ty) :
    unionOf members =
      match distinct members with
      | [t] => t
      | several => .union several := by
  have hlist : (BucketSet.ofList hashing (members.flatMap alternatives)).toList =
      distinct members :=
    BucketSet.toList_ofList (fun x y hsame => congrArg Fnv.fold32 (hash_eq_of_same hsame)) _
  have hunion : unionOf members =
      match (BucketSet.ofList hashing (members.flatMap alternatives)).toList with
      | [t] => t
      | several => .union several := rfl
  rw [hunion, hlist]

theorem exists_of_mem_distinct (hu : u ∈ distinct members) :
    ∃ member ∈ members, u ∈ member.alternatives :=
  mem_flatMap.mp ((mem_of_mem_firsts hu).resolve_left not_mem_nil)

theorem exists_mem_distinct (ht : t ∈ members) (hu : u ∈ t.alternatives) :
    ∃ kept ∈ distinct members, same kept u = true :=
  exists_mem_firsts same_refl [] (mem_flatMap.mpr ⟨t, ht, hu⟩)

theorem unionOf_eq (members : List Ty) :
    unionOf members = .union (distinct members) ∨ distinct members = [unionOf members] := by
  rw [unionOf_eq_distinct]
  split
  · rename_i t ht
    exact .inr ht
  · exact .inl rfl

theorem occurs_unionOf_iff :
    (unionOf members).occurs id = true ↔ ∃ member ∈ members, member.occurs id = true := by
  have hdistinct : (unionOf members).occurs id = true ↔
      ∃ t ∈ distinct members, t.occurs id = true := by
    rcases unionOf_eq members with heq | heq
    · rw [heq]
      exact occurs_iff_components rfl
    · simp [heq]
  rw [hdistinct]
  constructor
  · rintro ⟨t, ht, hin⟩
    obtain ⟨member, hmember, halternative⟩ := exists_of_mem_distinct ht
    exact ⟨member, hmember, occurs_iff_alternatives.mpr ⟨t, halternative, hin⟩⟩
  · rintro ⟨member, hmember, hin⟩
    obtain ⟨t, halternative, ht⟩ := occurs_iff_alternatives.mp hin
    obtain ⟨u, hu, hsame⟩ := exists_mem_distinct hmember halternative
    exact ⟨u, hu, occurs_of_same (same_symm hsame) ht⟩

theorem occurs_rebuild_iff {head : Head} :
    (head.rebuild ts).occurs id = true ↔ ∃ t ∈ ts, t.occurs id = true := by
  cases head with
  | union => exact occurs_unionOf_iff
  | parametric name => exact @occurs_build_iff _ _ (.parametric name)
  | curried => exact @occurs_build_iff _ _ .curried

theorem unionOf_rel {R : Ty → Ty → Prop}
    (hR : ∀ x x' y y', R x y → R x' y' → same x x' = same y y')
    (hunion : ∀ {ts us}, Forall₂ R ts us → R (.union ts) (.union us))
    (halternatives : ∀ {t u}, R t u → Forall₂ R t.alternatives u.alternatives)
    {ts us : List Ty} (hall : Forall₂ R ts us) : R (unionOf ts) (unionOf us) := by
  have hflat : Forall₂ R (ts.flatMap alternatives) (us.flatMap alternatives) := by
    induction hall with
    | nil => exact .nil
    | cons hhead _ ih => exact rel_append (halternatives hhead) ih
  have hdistinct : Forall₂ R (distinct ts) (distinct us) := forall₂_firsts hR .nil hflat
  rw [unionOf_eq_distinct, unionOf_eq_distinct]
  revert hdistinct
  generalize distinct ts = ds
  generalize distinct us = es
  intro hdistinct
  cases hdistinct with
  | nil => exact hunion .nil
  | cons hhead htail =>
    cases htail with
    | nil => exact hhead
    | cons hsecond hrest => exact hunion (.cons hhead (.cons hsecond hrest))

end Ty

end TypeSearch
