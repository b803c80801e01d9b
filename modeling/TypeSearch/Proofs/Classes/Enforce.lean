import TypeSearch.Proofs.Classes.Meet

/-!
# Adding equalities to classes

`union` and `assign` enforce an equality if the way in which concrete types meet does: two acyclic
classes can be joined, and what is left to see to is that their concrete types do not lead to the
joined class. From single equalities this carries over to lists of them and to whole classes.
-/

namespace TypeSearch.Classes

open Relation

variable {classes next : Classes} {plain halts : Prop} {meet : Meet} {id root child : VarId}
  {t : Ty} {σ : VarId → Ty} {equation equation' : (VarId → Ty) → Prop}
  {outcome : Outcome Mismatch Classes}

def MeetEnforces (plain halts : Prop) (meet : Meet) : Prop :=
  ∀ ⦃classes : Classes⦄ ⦃root : VarId⦄ ⦃existing t : Ty⦄, Meeting plain classes root existing t →
    Enforces plain halts classes (fun σ => Ty.Agree σ existing t) (meet root existing t classes)

theorem Enforces.congr {first : Classes} (henforces : Enforces plain halts first equation outcome)
    (hiff : plain → ∀ σ, first.Solves σ ∧ equation σ ↔ classes.Solves σ ∧ equation' σ) :
    Enforces plain halts classes equation' outcome := by
  have hrefused : Contradicts plain first equation → Contradicts plain classes equation' := by
    intro hrefused hplain σ
    rw [← hiff hplain]
    exact hrefused hplain σ
  refine ⟨henforces.settles.mono (And.imp_right hrefused) hrefused fun next _ hadds => ?_⟩
  exact ⟨hadds.toSound, fun hplain σ => (hadds.solves_iff hplain σ).trans (hiff hplain σ)⟩

theorem Enforces.bind {later : Classes → Outcome Mismatch Classes}
    (henforces : Enforces plain halts classes equation outcome)
    (hlater : ∀ next, Adds plain classes equation next →
      Enforces plain halts next equation' (later next)) :
    Enforces plain halts classes (fun σ => equation σ ∧ equation' σ) (outcome >>= later) := by
  have hrefused : Contradicts plain classes equation →
      Contradicts plain classes fun σ => equation σ ∧ equation' σ :=
    fun hrefused hplain σ hsolves => hrefused hplain σ ⟨hsolves.1, hsolves.2.1⟩
  refine ⟨henforces.settles.bind (And.imp_right hrefused) hrefused fun next _ hadds => ?_⟩
  refine ((hlater next hadds).congr fun hplain σ => ?_).settles
  rw [hadds.solves_iff hplain, and_assoc]

section Admits

theorem Admits.refers_iff (hadmits : Admits classes next id) : next.Refers = classes.Refers := by
  unfold Refers
  rw [hadmits.root, hadmits.concrete?]

theorem Admits.sound (hadmits : Admits classes next id) (hsound : Sound plain classes) :
    Sound plain next := by
  refine ⟨hadmits.wellFormed, ?_, ?_⟩
  · unfold Acyclic
    rw [hadmits.refers_iff]
    exact hsound.acyclic
  · unfold FirstOrder
    rw [hadmits.concrete?]
    exact hsound.firstOrder

theorem Admits.solves_iff (hadmits : Admits classes next id) (hwf : classes.WellFormed) :
    next.Solves σ ↔ classes.Solves σ := by
  rw [hadmits.wellFormed.solves_iff, hwf.solves_iff, hadmits.root, hadmits.concrete?]

theorem Sets.admits (hsets : Sets classes next id none) (hnone : classes.concrete? id = none)
    (hhas : classes.has id = true) : Admits classes next id := by
  refine ⟨hsets.wellFormed, fun other => ?_, hsets.root, ?_⟩
  · rw [hsets.has]
    refine ⟨.inl, ?_⟩
    rintro (hother | rfl)
    exacts [hother, hhas]
  · rw [hsets.concrete?, ← hnone, Function.update_eq_self]

end Admits

section AssignConcrete

theorem Sets.solves_iff (hsets : Sets classes next root (some t)) (hwf : classes.WellFormed)
    (hnone : classes.concrete? root = none) :
    next.Solves σ ↔ classes.Solves σ ∧ Ty.same (σ root) (t.apply σ) = true := by
  rw [hwf.solves_iff, hsets.wellFormed.solves_iff, hsets.root, hsets.concrete?, and_assoc]
  refine and_congr_right fun _ => ⟨fun hsolves => ⟨fun id u hu => hsolves id u ?_, ?_⟩, ?_⟩
  · rw [Function.update_of_ne, hu]
    rintro rfl
    rw [hnone] at hu
    cases hu
  · exact hsolves root t (by rw [Function.update_self])
  · rintro ⟨hsolves, hroot⟩ id u hu
    rw [Function.update_apply] at hu
    split at hu
    · rename_i hid
      rw [hid, ← Option.some.inj hu]
      exact hroot
    · exact hsolves id u hu

theorem Sets.trans {last : Classes} {concrete concrete' : Option Ty}
    (hsets : Sets classes next root concrete) (hlast : Sets next last root concrete') :
    Sets classes last root concrete' :=
  ⟨hlast.wellFormed, hlast.has.trans hsets.has, hlast.root.trans hsets.root,
    hlast.variableAt.trans hsets.variableAt, by
      rw [hlast.concrete?, hsets.concrete?, Function.update_idem]⟩

theorem Sets.firstOrder (hsets : Sets classes next root (some t)) (hfirst : classes.FirstOrder)
    (ht : t.FirstOrder ∧ t.isVariable = false) : next.FirstOrder := by
  intro id u hu
  rw [hsets.concrete?, Function.update_apply] at hu
  split at hu
  · rw [← Option.some.inj hu]
    exact ht
  · exact hfirst id u hu

theorem Sound.assignConcrete {given : Classes} {concrete : Option Ty}
    (hsound : Sound plain classes) (hgiven : Sets classes given root concrete)
    (hnone : classes.concrete? root = none) (hhas : classes.has root = true)
    (hroot : classes.root root = root) (ht : plain → t.FirstOrder ∧ t.isVariable = false) :
    Enforces plain halts classes (fun σ => Ty.same (σ root) (t.apply σ) = true)
      (given.assignConcrete root t) := by
  have hhas' : given.has root = true := by rw [hgiven.has, hhas]
  have hroot' : given.root root = root := by rw [hgiven.root, hroot]
  have hsets := hgiven.trans (hgiven.wellFormed.setConcrete hhas' hroot' t)
  have hsolves := fun σ => hsets.solves_iff (σ := σ) hsound.wellFormed hnone
  rcases hgiven.wellFormed.assignConcrete_cases hhas' t with ⟨hreaches, hfailed⟩ | ⟨hapart, hok⟩
  · rw [hfailed]
    exact ⟨fun hplain σ => hsound.wellFormed.not_solves_of_reaches (hsound.firstOrder hplain)
      (ht hplain) hroot (hgiven.reaches_iff.mp hreaches)⟩
  · rw [hok]
    rw [hgiven.reaches_iff] at hapart
    exact ⟨⟨hsets.wellFormed, hsets.acyclic hsound.wellFormed hroot hsound.acyclic hapart,
      fun hplain => hsets.firstOrder (hsound.firstOrder hplain) (ht hplain)⟩, fun _ => hsolves⟩

end AssignConcrete

section Joins

variable {linked : Classes} {u : Ty}

section Joins

variable (hjoins : Joins classes linked root child)

include hjoins

theorem Joins.cleared : Sets linked (linked.withConcrete root none) root none :=
  hjoins.wellFormed.withConcrete (by rw [hjoins.has, hjoins.has_root]) hjoins.root_linked none

theorem Joins.cleared_eq_some :
    (linked.withConcrete root none).concrete? id = some u ↔
      id ≠ root ∧ id ≠ child ∧ classes.concrete? id = some u := by
  rw [hjoins.cleared.concrete?, hjoins.concrete?, Function.update_apply, Function.update_apply]
  by_cases hroot : id = root
  · simp [hroot]
  · by_cases hchild : id = child <;> simp [hroot, hchild]

theorem Joins.refers_cleared {other : VarId}
    (hrefers : (linked.withConcrete root none).Refers id other) :
    id ≠ root ∧ (classes.Refers id other ∨ other = root) := by
  obtain ⟨u, w, hu, hw, rfl⟩ := hrefers
  obtain ⟨hid, -, hu⟩ := hjoins.cleared_eq_some.mp hu
  refine ⟨hid, ?_⟩
  rw [hjoins.cleared.root, hjoins.root]
  split
  · exact .inr rfl
  · exact .inl ⟨u, w, hu, hw, rfl⟩

theorem Joins.acyclic_cleared
    (hacyclic : classes.Acyclic) : (linked.withConcrete root none).Acyclic := by
  have hpath : ∀ {here there}, TransGen (linked.withConcrete root none).Refers here there →
      TransGen classes.Refers here there ∨ there = root := by
    intro here there hpath
    induction hpath with
    | single hrefers => exact (hjoins.refers_cleared hrefers).2.imp_left .single
    | tail _ hrefers ih =>
      obtain ⟨hne, hrefers⟩ := hjoins.refers_cleared hrefers
      exact hrefers.imp_left (ih.resolve_right hne).tail
  intro here hcycle
  rcases hpath hcycle with hcycle' | rfl
  · exact hacyclic here hcycle'
  · obtain ⟨there, hrefers, -⟩ := TransGen.head'_iff.mp hcycle
    exact (hjoins.refers_cleared hrefers).1 rfl

theorem Joins.reaches
    (hreaches : linked.Reaches u root) : classes.Reaches u root ∨ classes.Reaches u child := by
  obtain ⟨w, hw, hpath⟩ := hreaches
  -- a path of the joined classes is one of the old classes until it first meets either of the two
  have hsplit : ∀ here, ReflTransGen linked.Refers here root → ∀ part,
      (if part = child then root else part) = here →
      ReflTransGen classes.Refers part root ∨ ReflTransGen classes.Refers part child := by
    intro here hpath
    induction hpath using ReflTransGen.head_induction_on with
    | refl =>
      intro part hpart
      split at hpart
      · rename_i hchild
        exact .inr (hchild ▸ .refl)
      · exact .inl (hpart ▸ .refl)
    | head hrefers _ ih =>
      intro part hpart
      by_cases hchild : part = child
      · exact .inr (hchild ▸ .refl)
      · rw [if_neg hchild] at hpart
        subst hpart
        obtain ⟨s, x, hs, hx, rfl⟩ := hrefers
        rw [hjoins.concrete?, Function.update_of_ne hchild] at hs
        have hstep : classes.Refers part (classes.root x) := ⟨s, x, hs, hx, rfl⟩
        exact (ih (classes.root x) (hjoins.root x).symm).imp (.head hstep) (.head hstep)
  rcases hsplit _ hpath (classes.root w) (hjoins.root w).symm with hpath | hpath
  exacts [.inl ⟨w, hw, hpath⟩, .inr ⟨w, hw, hpath⟩]

theorem Joins.not_both (hacyclic : classes.Acyclic)
    (ht : classes.concrete? root = some t) (hu : classes.concrete? child = some u) :
    ¬ (linked.Reaches t root ∧ linked.Reaches u root) := by
  rintro ⟨hroot, hchild⟩
  have hdown : TransGen classes.Refers root child := by
    rcases hjoins.reaches hroot with hreaches | hreaches
    · exact absurd (transGen_of_reaches ht hreaches) (hacyclic root)
    · exact transGen_of_reaches ht hreaches
  have hup : TransGen classes.Refers child root := by
    rcases hjoins.reaches hchild with hreaches | hreaches
    · exact transGen_of_reaches hu hreaches
    · exact absurd (transGen_of_reaches hu hreaches) (hacyclic child)
  exact hacyclic root (hdown.trans hup)

theorem Joins.solves_iff (hwf : classes.WellFormed) :
    classes.Solves σ ∧ Ty.same (σ root) (σ child) = true ↔
      (linked.withConcrete root none).Solves σ ∧
        (∀ t, classes.concrete? root = some t → Ty.same (σ root) (t.apply σ) = true) ∧
        ∀ u, classes.concrete? child = some u → Ty.same (σ root) (u.apply σ) = true := by
  have hcleared := hjoins.cleared
  have hroots := fun v => (congrFun hcleared.root v).trans (hjoins.root v)
  constructor
  · rintro ⟨hsolves, hsame⟩
    refine ⟨hcleared.wellFormed.solves_of_root (fun v => ?_) fun v u hu => ?_,
      hsolves.concrete? root, fun u hu => Ty.same_trans hsame (hsolves.concrete? child u hu)⟩
    · have hv := hsolves.root hwf v
      rw [hroots]
      split
      · rename_i hchild
        rw [hchild] at hv
        exact Ty.same_trans hv (Ty.same_symm hsame)
      · exact hv
    · exact hsolves.concrete? v u (hjoins.cleared_eq_some.mp hu).2.2
  · rintro ⟨hsolves, ht, hu⟩
    obtain ⟨hclass, hconcrete⟩ := hcleared.wellFormed.solves_iff.mp hsolves
    have hsame : Ty.same (σ root) (σ child) = true := by
      apply hclass
      rw [hroots, hroots, hjoins.root_root, hjoins.root_child, if_neg hjoins.ne, if_pos rfl]
    refine ⟨hwf.solves_iff.mpr ⟨fun v w heq => hclass v w ?_, fun v s hs => ?_⟩, hsame⟩
    · rw [hroots, hroots, heq]
    · by_cases hroot : v = root
      · subst hroot
        exact ht s hs
      · by_cases hchild : v = child
        · subst hchild
          exact Ty.same_trans (Ty.same_symm hsame) (hu s hs)
        · exact hconcrete v s (hjoins.cleared_eq_some.mpr ⟨hroot, hchild, hs⟩)

theorem Joins.sound_cleared
    (hsound : Sound plain classes) : Sound plain (linked.withConcrete root none) :=
  ⟨hjoins.cleared.wellFormed, hjoins.acyclic_cleared hsound.acyclic, fun hplain id u hu =>
    hsound.firstOrder hplain id u (hjoins.cleared_eq_some.mp hu).2.2⟩

theorem Joins.meeting (hsound : Sound plain classes)
    (ht : classes.concrete? root = some t) (hu : classes.concrete? child = some u) :
    Meeting plain linked root t u := by
  refine ⟨hjoins.wellFormed, by rw [hjoins.concrete?_linked, ht],
    hjoins.acyclic_cleared hsound.acyclic, hjoins.not_both hsound.acyclic ht hu, ?_,
    fun hplain => hsound.firstOrder hplain child u hu⟩
  intro hplain id s hs
  rw [hjoins.concrete?, Function.update_apply] at hs
  split at hs
  · cases hs
  · exact hsound.firstOrder hplain id s hs

theorem Joins.solves_linked_iff
    (ht : classes.concrete? root = some t) :
    linked.Solves σ ↔ (linked.withConcrete root none).Solves σ ∧
      Ty.same (σ root) (t.apply σ) = true := by
  have hrestored := hjoins.cleared.symm hjoins.wellFormed
  rw [hjoins.concrete?_linked, ht] at hrestored
  refine hrestored.solves_iff hjoins.cleared.wellFormed ?_
  rw [hjoins.cleared.concrete?, Function.update_self]

end Joins

theorem Sound.meetConcrete (hsound : Sound plain classes) (hmeet : MeetEnforces plain halts meet)
    (hjoins : Joins classes linked root child) :
    Enforces plain halts classes (fun σ => Ty.same (σ root) (σ child) = true)
      (Classes.meetConcrete meet linked root (classes.concrete? root)
        (classes.concrete? child)) := by
  have hsolves := fun σ => hjoins.solves_iff (σ := σ) hsound.wellFormed
  have hcleared := hjoins.sound_cleared hsound
  have hhas : (linked.withConcrete root none).has root = true := by
    rw [hjoins.cleared.has, hjoins.has, hjoins.has_root]
  have hroot : (linked.withConcrete root none).root root = root := by
    rw [hjoins.cleared.root, hjoins.root_linked]
  have hnone : (linked.withConcrete root none).concrete? root = none := by
    rw [hjoins.cleared.concrete?, Function.update_self]
  -- the four cases start from the joined class without a concrete type
  have hrestored := hjoins.cleared.symm hjoins.wellFormed
  have hassign : ∀ t : Ty, (plain → t.FirstOrder ∧ t.isVariable = false) →
      Enforces plain halts (linked.withConcrete root none)
        (fun σ => Ty.same (σ root) (t.apply σ) = true) (linked.assignConcrete root t) :=
    fun t ht => hcleared.assignConcrete hrestored hnone hhas hroot ht
  cases ht : classes.concrete? root with
  | none =>
    cases hu : classes.concrete? child with
    | none =>
      rw [hjoins.concrete?_linked, ht] at hrestored
      have hadmits := hrestored.admits hnone hhas
      refine ⟨hadmits.sound hcleared, fun _ σ => ?_⟩
      rw [hsolves σ, hadmits.solves_iff hcleared.wellFormed, ht, hu]
      simp
    | some u =>
      refine (hassign u fun hplain => hsound.firstOrder hplain child u hu).congr fun _ σ => ?_
      rw [hsolves σ, ht, hu]
      simp
  | some t =>
    cases hu : classes.concrete? child with
    | none =>
      refine (hassign t fun hplain => hsound.firstOrder hplain root t ht).congr fun _ σ => ?_
      rw [hsolves σ, ht, hu]
      simp
    | some u =>
      refine (hmeet (hjoins.meeting hsound ht hu)).congr fun _ σ => ?_
      rw [hsolves σ, hjoins.solves_linked_iff ht, ht, hu, and_assoc]
      simp only [Option.some.injEq, forall_eq']
      refine and_congr_right fun _ => and_congr_right fun hroot => ?_
      exact (Ty.same_congr hroot (Ty.same_refl _)).symm

end Joins

section Steps

theorem Sound.union (hsound : Sound plain classes) (hmeet : MeetEnforces plain halts meet)
    (hhas : classes.has id = true) (other : Variable) :
    Enforces plain halts classes (fun σ => Ty.same (σ id) (σ other.id) = true)
      (classes.union meet id other) := by
  have hwf := hsound.wellFormed
  obtain ⟨prepared, hadmits, ⟨hsame, hok⟩ | ⟨root, child, hmerges⟩⟩ :=
    hwf.union_cases meet hhas other
  · rw [hok]
    refine ⟨hadmits.sound hsound, fun _ σ => ?_⟩
    rw [hadmits.solves_iff hwf]
    exact ⟨fun hsolves => ⟨hsolves, (hwf.solves_iff.mp hsolves).1 _ _ hsame⟩, And.left⟩
  · have henforces := (hadmits.sound hsound).meetConcrete hmeet hmerges.joins
    rw [hadmits.concrete?, ← hmerges.eq] at henforces
    refine henforces.congr fun _ σ => ?_
    rw [hadmits.solves_iff hwf]
    refine and_congr_right fun hsolves => ?_
    have hleft := hsolves.root hwf id
    have hright := hsolves.root hwf other.id
    rcases hmerges.roots with ⟨rfl, rfl⟩ | ⟨rfl, rfl⟩
    · exact (Ty.same_congr hleft hright).symm
    · rw [Ty.same_congr hleft hright]
      exact ⟨Ty.same_symm, Ty.same_symm⟩

theorem Sound.assign (hsound : Sound plain classes) (hmeet : MeetEnforces plain halts meet)
    (id : VarId) (ht : plain → t.FirstOrder) :
    Enforces plain halts classes (fun σ => Ty.same (σ id) (t.apply σ) = true)
      (classes.assign meet id t) := by
  have hwf := hsound.wellFormed
  by_cases hvariable : t.isVariable = true
  · obtain ⟨v, rfl⟩ := Ty.isVariable_iff.mp hvariable
    have hadmits := hwf.addVariable ⟨id, ""⟩
    have hunion := (hadmits.sound hsound).union hmeet ((hadmits.has_iff id).mpr (.inr rfl)) v
    rw [assign_var_eq]
    refine hunion.congr fun _ σ => ?_
    rw [hadmits.solves_iff hwf, Ty.apply_var]
  · have hbuilt := Bool.eq_false_of_not_eq_true hvariable
    obtain ⟨prepared, hadmits, hassign⟩ := hwf.assign_built meet id hbuilt
    have hprepared := hadmits.sound hsound
    rw [hassign, ← hadmits.concrete?, ← hadmits.root]
    have hroot := hadmits.wellFormed.root_root id
    have hhas : prepared.has (prepared.root id) = true :=
      hadmits.wellFormed.has_root_iff.mpr ((hadmits.has_iff id).mpr (.inr rfl))
    -- the variable is equal to its root under any solution
    have hmember : ∀ σ, classes.Solves σ → Ty.same (σ id) (σ (prepared.root id)) = true :=
      fun σ hsolves => ((hadmits.solves_iff hwf).mpr hsolves).root hadmits.wellFormed id
    cases hconcrete : prepared.concrete? (prepared.root id) with
    | none =>
      have hself : Sets prepared prepared (prepared.root id) none :=
        ⟨hadmits.wellFormed, rfl, rfl, rfl, by rw [← hconcrete, Function.update_eq_self]⟩
      refine (hprepared.assignConcrete hself hconcrete hhas hroot
        fun hplain => ⟨ht hplain, hbuilt⟩).congr fun _ σ => ?_
      rw [hadmits.solves_iff hwf]
      refine and_congr_right fun hsolves => ?_
      exact (Ty.same_congr (hmember σ hsolves) (Ty.same_refl _)).symm
    | some existing =>
      have hcleared := hadmits.wellFormed.withConcrete hhas hroot none
      refine (hmeet ⟨hadmits.wellFormed, hconcrete, hcleared.acyclic_none hprepared.acyclic,
        fun hboth => hprepared.acyclic _ (transGen_of_reaches hconcrete hboth.1),
        hprepared.firstOrder, fun hplain => ⟨ht hplain, hbuilt⟩⟩).congr fun _ σ => ?_
      rw [hadmits.solves_iff hwf]
      refine and_congr_right fun hsolves => ?_
      have hexisting := Ty.same_trans (hmember σ hsolves)
        (((hadmits.solves_iff hwf).mpr hsolves).concrete? _ existing hconcrete)
      exact (Ty.same_congr hexisting (Ty.same_refl _)).symm

end Steps

end TypeSearch.Classes
