import TypeSearch.Proofs.Facts.Growth
import TypeSearch.Proofs.Facts.Loops

/-!
# What unification does

`Unified` says what a successful step of unification can be, one case for each pair of shapes, so
that facts about unification are proved case by case and not by unfolding it again. The first of
them: unifying types over `S` makes facts grow over `S`.
-/

namespace TypeSearch.Facts

variable {facts next : Facts} {step : Step} {left right t : Ty}

/-- The types `left` and `right`, which are no variables with a fact, are unified to the last type,
and facts become the last facts, where `step` unifies what is inside. -/
inductive Unified (step : Step) (facts : Facts) : Ty → Ty → Ty → Facts → Prop
  | same {v w : Variable} (hid : w.id = v.id) : Unified step facts (.var v) (.var w) (.var v) facts
  | left {v : Variable} {right : Ty} {next : Facts}
      (hother : ∀ w : Variable, right = .var w → w.id ≠ v.id)
      (hbind : facts.bind v right = .ok next) : Unified step facts (.var v) right right next
  | right {left : Ty} {w : Variable} {next : Facts} (hbuilt : left.isVariable = false)
      (hbind : facts.bind w left = .ok next) : Unified step facts left (.var w) left next
  | unions {lefts rights members : List Ty} {next : Facts}
      (hmembers : unifyMembers step lefts rights facts = .ok (members, next)) :
      Unified step facts (.union lefts) (.union rights) (Ty.unionOf members) next
  | memberOfLeft {members : List Ty} {member right t : Ty} {next : Facts}
      (hbuilt : right.isVariable = false) (hmember : member ∈ members)
      (hstep : step member right facts = .ok (t, next)) :
      Unified step facts (.union members) right t next
  | memberOfRight {members : List Ty} {left member t : Ty} {next : Facts}
      (hbuilt : left.isVariable = false) (hmember : member ∈ members)
      (hstep : step left member facts = .ok (t, next)) :
      Unified step facts left (.union members) t next
  | parametric {name : String} {lefts rights params : List Ty} {next : Facts}
      (hlength : lefts.length = rights.length)
      (hparams : unifyPairwise step lefts rights facts = .ok (params, next)) :
      Unified step facts (.parametric name lefts) (.parametric name rights)
        (.parametric name params) next
  | curried {lefts rights params : List Ty} {next : Facts}
      (hlength : (Ty.dropVoid lefts).length = (Ty.dropVoid rights).length)
      (hparams : unifyPairwise step (Ty.dropVoid lefts) (Ty.dropVoid rights) facts =
        .ok (params, next)) :
      Unified step facts (.curried lefts) (.curried rights) (.curried params) next

theorem unifyFirst_eq_ok {attempt : Ty → Outcome Mismatch (Ty × Facts)} {otherwise : Mismatch}
    {members : List Ty} {found : Ty × Facts}
    (hfirst : unifyFirst attempt otherwise members = .ok found) :
    ∃ member ∈ members, attempt member = .ok found := by
  induction members with
  | nil => cases hfirst
  | cons member rest ih =>
    rw [unifyFirst] at hfirst
    split at hfirst
    · rename_i found' hattempt
      cases hfirst
      exact ⟨member, .head _, hattempt⟩
    · obtain ⟨other, hother, hattempt⟩ := ih hfirst
      exact ⟨other, .tail _ hother, hattempt⟩
    · cases hfirst

theorem unifyParams_eq_ok {build : List Ty → Ty} {lefts rights : List Ty}
    (hparams : unifyParams step left right build lefts rights facts = .ok (t, next)) :
    lefts.length = rights.length ∧
      ∃ params, unifyPairwise step lefts rights facts = .ok (params, next) ∧ t = build params := by
  unfold unifyParams at hparams
  split at hparams
  · cases hparams
  · rename_i hlength
    refine ⟨not_not.mp hlength, ?_⟩
    split at hparams
    · rename_i params facts' hpairs
      cases hparams
      exact ⟨params, hpairs, rfl⟩
    · cases hparams
    · cases hparams

theorem unified_of_unifyResolved (hunify : unifyResolved step left right facts = .ok (t, next)) :
    Unified step facts left right t next := by
  unfold unifyResolved at hunify
  split at hunify
  · split at hunify
    · rename_i v w hid
      cases hunify
      exact .same hid
    · rename_i v w hid
      obtain ⟨_, hbind, hunify⟩ := Outcome.bind_eq_ok hunify
      cases hunify
      refine .left ?_ hbind
      rintro _ ⟨⟩
      exact hid
  · rename_i hvariable
    obtain ⟨_, hbind, hunify⟩ := Outcome.bind_eq_ok hunify
    cases hunify
    exact .left (fun w hw => absurd hw (hvariable w)) hbind
  · rename_i hvariable
    obtain ⟨_, hbind, hunify⟩ := Outcome.bind_eq_ok hunify
    cases hunify
    exact .right (Ty.isVariable_eq_false hvariable) hbind
  · obtain ⟨⟨members, facts'⟩, hmembers, hunify⟩ := Outcome.bind_eq_ok hunify
    cases hunify
    exact .unions hmembers
  · rename_i hvariable _
    obtain ⟨member, hmember, hstep⟩ := unifyFirst_eq_ok hunify
    exact .memberOfLeft (Ty.isVariable_eq_false hvariable) hmember hstep
  · rename_i hvariable _
    obtain ⟨member, hmember, hstep⟩ := unifyFirst_eq_ok hunify
    exact .memberOfRight (Ty.isVariable_eq_false hvariable) hmember hstep
  · split at hunify
    · cases hunify
    · rename_i name lefts name' rights hname
      obtain rfl := not_not.mp hname
      obtain ⟨hlength, params, hpairs, rfl⟩ := unifyParams_eq_ok hunify
      exact .parametric hlength hpairs
  · obtain ⟨hlength, params, hpairs, rfl⟩ := unifyParams_eq_ok hunify
    exact .curried hlength hpairs
  · cases hunify

theorem unifyWithin_eq_ok {depth : Nat}
    (hunify : unifyWithin (depth + 1) left right facts = .ok (t, next)) :
    ∃ left' right', facts.ResolvesTop left left' ∧ facts.ResolvesTop right right' ∧
      Unified (unifyWithin depth) facts left' right' t next := by
  obtain ⟨left', hleft, hunify⟩ := Outcome.bind_eq_ok hunify
  obtain ⟨right', hright, hunify⟩ := Outcome.bind_eq_ok hunify
  exact ⟨left', right', resolvesTop_of_resolveTop hleft, resolvesTop_of_resolveTop hright,
    unified_of_unifyResolved hunify⟩

/-! ### Facts grow over the variables of the types -/

def StepGrows (step : Step) : Prop :=
  ∀ ⦃S : Set VarId⦄ ⦃left right t : Ty⦄ ⦃facts next : Facts⦄, facts.Closed S →
    left.Over S → right.Over S → step left right facts = .ok (t, next) →
    Grows S facts next ∧ t.Over S

variable {S : Set VarId}

theorem StepGrows.carries (hstep : StepGrows step) :
    Carries step (fun facts t => facts.Closed S ∧ t.Over S) (Grows S) where
  refl := .refl
  trans := .trans
  keeps hgrows ht := ⟨hgrows.closed ht.1, ht.2⟩
  step hleft hright hunify := by
    obtain ⟨hgrows, ht⟩ := hstep hleft.1 hleft.2 hright.2 hunify
    exact ⟨hgrows, hgrows.closed hleft.1, ht⟩

/-- One successful step only adds facts, all over the same variables. -/
theorem StepGrows.unified (hstep : StepGrows step) (hclosed : facts.Closed S) (hleft : left.Over S)
    (hright : right.Over S) (hunified : Unified step facts left right t next) :
    Grows S facts next ∧ t.Over S := by
  have hinside : ∀ {t : Ty}, t.Over S → t.isVariable = false → ∀ component ∈ t.components,
      facts.Closed S ∧ component.Over S := fun ht hbuilt component hmem =>
    ⟨hclosed, (Ty.over_iff_components hbuilt).mp ht component hmem⟩
  cases hunified with
  | same _ => exact ⟨.refl, hleft⟩
  | left _ hbind => exact ⟨grows_of_bind hclosed (hleft _ (by simp)) hright hbind, hright⟩
  | right _ hbind => exact ⟨grows_of_bind hclosed (hright _ (by simp)) hleft hbind, hleft⟩
  | unions hmembers =>
    obtain ⟨hgrows, hts⟩ :=
      hstep.carries.unifyMembers (hinside hleft rfl) (hinside hright rfl) hmembers
    exact ⟨hgrows, Ty.over_unionOf fun t ht => (hts t ht).2⟩
  | memberOfLeft _ hmember hfound =>
    exact hstep hclosed (hinside hleft rfl _ hmember).2 hright hfound
  | memberOfRight _ hmember hfound =>
    exact hstep hclosed hleft (hinside hright rfl _ hmember).2 hfound
  | parametric _ hparams =>
    obtain ⟨hgrows, hts⟩ :=
      hstep.carries.unifyPairwise (hinside hleft rfl) (hinside hright rfl) hparams
    exact ⟨hgrows, (Ty.over_iff_components rfl).mpr fun t ht => (hts t ht).2⟩
  | curried _ hparams =>
    obtain ⟨hgrows, hts⟩ := hstep.carries.unifyPairwise
      (fun t ht => hinside hleft rfl t (Ty.mem_of_mem_dropVoid ht))
      (fun t ht => hinside hright rfl t (Ty.mem_of_mem_dropVoid ht)) hparams
    exact ⟨hgrows, (Ty.over_iff_components rfl).mpr fun t ht => (hts t ht).2⟩

/-- Unification of every depth only adds facts. -/
theorem stepGrows_unifyWithin (depth : Nat) : StepGrows (unifyWithin depth) := by
  induction depth with
  | zero => exact fun _ _ _ _ _ _ _ _ _ => nofun
  | succ depth ih =>
    intro S left right t facts next hclosed hleft hright hunify
    obtain ⟨left', right', hleft', hright', hunified⟩ := unifyWithin_eq_ok hunify
    exact ih.unified hclosed (hleft'.isOver hclosed hleft) (hright'.isOver hclosed hright) hunified

theorem grows_of_unify (hclosed : facts.Closed S) (hleft : left.Over S) (hright : right.Over S)
    (hunify : unify left right facts = .ok (t, next)) : Grows S facts next ∧ t.Over S :=
  stepGrows_unifyWithin _ hclosed hleft hright hunify

theorem unify_eq_of_unifyWithin {outcome : Outcome Mismatch (Ty × Facts)}
    (hwithin : ∀ depth, unifyWithin (depth + 4) left right facts = outcome) :
    unify left right facts = outcome := by
  obtain ⟨depth, hdepth⟩ : ∃ depth, unifyDepth left right facts = depth + 4 := by
    refine Nat.exists_eq_add_of_le' ?_
    calc 4 ≤ 2 ^ 4 := by decide
      _ ≤ 2 ^ (5 * (left.size + right.size + facts.weight) + 4) :=
        Nat.pow_le_pow_right (by decide) (Nat.le_add_left _ _)
  rw [unify, hdepth]
  exact hwithin depth

end TypeSearch.Facts
