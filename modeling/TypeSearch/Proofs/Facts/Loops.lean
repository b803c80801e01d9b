import TypeSearch.Facts.Unify
import TypeSearch.Proofs.Outcome

/-!
# The loops of unification

What unification goes on to unify depends on what it has unified before: the facts of a call are
those that the calls before it came to, the members of a union are tried until one agrees, and a
member that was replaced by a larger one is unified again. The calls are listed here, along the
loops that make them. A loop halts exactly if one of its calls does, and what every call carries on
the whole loop does.
-/

namespace TypeSearch.Facts

open List

structure Call where
  left : Ty
  right : Ty
  facts : Facts

def Call.outcome (call : Call) (step : Step) : Outcome Mismatch (Ty × Facts) :=
  step call.left call.right call.facts

variable {facts next : Facts} {step : Step} {call : Call} {left right candidate : Ty}
  {lefts rights members candidates ts : List Ty} {cause : Halt}
  {attempt : Ty → Outcome Mismatch (Ty × Facts)}

inductive PairwiseCall (step : Step) : List Ty → List Ty → Facts → Call → Prop
  | head {left right : Ty} {lefts rights : List Ty} {facts : Facts} :
      PairwiseCall step (left :: lefts) (right :: rights) facts ⟨left, right, facts⟩
  | tail {left right t : Ty} {lefts rights : List Ty} {facts next : Facts} {call : Call}
      (hfirst : step left right facts = .ok (t, next))
      (hlater : PairwiseCall step lefts rights next call) :
      PairwiseCall step (left :: lefts) (right :: rights) facts call

inductive Tried (attempt : Ty → Outcome Mismatch (Ty × Facts)) : List Ty → Ty → Prop
  | head {member : Ty} {members : List Ty} : Tried attempt (member :: members) member
  | tail {member tried : Ty} {members : List Ty} {mismatch : Mismatch}
      (hfailed : attempt member = .failed mismatch) (hlater : Tried attempt members tried) :
      Tried attempt (member :: members) tried

inductive MembersCall (step : Step) : List Ty → List Ty → Facts → Call → Prop
  | now {members candidates : List Ty} {member candidate : Ty} {facts : Facts}
      (htried : Tried (fun member => step member candidate facts) members member) :
      MembersCall step members (candidate :: candidates) facts ⟨member, candidate, facts⟩
  | later {members widened candidates : List Ty} {candidate : Ty} {facts next : Facts} {call : Call}
      (hinto : unifyInto step candidate facts members = .ok (widened, next))
      (hlater : MembersCall step widened candidates next call) :
      MembersCall step members (candidate :: candidates) facts call

inductive ResolvedCall (step : Step) (facts : Facts) : Ty → Ty → Call → Prop
  | unions {lefts rights : List Ty} {call : Call}
      (hcall : MembersCall step lefts rights facts call) :
      ResolvedCall step facts (.union lefts) (.union rights) call
  | memberOfLeft {members : List Ty} {member right : Ty} (hbuilt : ∀ w, right ≠ .var w)
      (hunion : ∀ rights, right ≠ .union rights)
      (htried : Tried (fun member => step member right facts) members member) :
      ResolvedCall step facts (.union members) right ⟨member, right, facts⟩
  | memberOfRight {members : List Ty} {left member : Ty} (hbuilt : ∀ v, left ≠ .var v)
      (hunion : ∀ lefts, left ≠ .union lefts)
      (htried : Tried (fun member => step left member facts) members member) :
      ResolvedCall step facts left (.union members) ⟨left, member, facts⟩
  | parametric {name : String} {lefts rights : List Ty} {call : Call}
      (hlength : lefts.length = rights.length)
      (hcall : PairwiseCall step lefts rights facts call) :
      ResolvedCall step facts (.parametric name lefts) (.parametric name rights) call
  | curried {lefts rights : List Ty} {call : Call}
      (hlength : (Ty.dropVoid lefts).length = (Ty.dropVoid rights).length)
      (hcall : PairwiseCall step (Ty.dropVoid lefts) (Ty.dropVoid rights) facts call) :
      ResolvedCall step facts (.curried lefts) (.curried rights) call

theorem Tried.mem {member : Ty} (htried : Tried attempt members member) : member ∈ members := by
  induction htried with
  | head => exact .head _
  | tail _ _ ih => exact .tail _ ih

/-! ### A loop that halts has a call that does -/

theorem exists_pairwiseCall_of_halted
    (hhalts : unifyPairwise step lefts rights facts = .halted cause) :
    ∃ call, PairwiseCall step lefts rights facts call ∧ call.outcome step = .halted cause := by
  induction lefts generalizing rights facts with
  | nil => cases hhalts
  | cons left lefts ih =>
    cases rights with
    | nil => cases hhalts
    | cons right rights =>
      rcases Outcome.bind_eq_halted hhalts with hfirst | ⟨⟨t, middle⟩, hfirst, hhalts⟩
      · exact ⟨_, .head, hfirst⟩
      · obtain ⟨call, hcall, houtcome⟩ := ih (Outcome.halted_of_bind_pure hhalts)
        exact ⟨call, .tail hfirst hcall, houtcome⟩

theorem exists_tried_of_halted {otherwise : Mismatch}
    (hhalts : unifyFirst attempt otherwise members = .halted cause) :
    ∃ member, Tried attempt members member ∧ attempt member = .halted cause := by
  induction members with
  | nil => cases hhalts
  | cons member members ih =>
    rw [unifyFirst] at hhalts
    cases hfirst : attempt member with
    | ok found => simp [hfirst] at hhalts
    | failed mismatch =>
      rw [hfirst] at hhalts
      obtain ⟨tried, htried, houtcome⟩ := ih hhalts
      exact ⟨tried, .tail hfirst htried, houtcome⟩
    | halted first =>
      rw [hfirst] at hhalts
      exact ⟨member, .head, hfirst.trans hhalts⟩

theorem exists_tried_of_into_halted
    (hhalts : unifyInto step candidate facts members = .halted cause) :
    ∃ member, Tried (fun member => step member candidate facts) members member ∧
      step member candidate facts = .halted cause := by
  induction members with
  | nil => cases hhalts
  | cons member members ih =>
    rw [unifyInto] at hhalts
    cases hfirst : step member candidate facts with
    | ok found => simp [hfirst] at hhalts
    | failed mismatch =>
      rw [hfirst] at hhalts
      obtain ⟨tried, htried, houtcome⟩ := ih (Outcome.halted_of_bind_pure hhalts)
      exact ⟨tried, .tail hfirst htried, houtcome⟩
    | halted first =>
      rw [hfirst] at hhalts
      cases hhalts
      exact ⟨member, .head, hfirst⟩

theorem exists_membersCall_of_halted
    (hhalts : unifyMembers step members candidates facts = .halted cause) :
    ∃ call, MembersCall step members candidates facts call ∧
      call.outcome step = .halted cause := by
  induction candidates generalizing members facts with
  | nil =>
    rw [unifyMembers] at hhalts
    cases hhalts
  | cons candidate candidates ih =>
    rw [unifyMembers] at hhalts
    rcases Outcome.bind_eq_halted hhalts with hinto | ⟨⟨widened, middle⟩, hinto, hrest⟩
    · obtain ⟨member, htried, houtcome⟩ := exists_tried_of_into_halted hinto
      exact ⟨_, .now htried, houtcome⟩
    · obtain ⟨call, hcall, houtcome⟩ := ih hrest
      exact ⟨call, .later hinto hcall, houtcome⟩

theorem exists_pairwiseCall_of_params_halted {build : List Ty → Ty}
    (hhalts : unifyParams step left right build lefts rights facts = .halted cause) :
    lefts.length = rights.length ∧
      ∃ call, PairwiseCall step lefts rights facts call ∧ call.outcome step = .halted cause := by
  unfold unifyParams at hhalts
  split at hhalts
  · cases hhalts
  · rename_i hlength
    refine ⟨not_not.mp hlength, ?_⟩
    split at hhalts
    · cases hhalts
    · cases hhalts
    · rename_i first hpairs
      cases hhalts
      exact exists_pairwiseCall_of_halted hpairs

theorem exists_call_of_halted (hhalts : unifyResolved step left right facts = .halted cause) :
    (∃ v, left = .var v ∧ facts.bind v right = .halted cause) ∨
      (∃ w, right = .var w ∧ facts.bind w left = .halted cause) ∨
      ∃ call, ResolvedCall step facts left right call ∧ call.outcome step = .halted cause := by
  unfold unifyResolved at hhalts
  split at hhalts
  · split at hhalts
    · cases hhalts
    · exact .inl ⟨_, rfl, Outcome.halted_of_bind_pure hhalts⟩
  · exact .inl ⟨_, rfl, Outcome.halted_of_bind_pure hhalts⟩
  · exact .inr (.inl ⟨_, rfl, Outcome.halted_of_bind_pure hhalts⟩)
  · obtain ⟨call, hcall, houtcome⟩ :=
      exists_membersCall_of_halted (Outcome.halted_of_bind_pure hhalts)
    exact .inr (.inr ⟨call, .unions hcall, houtcome⟩)
  · rename_i hbuilt hunion
    obtain ⟨member, htried, houtcome⟩ := exists_tried_of_halted hhalts
    exact .inr (.inr ⟨_, .memberOfLeft hbuilt hunion htried, houtcome⟩)
  · rename_i hbuilt hunion
    obtain ⟨member, htried, houtcome⟩ := exists_tried_of_halted hhalts
    exact .inr (.inr ⟨_, .memberOfRight hbuilt hunion htried, houtcome⟩)
  · split at hhalts
    · cases hhalts
    · rename_i hname
      obtain rfl := not_not.mp hname
      obtain ⟨hlength, call, hcall, houtcome⟩ := exists_pairwiseCall_of_params_halted hhalts
      exact .inr (.inr ⟨call, .parametric hlength hcall, houtcome⟩)
  · obtain ⟨hlength, call, hcall, houtcome⟩ := exists_pairwiseCall_of_params_halted hhalts
    exact .inr (.inr ⟨call, .curried hlength hcall, houtcome⟩)
  · cases hhalts

/-! ### What is carried along a loop -/

/-- Types that are good under some facts are unified to a type that is, under facts that keep all
good types good. -/
structure Carries (step : Step) (Good : Facts → Ty → Prop) (Later : Facts → Facts → Prop) :
    Prop where
  refl {facts : Facts} : Later facts facts
  trans {facts next last : Facts} : Later facts next → Later next last → Later facts last
  keeps {facts next : Facts} {t : Ty} : Later facts next → Good facts t → Good next t
  step {facts next : Facts} {left right t : Ty} : Good facts left → Good facts right →
    step left right facts = .ok (t, next) → Later facts next ∧ Good next t

section Carries

variable {Good : Facts → Ty → Prop} {Later : Facts → Facts → Prop}
  (hcarries : Carries step Good Later)
include hcarries

theorem Carries.unifyPairwise (hlefts : ∀ t ∈ lefts, Good facts t)
    (hrights : ∀ t ∈ rights, Good facts t)
    (hpairs : unifyPairwise step lefts rights facts = .ok (ts, next)) :
    Later facts next ∧ ∀ t ∈ ts, Good next t := by
  induction lefts generalizing rights ts facts with
  | nil =>
    cases hpairs
    exact ⟨hcarries.refl, nofun⟩
  | cons left lefts ih =>
    cases rights with
    | nil =>
      cases hpairs
      exact ⟨hcarries.refl, nofun⟩
    | cons right rights =>
      obtain ⟨⟨t, middle⟩, hhead, hpairs⟩ := Outcome.bind_eq_ok hpairs
      obtain ⟨⟨rest, last⟩, htail, hpairs⟩ := Outcome.bind_eq_ok hpairs
      cases hpairs
      rw [forall_mem_cons] at hlefts hrights
      obtain ⟨hfirst, ht⟩ := hcarries.step hlefts.1 hrights.1 hhead
      obtain ⟨hrest, hts⟩ := ih (fun t ht => hcarries.keeps hfirst (hlefts.2 t ht))
        (fun t ht => hcarries.keeps hfirst (hrights.2 t ht)) htail
      exact ⟨hcarries.trans hfirst hrest, forall_mem_cons.mpr ⟨hcarries.keeps hrest ht, hts⟩⟩

theorem Carries.unifyInto (hcandidate : Good facts candidate)
    (hmembers : ∀ t ∈ members, Good facts t)
    (hinto : unifyInto step candidate facts members = .ok (ts, next)) :
    Later facts next ∧ ∀ t ∈ ts, Good next t := by
  induction members generalizing ts with
  | nil =>
    cases hinto
    exact ⟨hcarries.refl, forall_mem_singleton.mpr hcandidate⟩
  | cons member members ih =>
    rw [forall_mem_cons] at hmembers
    rw [Facts.unifyInto] at hinto
    split at hinto
    · rename_i t middle hfound
      cases hinto
      obtain ⟨hlater, ht⟩ := hcarries.step hmembers.1 hcandidate hfound
      exact ⟨hlater, forall_mem_cons.mpr
        ⟨ht, fun t ht => hcarries.keeps hlater (hmembers.2 t ht)⟩⟩
    · obtain ⟨⟨rest, last⟩, hrest, hinto⟩ := Outcome.bind_eq_ok hinto
      cases hinto
      obtain ⟨hlater, hts⟩ := ih hmembers.2 hrest
      exact ⟨hlater, forall_mem_cons.mpr ⟨hcarries.keeps hlater hmembers.1, hts⟩⟩
    · cases hinto

theorem Carries.unifyMembers (hmembers : ∀ t ∈ members, Good facts t)
    (hcandidates : ∀ t ∈ candidates, Good facts t)
    (hunify : unifyMembers step members candidates facts = .ok (ts, next)) :
    Later facts next ∧ ∀ t ∈ ts, Good next t := by
  induction candidates generalizing members facts with
  | nil =>
    rw [Facts.unifyMembers] at hunify
    cases hunify
    exact ⟨hcarries.refl, hmembers⟩
  | cons candidate candidates ih =>
    rw [forall_mem_cons] at hcandidates
    rw [Facts.unifyMembers] at hunify
    obtain ⟨⟨widened, middle⟩, hinto, hunify⟩ := Outcome.bind_eq_ok hunify
    obtain ⟨hfirst, hwidened⟩ := hcarries.unifyInto hcandidates.1 hmembers hinto
    obtain ⟨hrest, hts⟩ := ih hwidened
      (fun t ht => hcarries.keeps hfirst (hcandidates.2 t ht)) hunify
    exact ⟨hcarries.trans hfirst hrest, hts⟩

theorem Carries.pairwiseCall (hlefts : ∀ t ∈ lefts, Good facts t)
    (hrights : ∀ t ∈ rights, Good facts t) (hcall : PairwiseCall step lefts rights facts call) :
    Later facts call.facts ∧ Good call.facts call.left ∧ Good call.facts call.right := by
  induction hcall with
  | head => exact ⟨hcarries.refl, hlefts _ (.head _), hrights _ (.head _)⟩
  | tail hfirst _ ih =>
    rw [forall_mem_cons] at hlefts hrights
    obtain ⟨hlater, -⟩ := hcarries.step hlefts.1 hrights.1 hfirst
    obtain ⟨hrest, hgood⟩ := ih (fun t ht => hcarries.keeps hlater (hlefts.2 t ht))
      fun t ht => hcarries.keeps hlater (hrights.2 t ht)
    exact ⟨hcarries.trans hlater hrest, hgood⟩

theorem Carries.membersCall (hmembers : ∀ t ∈ members, Good facts t)
    (hcandidates : ∀ t ∈ candidates, Good facts t)
    (hcall : MembersCall step members candidates facts call) :
    Later facts call.facts ∧ Good call.facts call.left ∧ Good call.facts call.right := by
  induction hcall with
  | now htried =>
    exact ⟨hcarries.refl, hmembers _ htried.mem, hcandidates _ (.head _)⟩
  | later hinto _ ih =>
    rw [forall_mem_cons] at hcandidates
    obtain ⟨hlater, hwidened⟩ := hcarries.unifyInto hcandidates.1 hmembers hinto
    obtain ⟨hrest, hgood⟩ := ih hwidened fun t ht => hcarries.keeps hlater (hcandidates.2 t ht)
    exact ⟨hcarries.trans hlater hrest, hgood⟩

end Carries

end TypeSearch.Facts
