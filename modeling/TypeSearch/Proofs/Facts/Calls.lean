import TypeSearch.Proofs.Facts.History

/-!
# The recursive calls of unification

Nothing but the calls that it makes decides what unification comes to. On facts without cycles none
of them can go on forever, so the depth that unification is given is never felt, and its recursive
equation has no other solution.
-/

namespace TypeSearch.Facts

variable {facts next : Facts} {step other : Step} {call callee caller : Call}
  {left right member candidate : Ty} {lefts rights members candidates : List Ty} {cause : Halt}
  {attempt : Ty → Outcome Mismatch (Ty × Facts)} {otherwise : Mismatch} {build : List Ty → Ty}
  {depth limit : Nat} {vars : Finset VarId}

/-! ### A call that halts ends the loop -/

theorem PairwiseCall.halts (hcall : PairwiseCall step lefts rights facts call)
    (hhalts : call.outcome step = .halted cause) :
    unifyPairwise step lefts rights facts = .halted cause := by
  induction hcall with
  | @head left right lefts rights facts =>
    have hfirst : step left right facts = .halted cause := hhalts
    rw [unifyPairwise, hfirst]
    rfl
  | tail hfirst _ ih =>
    rw [unifyPairwise, hfirst, Outcome.bind_ok]
    dsimp only
    rw [ih hhalts]
    rfl

theorem Tried.first_halts (htried : Tried attempt members member)
    (hhalts : attempt member = .halted cause) :
    unifyFirst attempt otherwise members = .halted cause := by
  induction htried with
  | head => rw [unifyFirst, hhalts]
  | tail hfailed _ ih => rw [unifyFirst, hfailed, ih hhalts]

theorem Tried.into_halts (htried : Tried (fun member => step member candidate facts) members member)
    (hhalts : step member candidate facts = .halted cause) :
    unifyInto step candidate facts members = .halted cause := by
  induction htried with
  | head => rw [unifyInto, hhalts]
  | tail hfailed _ ih =>
    rw [unifyInto, hfailed, ih hhalts]
    rfl

theorem MembersCall.halts (hcall : MembersCall step members candidates facts call)
    (hhalts : call.outcome step = .halted cause) :
    unifyMembers step members candidates facts = .halted cause := by
  induction hcall with
  | now htried =>
    rw [unifyMembers, htried.into_halts hhalts]
    rfl
  | later hinto _ ih =>
    rw [unifyMembers, hinto, Outcome.bind_ok]
    exact ih hhalts

theorem unifyParams_halts (hlength : lefts.length = rights.length)
    (hhalts : unifyPairwise step lefts rights facts = .halted cause) :
    unifyParams step left right build lefts rights facts = .halted cause := by
  rw [unifyParams, if_neg (not_not.mpr hlength), hhalts]

/-! ### Which case it is -/

theorem unifyResolved_memberOfLeft (step : Step) (hbuilt : ∀ w, right ≠ .var w)
    (hunion : ∀ rights, right ≠ .union rights) :
    unifyResolved step (.union members) right facts =
      unifyFirst (fun member => step member right facts)
        { expected := .union members, actual := right } members := by
  cases right with
  | var w => exact absurd rfl (hbuilt w)
  | union rights => exact absurd rfl (hunion rights)
  | parametric name params | curried params => rfl

theorem unifyResolved_memberOfRight (step : Step) (hbuilt : ∀ v, left ≠ .var v)
    (hunion : ∀ lefts, left ≠ .union lefts) :
    unifyResolved step left (.union members) facts =
      unifyFirst (fun member => step left member facts)
        { expected := left, actual := .union members } members := by
  cases left with
  | var v => exact absurd rfl (hbuilt v)
  | union lefts => exact absurd rfl (hunion lefts)
  | parametric name params | curried params => rfl

theorem unifyResolved_parametric (step : Step) (name : String) :
    unifyResolved step (.parametric name lefts) (.parametric name rights) facts =
      unifyParams step (.parametric name lefts) (.parametric name rights) (Ty.parametric name) lefts
        rights facts := by
  rw [unifyResolved, if_neg (not_not.mpr rfl)]

theorem ResolvedCall.halts (hcall : ResolvedCall step facts left right call)
    (hhalts : call.outcome step = .halted cause) :
    unifyResolved step left right facts = .halted cause := by
  cases hcall with
  | unions hcall =>
    rw [unifyResolved, hcall.halts hhalts]
    rfl
  | memberOfLeft hbuilt hunion htried =>
    rw [unifyResolved_memberOfLeft step hbuilt hunion]
    exact htried.first_halts hhalts
  | memberOfRight hbuilt hunion htried =>
    rw [unifyResolved_memberOfRight step hbuilt hunion]
    exact htried.first_halts hhalts
  | parametric hlength hcall =>
    rw [unifyResolved_parametric]
    exact unifyParams_halts hlength (hcall.halts hhalts)
  | curried hlength hcall => exact unifyParams_halts hlength (hcall.halts hhalts)

/-! ### Nothing but the calls matters -/

theorem unifyPairwise_congr
    (hagree : ∀ call, PairwiseCall step lefts rights facts call →
      call.outcome other = call.outcome step) :
    unifyPairwise other lefts rights facts = unifyPairwise step lefts rights facts := by
  induction lefts generalizing rights facts with
  | nil => rfl
  | cons left lefts ih =>
    cases rights with
    | nil => rfl
    | cons right rights =>
      have hfirst : other left right facts = step left right facts := hagree _ .head
      rw [unifyPairwise, unifyPairwise, hfirst]
      cases hstep : step left right facts with
      | ok result =>
        obtain ⟨t, next⟩ := result
        rw [Outcome.bind_ok, Outcome.bind_ok]
        dsimp only
        rw [ih fun call hcall => hagree call (.tail hstep hcall)]
      | failed mismatch | halted cause => rfl

theorem unifyFirst_congr {attempt' : Ty → Outcome Mismatch (Ty × Facts)}
    (hagree : ∀ member, Tried attempt members member → attempt' member = attempt member) :
    unifyFirst attempt' otherwise members = unifyFirst attempt otherwise members := by
  induction members with
  | nil => rfl
  | cons member members ih =>
    rw [unifyFirst, unifyFirst, hagree member .head]
    cases hfirst : attempt member with
    | ok found => rfl
    | failed mismatch => exact ih fun tried htried => hagree tried (.tail hfirst htried)
    | halted cause => rfl

theorem unifyInto_congr
    (hagree : ∀ member, Tried (fun member => step member candidate facts) members member →
      other member candidate facts = step member candidate facts) :
    unifyInto other candidate facts members = unifyInto step candidate facts members := by
  induction members with
  | nil => rfl
  | cons member members ih =>
    rw [unifyInto, unifyInto, hagree member .head]
    cases hfirst : step member candidate facts with
    | ok found => rfl
    | failed mismatch =>
      dsimp only
      rw [ih fun tried htried => hagree tried (.tail hfirst htried)]
    | halted cause => rfl

theorem unifyMembers_congr
    (hagree : ∀ call, MembersCall step members candidates facts call →
      call.outcome other = call.outcome step) :
    unifyMembers other members candidates facts = unifyMembers step members candidates facts := by
  induction candidates generalizing members facts with
  | nil => rw [unifyMembers, unifyMembers]
  | cons candidate candidates ih =>
    have hfirst : unifyInto other candidate facts members =
        unifyInto step candidate facts members :=
      unifyInto_congr fun member htried => hagree ⟨member, candidate, facts⟩ (.now htried)
    rw [unifyMembers, unifyMembers, hfirst]
    cases hinto : unifyInto step candidate facts members with
    | ok result =>
      obtain ⟨widened, next⟩ := result
      rw [Outcome.bind_ok, Outcome.bind_ok]
      exact ih fun call hcall => hagree call (.later hinto hcall)
    | failed mismatch | halted cause => rfl

theorem unifyParams_congr
    (hagree : ∀ call, lefts.length = rights.length → PairwiseCall step lefts rights facts call →
      call.outcome other = call.outcome step) :
    unifyParams other left right build lefts rights facts =
      unifyParams step left right build lefts rights facts := by
  by_cases hlength : lefts.length = rights.length
  · rw [unifyParams, unifyParams, unifyPairwise_congr fun call => hagree call hlength]
  · rw [unifyParams, unifyParams, if_pos hlength, if_pos hlength]

theorem unifyResolved_congr
    (hagree : ∀ call, ResolvedCall step facts left right call →
      call.outcome other = call.outcome step) :
    unifyResolved other left right facts = unifyResolved step left right facts := by
  have hleft (members : List Ty) (hbuilt : ∀ w, right ≠ .var w)
      (hunion : ∀ rights, right ≠ .union rights) (hunions : left = .union members) :
      unifyResolved other left right facts = unifyResolved step left right facts := by
    subst hunions
    rw [unifyResolved_memberOfLeft other hbuilt hunion,
      unifyResolved_memberOfLeft step hbuilt hunion]
    exact unifyFirst_congr fun member htried => hagree _ (.memberOfLeft hbuilt hunion htried)
  have hright (members : List Ty) (hbuilt : ∀ v, left ≠ .var v)
      (hunion : ∀ lefts, left ≠ .union lefts) (hunions : right = .union members) :
      unifyResolved other left right facts = unifyResolved step left right facts := by
    subst hunions
    rw [unifyResolved_memberOfRight other hbuilt hunion,
      unifyResolved_memberOfRight step hbuilt hunion]
    exact unifyFirst_congr fun member htried => hagree _ (.memberOfRight hbuilt hunion htried)
  cases left with
  | var v => cases right <;> rfl
  | union lefts =>
    cases right with
    | var w => rfl
    | union rights =>
      rw [unifyResolved, unifyResolved,
        unifyMembers_congr fun call hcall => hagree call (.unions hcall)]
    | parametric name params | curried params =>
      exact hleft lefts (by rintro _ ⟨⟩) (by rintro _ ⟨⟩) rfl
  | parametric name lefts =>
    cases right with
    | var w => rfl
    | union rights => exact hright rights (by rintro _ ⟨⟩) (by rintro _ ⟨⟩) rfl
    | parametric name' rights =>
      by_cases hname : name = name'
      · subst hname
        rw [unifyResolved_parametric, unifyResolved_parametric]
        exact unifyParams_congr fun call hlength hcall => hagree call (.parametric hlength hcall)
      · rw [unifyResolved, unifyResolved, if_pos hname, if_pos hname]
    | curried params => rfl
  | curried lefts =>
    cases right with
    | var w => rfl
    | union rights => exact hright rights (by rintro _ ⟨⟩) (by rintro _ ⟨⟩) rfl
    | parametric name params => rfl
    | curried rights =>
      exact unifyParams_congr fun call hlength hcall => hagree call (.curried hlength hcall)

/-! ### Depth is not felt -/

section Ends

variable (hends : ∀ cause, unifyWithin depth left right facts ≠ .halted cause)
include hends

theorem unifyWithin_succ :
    unifyWithin (depth + 1) left right facts = unifyWithin depth left right facts := by
  induction depth generalizing left right facts with
  | zero => exact absurd rfl (hends .endless)
  | succ depth ih =>
    rw [unifyWithin, unifyWithin]
    rw [unifyWithin] at hends
    cases hleft : (facts.resolveTop left : Outcome Mismatch Ty) with
    | failed mismatch | halted cause => rfl
    | ok left' =>
      cases hright : (facts.resolveTop right : Outcome Mismatch Ty) with
      | failed mismatch | halted cause => rfl
      | ok right' =>
        rw [hleft, Outcome.bind_ok, hright, Outcome.bind_ok] at hends
        refine unifyResolved_congr fun call hcall => ih fun cause hhalts => ?_
        exact hends cause (hcall.halts hhalts)

/-- More depth than a unification needs changes nothing. -/
theorem unifyWithin_add (more : Nat) :
    unifyWithin (depth + more) left right facts = unifyWithin depth left right facts := by
  induction more with
  | zero => rfl
  | succ more ih =>
    rw [← Nat.add_assoc, unifyWithin_succ, ih]
    rwa [ih]

theorem Acyclic.unifyWithin_eq (hacyclic : facts.Acyclic) :
    unifyWithin depth left right facts = unify left right facts := by
  have hgiven := (hacyclic.unify_ends left right).ne_halted
  rcases Nat.le_total depth (unifyDepth left right facts) with hle | hle
  · obtain ⟨more, hmore⟩ := Nat.exists_eq_add_of_le hle
    rw [unify, hmore, unifyWithin_add hends]
  · obtain ⟨more, rfl⟩ := Nat.exists_eq_add_of_le hle
    exact unifyWithin_add hgiven more

end Ends

/-! ### Facts stay without cycles -/

def StepAcyclic (step : Step) : Prop :=
  ∀ ⦃left right t : Ty⦄ ⦃facts next : Facts⦄, facts.Acyclic →
    step left right facts = .ok (t, next) → next.Acyclic

theorem stepAcyclic_unifyWithin (depth : Nat) : StepAcyclic (unifyWithin depth) := by
  intro left right t facts next hacyclic hunify
  have hclosed : facts.Closed Set.univ := fun _ _ _ _ _ _ => Set.mem_univ _
  exact (stepGrows_unifyWithin depth hclosed (fun _ _ => Set.mem_univ _)
    (fun _ _ => Set.mem_univ _) hunify).1.acyclic hacyclic

theorem StepAcyclic.carries (hstep : StepAcyclic step) :
    Carries step (fun facts _ => facts.Acyclic)
      (fun facts next => facts.Acyclic → next.Acyclic) where
  refl := id
  trans hfirst hlater hfacts := hlater (hfirst hfacts)
  keeps hlater hfacts := hlater hfacts
  step hfacts _ hunify := ⟨fun _ => hstep hfacts hunify, hstep hfacts hunify⟩

theorem ResolvedCall.acyclic (hstep : StepAcyclic step) (hacyclic : facts.Acyclic)
    (hcall : ResolvedCall step facts left right call) : call.facts.Acyclic := by
  have hall : ∀ {ts : List Ty}, ∀ t ∈ ts, facts.Acyclic := fun _ _ => hacyclic
  cases hcall with
  | unions hcall => exact (hstep.carries.membersCall hall hall hcall).2.1
  | memberOfLeft _ _ _ | memberOfRight _ _ _ => exact hacyclic
  | parametric _ hcall | curried _ hcall => exact (hstep.carries.pairwiseCall hall hall hcall).2.1

/-! ### The equation without depth -/

/-- One level of unification, where `step` unifies what is inside. -/
def unifyOnce (step : Step) : Step := fun left right facts => do
  let left ← facts.resolveTop left
  let right ← facts.resolveTop right
  unifyResolved step left right facts

/-- The calls that a call makes, by way of what its types resolve to. -/
def Calls (step : Step) (callee caller : Call) : Prop :=
  ∃ left right, caller.facts.resolveTop caller.left = (.ok left : Outcome Mismatch Ty) ∧
    caller.facts.resolveTop caller.right = (.ok right : Outcome Mismatch Ty) ∧
    ResolvedCall step caller.facts left right callee

theorem unifyOnce_congr
    (hagree : ∀ callee, Calls step callee call → callee.outcome other = callee.outcome step) :
    call.outcome (unifyOnce other) = call.outcome (unifyOnce step) := by
  rw [Call.outcome, Call.outcome, unifyOnce, unifyOnce]
  cases hleft : (call.facts.resolveTop call.left : Outcome Mismatch Ty) with
  | failed mismatch | halted cause => rfl
  | ok left =>
    cases hright : (call.facts.resolveTop call.right : Outcome Mismatch Ty) with
    | failed mismatch | halted cause => rfl
    | ok right =>
      exact unifyResolved_congr fun callee hcall =>
        hagree callee ⟨left, right, hleft, hright, hcall⟩

theorem Calls.halts (hcalls : Calls step callee caller)
    (hhalts : callee.outcome step = .halted cause) :
    caller.outcome (unifyOnce step) = .halted cause := by
  obtain ⟨left, right, hleft, hright, hcall⟩ := hcalls
  rw [Call.outcome, unifyOnce, hleft, Outcome.bind_ok, hright, Outcome.bind_ok, hcall.halts hhalts]

theorem Calls.acyclic (hstep : StepAcyclic step) (hcalls : Calls step callee caller)
    (hacyclic : caller.facts.Acyclic) : callee.facts.Acyclic := by
  obtain ⟨left, right, -, -, hcall⟩ := hcalls
  exact hcall.acyclic hstep hacyclic

theorem unify_eq_unifyOnce (hacyclic : call.facts.Acyclic) :
    call.outcome unify = call.outcome (unifyOnce unify) := by
  let depth := unifyDepth call.left call.right call.facts
  have hgiven : ∀ cause, unifyWithin depth call.left call.right call.facts ≠ .halted cause :=
    (hacyclic.unify_ends call.left call.right).ne_halted
  have hdeeper : call.outcome (unifyOnce (unifyWithin depth)) = call.outcome unify :=
    unifyWithin_succ hgiven
  rw [← hdeeper]
  refine (unifyOnce_congr fun callee hcalls => ?_).symm
  refine ((hcalls.acyclic (stepAcyclic_unifyWithin depth) hacyclic).unifyWithin_eq ?_).symm
  intro cause hhalts
  exact hgiven cause (hdeeper.symm.trans (hcalls.halts hhalts))

/-! ### Calls cost less -/

theorem Calls.affordable (hcalls : Calls unify callee caller)
    (hcaller : Affordable vars (limit + 1) caller.left caller.right caller.facts) :
    Affordable vars limit callee.left callee.right callee.facts := by
  obtain ⟨left, right, hleft, hright, hcall⟩ := hcalls
  refine hcall.affordable (fun _ _ _ _ _ _ => ?_) (fun _ _ _ _ _ _ => ?_)
    (hcaller.resolvesTop (resolvesTop_of_resolveTop hleft) (resolvesTop_of_resolveTop hright))
  · exact fun hready hl hr hunify => stepFits_unifyWithin _ hready hl hr hunify
  · exact grows_of_unify

theorem acc_calls (haffordable : Affordable vars limit call.left call.right call.facts) :
    Acc (Calls unify) call := by
  induction limit generalizing call with
  | zero =>
    obtain ⟨-, -, -, _, _, _, -, -, -, -, hcost⟩ := haffordable
    exact absurd hcost (Nat.not_lt_zero _)
  | succ limit ih => exact .intro call fun callee hcalls => ih (hcalls.affordable haffordable)

/-- **Unification ends because its calls are well founded.** On facts without cycles there is no
endless chain of calls, whatever the types are; unification gives a type or a mismatch and never
halts; it is what one level of it gives when it goes on with itself, and nothing else is. -/
theorem unify_well_founded {left right : Ty} {facts : Facts} (hacyclic : facts.Acyclic) :
    Acc (Calls unify) ⟨left, right, facts⟩ ∧
    (∀ cause, unify left right facts ≠ .halted cause) ∧
    unify left right facts = unifyOnce unify left right facts ∧
    ∀ step : Step, (∀ left right facts, facts.Acyclic →
      step left right facts = unifyOnce step left right facts) →
      step left right facts = unify left right facts := by
  obtain ⟨vars, haffordable⟩ := hacyclic.affordable left right
  have hacc : Acc (Calls unify) ⟨left, right, facts⟩ := acc_calls haffordable
  have honce : (⟨left, right, facts⟩ : Call).outcome unify =
      (⟨left, right, facts⟩ : Call).outcome (unifyOnce unify) := unify_eq_unifyOnce hacyclic
  refine ⟨hacc, (hacyclic.unify_ends left right).ne_halted, honce, fun step hstep => ?_⟩
  -- along the calls, the step and unification agree
  suffices hagree : ∀ call : Call, Acc (Calls unify) call → call.facts.Acyclic →
      call.outcome step = call.outcome unify from hagree _ hacc hacyclic
  intro call hcalled
  induction hcalled with
  | intro call _ ih =>
    intro hcall
    have hunify : StepAcyclic unify := fun left right t facts next hfacts hok =>
      stepAcyclic_unifyWithin _ hfacts hok
    calc
      call.outcome step = call.outcome (unifyOnce step) := hstep _ _ _ hcall
      _ = call.outcome (unifyOnce unify) :=
        unifyOnce_congr fun callee hcalls => ih callee hcalls (hcalls.acyclic hunify hcall)
      _ = call.outcome unify := (unify_eq_unifyOnce hcall).symm

def listFact : Facts := history [.add ⟨1, "a"⟩ (.list (.var ⟨2, "b"⟩))]

theorem unify_well_founded_of_list :
    listFact.Acyclic ∧
    Calls unify ⟨.var ⟨2, "b"⟩, .union [.number, .var ⟨3, "c"⟩], listFact⟩
      ⟨.var ⟨1, "a"⟩, .list (.union [.number, .var ⟨3, "c"⟩]), listFact⟩ ∧
    Acc (Calls unify) ⟨.var ⟨1, "a"⟩, .list (.union [.number, .var ⟨3, "c"⟩]), listFact⟩ ∧
    ∀ cause, unify (.var ⟨1, "a"⟩) (.list (.union [.number, .var ⟨3, "c"⟩])) listFact ≠
      .halted cause := by
  have hacyclic : listFact.Acyclic := acyclic_history _
  have hfounded := @unify_well_founded (.var ⟨1, "a"⟩) (.list (.union [.number, .var ⟨3, "c"⟩]))
    listFact hacyclic
  exact ⟨hacyclic, ⟨_, _, rfl, rfl, .parametric rfl .head⟩, hfounded.1, hfounded.2.1⟩

end TypeSearch.Facts
