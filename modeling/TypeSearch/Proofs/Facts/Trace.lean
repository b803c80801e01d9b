import TypeSearch.Proofs.Facts.Ground
import TypeSearch.Proofs.Facts.Renamed

/-!
# Where types clash

A mismatch has a trace: the pairs that were compared on the way to the two types that clash. Every
pair is what two types in the same place of the pair before it resolve to, once what is left of them
was unified. The types that are tried in a union leave no trace.
-/

namespace TypeSearch.Facts

variable {facts next : Facts} {left right l r t : Ty} {lefts rights members : List Ty} {call : Call}
  {step : Step} {mismatch : Mismatch}

/-- Two types in the same place of two types that are built alike. Functions are compared without
the `Void` that they may begin with. -/
inductive Inside : Ty → Ty → Ty → Ty → Prop
  | parametric {name : String} {lefts rights : List Ty} {left right : Ty}
      (hpair : (left, right) ∈ lefts.zip rights) :
      Inside (.parametric name lefts) (.parametric name rights) left right
  | curried {lefts rights : List Ty} {left right : Ty}
      (hpair : (left, right) ∈ (Ty.dropVoid lefts).zip (Ty.dropVoid rights)) :
      Inside (.curried lefts) (.curried rights) left right

/-- A way down from two types: the pairs that it passes and the last one, with what is known there.
Each pair is resolved with what is known when it is reached. -/
inductive Descends : Facts → Ty → Ty → List (Ty × Ty) → Ty → Ty → Facts → Prop
  | here {facts : Facts} {left right l r : Ty} (hleft : facts.ResolvesTop left l)
      (hright : facts.ResolvesTop right r) : Descends facts left right [] l r facts
  | inside {facts next last : Facts} {left right l r left' right' l' r' : Ty}
      {trace : List (Ty × Ty)} (hleft : facts.ResolvesTop left l)
      (hright : facts.ResolvesTop right r) (hinside : Inside l r left' right')
      (hextends : next.Extends facts) (hrest : Descends next left' right' trace l' r' last) :
      Descends facts left right ((l, r) :: trace) l' r' last

/-- The types are no variables, and of different kinds, names or numbers of parameters; or one of
them is a union with no member that the other one unifies with. -/
def Disagree (facts : Facts) : Ty → Ty → Prop
  | .var _, _ | _, .var _ | .union _, .union _ => False
  | .union members, right =>
    ∀ member ∈ members, ∃ mismatch, unify member right facts = .failed mismatch
  | left, .union members =>
    ∀ member ∈ members, ∃ mismatch, unify left member facts = .failed mismatch
  | .parametric name lefts, .parametric name' rights =>
    name ≠ name' ∨ lefts.length ≠ rights.length
  | .curried lefts, .curried rights =>
    (Ty.dropVoid lefts).length ≠ (Ty.dropVoid rights).length
  | _, _ => True

/-- The mismatch names two types that disagree; or a variable and a type in which it occurs, which
may be the other way around. -/
def Clashes (facts : Facts) (left right : Ty) (mismatch : Mismatch) : Prop :=
  (mismatch.reason = "" ∧ mismatch.expected = left ∧ mismatch.actual = right ∧
    facts.Disagree left right) ∨
  mismatch.reason = "infinite type" ∧ mismatch.actual.isVariable = false ∧
    ∃ v, mismatch.expected = .var v ∧
      (left = .var v ∧ right = mismatch.actual ∨ right = .var v ∧ left = mismatch.actual) ∧
      ∃ t, facts.reduce mismatch.actual = (.ok t : Outcome Mismatch Ty) ∧ t.occurs v.id = true

/-! ### One level -/

theorem exists_pairwiseCall_of_failed
    (hfailed : unifyPairwise step lefts rights facts = .failed mismatch) :
    ∃ call, PairwiseCall step lefts rights facts call ∧ call.outcome step = .failed mismatch := by
  induction lefts generalizing rights facts with
  | nil => cases hfailed
  | cons left lefts ih =>
    cases rights with
    | nil => cases hfailed
    | cons right rights =>
      rcases Outcome.bind_eq_failed hfailed with hfirst | ⟨⟨t, middle⟩, hfirst, hfailed⟩
      · exact ⟨_, .head, hfirst⟩
      · obtain ⟨call, hcall, houtcome⟩ := ih (Outcome.failed_of_bind_pure hfailed)
        exact ⟨call, .tail hfirst hcall, houtcome⟩

theorem PairwiseCall.mem_zip (hcall : PairwiseCall step lefts rights facts call) :
    (call.left, call.right) ∈ lefts.zip rights := by
  induction hcall with
  | head => exact .head _
  | tail _ _ ih => exact .tail _ ih

theorem PairwiseCall.of_unify (hcall : PairwiseCall unify lefts rights facts call)
    (hacyclic : facts.Acyclic) : call.facts.Acyclic ∧ call.facts.Extends facts := by
  induction hcall with
  | head => exact ⟨hacyclic, fun _ _ => id⟩
  | tail hfirst _ ih =>
    obtain ⟨hnext, hextends⟩ := hacyclic.of_unify hfirst
    obtain ⟨hlast, hlater⟩ := ih hnext
    exact ⟨hlast, fun v t hfind => hlater v t (hextends v t hfind)⟩

theorem unifyFirst_eq_failed {attempt : Ty → Outcome Mismatch (Ty × Facts)} {otherwise : Mismatch}
    (hfailed : unifyFirst attempt otherwise members = .failed mismatch) :
    mismatch = otherwise ∧ ∀ member ∈ members, ∃ inner, attempt member = .failed inner := by
  induction members with
  | nil =>
    cases hfailed
    exact ⟨rfl, List.forall_mem_nil _⟩
  | cons member members ih =>
    rw [unifyFirst] at hfailed
    split at hfailed
    · cases hfailed
    · rename_i inner hfirst
      obtain ⟨heq, hrest⟩ := ih hfailed
      exact ⟨heq, List.forall_mem_cons.mpr ⟨⟨inner, hfirst⟩, hrest⟩⟩
    · cases hfailed

theorem unifyParams_eq_failed {build : List Ty → Ty}
    (hfailed : unifyParams step left right build lefts rights facts = .failed mismatch) :
    (lefts.length ≠ rights.length ∧ mismatch = { expected := left, actual := right }) ∨
      lefts.length = rights.length ∧ ∃ call inner, PairwiseCall step lefts rights facts call ∧
        call.outcome step = .failed inner ∧ mismatch = inner.within left right := by
  unfold unifyParams at hfailed
  split at hfailed
  · rename_i hlength
    cases hfailed
    exact .inl ⟨hlength, rfl⟩
  · rename_i hlength
    split at hfailed
    · cases hfailed
    · rename_i inner hpairs
      cases hfailed
      obtain ⟨call, hcall, houtcome⟩ := exists_pairwiseCall_of_failed hpairs
      exact .inr ⟨not_not.mp hlength, call, inner, hcall, houtcome, rfl⟩
    · cases hfailed

theorem Acyclic.infinite_of_bind (hacyclic : facts.Acyclic) {v : Variable}
    (hfree : facts.find? v.id = none) (ht : ∀ w, t = .var w → facts.find? w.id = none)
    (hbind : facts.bind v t = .failed mismatch) :
    mismatch = .infinite v t ∧ t.isVariable = false ∧
      ∃ r, facts.reduce t = (.ok r : Outcome Mismatch Ty) ∧ r.occurs v.id = true := by
  obtain ⟨s, hresolves, hbuilt, hleads, rfl⟩ := bind_eq_failed hbind
  obtain rfl : s = t := by
    rcases hresolves with ⟨-, rfl⟩ | ⟨w, rfl, hw⟩
    · rfl
    · cases hw.unique (.free (ht w rfl))
      cases hbuilt
  obtain ⟨r, hr⟩ := hacyclic.exists_reduce (ε := Mismatch) s
  exact ⟨rfl, hbuilt, r, hr, (occurs_reduceWithin_iff hr v.id).mpr ⟨hfree, hleads⟩⟩

/-- Resolved types that are not unified clash, or two types inside of them are not unified. -/
theorem Acyclic.clashes_or_inside (hacyclic : facts.Acyclic)
    (hl : ∀ v, l = .var v → facts.find? v.id = none)
    (hr : ∀ v, r = .var v → facts.find? v.id = none)
    (hfailed : unifyResolved unify l r facts = .failed mismatch) :
    (mismatch.trace = [] ∧ facts.Clashes l r mismatch) ∨
      ∃ call inner, ResolvedCall unify facts l r call ∧ Inside l r call.left call.right ∧
        call.facts.Acyclic ∧ call.facts.Extends facts ∧ call.outcome unify = .failed inner ∧
        mismatch = inner.within l r := by
  have hdisagree (hd : facts.Disagree l r) :
      ({ expected := l, actual := r } : Mismatch).trace = [] ∧
        facts.Clashes l r { expected := l, actual := r } := ⟨rfl, .inl ⟨rfl, rfl, rfl, hd⟩⟩
  unfold unifyResolved at hfailed
  split at hfailed
  · split at hfailed
    · cases hfailed
    · obtain ⟨-, hbuilt, -⟩ := hacyclic.infinite_of_bind (hl _ rfl) hr
        (Outcome.failed_of_bind_pure hfailed)
      cases hbuilt
  · obtain ⟨rfl, hbuilt, hoccurs⟩ := hacyclic.infinite_of_bind (hl _ rfl) hr
      (Outcome.failed_of_bind_pure hfailed)
    exact .inl ⟨rfl, .inr ⟨rfl, hbuilt, _, rfl, .inl ⟨rfl, rfl⟩, hoccurs⟩⟩
  · obtain ⟨rfl, hbuilt, hoccurs⟩ := hacyclic.infinite_of_bind (hr _ rfl) hl
      (Outcome.failed_of_bind_pure hfailed)
    exact .inl ⟨rfl, .inr ⟨rfl, hbuilt, _, rfl, .inr ⟨rfl, rfl⟩, hoccurs⟩⟩
  · exact absurd (Outcome.failed_of_bind_pure hfailed) (unifyMembers_ne_failed _ _ _ _)
  · rename_i hbuilt hunion
    obtain ⟨rfl, hmembers⟩ := unifyFirst_eq_failed hfailed
    refine .inl (hdisagree ?_)
    rwa [Disagree]
    all_goals assumption
  · rename_i hbuilt hunion
    obtain ⟨rfl, hmembers⟩ := unifyFirst_eq_failed hfailed
    refine .inl (hdisagree ?_)
    rwa [Disagree]
    all_goals assumption
  · split at hfailed
    · rename_i hname
      cases hfailed
      exact .inl (hdisagree (.inl hname))
    · rename_i hname
      obtain rfl := not_not.mp hname
      rcases unifyParams_eq_failed hfailed with
        ⟨hlength, rfl⟩ | ⟨hlength, call, inner, hcall, houtcome, rfl⟩
      · exact .inl (hdisagree (.inr hlength))
      · obtain ⟨hnext, hextends⟩ := hcall.of_unify hacyclic
        exact .inr ⟨call, inner, .parametric hlength hcall, .parametric hcall.mem_zip, hnext,
          hextends, houtcome, rfl⟩
  · rcases unifyParams_eq_failed hfailed with
      ⟨hlength, rfl⟩ | ⟨hlength, call, inner, hcall, houtcome, rfl⟩
    · exact .inl (hdisagree hlength)
    · obtain ⟨hnext, hextends⟩ := hcall.of_unify hacyclic
      exact .inr ⟨call, inner, .curried hlength hcall, .curried hcall.mem_zip, hnext, hextends,
        houtcome, rfl⟩
  · cases hfailed
    refine .inl (hdisagree ?_)
    rw [Disagree]
    · trivial
    all_goals assumption

/-! ### The whole way -/

theorem ResolvesTop.settled (hresolves : facts.ResolvesTop t l) :
    ∀ v, l = .var v → facts.find? v.id = none := by
  rintro v rfl
  exact hresolves.find?_eq_none

theorem descends_of_failed (hcalls : Acc (Calls unify) call) (hacyclic : call.facts.Acyclic)
    (hfailed : call.outcome unify = .failed mismatch) :
    ∃ l r last, Descends call.facts call.left call.right mismatch.trace l r last ∧
      last.Clashes l r mismatch := by
  induction hcalls generalizing mismatch with
  | intro call _ ih =>
    obtain ⟨l, hl⟩ := hacyclic.exists_resolvesTop call.left
    obtain ⟨r, hr⟩ := hacyclic.exists_resolvesTop call.right
    have hresolved : unifyResolved unify l r call.facts = .failed mismatch :=
      (hacyclic.unify_eq hl hr).symm.trans hfailed
    rcases hacyclic.clashes_or_inside hl.settled hr.settled hresolved with
      ⟨htrace, hclash⟩ | ⟨callee, inner, hcall, hinside, hnext, hextends, hinner, rfl⟩
    · exact ⟨l, r, call.facts, htrace ▸ .here hl hr, hclash⟩
    · obtain ⟨l', r', last, hrest, hclash⟩ := ih callee
        ⟨l, r, hacyclic.resolveTop_eq hl, hacyclic.resolveTop_eq hr, hcall⟩ hnext hinner
      exact ⟨l', r', last, .inside hl hr hinside hextends hrest, hclash⟩

/-- **The trace of a mismatch is the way to a clash.** After any history of requests, two types that
are not unified lead to two types that clash, and the pairs on the way are those of the trace. -/
theorem mismatch_trace_leads_to_clash (requests : List Request) {left right : Ty}
    {mismatch : Mismatch} (hfailed : unify left right (history requests) = .failed mismatch) :
    ∃ l r last, Descends (history requests) left right mismatch.trace l r last ∧
      last.Clashes l r mismatch := by
  have hacyclic := acyclic_history requests
  obtain ⟨vars, haffordable⟩ := hacyclic.affordable left right
  have hcalls : Acc (Calls unify) ⟨left, right, history requests⟩ := acc_calls haffordable
  exact descends_of_failed hcalls hacyclic hfailed

/-- A list of texts is known to be one, and is compared with a list of numbers. -/
theorem mismatch_trace_leads_to_clash_of_lists :
    ∃ mismatch l r last,
      unify (.var ⟨1, "a"⟩) (.list .number)
        (history [.add ⟨1, "a"⟩ (.list (.var ⟨2, "b"⟩)), .add ⟨2, "b"⟩ .string]) =
          .failed mismatch ∧
      mismatch.trace = [(.list (.var ⟨2, "b"⟩), .list .number)] ∧
      Descends (history [.add ⟨1, "a"⟩ (.list (.var ⟨2, "b"⟩)), .add ⟨2, "b"⟩ .string])
        (.var ⟨1, "a"⟩) (.list .number) mismatch.trace l r last ∧
      last.Clashes l r mismatch := by
  have hfailed : unify (.var ⟨1, "a"⟩) (.list .number)
      (history [.add ⟨1, "a"⟩ (.list (.var ⟨2, "b"⟩)), .add ⟨2, "b"⟩ .string]) =
        .failed ⟨.string, .number, [(.list (.var ⟨2, "b"⟩), .list .number)], ""⟩ :=
    unify_eq_of_unifyWithin fun _ => rfl
  obtain ⟨l, r, last, hdescends, hclash⟩ := mismatch_trace_leads_to_clash _ hfailed
  exact ⟨_, l, r, last, hfailed, rfl, hdescends, hclash⟩

end TypeSearch.Facts
