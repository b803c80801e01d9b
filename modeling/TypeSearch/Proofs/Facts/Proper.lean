import TypeSearch.Proofs.Facts.Unification
import TypeSearch.Proofs.Type.Proper

/-!
# Proper facts

Facts are proper if every type that they speak of is. Reduction and unification stay within proper
types, they never try to give a variable a second fact, and the only halts that they can end in come
from facts that run in a circle. All of this is stated under a proposition `P` that stands for what
makes the given types proper; the halts do not depend on it.
-/

namespace TypeSearch.Facts

open List

variable {P : Prop} {facts : Facts} {ε : Type} {fails : ε → Prop} {t left right : Ty} {v : Variable}

def Proper (facts : Facts) : Prop := ∀ entry ∈ facts.entries, entry.2.Proper

theorem proper_empty : empty.Proper := nofun

theorem Proper.insert (hproper : facts.Proper) (id : VarId) (ht : t.Proper) :
    (facts.insert id t).Proper :=
  forall_mem_cons.mpr ⟨ht, hproper⟩

theorem Proper.resolves (hproper : facts.Proper) (hresolves : facts.Resolves v t) : t.Proper := by
  induction hresolves with
  | free _ => exact .var _
  | follow _ _ ih => exact ih
  | stop hfind _ => exact hproper _ (mem_entries_of_find? hfind)

theorem Proper.resolvesTop (hproper : facts.Proper) {s : Ty} (ht : t.Proper)
    (hresolves : facts.ResolvesTop t s) : s.Proper := by
  rcases hresolves with ⟨-, rfl⟩ | ⟨w, rfl, hresolves⟩
  · exact ht
  · exact hproper.resolves hresolves

theorem resolve_meets (hfacts : P → facts.Proper) (v : Variable) :
    (facts.resolve v : Outcome ε Ty).Meets (fun t => facts.Resolves v t ∧ (P → t.Proper))
      fails := by
  cases hresolve : (facts.resolve v : Outcome ε Ty) with
  | ok t =>
    have hresolves := resolves_of_resolve hresolve
    exact ⟨hresolves, fun hP => (hfacts hP).resolves hresolves⟩
  | failed error => exact absurd hresolve (resolve_ne_failed v error)
  | halted cause =>
    unfold resolve at hresolve
    split at hresolve
    · cases hresolve
    · cases hresolve
      exact trivial

theorem resolveTop_meets (hfacts : P → facts.Proper) (ht : P → t.Proper) :
    (facts.resolveTop t : Outcome ε Ty).Meets
      (fun u => (∀ v, u = .var v → facts.find? v.id = none) ∧ (P → u.Proper)) fails := by
  cases t with
  | var v =>
    refine (resolve_meets hfacts v).imp ?_
    rintro u ⟨hresolves, hu⟩
    exact ⟨fun w hw => hresolves.find?_eq_none hw, hu⟩
  | _ => exact ⟨nofun, ht⟩

theorem expandVariable_meets {next : Ty → Outcome ε Ty} (hfacts : P → facts.Proper)
    (hnext : ∀ t, (P → t.Proper) → (next t).Meets (fun u => P → u.Proper) fails) (v : Variable) :
    (facts.expandVariable next v).Meets (fun u => P → u.Proper) fails := by
  refine (resolve_meets hfacts v).bind ?_
  rintro t ⟨-, ht⟩
  cases t with
  | var w => exact ht
  | _ => exact hnext _ ht

theorem reduce_meets (hfacts : P → facts.Proper) (ht : P → t.Proper) :
    (facts.reduce t : Outcome ε Ty).Meets (fun u => P → u.Proper) fails := by
  unfold reduce
  generalize facts.size = depth
  induction depth generalizing t with
  | zero =>
    refine Ty.expand_meets (expandVariable_meets hfacts fun _ _ => ?_) t ht
    exact trivial
  | succ depth ih =>
    exact Ty.expand_meets (expandVariable_meets hfacts fun _ hu => ih hu) t ht

/-! ### Unification -/

/-- What unification ends in: a proper type and proper facts, any mismatch, or a halt that types
bring about. -/
def Unifies (P : Prop) (outcome : Outcome Mismatch (Ty × Facts)) : Prop :=
  outcome.Meets (fun found => P → found.1.Proper ∧ found.2.Proper) fun _ => True

theorem resolveTop_ends : (facts.resolveTop t : Outcome ε Ty).Meets
    (fun u => ∀ v, u = .var v → facts.find? v.id = none) fails :=
  (resolveTop_meets (P := False) nofun nofun).imp fun _ => And.left

theorem bind_meets (hfree : facts.find? v.id = none) (t : Ty) :
    (facts.bind v t).Meets (fun _ => True) fun _ => True := by
  unfold bind has
  rw [hfree]
  refine resolveTop_ends.bind fun u _ => ?_
  split
  · split <;> trivial
  · refine (reduce_meets (P := False) nofun nofun).bind fun reduced _ => ?_
    split <;> trivial

theorem Proper.bind {next : Facts} (hproper : facts.Proper) (ht : t.Proper)
    (hbind : facts.bind v t = .ok next) : next.Proper := by
  obtain ⟨s, hresolves, ⟨-, -, -, rfl⟩ | ⟨-, rfl⟩⟩ := bind_eq_ok hbind
  · exact hproper
  · exact hproper.insert _ (hproper.resolvesTop ht hresolves)

def StepProper (step : Step) : Prop :=
  ∀ ⦃facts next : Facts⦄ ⦃left right t : Ty⦄, facts.Proper → left.Proper → right.Proper →
    step left right facts = .ok (t, next) → t.Proper ∧ next.Proper

section Step

variable {step : Step} {next : Facts} {left right t : Ty}
  {lefts rights members candidates ts : List Ty}

theorem StepProper.carries (hstep : StepProper step) :
    Carries step (fun facts t => facts.Proper ∧ t.Proper)
      (fun facts next => facts.Proper → next.Proper) where
  refl := id
  trans hfirst hlater hfacts := hlater (hfirst hfacts)
  keeps hlater ht := ⟨hlater ht.1, ht.2⟩
  step hleft hright hunify := by
    obtain ⟨ht, hnext⟩ := hstep hleft.1 hleft.2 hright.2 hunify
    exact ⟨fun _ => hnext, hnext, ht⟩

theorem length_of_unifyPairwise (hlength : lefts.length = rights.length)
    (hpairs : unifyPairwise step lefts rights facts = .ok (ts, next)) :
    ts.length = lefts.length := by
  induction lefts generalizing rights ts facts with
  | nil =>
    cases hpairs
    rfl
  | cons left lefts ih =>
    cases rights with
    | nil => cases hlength
    | cons right rights =>
      obtain ⟨⟨t, middle⟩, -, hpairs⟩ := Outcome.bind_eq_ok hpairs
      obtain ⟨⟨rest, last⟩, htail, hpairs⟩ := Outcome.bind_eq_ok hpairs
      cases hpairs
      exact congrArg (· + 1) (ih (Nat.succ.inj hlength) htail)

theorem unifyInto_ne_nil {candidate : Ty}
    (hinto : unifyInto step candidate facts members = .ok (ts, next)) : ts ≠ [] := by
  cases members with
  | nil =>
    cases hinto
    exact cons_ne_nil _ _
  | cons member members =>
    rw [unifyInto] at hinto
    split at hinto
    · cases hinto
      exact cons_ne_nil _ _
    · obtain ⟨_, -, hinto⟩ := Outcome.bind_eq_ok hinto
      cases hinto
      exact cons_ne_nil _ _
    · cases hinto

theorem unifyMembers_ne_nil (hsome : members ≠ [])
    (hunify : unifyMembers step members candidates facts = .ok (ts, next)) : ts ≠ [] := by
  induction candidates generalizing members facts with
  | nil =>
    rw [unifyMembers] at hunify
    cases hunify
    exact hsome
  | cons candidate candidates ih =>
    rw [unifyMembers] at hunify
    obtain ⟨⟨widened, middle⟩, hinto, hunify⟩ := Outcome.bind_eq_ok hunify
    exact ih (unifyInto_ne_nil hinto) hunify

theorem dropVoid_ne_nil {params : List Ty} (hparams : params ≠ []) : Ty.dropVoid params ≠ [] := by
  unfold Ty.dropVoid
  split
  · split <;> exact cons_ne_nil _ _
  · exact hparams

/-- One successful step keeps facts and answer proper. -/
theorem StepProper.unified (hstep : StepProper step) (hfacts : facts.Proper) (hleft : left.Proper)
    (hright : right.Proper) (hunified : Unified step facts left right t next) :
    t.Proper ∧ next.Proper := by
  have hall : ∀ {ts : List Ty}, (∀ t ∈ ts, t.Proper) → ∀ t ∈ ts, facts.Proper ∧ t.Proper :=
    fun hts t ht => ⟨hfacts, hts t ht⟩
  cases hunified with
  | same _ => exact ⟨hleft, hfacts⟩
  | left _ hbind => exact ⟨hright, hfacts.bind hright hbind⟩
  | right _ hbind => exact ⟨hleft, hfacts.bind hleft hbind⟩
  | unions hmembers =>
    obtain ⟨hsome, hlefts⟩ := Ty.proper_union_iff.mp hleft
    obtain ⟨hnext, hts⟩ := hstep.carries.unifyMembers (hall hlefts)
      (hall (Ty.proper_union_iff.mp hright).2) hmembers
    exact ⟨Ty.proper_unionOf (unifyMembers_ne_nil hsome hmembers) fun t ht => (hts t ht).2,
      hnext hfacts⟩
  | memberOfLeft _ hmember hfound =>
    exact hstep hfacts ((Ty.proper_union_iff.mp hleft).2 _ hmember) hright hfound
  | memberOfRight _ hmember hfound =>
    exact hstep hfacts hleft ((Ty.proper_union_iff.mp hright).2 _ hmember) hfound
  | parametric _ hparams =>
    obtain ⟨hnext, hts⟩ := hstep.carries.unifyPairwise
      (hall (Ty.proper_parametric_iff.mp hleft)) (hall (Ty.proper_parametric_iff.mp hright))
      hparams
    exact ⟨.parametric fun t ht => (hts t ht).2, hnext hfacts⟩
  | curried hlength hparams =>
    obtain ⟨hsome, hlefts⟩ := Ty.proper_curried_iff.mp hleft
    obtain ⟨hnext, hts⟩ := hstep.carries.unifyPairwise
      (hall fun t ht => hlefts t (Ty.mem_of_mem_dropVoid ht))
      (hall fun t ht => (Ty.proper_curried_iff.mp hright).2 t (Ty.mem_of_mem_dropVoid ht)) hparams
    have hcount := length_of_unifyPairwise hlength hparams
    exact ⟨.curried (ne_nil_of_length_pos
      (hcount ▸ length_pos_of_ne_nil (dropVoid_ne_nil hsome))) fun t ht => (hts t ht).2,
      hnext hfacts⟩

end Step

/-- Unification of every depth keeps facts and answer proper. -/
theorem stepProper_unifyWithin (depth : Nat) : StepProper (unifyWithin depth) := by
  induction depth with
  | zero => exact fun _ _ _ _ _ _ _ _ => nofun
  | succ depth ih =>
    intro facts next left right t hfacts hleft hright hunify
    obtain ⟨left', right', hleft', hright', hunified⟩ := unifyWithin_eq_ok hunify
    exact ih.unified hfacts (hfacts.resolvesTop hleft hleft') (hfacts.resolvesTop hright hright')
      hunified

theorem ofTypes_of_unifyWithin {depth : Nat} {cause : Halt}
    (hhalts : unifyWithin depth left right facts = .halted cause) : cause.OfTypes := by
  have htop (facts : Facts) (t : Ty) : (facts.resolveTop t : Outcome Mismatch Ty).Meets
      (fun u => ∀ v, u = .var v → facts.find? v.id = none) fun _ => True := resolveTop_ends
  induction depth generalizing left right facts with
  | zero =>
    cases hhalts
    exact trivial
  | succ depth ih =>
    rcases Outcome.bind_eq_halted hhalts with hfirst | ⟨left', hleft, hhalts⟩
    · exact (htop facts left).halted hfirst
    rcases Outcome.bind_eq_halted hhalts with hsecond | ⟨right', hright, hhalts⟩
    · exact (htop facts right).halted hsecond
    rcases exists_call_of_halted hhalts with
      ⟨v, hv, hbind⟩ | ⟨w, hw, hbind⟩ | ⟨call, -, hcall⟩
    · exact (bind_meets ((htop facts left).ok hleft v hv) right').halted hbind
    · exact (bind_meets ((htop facts right).ok hright w hw) left').halted hbind
    · exact ih hcall

theorem unify_meets (hleft : P → left.Proper) (hright : P → right.Proper)
    (hfacts : P → facts.Proper) : Unifies P (unify left right facts) := by
  cases houtcome : unify left right facts with
  | ok found =>
    exact fun hP => stepProper_unifyWithin _ (hfacts hP) (hleft hP) (hright hP) houtcome
  | failed mismatch => trivial
  | halted cause => exact ofTypes_of_unifyWithin houtcome

end TypeSearch.Facts
