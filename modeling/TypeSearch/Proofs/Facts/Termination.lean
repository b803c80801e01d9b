import Mathlib.Tactic.IntervalCases
import Mathlib.Tactic.Linarith
import TypeSearch.Proofs.Facts.Unification

/-!
# Unification ends

The depth to which a type expands under facts can grow when a fact is recorded, but at most to twice
the largest depth around, and a variable fewer is then left without a fact. So the product of the
depth and of two to the number of variables left never grows, and it falls by at least one from a
type to its components. A type *fits* a budget when this product is at most the budget, and a
unification of types that fit a budget nests no deeper than the budget.
-/

namespace TypeSearch.Facts

open List Relation

variable {facts next : Facts} {depth regained : Nat} {t s : Ty} {members : List Ty} {v : VarId}

/-! ### The depth of expansion -/

/-- Every way down from a type, through components and facts, passes at most `depth` types that are
no variables. -/
inductive Within (facts : Facts) : Nat → Ty → Prop
  | free {depth : Nat} {v : Variable} (hfree : facts.find? v.id = none) :
      Within facts depth (.var v)
  | known {depth : Nat} {v : Variable} {t : Ty} (hfind : facts.find? v.id = some t)
      (ht : Within facts depth t) : Within facts depth (.var v)
  | built {depth : Nat} {t : Ty} (hbuilt : t.isVariable = false)
      (hcomponents : ∀ component ∈ t.components, Within facts depth component) :
      Within facts (depth + 1) t

theorem Within.mono {more : Nat} (hwithin : facts.Within depth t) (hle : depth ≤ more) :
    facts.Within more t := by
  induction hwithin generalizing more with
  | free hfree => exact .free hfree
  | known hfind _ ih => exact .known hfind (ih hle)
  | built hbuilt _ ih =>
    obtain ⟨less, rfl⟩ := Nat.exists_eq_succ_of_ne_zero (Nat.ne_of_gt (Nat.lt_of_lt_of_le
      (Nat.succ_pos _) hle))
    exact .built hbuilt fun component hmem => ih component hmem (Nat.le_of_succ_le_succ hle)

theorem Within.resolves {v : Variable} (hwithin : facts.Within depth (.var v))
    (hresolves : facts.Resolves v t) : facts.Within depth t := by
  induction hresolves with
  | free _ => exact hwithin
  | follow hfind _ ih =>
    cases hwithin with
    | free hfree => simp [hfree] at hfind
    | known hfind' ht =>
      obtain rfl := Option.some.inj (hfind.symm.trans hfind')
      exact ih ht
    | built hbuilt _ => cases hbuilt
  | stop hfind _ =>
    cases hwithin with
    | free hfree => simp [hfree] at hfind
    | known hfind' ht =>
      obtain rfl := Option.some.inj (hfind.symm.trans hfind')
      exact ht
    | built hbuilt _ => cases hbuilt

theorem Within.resolvesTop (hwithin : facts.Within depth t) (hresolves : facts.ResolvesTop t s) :
    facts.Within depth s := by
  rcases hresolves with ⟨-, rfl⟩ | ⟨v, rfl, hv⟩
  · exact hwithin
  · exact hwithin.resolves hv

theorem Within.components (hwithin : facts.Within depth t) (hbuilt : t.isVariable = false) :
    ∃ less, depth = less + 1 ∧ ∀ component ∈ t.components, facts.Within less component := by
  cases hwithin with
  | free _ | known _ _ => cases hbuilt
  | built _ hcomponents => exact ⟨_, rfl, hcomponents⟩

theorem Within.unionOf (hmembers : ∀ t ∈ members, facts.Within depth t) :
    facts.Within (depth + 1) (Ty.unionOf members) := by
  have hdistinct : ∀ t ∈ Ty.distinct members, facts.Within depth t := by
    intro t ht
    obtain ⟨member, hmember, halternative⟩ := Ty.exists_of_mem_distinct ht
    have hwithin := hmembers member hmember
    rcases Ty.mem_alternatives halternative with rfl | hcomponent
    · exact hwithin
    · obtain ⟨less, rfl, hcomponents⟩ :=
        hwithin.components (Ty.isVariable_eq_false_of_mem hcomponent)
      exact (hcomponents t hcomponent).mono (Nat.le_succ less)
  rcases Ty.unionOf_eq members with heq | heq
  · rw [heq]
    exact .built rfl hdistinct
  · exact (hdistinct _ (heq ▸ mem_singleton_self _)).mono (Nat.le_succ depth)

/-- A new fact does not change how deep a type expands that does not lead to its variable. -/
theorem Within.insert_of_not_leads (hwithin : facts.Within depth t) (hapart : ¬ facts.Leads t v) :
    (facts.insert v s).Within depth t := by
  induction hwithin with
  | free hfree =>
    rename_i w
    refine .free ?_
    rw [find?_insert, if_neg, hfree]
    rintro rfl
    exact hapart (leads_var_iff.mpr .refl)
  | known hfind _ ih =>
    rename_i w t _
    refine .known (t := t) ?_ (ih fun hleads => hapart ?_)
    · rw [find?_insert, if_neg, hfind]
      rintro rfl
      exact hapart (leads_var_iff.mpr .refl)
    · exact leads_var_iff.mpr (transGen_of_leads hfind hleads).to_reflTransGen
  | built hbuilt _ ih =>
    exact .built hbuilt fun component hmem => ih component hmem fun hleads =>
      hapart ((leads_iff_components hbuilt).mpr ⟨component, hmem, hleads⟩)

theorem Within.record {added : Nat} (hwithin : facts.Within depth t) (hrecords : facts.Records v s)
    (hs : facts.Within added s) : (facts.insert v s).Within (depth + added) t := by
  induction hwithin with
  | free hfree =>
    rename_i w
    by_cases heq : w.id = v
    · refine .known (t := s) (by rw [find?_insert, if_pos heq]) ?_
      exact (hs.insert_of_not_leads hrecords.apart).mono (Nat.le_add_left _ _)
    · exact .free (by rw [find?_insert, if_neg heq, hfree])
  | known hfind _ ih =>
    refine .known ?_ ih
    rw [find?_insert, if_neg, hfind]
    rintro rfl
    rw [hrecords.fresh] at hfind
    cases hfind
  | built hbuilt _ ih =>
    rename_i depth t _
    rw [Nat.add_right_comm]
    exact .built hbuilt ih

theorem size_lt_weight (hfind : facts.find? v = some t) : t.size < facts.weight := by
  have hfold : ∀ (entries : List (VarId × Ty)) (total : Nat),
      total ≤ entries.foldl (fun total entry => total + entry.2.size + 1) total ∧
      (entries.lookup v = some t →
        total + t.size < entries.foldl (fun total entry => total + entry.2.size + 1) total) := by
    intro entries
    induction entries with
    | nil => simp
    | cons entry rest ih =>
      intro total
      obtain ⟨key, s⟩ := entry
      obtain ⟨hle, hlt⟩ := ih (total + s.size + 1)
      simp only [foldl_cons]
      refine ⟨by omega, fun hlookup => ?_⟩
      by_cases heq : v = key
      · simp only [lookup_cons, heq, beq_self_eq_true, Option.some.injEq] at hlookup
        subst hlookup
        omega
      · rw [lookup_cons, beq_eq_false_iff_ne.mpr heq] at hlookup
        have := hlt hlookup
        omega
  simpa [weight] using (hfold facts.entries 0).2 hfind

theorem Within.of_components {extra : Nat} (hbuilt : t.isVariable = false)
    (hcomponents : ∀ component ∈ t.components, facts.Within (component.size + extra) component) :
    facts.Within (t.size + extra) t := by
  have hpos := Ty.size_pos t
  obtain ⟨less, hless⟩ : ∃ less, t.size = less + 1 := ⟨t.size - 1, by omega⟩
  rw [hless, Nat.add_right_comm]
  refine .built hbuilt fun component hmem => (hcomponents component hmem).mono ?_
  have := Ty.size_component_lt hmem
  omega

theorem Acyclic.within (hacyclic : facts.Acyclic) {bound : Nat}
    (hbound : ∀ w, t.occurs w = true → w ∈ facts.keys → facts.rank w < bound) :
    facts.Within (t.size + bound * facts.weight) t := by
  -- a fact leads to a variable of smaller rank, and a type to its components
  induction bound using Nat.strong_induction_on generalizing t with
  | _ bound ihBound =>
    induction t using Ty.inductComponents with
    | var v =>
      cases hfind : facts.find? v.id with
      | none => exact .free hfind
      | some s =>
        have hrank := hbound v.id (by simp) (mem_keys_iff.mpr ⟨s, hfind⟩)
        refine .known hfind ((ihBound _ hrank (t := s) fun w hw hfact =>
          hacyclic.rank_lt_rank (.single ⟨s, hfind, hw⟩) hfact).mono ?_)
        have hsize := size_lt_weight hfind
        have hmul := Nat.mul_le_mul_right facts.weight (Nat.succ_le_of_lt hrank)
        rw [Nat.succ_mul] at hmul
        omega
    | built t hbuilt ih =>
      exact .of_components hbuilt fun component hmem => ih component hmem fun w hw =>
        hbound w ((Ty.occurs_iff_components hbuilt).mpr ⟨component, hmem, hw⟩)

/-! ### Budgets -/

def room (vars : Finset VarId) (facts : Facts) : Nat :=
  (vars.filter fun v => facts.find? v = none).card

theorem room_insert {vars : Finset VarId} (hv : v ∈ vars) (hfresh : facts.find? v = none) :
    (facts.insert v t).room vars + 1 = facts.room vars := by
  have herase : (vars.filter fun w => (facts.insert v t).find? w = none) =
      (vars.filter fun w => facts.find? w = none).erase v := by
    ext w
    by_cases heq : w = v <;> simp [find?_insert, heq]
  rw [room, herase]
  exact Finset.card_erase_add_one (Finset.mem_filter.mpr ⟨hv, hfresh⟩)

theorem Grows.room_le {S : Set VarId} (hgrows : Grows S facts next) (vars : Finset VarId) :
    next.room vars ≤ facts.room vars := by
  refine Finset.card_le_card fun v hv => ?_
  rw [Finset.mem_filter] at hv ⊢
  refine ⟨hv.1, Option.eq_none_iff_forall_ne_some.mpr fun t hfind => ?_⟩
  simp [hgrows.find?_eq_some hfind] at hv

/-- The depth of expansion, times two for each variable without a fact, is within the budget. -/
def Fits (vars : Finset VarId) (facts : Facts) (budget : Nat) (t : Ty) : Prop :=
  facts.Within (budget / 2 ^ facts.room vars) t

variable {vars : Finset VarId} {budget more : Nat}

theorem Fits.mono (hfits : Fits vars facts budget t) (hle : budget ≤ more) :
    Fits vars facts more t :=
  Within.mono hfits (Nat.div_le_div_right hle)

theorem Fits.record (ht : Fits vars facts budget t) (hs : Fits vars facts budget s)
    (hrecords : facts.Records v s) (hv : v ∈ vars) : Fits vars (facts.insert v s) budget t := by
  refine (Within.record ht hrecords hs).mono ?_
  rw [← room_insert (t := s) hv hrecords.fresh, Nat.pow_succ, ← Nat.div_div_eq_div_mul]
  omega

theorem Fits.components (hfits : Fits vars facts budget t) (hbuilt : t.isVariable = false) :
    2 ^ facts.room vars ≤ budget ∧ ∀ component ∈ t.components,
      Fits vars facts (budget - 2 ^ facts.room vars) component := by
  obtain ⟨less, hdiv, hcomponents⟩ := Within.components hfits hbuilt
  have hmul : (less + 1) * 2 ^ facts.room vars ≤ budget :=
    (Nat.le_div_iff_mul_le (Nat.two_pow_pos _)).mp hdiv.ge
  rw [Nat.succ_mul] at hmul
  refine ⟨by omega, fun component hmem => (hcomponents component hmem).mono ?_⟩
  rw [Nat.le_div_iff_mul_le (Nat.two_pow_pos _)]
  omega

theorem Fits.succ_depth_le (hregained : facts.room vars ≤ regained) (hle : 2 ^ regained ≤ budget) :
    (budget - 2 ^ regained) / 2 ^ facts.room vars + 1 ≤ budget / 2 ^ facts.room vars := by
  have hpow : 2 ^ facts.room vars ≤ 2 ^ regained := Nat.pow_le_pow_right (by omega) hregained
  have hpos : 0 < 2 ^ facts.room vars := Nat.two_pow_pos _
  rw [Nat.le_div_iff_mul_le hpos, Nat.succ_mul]
  have := Nat.div_mul_le_self (budget - 2 ^ regained) (2 ^ facts.room vars)
  omega

/-! ### Steps that end -/

def KeepsFits (vars : Finset VarId) (budget : Nat) (facts next : Facts) : Prop :=
  ∀ t more, budget ≤ more → Fits vars facts more t → Fits vars next more t

theorem KeepsFits.trans {last : Facts} (hleft : KeepsFits vars budget facts next)
    (hright : KeepsFits vars budget next last) : KeepsFits vars budget facts last :=
  fun t more hle ht => hright t more hle (hleft t more hle ht)

theorem KeepsFits.mono (hkeeps : KeepsFits vars budget facts next) (hle : budget ≤ more) :
    KeepsFits vars more facts next :=
  fun t most hmost ht => hkeeps t most (hle.trans hmost) ht

structure Ready (vars : Finset VarId) (facts : Facts) : Prop where
  acyclic : facts.Acyclic
  closed : facts.Closed (vars : Set VarId)

theorem Ready.grows (hready : facts.Ready vars) (hgrows : Grows (vars : Set VarId) facts next) :
    next.Ready vars :=
  ⟨hgrows.acyclic hready.acyclic, hgrows.closed hready.closed⟩

structure Allowed (vars : Finset VarId) (facts : Facts) (budget : Nat) (t : Ty) : Prop where
  isOver : t.Over (vars : Set VarId)
  fits : Fits vars facts budget t

theorem Allowed.later (ht : Allowed vars facts budget t)
    (hkeeps : KeepsFits vars budget facts next) : Allowed vars next budget t :=
  ⟨ht.isOver, hkeeps t budget le_rfl ht.fits⟩

theorem Allowed.inside (ht : Allowed vars facts budget t) (hready : facts.Ready vars)
    (hbuilt : t.isVariable = false) : ∀ component ∈ t.components,
      facts.Ready vars ∧ Allowed vars facts (budget - 2 ^ facts.room vars) component :=
  fun component hmem => ⟨hready, (Ty.over_iff_components hbuilt).mp ht.isOver component hmem,
    (ht.fits.components hbuilt).2 component hmem⟩

/-- How deep unification can nest before the next fact is recorded and after it, for types that
expand to the given depths. -/
def cost (room budget left right : Nat) : Nat :=
  room * (budget + 1) ^ 2 + (budget / 2 ^ room) ^ 2 + (left + right)

def fullCost (room budget : Nat) : Nat :=
  cost room budget (budget / 2 ^ room) (budget / 2 ^ room)

theorem fullCost_lt (room budget : Nat) : fullCost room budget < (room + 1) * (budget + 1) ^ 2 := by
  have hle : budget / 2 ^ room ≤ budget := Nat.div_le_self _ _
  have hsquare : (budget / 2 ^ room) ^ 2 ≤ budget ^ 2 := Nat.pow_le_pow_left hle 2
  have hexpand : (budget + 1) ^ 2 = budget ^ 2 + 2 * budget + 1 := by grind
  rw [fullCost, cost, Nat.succ_mul]
  omega

theorem fullCost_mono {room room' : Nat} (hle : room' ≤ room) (budget : Nat) :
    fullCost room' budget ≤ fullCost room budget := by
  rcases Nat.eq_or_lt_of_le hle with rfl | hlt
  · exact Nat.le_refl _
  · calc
      fullCost room' budget ≤ (room' + 1) * (budget + 1) ^ 2 := (fullCost_lt room' budget).le
      _ ≤ room * (budget + 1) ^ 2 := Nat.mul_le_mul_right _ hlt
      _ ≤ fullCost room budget := (Nat.le_add_right _ _).trans (Nat.le_add_right _ _)

theorem fullCost_sub_lt {room left right : Nat} (hle : 2 ^ room ≤ budget) :
    fullCost room (budget - 2 ^ room) < cost room budget left right := by
  have hdiv : budget / 2 ^ room = (budget - 2 ^ room) / 2 ^ room + 1 :=
    Nat.div_eq_sub_div (Nat.two_pow_pos room) hle
  have hlater : room * (budget - 2 ^ room + 1) ^ 2 ≤ room * (budget + 1) ^ 2 :=
    Nat.mul_le_mul_left room (Nat.pow_le_pow_left (Nat.succ_le_succ (Nat.sub_le _ _)) 2)
  have hexpand (depth : Nat) : (depth + 1) ^ 2 = depth ^ 2 + 2 * depth + 1 := by grind
  rw [fullCost, cost, cost, hdiv, hexpand ((budget - 2 ^ room) / 2 ^ room)]
  omega

theorem Allowed.resolvesTop (ht : Allowed vars facts budget t) (hready : facts.Ready vars)
    (hresolves : facts.ResolvesTop t s) : Allowed vars facts budget s :=
  ⟨hresolves.isOver hready.closed ht.isOver, Within.resolvesTop ht.fits hresolves⟩

theorem Allowed.built (hbuilt : t.isVariable = false) (hroom : next.room vars ≤ facts.room vars)
    (hle : 2 ^ facts.room vars ≤ budget)
    (hcomponents : ∀ component ∈ t.components,
      Allowed vars next (budget - 2 ^ facts.room vars) component) : Allowed vars next budget t :=
  ⟨(Ty.over_iff_components hbuilt).mpr fun component hmem => (hcomponents component hmem).isOver,
    Within.mono (.built hbuilt fun component hmem => (hcomponents component hmem).fits)
      (Fits.succ_depth_le hroom hle)⟩

theorem keepsFits_of_bind {v : Variable} (hv : v.id ∈ vars) (ht : Allowed vars facts budget t)
    (hbind : facts.bind v t = .ok next) : KeepsFits vars budget facts next := by
  obtain ⟨s, hresolves, ⟨-, -, -, rfl⟩ | ⟨hrecords, rfl⟩⟩ := bind_eq_ok hbind
  · exact fun _ _ _ hx => hx
  · intro x more hle hx
    exact hx.record (Fits.mono (Within.resolvesTop ht.fits hresolves) hle) hrecords hv

/-- Types that fit a budget are unified to a type that fits it too, under facts by which types go on
fitting. -/
def StepFits (vars : Finset VarId) (step : Step) : Prop :=
  ∀ ⦃budget : Nat⦄ ⦃facts next : Facts⦄ ⦃left right t : Ty⦄, facts.Ready vars →
    Allowed vars facts budget left → Allowed vars facts budget right →
    step left right facts = .ok (t, next) →
    KeepsFits vars budget facts next ∧ Allowed vars next budget t

variable {step : Step} {limit : Nat} {left right : Ty} {call : Call}

theorem StepFits.carries (hstep : StepFits vars step) (hgrows : StepGrows step) (budget : Nat) :
    Carries step (fun facts t => facts.Ready vars ∧ Allowed vars facts budget t)
      (fun facts next => Grows (vars : Set VarId) facts next ∧
        KeepsFits vars budget facts next) where
  refl := ⟨.refl, fun _ _ _ ht => ht⟩
  trans hfirst hlater := ⟨hfirst.1.trans hlater.1, hfirst.2.trans hlater.2⟩
  keeps hlater ht := ⟨ht.1.grows hlater.1, ht.2.later hlater.2⟩
  step hleft hright hunify := by
    have hnext := (hgrows hleft.1.closed hleft.2.isOver hright.2.isOver hunify).1
    obtain ⟨hkeeps, ht⟩ := hstep hleft.1 hleft.2 hright.2 hunify
    exact ⟨⟨hnext, hkeeps⟩, hleft.1.grows hnext, ht⟩

/-- What fits a budget still fits it after one successful step. -/
theorem StepFits.unified (hstep : StepFits vars step) (hgrows : StepGrows step)
    (hready : facts.Ready vars) (hleft : Allowed vars facts budget left)
    (hright : Allowed vars facts budget right) (hunified : Unified step facts left right t next) :
    KeepsFits vars budget facts next ∧ Allowed vars next budget t := by
  have hless : budget - 2 ^ facts.room vars ≤ budget := Nat.sub_le _ _
  have hcarries := hstep.carries hgrows (budget - 2 ^ facts.room vars)
  cases hunified with
  | same _ => exact ⟨fun _ _ _ ht => ht, hleft⟩
  | left _ hbind =>
    have hkeeps := keepsFits_of_bind (hleft.isOver _ (by simp)) hright hbind
    exact ⟨hkeeps, hright.later hkeeps⟩
  | right _ hbind =>
    have hkeeps := keepsFits_of_bind (hright.isOver _ (by simp)) hleft hbind
    exact ⟨hkeeps, hleft.later hkeeps⟩
  | unions hmembers =>
    obtain ⟨⟨hnext, hkeeps⟩, hts⟩ :=
      hcarries.unifyMembers (hleft.inside hready rfl) (hright.inside hready rfl) hmembers
    exact ⟨hkeeps.mono hless, Ty.over_unionOf fun t ht => (hts t ht).2.isOver,
      Within.mono (Within.unionOf fun t ht => (hts t ht).2.fits)
        (Fits.succ_depth_le (hnext.room_le vars) (hleft.fits.components rfl).1)⟩
  | memberOfLeft _ hmember hfound =>
    have hallowed := (hleft.inside hready rfl _ hmember).2
    exact hstep hready ⟨hallowed.isOver, hallowed.fits.mono hless⟩ hright hfound
  | memberOfRight _ hmember hfound =>
    have hallowed := (hright.inside hready rfl _ hmember).2
    exact hstep hready hleft ⟨hallowed.isOver, hallowed.fits.mono hless⟩ hfound
  | parametric _ hparams =>
    obtain ⟨⟨hnext, hkeeps⟩, hts⟩ :=
      hcarries.unifyPairwise (hleft.inside hready rfl) (hright.inside hready rfl) hparams
    exact ⟨hkeeps.mono hless, .built rfl (hnext.room_le vars) (hleft.fits.components rfl).1
      fun t ht => (hts t ht).2⟩
  | curried _ hparams =>
    obtain ⟨⟨hnext, hkeeps⟩, hts⟩ := hcarries.unifyPairwise
      (fun t ht => hleft.inside hready rfl t (Ty.mem_of_mem_dropVoid ht))
      (fun t ht => hright.inside hready rfl t (Ty.mem_of_mem_dropVoid ht)) hparams
    exact ⟨hkeeps.mono hless, .built rfl (hnext.room_le vars) (hleft.fits.components rfl).1
      fun t ht => (hts t ht).2⟩

/-- What fits a budget still fits it after a unification of any depth. -/
theorem stepFits_unifyWithin (depth : Nat) : StepFits vars (unifyWithin depth) := by
  induction depth with
  | zero => exact fun _ _ _ _ _ _ _ _ _ => nofun
  | succ depth ih =>
    intro budget facts next left right t hready hleft hright hunify
    obtain ⟨left', right', hleft', hright', hunified⟩ := unifyWithin_eq_ok hunify
    exact ih.unified (stepGrows_unifyWithin depth) hready (hleft.resolvesTop hready hleft')
      (hright.resolvesTop hready hright') hunified

/-! ### Calls cost less -/

/-- Two types over `vars` that fit some budget, and whose unification costs less than the limit. -/
def Affordable (vars : Finset VarId) (limit : Nat) (left right : Ty) (facts : Facts) : Prop :=
  facts.Ready vars ∧ left.Over (vars : Set VarId) ∧ right.Over (vars : Set VarId) ∧
    ∃ budget n m, facts.Within n left ∧ facts.Within m right ∧
      n ≤ budget / 2 ^ facts.room vars ∧ m ≤ budget / 2 ^ facts.room vars ∧
      cost (facts.room vars) budget n m < limit

theorem Affordable.resolvesTop {left' right' : Ty}
    (haffordable : Affordable vars limit left right facts) (hleft' : facts.ResolvesTop left left')
    (hright' : facts.ResolvesTop right right') : Affordable vars limit left' right' facts := by
  obtain ⟨hready, hleft, hright, budget, n, m, hn, hm, hcost⟩ := haffordable
  exact ⟨hready, hleft'.isOver hready.closed hleft, hright'.isOver hready.closed hright, budget, n,
    m, hn.resolvesTop hleft', hm.resolvesTop hright', hcost⟩

/-- Going down on both sides costs less whatever the components are, and trying a member of a union
costs less since the union is one level deeper. -/
theorem ResolvedCall.affordable (hstep : StepFits vars step) (hgrows : StepGrows step)
    (haffordable : Affordable vars (limit + 1) left right facts)
    (hcall : ResolvedCall step facts left right call) :
    Affordable vars limit call.left call.right call.facts := by
  obtain ⟨hready, hleft, hright, budget, n, m, hn, hm, hnle, hmle, hcost⟩ := haffordable
  have hallowedLeft : Allowed vars facts budget left := ⟨hleft, hn.mono hnle⟩
  have hinsideLeft := hallowedLeft.inside hready
  have hinsideRight := (⟨hright, hm.mono hmle⟩ : Allowed vars facts budget right).inside hready
  have hcarries := hstep.carries hgrows (budget - 2 ^ facts.room vars)
  have hdescends : left.isVariable = false →
      (Grows (vars : Set VarId) facts call.facts ∧
        KeepsFits vars (budget - 2 ^ facts.room vars) facts call.facts) ∧
      (call.facts.Ready vars ∧
        Allowed vars call.facts (budget - 2 ^ facts.room vars) call.left) ∧
      (call.facts.Ready vars ∧
        Allowed vars call.facts (budget - 2 ^ facts.room vars) call.right) →
      Affordable vars limit call.left call.right call.facts := by
    rintro hbuilt ⟨⟨hlater, -⟩, ⟨hready', hl⟩, -, hr⟩
    refine ⟨hready', hl.isOver, hr.isOver, _, _, _, hl.fits, hr.fits, le_rfl, le_rfl, ?_⟩
    calc
      fullCost (call.facts.room vars) (budget - 2 ^ facts.room vars)
          ≤ fullCost (facts.room vars) (budget - 2 ^ facts.room vars) :=
            fullCost_mono (hlater.room_le vars) _
      _ < cost (facts.room vars) budget n m :=
            fullCost_sub_lt (hallowedLeft.fits.components hbuilt).1
      _ ≤ limit := Nat.le_of_lt_succ hcost
  cases hcall with
  | unions hcall =>
    exact hdescends rfl (hcarries.membersCall (hinsideLeft rfl) (hinsideRight rfl) hcall)
  | memberOfLeft _ _ htried =>
    obtain ⟨less, rfl, hless⟩ := hn.components rfl
    refine ⟨hready, (Ty.over_iff_components rfl).mp hleft _ htried.mem, hright, budget, less, m,
      hless _ htried.mem, hm, (Nat.le_succ less).trans hnle, hmle, ?_⟩
    simp only [cost] at hcost ⊢
    omega
  | memberOfRight _ _ htried =>
    obtain ⟨less, rfl, hless⟩ := hm.components rfl
    refine ⟨hready, hleft, (Ty.over_iff_components rfl).mp hright _ htried.mem, budget, n, less,
      hn, hless _ htried.mem, hnle, (Nat.le_succ less).trans hmle, ?_⟩
    simp only [cost] at hcost ⊢
    omega
  | parametric _ hcall =>
    exact hdescends rfl (hcarries.pairwiseCall (hinsideLeft rfl) (hinsideRight rfl) hcall)
  | curried _ hcall =>
    exact hdescends rfl (hcarries.pairwiseCall
      (fun t ht => hinsideLeft rfl t (Ty.mem_of_mem_dropVoid ht))
      (fun t ht => hinsideRight rfl t (Ty.mem_of_mem_dropVoid ht)) hcall)

theorem Affordable.ne_halted (haffordable : Affordable vars depth left right facts) (cause : Halt) :
    unifyWithin depth left right facts ≠ .halted cause := by
  induction depth generalizing left right facts with
  | zero =>
    obtain ⟨-, -, -, _, _, _, -, -, -, -, hcost⟩ := haffordable
    exact absurd hcost (Nat.not_lt_zero _)
  | succ depth ih =>
    intro hhalts
    have hacyclic := haffordable.1.acyclic
    obtain ⟨left', hleft⟩ := hacyclic.exists_resolveTop (ε := Mismatch) left
    obtain ⟨right', hright⟩ := hacyclic.exists_resolveTop (ε := Mismatch) right
    have hleft' := resolvesTop_of_resolveTop hleft
    have hright' := resolvesTop_of_resolveTop hright
    rw [unifyWithin, hleft, Outcome.bind_ok, hright, Outcome.bind_ok] at hhalts
    rcases exists_call_of_halted hhalts with
      ⟨v, rfl, hbind⟩ | ⟨w, rfl, hbind⟩ | ⟨call, hcall, hcallHalts⟩
    · exact (hacyclic.bind_ends hleft'.find?_eq_none right').ne_halted cause hbind
    · exact (hacyclic.bind_ends hright'.find?_eq_none left').ne_halted cause hbind
    · exact ih (hcall.affordable (stepFits_unifyWithin depth) (stepGrows_unifyWithin depth)
        (haffordable.resolvesTop hleft' hright')) hcallHalts

/-! ### Enough depth -/

def allVariables (left right : Ty) (facts : Facts) : List VarId :=
  left.freeVariables.map (·.id) ++ right.freeVariables.map (·.id) ++
    facts.entries.flatMap fun entry => entry.2.freeVariables.map (·.id)

theorem length_entries_le_weight (facts : Facts) :
    (facts.entries.flatMap fun entry => entry.2.freeVariables.map (·.id)).length ≤ facts.weight ∧
      facts.size ≤ facts.weight := by
  have hfold : ∀ (entries : List (VarId × Ty)) (total : Nat),
      total + (entries.flatMap fun entry => entry.2.freeVariables.map (·.id)).length ≤
          entries.foldl (fun total entry => total + entry.2.size + 1) total ∧
        total + entries.length ≤
          entries.foldl (fun total entry => total + entry.2.size + 1) total := by
    intro entries
    induction entries with
    | nil => simp
    | cons entry rest ih =>
      intro total
      obtain ⟨hvariables, hlength⟩ := ih (total + entry.2.size + 1)
      have hle := Ty.length_freeVariables_le entry.2
      simp only [flatMap_cons, length_append, length_map, foldl_cons,
        length_cons] at hvariables hlength ⊢
      omega
  simpa [weight, size] using hfold facts.entries 0

theorem length_allVariables_le (left right : Ty) (facts : Facts) :
    (allVariables left right facts).length ≤ left.size + right.size + facts.weight := by
  have hleft := Ty.length_freeVariables_le left
  have hright := Ty.length_freeVariables_le right
  have hfacts := (length_entries_le_weight facts).1
  simp only [allVariables, length_append, length_map] at hleft hright hfacts ⊢
  omega

theorem closed_allVariables (left right : Ty) (facts : Facts) :
    facts.Closed ((allVariables left right facts).toFinset : Set VarId) := by
  intro v _ t hfind w hw
  have hmem : (v, t) ∈ facts.entries := mem_entries_of_find? hfind
  have hfree : w ∈ t.freeVariables.map (·.id) := Ty.mem_freeVariables_iff.mpr hw
  rw [Finset.mem_coe, mem_toFinset, allVariables, mem_append]
  exact .inr (mem_flatMap.mpr ⟨(v, t), hmem, hfree⟩)

theorem square_le_two_pow (n : Nat) : n ^ 2 ≤ 2 ^ (n + 1) := by
  induction n with
  | zero => simp
  | succ n ih =>
    rcases Nat.lt_or_ge n 3 with hlt | hge
    · interval_cases n <;> simp
    · have hsquare : (n + 1) ^ 2 ≤ 2 * n ^ 2 := by nlinarith
      calc
        (n + 1) ^ 2 ≤ 2 * n ^ 2 := hsquare
        _ ≤ 2 * 2 ^ (n + 1) := Nat.mul_le_mul_left 2 ih
        _ = 2 ^ (n + 1 + 1) := by rw [Nat.pow_succ 2 (n + 1), Nat.mul_comm]

theorem fullCost_lt_depth {room total : Nat} (hroom : room ≤ total) :
    fullCost room (total ^ 2 * 2 ^ room) < 2 ^ (5 * total + 4) := by
  have hbudget : total ^ 2 * 2 ^ room + 1 ≤ 2 ^ (2 * total + 2) := by
    have hpow : total ^ 2 * 2 ^ room ≤ 2 ^ (total + 1) * 2 ^ total :=
      Nat.mul_le_mul (square_le_two_pow total) (Nat.pow_le_pow_right (by omega) hroom)
    have hpos := Nat.two_pow_pos (2 * total + 1)
    rw [← Nat.pow_add, show total + 1 + total = 2 * total + 1 by omega] at hpow
    calc
      total ^ 2 * 2 ^ room + 1 ≤ 2 ^ (2 * total + 1) + 2 ^ (2 * total + 1) := by
        exact Nat.add_le_add hpow hpos
      _ = 2 ^ (2 * total + 2) := by rw [← Nat.two_mul, ← Nat.pow_succ']
  calc
    fullCost room (total ^ 2 * 2 ^ room) < (room + 1) * (total ^ 2 * 2 ^ room + 1) ^ 2 :=
      fullCost_lt room _
    _ ≤ 2 ^ total * (2 ^ (2 * total + 2)) ^ 2 :=
      Nat.mul_le_mul ((Nat.succ_le_succ hroom).trans Nat.lt_two_pow_self)
        (Nat.pow_le_pow_left hbudget 2)
    _ = 2 ^ (5 * total + 4) := by
      rw [← Nat.pow_mul, ← Nat.pow_add]
      congr 1
      omega

theorem Acyclic.affordable (hacyclic : facts.Acyclic) (left right : Ty) :
    ∃ vars, Affordable vars (unifyDepth left right facts) left right facts := by
  let vars := (allVariables left right facts).toFinset
  let total := left.size + right.size + facts.weight
  have hroom : facts.room vars ≤ total :=
    (Finset.card_filter_le _ _).trans
      ((toFinset_card_le _).trans (length_allVariables_le left right facts))
  have hdiv : total ^ 2 * 2 ^ facts.room vars / 2 ^ facts.room vars = total ^ 2 :=
    Nat.mul_div_cancel _ (Nat.two_pow_pos _)
  -- without cycles, ranks are below the number of facts and each step adds at most their weight
  have hdepth : ∀ t : Ty, t.size + facts.weight ≤ total → facts.Within (total ^ 2) t := by
    intro t ht
    refine (hacyclic.within fun w _ hfact => hacyclic.rank_lt_size hfact).mono ?_
    have hsize := (length_entries_le_weight facts).2
    have hpos := Ty.size_pos t
    nlinarith
  have hover : ∀ t : Ty, (∀ w ∈ t.freeVariables.map (·.id), w ∈ allVariables left right facts) →
      t.Over (vars : Set VarId) := by
    intro t ht w hw
    simpa [vars] using ht w (Ty.mem_freeVariables_iff.mpr hw)
  have hcost : cost (facts.room vars) (total ^ 2 * 2 ^ facts.room vars) (total ^ 2) (total ^ 2) <
      unifyDepth left right facts := by
    have hfull := fullCost_lt_depth hroom
    rwa [fullCost, hdiv] at hfull
  exact ⟨vars, ⟨hacyclic, closed_allVariables left right facts⟩,
    hover left fun w hw => by simp [allVariables, hw],
    hover right fun w hw => by simp [allVariables, hw],
    _, _, _, hdepth left (by omega), hdepth right (by omega), hdiv.ge, hdiv.ge, hcost⟩

/-- On facts without cycles unification ends, in facts that have grown. -/
theorem Acyclic.unify_ends (hacyclic : facts.Acyclic) (left right : Ty) :
    (unify left right facts).Ends fun result => Grows Set.univ facts result.2 := by
  obtain ⟨vars, haffordable⟩ := hacyclic.affordable left right
  cases hunify : unify left right facts with
  | ok result =>
    exact (grows_of_unify (fun _ _ _ _ _ _ => Set.mem_univ _) (fun _ _ => Set.mem_univ _)
      (fun _ _ => Set.mem_univ _) hunify).1
  | failed mismatch => trivial
  | halted cause => exact haffordable.ne_halted cause hunify

end TypeSearch.Facts
