import TypeSearch.Proofs.Inference.Exact

/-!
# Exactness of inference, node by node

Every kind of plain expression is exact if its parts are: what the typing rule of the expression
requires of the types of its parts are the equations that inference adds to their graphs.
-/

namespace TypeSearch

open Inference List
open Classes (FirstOrderGraph)
open TypeSearch.Tree (Fragment Node Pattern Site boundNames entryNodes)

namespace Infer

variable {names : Names} {context : Context} {state after : State} {classes graph : Classes}
  {node function argument : Node} {nodes : List Node} {arity count first second : Nat}
  {counts : List Nat} {site : Site} {fits : (VarId → Ty) → List Ty → Prop}
  {combination : Combination Typed} {result : Ty} {more : List Ty}

/-! ### Nodes, from their parts -/

theorem Joint.exists_iff (hjoint : Joint fits combination) {rule : List Ty → Prop}
    (hrule : ∀ {ts us}, SameTypes ts us → rule ts → rule us) (σ : VarId → Ty) :
    (∃ ts, fits σ ts ∧ rule ts) ↔
      combination.classes.Solves σ ∧ rule (combination.types.map (Ty.apply σ)) := by
  constructor
  · rintro ⟨ts, hfits, hts⟩
    obtain ⟨hsolves, hsame⟩ := (hjoint.fits_iff σ ts).mp hfits
    exact ⟨hsolves, hrule hsame hts⟩
  · rintro ⟨hsolves, hts⟩
    exact ⟨_, (hjoint.fits_iff σ _).mpr ⟨hsolves, .refl _⟩, hts⟩

theorem upcoming_map_add (fresher : Fresher) (first second : Nat) (σ : VarId → Ty) :
    (fresher.upcoming (first + second)).map σ =
      (fresher.upcoming first).map σ ++ ((fresher.skip first).upcoming second).map σ := by
  rw [Fresher.upcoming_add, map_append]

section Compound

variable (site : Site) (hlength : nodes.length = counts.length)
  (hplain : ∀ pair ∈ nodes.zip counts, Plain names pair.1 0 pair.2)
  (hexact : ∀ pair ∈ nodes.zip counts, Exact names pair.1 0 pair.2)
include hlength hplain hexact

theorem exact_list : Exact names (.list site nodes) 0 (counts.sum + 1) := by
  intro classes context state hgraph hready
  have hfits : ∀ σ t, Fits classes state (.list site nodes) (counts.sum + 1) σ t ↔
      ∃ ts, FitAll classes state nodes counts σ ts ∧
        (∀ u ∈ ts, u.same (σ ((state.fresher.skip counts.sum).last + 1)) = true) ∧
          t.same (.list (σ ((state.fresher.skip counts.sum).last + 1))) = true := by
    intro σ t
    rw [Fits, upcoming_map_add]
    constructor
    · rintro ⟨hsolves, htype⟩
      generalize hall : (state.fresher.upcoming counts.sum).map σ ++ _ = all at htype
      cases htype with
      | list helements hsame htype =>
        obtain ⟨rfl, hlast⟩ := append_inj' hall rfl
        cases hlast
        exact ⟨_, ⟨hsolves, helements⟩, hsame, htype⟩
    · rintro ⟨ts, ⟨hsolves, htypes⟩, hsame, htype⟩
      exact ⟨hsolves, .list htypes hsame htype⟩
  rw [statement_list]
  refine decided_compound hgraph hready hlength hplain hexact hfits
    fun combination after hadvances hjoint => ?_
  have hfresh : fresh "e" context after = (.ok ⟨after.fresher.last + 1, "e"⟩,
      { after with fresher := after.fresher.skip 1 }) := rfl
  have hnode : ∀ σ t, Fits classes state (.list site nodes) (counts.sum + 1) σ t ↔
      combination.classes.Solves σ ∧ Alternate (Ty.Agree σ) (.var ⟨after.fresher.last + 1, "e"⟩)
        (.var ⟨after.fresher.last + 1, "e"⟩) combination.types ∧
      t.same ((Ty.list (.var ⟨after.fresher.last + 1, "e"⟩)).apply σ) = true := by
    intro σ t
    rw [hfits, ← hadvances.fresher, alternate_self_iff,
      hjoint.exists_iff fun hsame => And.imp_left hsame.forall_same, forall_mem_map]
    rfl
  rw [bind_of_ok hfresh]
  refine Decided.collect ?_
  rw [equateAll_eq]
  refine (decided_equateAlternately hjoint.firstOrderGraph (.var _) (.var _)
    hjoint.firstOrder).bind (fun last final hpost => ?_) ?_
  · obtain ⟨rfl, hlast, hsolves⟩ := hpost
    refine decided_of_ok rfl ⟨hadvances.skip 1, ?_⟩
    refine single_answer hlast (Ty.firstOrder_list (.var _)) trivial fun σ t => ?_
    rw [hnode, hsolves, and_assoc]
  · rintro ⟨σ, t, htype⟩
    obtain ⟨hsolves, hall, -⟩ := (hnode σ t).mp htype
    exact ⟨σ, hsolves, hall⟩

theorem exact_tuple : Exact names (.tuple site nodes) 0 counts.sum := by
  intro classes context state hgraph hready
  have hfits : ∀ σ t, Fits classes state (.tuple site nodes) counts.sum σ t ↔
      ∃ ts, FitAll classes state nodes counts σ ts ∧ t.same (.tuple ts) = true := by
    intro σ t
    constructor
    · rintro ⟨hsolves, htype⟩
      cases htype with
      | tuple helements htype => exact ⟨_, ⟨hsolves, helements⟩, htype⟩
    · rintro ⟨ts, ⟨hsolves, htypes⟩, htype⟩
      exact ⟨hsolves, .tuple htypes htype⟩
  rw [statement_tuple]
  refine decided_compound hgraph hready hlength hplain hexact hfits
    fun combination after hadvances hjoint => ?_
  refine Decided.collect (decided_of_ok rfl ⟨hadvances, ?_⟩)
  refine single_answer hjoint.firstOrderGraph (Ty.firstOrder_tuple hjoint.firstOrder) trivial
    fun σ t => ?_
  have hrule : ∀ {ts us}, SameTypes ts us → t.same (.tuple ts) = true →
      t.same (.tuple us) = true := by
    intro ts us hsame htype
    exact Ty.same_trans htype (Ty.same_parametric_iff.mpr ⟨us, rfl, hsame⟩)
  rw [hfits, hjoint.exists_iff hrule, Ty.tuple, Ty.tuple, Ty.apply_parametric]

end Compound

theorem exact_map (site : Site) {entries : List (Node × Node)}
    (hlength : (entryNodes entries).length = counts.length)
    (hplain : ∀ pair ∈ (entryNodes entries).zip counts, Plain names pair.1 0 pair.2)
    (hexact : ∀ pair ∈ (entryNodes entries).zip counts, Exact names pair.1 0 pair.2) :
    Exact names (.map site entries) 0 (counts.sum + 2) := by
  intro classes context state hgraph hready
  have hfits : ∀ (final : Fresher), final = state.fresher.skip counts.sum → ∀ σ t,
      Fits classes state (.map site entries) (counts.sum + 2) σ t ↔
      ∃ ts, FitAll classes state (entryNodes entries) counts σ ts ∧
        Alternate (fun t u => t.same u = true) (σ (final.last + 1)) (σ (final.last + 1 + 1)) ts ∧
          t.same (.map (σ (final.last + 1)) (σ (final.last + 1 + 1))) = true := by
    rintro _ rfl σ t
    rw [Fits, upcoming_map_add]
    constructor
    · rintro ⟨hsolves, htype⟩
      generalize hall : (state.fresher.upcoming counts.sum).map σ ++ _ = all at htype
      cases htype with
      | map hentries hsame htype =>
        obtain ⟨rfl, hlast⟩ := append_inj' hall rfl
        cases hlast
        exact ⟨_, ⟨hsolves, hentries⟩, hsame, htype⟩
    · rintro ⟨ts, ⟨hsolves, htypes⟩, hsame, htype⟩
      exact ⟨hsolves, .map htypes hsame htype⟩
  rw [statement_map]
  refine decided_compound hgraph hready hlength hplain hexact (hfits _ rfl)
    fun combination after hadvances hjoint => ?_
  let key : Variable := ⟨after.fresher.last + 1, "k"⟩
  let value : Variable := ⟨after.fresher.last + 1 + 1, "v"⟩
  have hkey : fresh "k" context after =
      (.ok key, { after with fresher := ⟨after.fresher.last + 1⟩ }) := rfl
  have hvalue : fresh "v" context { after with fresher := ⟨after.fresher.last + 1⟩ } =
      (.ok value, { after with fresher := after.fresher.skip 2 }) := rfl
  have hnode : ∀ σ t, Fits classes state (.map site entries) (counts.sum + 2) σ t ↔
      combination.classes.Solves σ ∧
        Alternate (Ty.Agree σ) (.var key) (.var value) combination.types ∧
          t.same ((Ty.map (.var key) (.var value)).apply σ) = true := by
    intro σ t
    rw [hfits after.fresher hadvances.fresher,
      hjoint.exists_iff fun hsame => And.imp_left hsame.alternate, ← alternate_map_iff]
    rfl
  rw [bind_of_ok hkey, bind_of_ok hvalue]
  refine Decided.collect ((decided_equateAlternately hjoint.firstOrderGraph (.var key) (.var value)
    hjoint.firstOrder).bind (fun last final hpost => ?_) ?_)
  · obtain ⟨rfl, hlast, hsolves⟩ := hpost
    refine decided_of_ok rfl ⟨hadvances.skip 2, ?_⟩
    refine single_answer hlast (Ty.firstOrder_map (.var key) (.var value)) trivial fun σ t => ?_
    rw [hnode, hsolves, and_assoc]
  · rintro ⟨σ, t, htype⟩
    obtain ⟨hsolves, hall, -⟩ := (hnode σ t).mp htype
    exact ⟨σ, hsolves, hall⟩

theorem Joint.exists_fits (hjoint : Joint fits combination) :
    ∃ σ, fits σ (combination.types.map (Ty.apply σ)) :=
  ⟨_, (hjoint.fits_iff _ _).mpr ⟨hjoint.firstOrderGraph.solves_solution, .refl _⟩⟩

theorem exact_conditional (site : Site) {condition yes no : Node} {third : Nat}
    (hplain : ∀ pair ∈ [condition, yes, no].zip [first, second, third], Plain names pair.1 0 pair.2)
    (hexact : ∀ pair ∈ [condition, yes, no].zip [first, second, third],
      Exact names pair.1 0 pair.2) :
    Exact names (.conditional site condition yes (some no)) 0 (first + (second + third)) := by
  intro classes context state hgraph hready
  have hfits : ∀ σ t, Fits classes state (.conditional site condition yes (some no))
      (first + (second + third)) σ t ↔
      ∃ ts, FitAll classes state [condition, yes, no] [first, second, third] σ ts ∧
        SameTypes ts [.boolean, t, t] := by
    intro σ t
    constructor
    · rintro ⟨hsolves, htype⟩
      cases htype with
      | conditional hparts htest hfirst hsecond =>
        exact ⟨_, ⟨hsolves, hparts⟩, .cons htest (.cons hfirst (.cons hsecond .nil))⟩
    · rintro ⟨ts, ⟨hsolves, hparts⟩, hsame⟩
      rcases hsame with _ | ⟨htest, _ | ⟨hfirst, _ | ⟨hsecond, _ | _⟩⟩⟩
      exact ⟨hsolves, .conditional hparts htest hfirst hsecond⟩
  rw [statement_conditional, Option.toList_some]
  refine decided_compound hgraph hready rfl hplain hexact hfits ?_
  rintro ⟨answers, joined⟩ after hadvances hjoint
  obtain ⟨a, b, c, rfl⟩ : ∃ a b c, answers = [a, b, c] := by
    obtain ⟨σ, -, htypes⟩ := hjoint.exists_fits
    have hlength := htypes.length_types
    rw [Combination.types, map_map, length_map] at hlength
    exact length_eq_three.mp hlength.symm
  have hnode : ∀ σ t, Fits classes state (.conditional site condition yes (some no))
      (first + (second + third)) σ t ↔
      (joined.getD Classes.empty).Solves σ ∧ Ty.Agree σ .boolean a.type ∧
        (b.type.apply σ).same t = true ∧ (c.type.apply σ).same t = true := by
    intro σ t
    rw [hfits, hjoint.exists_iff fun hsame => hsame.symm.trans]
    refine and_congr_right fun _ => ⟨fun hsame => ?_, fun hall => ?_⟩
    · rcases hsame with _ | ⟨htest, _ | ⟨hfirst, _ | ⟨hsecond, _ | _⟩⟩⟩
      exact ⟨Ty.same_symm htest, hfirst, hsecond⟩
    · exact .cons (Ty.same_symm hall.1) (.cons hall.2.1 (.cons hall.2.2 .nil))
  have htypes := hjoint.firstOrder
  simp only [Combination.types, map_cons, forall_mem_cons] at htypes
  -- the condition is made a truth value, then the branches are made equal
  refine Decided.collect ((decided_equate hjoint.firstOrderGraph Ty.firstOrder_boolean
    htypes.1).bind (fun tested middle hpost => ?_) ?_)
  · obtain ⟨rfl, htested, hsolves⟩ := hpost
    refine (decided_unify htested htypes.2.1 htypes.2.2.1).bind (fun result final hpost => ?_) ?_
    · obtain ⟨rfl, hlast, hfirst, hunified⟩ := hpost
      refine decided_of_ok rfl ⟨hadvances, single_answer hlast hfirst trivial fun σ t => ?_⟩
      obtain ⟨hiff, hagree⟩ := hunified σ
      rw [hsolves] at hiff
      rw [hnode]
      constructor
      · rintro ⟨hjoined, htest, hyes, hno⟩
        have hboth := hiff.mpr ⟨⟨hjoined, htest⟩, Ty.same_trans hyes (Ty.same_symm hno)⟩
        exact ⟨hboth, Ty.same_symm (Ty.same_trans (hagree hboth) hyes)⟩
      · rintro ⟨hboth, htype⟩
        obtain ⟨⟨hjoined, htest⟩, hbranches⟩ := hiff.mp hboth
        have hyes := Ty.same_symm (Ty.same_trans htype (hagree hboth))
        exact ⟨hjoined, htest, hyes, Ty.same_trans (Ty.same_symm hbranches) hyes⟩
    · rintro ⟨σ, t, htype⟩
      obtain ⟨hjoined, htest, hyes, hno⟩ := (hnode σ t).mp htype
      exact ⟨σ, (hsolves σ).mpr ⟨hjoined, htest⟩, Ty.same_trans hyes (Ty.same_symm hno)⟩
  · rintro ⟨σ, t, htype⟩
    obtain ⟨hjoined, htest, -⟩ := (hnode σ t).mp htype
    exact ⟨σ, hjoined, htest⟩

/-! ### Calls -/

theorem same_applied {other : Ty} {others : List Ty} (hresult : result.same other = true)
    (hmore : SameTypes more others) :
    (Ty.applied result more).same (Ty.applied other others) = true := by
  cases hmore with
  | nil => exact hresult
  | cons hhead hrest =>
    exact Ty.same_curried_iff.mpr ⟨_, rfl, .cons hresult (.cons hhead hrest)⟩

theorem apply_applied (σ : VarId → Ty) (result : Ty) (more : List Ty) :
    (Ty.applied result more).apply σ =
      Ty.applied (result.apply σ) (more.map (Ty.apply σ)) := by
  cases more with
  | nil => rfl
  | cons t ts => exact Ty.apply_curried _

theorem decided_apply {param arg : Ty} (hgraph : FirstOrderGraph classes)
    (hparam : param.FirstOrder) (harg : arg.FirstOrder) :
    Decided (∃ σ, classes.Solves σ ∧ Ty.Agree σ param arg)
      (fun found after => after = state ∧ found.1 = Ty.applied result more ∧
        FirstOrderGraph found.2 ∧ ∀ σ, found.2.Solves σ ↔ classes.Solves σ ∧ Ty.Agree σ param arg)
      (apply (.curried (param :: result :: more)) arg classes context state) := by
  refine (decided_equate hgraph hparam harg).bind (fun last after hpost => ?_) id
  obtain ⟨rfl, hlast, hsolves⟩ := hpost
  rw [remainder_eq]
  exact decided_of_ok rfl ⟨rfl, rfl, hlast, hsolves⟩

theorem Decided.both {solvable solvable' : Prop} {post : Answers → State → Prop}
    {given : Answers → State → Prop} {middling : Answers → State → Answers → State → Prop}
    {later : Answers → State → Prop} {first second : Infer Answers}
    {next : Answers → Answers → Infer Answers}
    (hfirst : Decided solvable post (first context state))
    (hsecond : ∀ a middle, post a middle →
      Decided (given a middle) (middling a middle) (second context middle))
    (hnext : ∀ a middle b last, post a middle → middling a middle b last →
      Decided solvable' later (next a b context last))
    (himp : solvable' → solvable)
    (hgiven : solvable' → ∀ a middle, post a middle → given a middle) :
    Decided solvable' later
      ((do
        let functions ← attempt first
        let arguments ← attempt second
        next (← liftExcept functions) (← liftExcept arguments)) context state) := by
  -- a run of the whole contains runs of both parts
  have hinvert : ∀ value after, (do
        let functions ← attempt first
        let arguments ← attempt second
        next (← liftExcept functions) (← liftExcept arguments)) context state =
          (.ok value, after) → ∃ a middle b last, first context state = (.ok a, middle) ∧
            second context middle = (.ok b, last) := by
    intro value after hrun
    obtain ⟨functions, middle, hfunctions, hrun⟩ := bind_eq_ok hrun
    obtain ⟨arguments, last, harguments, hrun⟩ := bind_eq_ok hrun
    obtain ⟨a, _, ha, hrun⟩ := bind_eq_ok hrun
    obtain ⟨b, _, hb, -⟩ := bind_eq_ok hrun
    obtain ⟨rfl, -⟩ := liftExcept_eq_ok ha
    obtain ⟨rfl, -⟩ := liftExcept_eq_ok hb
    rcases attempt_eq_ok hfunctions with ⟨_, heq, hfirst⟩ | ⟨_, heq, -⟩ <;> cases heq
    rcases attempt_eq_ok harguments with ⟨_, heq, hsecond⟩ | ⟨_, heq, -⟩ <;> cases heq
    exact ⟨a, middle, b, last, hfirst, hsecond⟩
  rcases hfirst with ⟨a, middle, ha, hpost⟩ | ⟨hnever, hnone⟩
  · rcases hsecond a middle hpost with ⟨b, last, hb, hmiddling⟩ | ⟨hnever, hnone⟩
    · have hattempt : attempt first context state = (.ok (.ok a), middle) := by rw [attempt, ha]
      have hattempt' : attempt second context middle = (.ok (.ok b), last) := by rw [attempt, hb]
      rw [bind_of_ok hattempt, bind_of_ok hattempt']
      exact hnext a middle b last hpost hmiddling
    · refine .inr ⟨fun value after hrun => ?_, fun hsolvable =>
        hnone (hgiven hsolvable a middle hpost)⟩
      obtain ⟨_, _, b, last, hother, hb⟩ := hinvert value after hrun
      cases ha.symm.trans hother
      exact hnever b last hb
  · refine .inr ⟨fun value after hrun => ?_, fun hsolvable => hnone (himp hsolvable)⟩
    obtain ⟨a, middle, -, -, ha, -⟩ := hinvert value after hrun
    exact hnever a middle ha

theorem fits_application_iff {middle : State} (hready : state.Ready names context)
    (hfunction : Plain names function (arity + 1) first) (hargument : Plain names argument 0 second)
    (hadvances : state.Advances first middle) (σ : VarId → Ty) (t : Ty) :
    Fits classes state (.application site function (some argument)) (first + second) σ t ↔
      ∃ called given, Fits classes state function first σ called ∧
        Fits classes middle argument second σ given ∧
        ∃ result more, called.same (.curried (given :: result :: more)) = true ∧
          t.same (Ty.applied result more) = true := by
  have hpair : ∀ ts, FitAll classes state [function, argument] [first, second] σ ts ↔
      ∃ called given, ts = [called, given] ∧ Fits classes state function first σ called ∧
        Fits classes middle argument second σ given := by
    intro ts
    have hmiddle := hready.advance hadvances
    have hargumentIff : ∀ us, FitAll classes middle [argument] [second] σ us ↔ _ :=
      fitAll_cons_iff hmiddle hargument (hmiddle.advances_skip second) σ
    rw [fitAll_cons_iff hready hfunction hadvances]
    constructor
    · rintro ⟨called, others, rfl, hcalled, hothers⟩
      obtain ⟨given, rest, rfl, hgiven, -, hnil⟩ := (hargumentIff others).mp hothers
      cases hnil
      exact ⟨called, given, rfl, hcalled, hgiven⟩
    · rintro ⟨called, given, rfl, hcalled, hgiven⟩
      exact ⟨called, _, rfl, hcalled, (hargumentIff _).mpr ⟨given, [], rfl, hgiven, hgiven.1, .nil⟩⟩
  constructor
  · rintro ⟨hsolves, htype⟩
    cases htype with
    | application hparts hcalled htype =>
      obtain ⟨_, _, heq, hfirst, hsecond⟩ := (hpair _).mp ⟨hsolves, hparts⟩
      cases heq
      exact ⟨_, _, hfirst, hsecond, _, _, hcalled, htype⟩
  · rintro ⟨called, given, hfirst, hsecond, result, more, hcalled, htype⟩
    obtain ⟨hsolves, hparts⟩ := (hpair _).mpr ⟨called, given, rfl, hfirst, hsecond⟩
    exact ⟨hsolves, .application hparts hcalled htype⟩

theorem exact_application (site : Site) (hplain : Plain names function (arity + 1) first)
    (hplain' : Plain names argument 0 second) (hfunction : Exact names function (arity + 1) first)
    (hargument : Exact names argument 0 second) :
    Exact names (.application site function (some argument)) arity (first + second) := by
  intro classes context state hgraph hready
  rw [statement, answersOf_asExpression]
  refine (hfunction hgraph hready).both
    (fun _ middle hpost => hargument hgraph (hready.advance hpost.1)) ?_ ?_ ?_
  · rintro functions middle arguments last ⟨hadvances, f, rfl, hf⟩ ⟨hadvances', a, rfl, ha⟩
    obtain ⟨param, result, more, htype, htakes⟩ := hf.takes
    have hcomponents := hf.firstOrder
    rw [htype] at hcomponents
    have hcomponent : ∀ t ∈ param :: result :: more, t.FirstOrder := fun t => hcomponents.component
    have happlied : (Ty.applied result more).FirstOrder := by
      rw [Ty.applied]
      split
      · exact hcomponent result (by simp)
      · exact .curried fun t ht => hcomponent t (.tail _ ht)
    have hnode : ∀ σ t, Fits classes state (.application site function (some argument))
        (first + second) σ t ↔ (f.classes.Solves σ ∧ a.classes.Solves σ) ∧
          Ty.Agree σ param a.type ∧ t.same ((Ty.applied result more).apply σ) = true := by
      intro σ t
      rw [fits_application_iff hready hplain hplain' hadvances, apply_applied]
      constructor
      · rintro ⟨called, given, hcalled, hgiven, result', more', hsame, ht⟩
        obtain ⟨hfirst, hcalled⟩ := (hf.fits_iff σ called).mp hcalled
        obtain ⟨hsecond, hgiven⟩ := (ha.fits_iff σ given).mp hgiven
        rw [htype, Ty.apply_curried] at hcalled
        obtain ⟨_, heq, hparts⟩ :=
          Ty.same_curried_iff.mp (Ty.same_trans (Ty.same_symm hcalled) hsame)
        cases heq
        rcases hparts with _ | ⟨hparam, _ | ⟨hresult, hmore⟩⟩
        refine ⟨⟨hfirst, hsecond⟩, Ty.same_trans hparam hgiven, Ty.same_trans ht ?_⟩
        exact same_applied (Ty.same_symm hresult) (SameTypes.symm hmore)
      · rintro ⟨⟨hfirst, hsecond⟩, hparam, ht⟩
        refine ⟨_, _, (hf.fits_iff σ _).mpr ⟨hfirst, Ty.same_refl _⟩,
          (ha.fits_iff σ _).mpr ⟨hsecond, Ty.same_refl _⟩, _, _, ?_, ht⟩
        rw [htype, Ty.apply_curried]
        exact Ty.same_curried_iff.mpr ⟨_, rfl, .cons hparam (SameTypes.refl _)⟩
    refine Decided.reportingAt (decided_merge hf.graph_eq ha.graph_eq hf.firstOrderGraph
      ha.firstOrderGraph ?_ fun built hbuilt hsolves => ?_) site
    · rintro ⟨σ, t, hfits⟩
      exact ⟨σ, ((hnode σ t).mp hfits).1⟩
    rw [htype]
    refine (decided_apply hbuilt (hcomponent param (by simp)) ha.firstOrder).bind
      (fun found after hpost => ?_) ?_
    · obtain ⟨rfl, hfound, hlast, hlastSolves⟩ := hpost
      refine decided_of_ok rfl ⟨hadvances.trans hadvances', ?_⟩
      rw [hfound]
      refine single_answer hlast happlied htakes fun σ t => ?_
      rw [hnode, hlastSolves, hsolves, and_assoc, and_assoc, and_assoc]
    · rintro ⟨σ, t, hfits⟩
      obtain ⟨hboth, hparam, -⟩ := (hnode σ t).mp hfits
      exact ⟨σ, (hsolves σ).mpr hboth, hparam⟩
  · rintro ⟨σ, t, hfits⟩
    obtain ⟨called, _, hcalled, -⟩ :=
      (fits_application_iff hready hplain hplain' (hready.advances_skip first) σ t).mp hfits
    exact ⟨σ, called, hcalled⟩
  · rintro ⟨σ, t, hfits⟩ functions middle hpost
    obtain ⟨_, given, -, hgiven, -⟩ :=
      (fits_application_iff hready hplain hplain' hpost.1 σ t).mp hfits
    exact ⟨σ, given, hgiven⟩

end Infer

end TypeSearch
