import TypeSearch.Proofs.Inference.Combine
import TypeSearch.Proofs.Inference.Parameters
import TypeSearch.Proofs.Type.Fresh

/-!
# Soundness of inference on the first-order fragment

Inference of an expression of the first-order fragment has at most one answer, and with all types
reduced the tree of that answer obeys the typing rules. The parts of a node are inferred under the
same graph, independently of each other; what makes the rules survive is that the graph of a node
entails all equations that the graphs of its parts entail.
-/

namespace TypeSearch

open Inference List
open Classes (Entails FirstOrderGraph Narrows)
open TypeSearch.Tree (Fragment Node Pattern Site boundNames entryNodes)

/-! ### Uses of a binding -/

namespace Ty

variable {t : Ty}

theorem FirstOrder.subst_var (ht : t.FirstOrder) : t.subst .var = t := by
  induction t using inductBuild with
  | var v => rfl
  | build head ts ih =>
    rw [subst_build, ht.rebuild_eq, map_congr_left fun t hmem => ih t hmem (ht.of_build t hmem),
      map_id']

theorem FirstOrder.subst (ht : t.FirstOrder) {replace : Variable → Ty}
    (hreplace : ∀ v, (replace v).FirstOrder) : (t.subst replace).FirstOrder := by
  induction t using inductBuild with
  | var v => exact hreplace v
  | build head ts ih =>
    rw [subst_build, ht.rebuild_eq]
    exact ht.build (forall_mem_map.mpr fun t hmem => ih t hmem (ht.of_build t hmem))

theorem FirstOrder.instantiate (ht : t.FirstOrder) (quantified : List VarId) (fresher : Fresher) :
    ∃ replace : Variable → Ty, (∀ v, ∃ w, replace v = .var w) ∧
      (∀ v, v.id ∉ quantified → replace v = .var v) ∧
      (t.instantiate quantified fresher).1 = t.subst replace := by
  by_cases hsome : quantified = []
  · rw [hsome]
    exact ⟨.var, fun v => ⟨v, rfl⟩, fun _ _ => rfl, ht.subst_var.symm⟩
  · obtain ⟨f, hfree, -, -, hsubst⟩ := t.exists_instantiate hsome fresher
    exact ⟨_, fun v => ⟨f v, rfl⟩, fun v hv => congrArg Ty.var (hfree v hv), hsubst⟩

end Ty

namespace Infer

variable {known : String → Prop} {env : Env} {node : Node} {nodes elements : List Node}
  {classes : Classes} {context : Context} {state after : State} {answers : Answers}
  {R : Table → Table → Prop} {entries : List (Node × Node)} {given : List (Except Failure Answers)}
  {found : List Answers} {site : Site}

/-! ### The fragment declares no names -/

theorem keeps_fragment (hfragment : Fragment known node) (classes : Classes) :
    Keeps (Table.Frames False) (statement classes node) := by
  induction hfragment with
  | literal value =>
    rw [statement]
    exact keeps_pure
  | identifier site hname =>
    rw [statement]
    exact keeps_identifier.asExpression
  | list site _ ih =>
    rw [statement_list]
    exact keeps_compound ih fun _ => keeps_list
  | tuple site _ ih =>
    rw [statement_tuple]
    exact keeps_compound ih fun _ => keeps_tuple
  | map site _ ih =>
    rw [statement_map]
    exact keeps_compound ih fun _ => keeps_mapLiteral
  | conditional site _ _ _ ihcondition ihyes ihno =>
    rw [statement_conditional]
    refine keeps_compound ?_ fun _ => keeps_conditional
    simp [ihcondition, ihyes, ihno]
  | application site _ _ ihfunction ihargument =>
    refine keeps_application ihfunction ?_
    rintro _ ⟨⟩
    exact ihargument
  | abstraction site _ _ _ _ => exact keeps_abstraction fun branch _ => keeps_bodyAnswers branch.2

/-! ### Parts -/

/-- Where the names of the fragment are as the environment says, inference gives one answer, which
obeys the typing rules. -/
def Sound (known : String → Prop) (env : Env) (node : Node) : Prop :=
  ∀ ⦃classes : Classes⦄ ⦃context : Context⦄ ⦃state after : State⦄ ⦃answers : Answers⦄,
    FirstOrderGraph classes → Sees known env state.table →
    answersOf (statement classes node) context state = (.ok answers, after) →
    HasOne env node answers

def Checked (env : Env) (node : Node) (given : Except Failure Answers) : Prop :=
  ∀ answers, given = .ok answers → HasOne env node answers

theorem Sound.attempt (hsound : Sound known env node) (hfragment : Fragment known node)
    (hgraph : FirstOrderGraph classes) (hsees : Sees known env state.table)
    {given : Except Failure Answers}
    (hrun : attempt (answersOf (statement classes node)) context state = (.ok given, after)) :
    Checked env node given ∧ Sees known env after.table := by
  constructor
  · rintro answers rfl
    rcases attempt_eq_ok hrun with ⟨found, heq, hfound⟩ | ⟨failure, heq, -⟩
    · cases heq
      exact hsound hgraph hsees hfound
    · cases heq
  · have hkeeps := (keeps_fragment hfragment classes).answersOf.attempt.run hrun
    exact hsees.frame (hkeeps hsees.wellFormed)

theorem parts_checked (hall : ∀ node ∈ nodes, Fragment known node ∧ Sound known env node)
    (hgraph : FirstOrderGraph classes) (hsees : Sees known env state.table)
    (hrun : parts classes nodes context state = (.ok given, after)) :
    Forall₂ (Checked env) nodes given := by
  induction nodes generalizing state given with
  | nil =>
    rw [parts] at hrun
    obtain ⟨rfl, -⟩ := pure_eq_ok hrun
    exact .nil
  | cons node nodes ih =>
    rw [forall_mem_cons] at hall
    rw [parts] at hrun
    obtain ⟨first, middle, hfirst, hrest⟩ := bind_eq_ok hrun
    obtain ⟨others, last, hothers, hdone⟩ := bind_eq_ok hrest
    obtain ⟨rfl, rfl⟩ := pure_eq_ok hdone
    obtain ⟨hchecked, hmiddle⟩ := hall.1.2.attempt hall.1.1 hgraph hsees hfirst
    exact .cons hchecked (ih hall.2 hmiddle hothers)

theorem allOrLast_eq_ok (hrun : allOrLast given context state = (.ok found, after)) :
    given = found.map .ok := by
  rw [allOrLast] at hrun
  generalize hlast : (given.filterMap _).getLast? = last at hrun
  cases last with
  | some failure => cases hrun
  | none =>
    obtain ⟨rfl, -⟩ := pure_eq_ok hrun
    rw [getLast?_eq_none_iff] at hlast
    clear hrun
    induction given with
    | nil => rfl
    | cons first rest ih =>
      cases first with
      | error failure => cases hlast
      | ok answers => exact congrArg (.ok answers :: ·) (ih hlast)

theorem hasOne_compound {make : List Answers → Infer Answers}
    (hall : ∀ part ∈ nodes, Fragment known part ∧ Sound known env part)
    (hgraph : FirstOrderGraph classes) (hsees : Sees known env state.table)
    (hmake : ∀ {found middle}, Forall₂ (HasOne env) nodes found →
      make found context middle = (.ok answers, after) → HasOne env node answers)
    (hrun : answersOf (compound classes nodes make) context state = (.ok answers, after)) :
    HasOne env node answers := by
  rw [compound, answersOf_asExpression] at hrun
  obtain ⟨given, middle, hparts, hrest⟩ := bind_eq_ok hrun
  obtain ⟨found, last, hfound, hmade⟩ := bind_eq_ok hrest
  have hchecked := parts_checked hall hgraph hsees hparts
  obtain rfl := allOrLast_eq_ok hfound
  rw [forall₂_map_right_iff] at hchecked
  exact hmake (hchecked.imp fun _ _ hone => hone _ rfl) hmade

/-! ### Nodes, from their parts -/

theorem hasOne_answer {type : Ty} {children : List Typed} {graph : Classes}
    (hgraph : FirstOrderGraph graph) (htype : type.FirstOrder)
    (hobeys : Obeys graph.Entails env node (.mk site.key type children)) :
    HasOne env node ⟨[answer site type children graph]⟩ :=
  ⟨_, graph, rfl, rfl, hgraph, rfl, htype, hobeys⟩

section Compound

variable (hgraph : FirstOrderGraph classes)
include hgraph

theorem identifier_hasOne {name : String} (hname : known name) (hsees : Sees known env state.table)
    (hrun : identifier site name classes context state = (.ok answers, after)) :
    HasOne env (.identifier site name) answers := by
  obtain ⟨binding, hresolve, hfirst, henv⟩ := hsees.names name hname
  obtain ⟨replace, hvars, hreplace, hinstance⟩ :=
    hfirst.instantiate binding.quantified state.fresher
  have hused : (binding.type.subst replace).FirstOrder :=
    hfirst.subst fun v => by
      obtain ⟨w, hw⟩ := hvars v
      exact hw ▸ .var w
  have htable : table context state = (.ok state.table, state) := rfl
  have hinstantiate : instantiate binding.type binding.quantified context state =
      (.ok (binding.type.subst replace), _) := Prod.ext (congrArg Outcome.ok hinstance) rfl
  rw [identifier, bind_of_ok htable, hresolve] at hrun
  dsimp only at hrun
  rw [bind_of_ok hinstantiate] at hrun
  have hanswers : answers = leaf site (binding.type.subst replace) classes := by
    generalize binding.type.subst replace = used at hused hrun
    cases hused <;> exact (pure_eq_ok hrun).1
  rw [hanswers]
  exact hasOne_answer hgraph hused (.identifier (henv _ ⟨replace, hreplace, rfl⟩) (.refl hused))

theorem list_hasOne (hall : Forall₂ (HasOne env) elements found)
    (hrun : list site found classes context state = (.ok answers, after)) :
    HasOne env (.list site elements) answers := by
  obtain ⟨combinations, middle, hdistribute, hrest⟩ := bind_eq_ok (reportingAt_eq_ok hrun)
  obtain ⟨combination, graph, rfl, hcombined⟩ :=
    distribute_of_one hgraph hall (liftM_eq_ok hdistribute).1
  obtain ⟨v, numbered, -, hcollect⟩ := bind_eq_ok hrest
  obtain ⟨a, hmake, rfl⟩ := collect_one hcollect
  obtain ⟨next, last, hequate, hdone⟩ := bind_eq_ok hmake
  obtain ⟨rfl, -⟩ := pure_eq_ok hdone
  rw [hcombined.classes_eq] at hequate
  rw [equateAll_eq] at hequate
  obtain ⟨hnext, hnarrows, halternate⟩ := equateAlternately_entails hcombined.firstOrderGraph
    (.var v) (.var v) hcombined.firstOrder hequate
  have htype := Ty.firstOrder_list (.var v)
  refine hasOne_answer hnext htype
    (.list hcombined.length_eq (hcombined.obeys hnarrows) ?_ (.refl htype))
  rw [hcombined.types_eq] at halternate
  exact forall_mem_map.mp (alternate_self_iff.mp halternate)

theorem tuple_hasOne (hall : Forall₂ (HasOne env) elements found)
    (hrun : tuple site found classes context state = (.ok answers, after)) :
    HasOne env (.tuple site elements) answers := by
  obtain ⟨combinations, middle, hdistribute, hcollect⟩ := bind_eq_ok (reportingAt_eq_ok hrun)
  obtain ⟨combination, graph, rfl, hcombined⟩ :=
    distribute_of_one hgraph hall (liftM_eq_ok hdistribute).1
  obtain ⟨a, hmake, rfl⟩ := collect_one hcollect
  obtain ⟨rfl, -⟩ := pure_eq_ok hmake
  have htype := Ty.firstOrder_tuple hcombined.firstOrder
  rw [hcombined.classes_eq]
  refine hasOne_answer hcombined.firstOrderGraph htype
    (.tuple hcombined.length_eq (hcombined.obeys fun _ => id) ?_)
  rw [← hcombined.types_eq]
  exact .refl htype

theorem map_hasOne (hall : Forall₂ (HasOne env) (entryNodes entries) found)
    (hrun : map site found classes context state = (.ok answers, after)) :
    HasOne env (.map site entries) answers := by
  obtain ⟨combinations, middle, hdistribute, hrest⟩ := bind_eq_ok (reportingAt_eq_ok hrun)
  obtain ⟨combination, graph, rfl, hcombined⟩ :=
    distribute_of_one hgraph hall (liftM_eq_ok hdistribute).1
  obtain ⟨key, keyed, -, hrest⟩ := bind_eq_ok hrest
  obtain ⟨value, valued, -, hcollect⟩ := bind_eq_ok hrest
  obtain ⟨a, hmake, rfl⟩ := collect_one hcollect
  obtain ⟨next, last, hequate, hdone⟩ := bind_eq_ok hmake
  obtain ⟨rfl, -⟩ := pure_eq_ok hdone
  rw [hcombined.classes_eq] at hequate
  obtain ⟨hnext, hnarrows, halternate⟩ := equateAlternately_entails hcombined.firstOrderGraph
    (.var key) (.var value) hcombined.firstOrder hequate
  have htype := Ty.firstOrder_map (.var key) (.var value)
  rw [hcombined.types_eq] at halternate
  exact hasOne_answer hnext htype
    (.map hcombined.length_eq (hcombined.obeys hnarrows) halternate (.refl htype))

theorem conditional_hasOne {condition yes no : Node}
    (hall : Forall₂ (HasOne env) [condition, yes, no] found)
    (hrun : conditional site found classes context state = (.ok answers, after)) :
    HasOne env (.conditional site condition yes (some no)) answers := by
  obtain ⟨combinations, middle, hdistribute, hcollect⟩ := bind_eq_ok (reportingAt_eq_ok hrun)
  obtain ⟨⟨parts, _⟩, graph, rfl, hgraph_eq, hcombined, hparts⟩ :=
    distribute_of_one hgraph hall (liftM_eq_ok hdistribute).1
  obtain rfl : _ = some graph := hgraph_eq
  obtain ⟨a, hmake, rfl⟩ := collect_one hcollect
  rcases hparts with _ | ⟨htest, _ | ⟨hfirst, _ | ⟨hsecond, _ | _⟩⟩⟩
  rename_i test first second
  obtain ⟨tested, last, hequate, hrest⟩ := bind_eq_ok hmake
  obtain ⟨⟨unified, next⟩, final, hunify, hdone⟩ := bind_eq_ok hrest
  obtain ⟨rfl, -⟩ := pure_eq_ok hdone
  -- the condition is made a truth value, then the branches are made equal
  have hequated : graph.equate .boolean test.type = .ok tested := (equate_eq_ok hequate).1
  obtain ⟨hnarrow, hboolean⟩ := hcombined.equated Ty.firstOrder_boolean htest.firstOrder hequated
  have htested : FirstOrderGraph tested :=
    .equate hcombined Ty.firstOrder_boolean htest.firstOrder hequated
  have hunified := asFailure_eq_ok (liftM_eq_ok hunify).1
  obtain ⟨hnarrows, hbranches, htype⟩ :=
    htested.unified hfirst.firstOrder hsecond.firstOrder hunified
  have hnext : FirstOrderGraph next := .unify htested hfirst.firstOrder hsecond.firstOrder hunified
  have hlater := hnarrow.trans hnarrows
  refine hasOne_answer hnext htype.left (.conditional (htest.narrow hlater).obeys
    (hfirst.narrow hlater).obeys (hsecond.narrow hlater).obeys ?_ ?_ ?_)
  · rw [htest.type_eq]
    exact (hboolean.mono hnarrows).symm
  · rw [hfirst.type_eq]
    exact htype.symm
  · rw [hsecond.type_eq]
    exact hbranches.symm.trans htype.symm

end Compound

theorem applyAll_hasOne {function argument : Node} {functions arguments : Answers}
    (hfunctions : HasOne env function functions) (harguments : HasOne env argument arguments)
    (hrun : applyAll site functions arguments context state = (.ok answers, after)) :
    HasOne env (.application site function (some argument)) answers := by
  obtain ⟨f, left, rfl, hleft_eq, hleft, hf⟩ := hfunctions
  obtain ⟨a, right, rfl, hright_eq, hright, ha⟩ := harguments
  obtain ⟨built, c, hbuild, hmake, rfl⟩ := merge_one (reportingAt_eq_ok hrun)
  rw [hleft_eq, hright_eq] at hbuild
  obtain ⟨hbuilt, hnarrow, hnarrow'⟩ := hleft.built hright hbuild
  obtain ⟨⟨type, next⟩, last, happly, hdone⟩ := bind_eq_ok hmake
  obtain ⟨rfl, -⟩ := pure_eq_ok hdone
  obtain ⟨hnext, hnarrows, htype, result, more, hcalled, rfl⟩ :=
    apply_entails hbuilt hf.firstOrder ha.firstOrder happly
  refine hasOne_answer hnext htype (.application (hf.narrow (hnarrow.trans hnarrows)).obeys
    (ha.narrow (hnarrow'.trans hnarrows)).obeys ?_ (.refl htype))
  rwa [hf.type_eq, ha.type_eq]

/-! ### Functions -/

theorem inBody_eq_ok {body : Tree.Locus} {computation : Infer Answers}
    (hrun : inBody body computation context state = (.ok answers, after)) :
    ∃ middle, computation context { state with table := state.table.enterBlock body } =
      (.ok answers, middle) := by
  obtain ⟨_, entered, henter, hrest⟩ := bind_eq_ok hrun
  cases henter
  obtain ⟨given, middle, hattempt, hrest⟩ := bind_eq_ok hrest
  obtain ⟨_, _, -, hrest⟩ := bind_eq_ok hrest
  obtain ⟨_, _, -, hrest⟩ := bind_eq_ok hrest
  obtain ⟨_, _, -, hrest⟩ := bind_eq_ok hrest
  rcases attempt_eq_ok hattempt with ⟨found, rfl, hfound⟩ | ⟨failure, rfl, -⟩
  · obtain ⟨rfl, -⟩ := pure_eq_ok hrest
    exact ⟨middle, hfound⟩
  · cases hrest

theorem bodyAnswers_eq (hfragment : Fragment known node) (classes : Classes) :
    bodyAnswers node classes = answersOf (statement classes node) := by
  cases hfragment <;> rfl

theorem branch_hasOne {function : Tree.Locus} {params : List Pattern} {body : Node}
    {locus : Tree.Locus} (hparams : ∀ p ∈ params, p.IsParameter) (hne : params ≠ [])
    (hfragment : Fragment (fun name => name ∈ boundNames params ∨ known name) body)
    (hsound : ∀ leaves, Sound (fun name => name ∈ boundNames params ∨ known name)
      (env.bind params leaves) body) (hgraph : FirstOrderGraph classes)
    (hsees : Sees known env state.table)
    (hrun : branch function site params locus (bodyAnswers body) classes context state =
      (.ok answers, after)) :
    HasOne env (.abstraction site [(params, body)]) answers := by
  rw [branch_eq] at hrun
  obtain ⟨_, entered, henter, hrest⟩ := bind_eq_ok hrun
  cases henter
  obtain ⟨middle, hinside, -⟩ := thenAlways_eq_ok hrest
  -- the names of the parameters are added to the scope of the function
  obtain ⟨_, named, hnamed, hinside⟩ := bind_eq_ok hinside
  have hframe := (keeps_forM keeps_implicitTemplates).run hnamed
    (hsees.wellFormed.enter .abstraction function)
  have hparameters := templates_parameters (Table.parameters_enter hsees.wellFormed function) hnamed
  rw [nil_append] at hparameters
  obtain ⟨⟨leaves, knownNow⟩, typed, hleaved, hinside⟩ := bind_eq_ok hinside
  obtain ⟨others, last, hfound, htable, hleaves⟩ :=
    params_leaves hparams hparameters (fun _ => id) locus classes context
  cases hleaved.symm.trans hfound
  -- the body is inferred in a scope inside of it, where they are known
  obtain ⟨found, closed, hbody, hmapped⟩ := bind_eq_ok hinside
  obtain ⟨final, hfound⟩ := inBody_eq_ok hbody
  rw [bodyAnswers_eq hfragment] at hfound
  have hinner := hsees.inside hframe hparameters hleaves (some locus)
  rw [← htable] at hinner
  obtain ⟨a, graph, rfl, hgraph_eq, hinferred, hpart⟩ := hsound leaves hgraph hinner hfound
  obtain ⟨b, hmake, rfl⟩ := searchAll_answer (reportingAt_eq_ok hmapped)
  obtain ⟨rfl, -⟩ := pure_eq_ok hmake
  have hclasses : a.classes = graph := by rw [Answer.classes, hgraph_eq, Option.getD_some]
  have hlength := hleaves.length_eq
  -- there is a parameter, so no `Void` stands for one
  have htypes : (if leaves.isEmpty then [.void] else leaves.map (·.type)) =
      leaves.map (·.type) := by
    refine if_neg fun hempty => hne ?_
    rwa [isEmpty_iff_length_eq_zero, ← hlength, length_eq_zero_iff] at hempty
  have hshape : ∀ pair ∈ params.zip leaves, ∃ v, pair.2 = .mk pair.1.site.key (.var v) [] :=
    fun pair hpair => ((forall₂_iff_zip.mp hleaves).2 hpair).shape
  have htype : (Ty.curried (leaves.map (·.type) ++ [a.type])).FirstOrder := by
    refine .curried fun t ht => ?_
    rcases mem_append.mp ht with hparam | hresult
    · obtain ⟨leaf, hleaf, rfl⟩ := mem_map.mp hparam
      obtain ⟨p, -, ⟨v, rfl⟩, -⟩ := exists_left_of_forall₂ hleaves hleaf
      exact .var v
    · rw [mem_singleton.mp hresult]
      exact hpart.firstOrder
  rw [hclasses, htypes]
  refine hasOne_answer hinferred htype (.abstraction hlength ?_ hpart.obeys ?_)
  · intro pair hpair
    obtain ⟨v, hv⟩ := hshape pair hpair
    exact ⟨.var v, hv⟩
  · rw [hpart.type_eq]
    exact .refl htype

/-! ### Expressions -/

theorem sound_fragment (hfragment : Fragment known node) (env : Env) : Sound known env node := by
  induction hfragment generalizing env with
  | literal value =>
    intro classes context state after answers hgraph _ hrun
    rw [statement] at hrun
    cases hrun
    have htype := literalType_firstOrder value
    exact hasOne_answer hgraph htype (.literal (.refl htype))
  | identifier site hname =>
    intro classes context state after answers hgraph hsees hrun
    rw [statement, answersOf_asExpression] at hrun
    exact identifier_hasOne hgraph hname hsees hrun
  | list site helements ih =>
    intro classes context state after answers hgraph hsees hrun
    rw [statement_list] at hrun
    exact hasOne_compound (fun e he => ⟨helements e he, ih e he env⟩) hgraph hsees
      (list_hasOne hgraph) hrun
  | tuple site helements ih =>
    intro classes context state after answers hgraph hsees hrun
    rw [statement_tuple] at hrun
    exact hasOne_compound (fun e he => ⟨helements e he, ih e he env⟩) hgraph hsees
      (tuple_hasOne hgraph) hrun
  | map site hentries ih =>
    intro classes context state after answers hgraph hsees hrun
    rw [statement_map] at hrun
    exact hasOne_compound (fun e he => ⟨hentries e he, ih e he env⟩) hgraph hsees
      (map_hasOne hgraph) hrun
  | conditional site hcondition hyes hno ihcondition ihyes ihno =>
    intro classes context state after answers hgraph hsees hrun
    rw [statement_conditional] at hrun
    refine hasOne_compound ?_ hgraph hsees (conditional_hasOne hgraph) hrun
    simp [hcondition, hyes, hno, ihcondition env, ihyes env, ihno env]
  | application site hfunction hargument ihfunction ihargument =>
    intro classes context state after answers hgraph hsees hrun
    rw [statement, answersOf_asExpression] at hrun
    obtain ⟨called, middle, hcalled, hrest⟩ := bind_eq_ok hrun
    obtain ⟨given, last, hgiven, hrest⟩ := bind_eq_ok hrest
    obtain ⟨functions, _, hfunctions, hrest⟩ := bind_eq_ok hrest
    obtain ⟨arguments, _, harguments, happly⟩ := bind_eq_ok hrest
    obtain ⟨hleft, hsees⟩ := (ihfunction env).attempt hfunction hgraph hsees hcalled
    obtain ⟨hright, -⟩ := (ihargument env).attempt hargument hgraph hsees hgiven
    exact applyAll_hasOne (hleft functions (liftExcept_eq_ok hfunctions).1)
      (hright arguments (liftExcept_eq_ok harguments).1) happly
  | abstraction site hparams hne hbody ih =>
    intro classes context state after answers hgraph hsees hrun
    rw [answersOf_function] at hrun
    exact branch_hasOne hparams hne hbody (fun _ => ih _) hgraph hsees hrun

/-! ### A call -/

def emptyFile : State := { table := Table.ofFile "main" none [], fresher := {} }

def identityFunction : Node :=
  .abstraction ⟨2, Span.zero⟩
    [([.identifier ⟨⟨3, Span.zero⟩, "x", none⟩], .identifier ⟨4, Span.zero⟩ "x")]

def identityCall : Node :=
  .application ⟨1, Span.zero⟩ identityFunction (some (.literal (.number ⟨5, Span.zero⟩ "2")))

def identityAnswer : Answer Typed :=
  answer ⟨2, Span.zero⟩ (.curried [.var ⟨1, "x"⟩, .var ⟨1, "x"⟩])
    [.mk 3 (.var ⟨1, "x"⟩) [], .mk 4 (.var ⟨1, "x"⟩) []] Classes.empty

theorem identityFunction_run :
    ∃ valued, answersOf (statement Classes.empty identityFunction) emptyContext emptyFile =
      (.ok ⟨[identityAnswer]⟩, valued) := by
  refine ⟨_, (answersOf_function _ _ _ _ _ _).trans (Prod.ext ?_ rfl)⟩
  rw [bodyAnswers_identifier]
  rfl

theorem identityCall_run :
    ∃ result last, statement Classes.empty identityCall emptyContext emptyFile =
      (.ok result, last) := by
  obtain ⟨valued, hfunction⟩ := identityFunction_run
  obtain ⟨built, hbuild⟩ : ∃ built,
      Classes.build [some Classes.empty, some Classes.empty] = .ok built := ⟨_, rfl⟩
  obtain ⟨hbuilt, -, -⟩ := FirstOrderGraph.empty.built .empty hbuild
  have hsolves : built.Solves fun _ => .number := by
    refine (Classes.solves_build_iff (fun graph hmem => ?_) hbuild _).mpr fun graph hmem => ?_
    all_goals obtain rfl : graph = Classes.empty := by simpa using hmem
    · exact .empty
    · exact Classes.solves_empty _
  obtain ⟨next, hequate⟩ := hbuilt.exists_equate (.var ⟨1, "x"⟩)
    (literalType_firstOrder (.number ⟨5, Span.zero⟩ "2")) hsolves (Ty.same_refl .number)
  have happly : apply (.curried [.var ⟨1, "x"⟩, .var ⟨1, "x"⟩]) .number built emptyContext valued =
      (.ok (.var ⟨1, "x"⟩, next), valued) :=
    bind_of_ok (equate_of_ok hequate emptyContext valued)
  have hcalled : attempt (answersOf (statement Classes.empty identityFunction)) emptyContext
      emptyFile = (.ok (.ok ⟨[identityAnswer]⟩), valued) := by
    rw [attempt, hfunction]
  have hgiven : attempt (answersOf (statement Classes.empty
      (.literal (.number ⟨5, Span.zero⟩ "2")))) emptyContext valued =
        (.ok (.ok (leaf ⟨5, Span.zero⟩ .number Classes.empty)), valued) := by
    rw [statement]
    rfl
  rw [identityCall, statement]
  exact ⟨_, valued, bind_of_ok ((bind_of_ok hcalled).trans ((bind_of_ok hgiven).trans
    (reportingAt_of_ok (merge_of_ok hbuild (bind_of_ok happly)))))⟩

theorem type_identityCall {tree : Typed}
    (hobeys : Obeys (fun t u => t.same u = true) env identityCall tree) :
    tree.type.same .number = true := by
  rw [identityCall, identityFunction] at hobeys
  cases hobeys with
  | application hfunction hargument hcalled htype =>
    cases hargument with
    | literal hgiven =>
      cases hfunction with
      | abstraction hlength hleaves hbody hcurried =>
        cases hbody with
        | identifier hused hinner =>
          obtain ⟨leaf, rfl⟩ := length_eq_one_iff.mp hlength.symm
          have hleaf := hused (_, leaf) (mem_singleton_self _) (mem_singleton_self _)
          rw [hleaf] at hinner
          have hsame := Ty.same_trans (Ty.same_symm hcurried) hcalled
          obtain ⟨params, heq, hboth⟩ := Ty.same_curried_iff.mp hsame
          cases heq
          rcases hboth with _ | ⟨hparam, _ | ⟨hresult, _ | _⟩⟩
          -- the call, the result of the function, its body, its parameter, the argument
          exact Ty.same_trans htype (Ty.same_trans (Ty.same_symm hresult)
            (Ty.same_trans hinner (Ty.same_trans hparam hgiven)))

/-! ### Soundness -/

/-- The types that names can be used with where they are looked up in the table, changed by `f`. -/
def uses (table : Table) (f : Ty → Ty) : Env := fun name t =>
  ∃ binding used, table.resolve name = some binding ∧ binding.Instance used ∧ t = f used

/-- **Inference is sound on the first-order fragment.** An expression of the fragment whose names
have first-order types has a single answer, if it has any. In the graph of this answer all types can
be reduced, and the tree of the reduced types obeys the typing rules. -/
theorem fragment_obeys_rules {result : Statement} (hgraph : FirstOrderGraph classes)
    (hwf : state.table.WellFormed)
    (hfragment : Fragment (fun name => ∃ binding, state.table.resolve name = some binding ∧
      binding.type.FirstOrder) node)
    (hrun : statement classes node context state = (.ok result, after)) :
    ∃ found graph, result.answers = ⟨[found]⟩ ∧ found.graph = some graph ∧
      found.node.type = found.type ∧
      (∀ t, graph.reduce t = (.ok (graph.reduction t) : Outcome Mismatch Ty)) ∧
      Obeys (fun t u => t.same u = true) (uses state.table graph.reduction) node
        (found.node.mapTypes graph.reduction) := by
  let env : Env := fun name t =>
    ∃ binding, state.table.resolve name = some binding ∧ binding.Instance t
  have hsees : Sees (fun name => ∃ binding, state.table.resolve name = some binding ∧
      binding.type.FirstOrder) env state.table := by
    refine ⟨hwf, ?_⟩
    rintro name ⟨binding, hresolve, hfirst⟩
    exact ⟨binding, hresolve, hfirst, fun t ht => ⟨binding, hresolve, ht⟩⟩
  have hanswers : answersOf (statement classes node) context state = (.ok result.answers, after) :=
    bind_of_ok hrun
  obtain ⟨found, graph, hfound, hgraph_eq, hreduces, hpart⟩ :=
    sound_fragment hfragment env hgraph hsees hanswers
  refine ⟨found, graph, hfound, hgraph_eq, hpart.type_eq, hreduces.reduce_eq, ?_⟩
  refine hpart.obeys.mapTypes hreduces.reduction_parametric (hreduces.reduction_build .curried)
    (fun t u hentails => hreduces.same_of_entails hentails) ?_
  rintro name t ⟨binding, hresolve, hinstance⟩
  exact ⟨binding, t, hresolve, hinstance, rfl⟩

theorem fragment_obeys_rules_of_call :
    ∃ result last found graph,
      emptyFile.table.WellFormed ∧
      Fragment (fun name => ∃ binding, emptyFile.table.resolve name = some binding ∧
        binding.type.FirstOrder) identityCall ∧
      statement Classes.empty identityCall emptyContext emptyFile = (.ok result, last) ∧
      result.answers = ⟨[found]⟩ ∧ found.graph = some graph ∧
      Obeys (fun t u => t.same u = true) (uses emptyFile.table graph.reduction) identityCall
        (found.node.mapTypes graph.reduction) ∧
      (graph.reduction found.type).same .number = true := by
  have hwf : emptyFile.table.WellFormed := Table.wellFormed_ofFile "main" none []
  have hfragment : Fragment (fun name => ∃ binding, emptyFile.table.resolve name = some binding ∧
      binding.type.FirstOrder) identityCall := by
    refine .application _ (.abstraction _ ?_ (List.cons_ne_nil _ _) (.identifier _ (.inl ?_)))
      (.literal _)
    · exact List.forall_mem_singleton.mpr (.identifier _ _)
    · exact List.mem_singleton_self _
  obtain ⟨result, last, hrun⟩ := identityCall_run
  obtain ⟨found, graph, hfound, hgraph, htype, -, hobeys⟩ :=
    fragment_obeys_rules .empty hwf hfragment hrun
  refine ⟨result, last, found, graph, hwf, hfragment, hrun, hfound, hgraph, hobeys, ?_⟩
  rw [← htype, ← Typed.type_mapTypes graph.reduction]
  exact type_identityCall hobeys

end Infer

end TypeSearch
