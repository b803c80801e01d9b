import TypeSearch.Proofs.Inference.Run
import TypeSearch.Proofs.Inference.Typing

/-!
# Typings of parts, put together

The parts of an expression are inferred each by itself and reconciled afterwards. If each has a
single answer that obeys the typing rules in its own graph, then so does their only combination, in
the graph that is built of theirs: what the graphs of the parts entail is still entailed by it.
Requiring further types to be equal keeps that.
-/

namespace TypeSearch.Infer

open Inference List
open Classes (Entails FirstOrderGraph Narrows)
open TypeSearch.Tree (Node)

variable {env : Env} {graph next : Classes} {node : Node} {nodes : List Node} {a : Answer Typed}
  {context : Context} {state after : State} {combination : Combination Typed}
  {combinations : Combinations Typed} {siblings : List Answers}

structure Part (env : Env) (graph : Classes) (node : Node) (a : Answer Typed) : Prop where
  type_eq : a.node.type = a.type
  firstOrder : a.type.FirstOrder
  obeys : Obeys graph.Entails env node a.node

theorem Part.narrow (hpart : Part env graph node a) (hnarrows : Narrows graph next) :
    Part env next node a :=
  { hpart with obeys := hpart.obeys.mono fun _ _ hentails => hentails.mono hnarrows }

/-- A single answer, which obeys the typing rules in its own graph. -/
def HasOne (env : Env) (node : Node) (answers : Answers) : Prop :=
  ∃ a graph, answers = ⟨[a]⟩ ∧ a.graph = some graph ∧ FirstOrderGraph graph ∧
    Part env graph node a

/-- One answer for each node, all of which obey the typing rules in the graph of the combination. -/
structure Combined (env : Env) (nodes : List Node) (combination : Combination Typed)
    (graph : Classes) : Prop where
  graph_eq : combination.graph = some graph
  firstOrderGraph : FirstOrderGraph graph
  parts : List.Forall₂ (Part env graph) nodes combination.answers

namespace Combined

variable {combination : Combination Typed}

section Combined

variable (hcombined : Combined env nodes combination graph)

include hcombined

theorem classes_eq :
    combination.classes = graph := by
  rw [Combination.classes, hcombined.graph_eq, Option.getD_some]

theorem length_eq : nodes.length = combination.nodes.length := by
  rw [Combination.nodes, length_map]
  exact hcombined.parts.length_eq

theorem types_eq : combination.types = combination.nodes.map (·.type) := by
  rw [Combination.types, Combination.nodes, map_map]
  refine map_congr_left fun a ha => ?_
  obtain ⟨node, -, hpart⟩ := exists_left_of_forall₂ hcombined.parts ha
  exact hpart.type_eq.symm

theorem firstOrder : ∀ t ∈ combination.types, t.FirstOrder := by
  intro t ht
  obtain ⟨a, ha, rfl⟩ := mem_map.mp ht
  obtain ⟨node, -, hpart⟩ := exists_left_of_forall₂ hcombined.parts ha
  exact hpart.firstOrder

theorem obeys (hnarrows : Narrows graph next) :
    ∀ pair ∈ nodes.zip combination.nodes, Obeys next.Entails env pair.1 pair.2 := by
  intro pair hpair
  rw [Combination.nodes, zip_map_right] at hpair
  obtain ⟨⟨node, a⟩, hmem, rfl⟩ := mem_map.mp hpair
  have hpart : Part env graph node a := (forall₂_iff_zip.mp hcombined.parts).2 hmem
  exact (hpart.narrow hnarrows).obeys

end Combined

end Combined

/-! ### Distribution -/

theorem Combined.join {answers : Answers} (hcombined : Combined env nodes combination graph)
    (hone : HasOne env node answers)
    (hproduct : Combinations.product ⟨[combination]⟩ (Combinations.lift answers) =
      .ok combinations) :
    ∃ joined last, combinations = ⟨[joined]⟩ ∧ Combined env (nodes ++ [node]) joined last := by
  obtain ⟨a, other, rfl, hgraph, hother, hpart⟩ := hone
  simp only [Combinations.product, Combinations.lift, Combinations.joinAll, Combinations.join,
    flatMap_cons, flatMap_nil, map_cons, map_nil, append_nil] at hproduct
  rw [hcombined.graph_eq, hgraph] at hproduct
  cases hbuild : Classes.build [some graph, some other] with
  | halted cause | failed mismatch =>
    rw [hbuild] at hproduct
    cases hproduct
  | ok built =>
    rw [hbuild] at hproduct
    cases hproduct
    obtain ⟨hbuilt, hleft, hright⟩ := hcombined.firstOrderGraph.built hother hbuild
    refine ⟨_, built, rfl, rfl, hbuilt, ?_⟩
    refine rel_append (hcombined.parts.imp fun _ _ hpart => hpart.narrow hleft) ?_
    exact .cons (hpart.narrow hright) .nil

theorem productAll_of_one {others : List Node} (hcombined : Combined env nodes combination graph)
    (hall : Forall₂ (HasOne env) others siblings)
    (hproduct : Combinations.productAll ⟨[combination]⟩ siblings = .ok combinations) :
    ∃ joined last, combinations = ⟨[joined]⟩ ∧ Combined env (nodes ++ others) joined last := by
  induction hall generalizing nodes combination graph with
  | nil =>
    cases hproduct
    exact ⟨combination, graph, rfl, by rwa [append_nil]⟩
  | cons hone _ ih =>
    obtain ⟨middle, hfirst, hrest⟩ := Outcome.bind_eq_ok hproduct
    obtain ⟨joined, last, rfl, hjoined⟩ := hcombined.join hone hfirst
    obtain ⟨whole, final, rfl, hwhole⟩ := ih hjoined hrest
    exact ⟨whole, final, rfl, by rwa [append_assoc] at hwhole⟩

theorem distribute_of_one {classes : Classes} (hbase : FirstOrderGraph classes)
    (hall : Forall₂ (HasOne env) nodes siblings)
    (hdistribute : Combinations.distribute siblings (some classes) = .ok combinations) :
    ∃ combination graph, combinations = ⟨[combination]⟩ ∧
      Combined env nodes combination graph := by
  cases hall with
  | nil =>
    cases hdistribute
    exact ⟨⟨[], some classes⟩, classes, rfl, rfl, hbase, .nil⟩
  | cons hone hrest =>
    obtain ⟨a, graph, rfl, hgraph_eq, hgraph, hpart⟩ := hone
    have hfirst : Combined env [_] ⟨[a], a.graph⟩ graph := ⟨hgraph_eq, hgraph, .cons hpart .nil⟩
    exact productAll_of_one hfirst hrest hdistribute

/-! ### Requiring types to be equal -/

section Equate

variable {classes : Classes} {type function : Ty} {others : List Ty}

variable (hgraph : FirstOrderGraph classes)
include hgraph

theorem equateAlternately_entails {first second : Ty} (hfirst : first.FirstOrder)
    (hsecond : second.FirstOrder) (hothers : ∀ t ∈ others, t.FirstOrder)
    (hrun : equateAlternately first second others classes context state = (.ok next, after)) :
    FirstOrderGraph next ∧ Narrows classes next ∧ Alternate next.Entails first second others := by
  induction others generalizing classes state first second with
  | nil =>
    obtain ⟨rfl, -⟩ := pure_eq_ok hrun
    exact ⟨hgraph, fun _ => id, trivial⟩
  | cons other others ih =>
    rw [forall_mem_cons] at hothers
    obtain ⟨middle, between, hequate, hrest⟩ := bind_eq_ok hrun
    obtain ⟨hequated, rfl⟩ := equate_eq_ok hequate
    obtain ⟨hnarrows, hentails⟩ := hgraph.equated hfirst hothers.1 hequated
    obtain ⟨hnext, hlater, halternate⟩ :=
      ih (.equate hgraph hfirst hothers.1 hequated) hsecond hfirst hothers.2 hrest
    exact ⟨hnext, hnarrows.trans hlater, (hentails.mono hlater).symm, halternate⟩

theorem asFunction_entails {arg : Ty} (hfunction : function.FirstOrder) (harg : arg.FirstOrder)
    (hrun : asFunction function arg classes context state = (.ok (type, next), after)) :
    FirstOrderGraph next ∧ Narrows classes next ∧
      Entails next function (.curried [arg, type]) := by
  obtain ⟨v, middle, -, hrest⟩ := bind_eq_ok hrun
  obtain ⟨made, between, hequate, hdone⟩ := bind_eq_ok hrest
  obtain ⟨hequated, rfl⟩ := equate_eq_ok hequate
  cases hdone
  have hcalled : (Ty.curried [arg, .var v]).FirstOrder :=
    .curried (by simp [harg, Ty.FirstOrder.var])
  obtain ⟨hnarrows, hentails⟩ := hgraph.equated hcalled hfunction hequated
  exact ⟨.equate hgraph hcalled hfunction hequated, hnarrows, hentails.symm⟩

theorem apply_entails {arg : Ty} (hfunction : function.FirstOrder) (harg : arg.FirstOrder)
    (hrun : apply function arg classes context state = (.ok (type, next), after)) :
    FirstOrderGraph next ∧ Narrows classes next ∧ type.FirstOrder ∧
      ∃ result more, Entails next function (.curried (arg :: result :: more)) ∧
        type = Ty.applied result more := by
  have hresolve := hgraph.entails_resolve hfunction
  have hunknown : ∀ {other}, Entails classes function other →
      asFunction other arg classes context state = (.ok (type, next), after) →
        FirstOrderGraph next ∧ Narrows classes next ∧ type.FirstOrder ∧
          ∃ result more, Entails next function (.curried (arg :: result :: more)) ∧
            type = Ty.applied result more := by
    intro other hother hrun
    obtain ⟨hnext, hnarrows, hentails⟩ := asFunction_entails hgraph hother.right harg hrun
    refine ⟨hnext, hnarrows, hentails.right.component (by simp [Ty.components]), type, [], ?_, rfl⟩
    exact (hother.mono hnarrows).trans hentails
  -- only a function that is known to have a parameter and a result is looked into
  rw [apply] at hrun
  generalize classes.resolve function = resolved at hresolve hrun
  cases resolved with
  | var v | parametric name params | union members => exact hunknown hresolve hrun
  | curried params =>
    cases params with
    | nil => exact hunknown hresolve hrun
    | cons param rest =>
      cases rest with
      | nil => exact hunknown hresolve hrun
      | cons result more =>
        obtain ⟨middle, between, hequate, hdone⟩ := bind_eq_ok hrun
        obtain ⟨hequated, rfl⟩ := equate_eq_ok hequate
        rw [remainder_eq] at hdone
        cases hdone
        have hcomponent : ∀ t ∈ param :: result :: more, t.FirstOrder :=
          fun t => hresolve.right.component
        have hparam := hcomponent param (by simp)
        obtain ⟨hnarrows, hentails⟩ := hgraph.equated hparam harg hequated
        refine ⟨.equate hgraph hparam harg hequated, hnarrows, ?_, result, more, ?_, rfl⟩
        · rw [Ty.applied]
          split
          · exact hcomponent result (by simp)
          · exact .curried fun t ht => hcomponent t (.tail _ ht)
        · refine (hresolve.mono hnarrows).trans (Classes.entails_curried (.cons hentails ?_))
          refine forall₂_same.mpr fun t ht => .refl ?_
          exact hcomponent t (.tail _ ht)

end Equate

end TypeSearch.Infer
