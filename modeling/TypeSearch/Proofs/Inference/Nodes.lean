import TypeSearch.Proofs.Inference.Declare
import TypeSearch.Proofs.Inference.Unit

/-!
# Inference of nodes goes on

Whatever node is inferred, from whatever state: a typing that is found fits, a failure was reported,
and a halt comes from types, unless a pattern or a type stands where an expression belongs. The
proof goes along the tree; every kind of node is put together from what its parts fulfil.
-/

namespace TypeSearch

open List

namespace Tree.Node

/-- All functions and cases in the tree are formed and, if it is orderly, neither a pattern nor a
type stands in the place of an expression. -/
structure Admits (orderly : Prop) (node : Node) : Prop where
  formed : node.AllFormed
  placed : orderly → ∀ part ∈ node.expressions, ¬part.Misplaced

variable {orderly : Prop} {node other : Node}

theorem Admits.part (hnode : node.Admits orderly) (hpart : other ∈ node.parts) :
    other.Admits orderly where
  formed := (allFormed_iff.mp hnode.formed).2 other hpart
  placed horderly := (forall_mem_expressions.mp (hnode.placed horderly)).2 other hpart

end Tree.Node

namespace Infer

open Inference
open TypeSearch.Tree (Node Pattern Site)

variable {prospect : Prospect} {K P : Prop} {node : Node} {computation : Infer Answers}
  {site : Site} {classes : Classes}

def Stated (prospect : Prospect) (P : Prop) (node : Node) (K : Prop) (result : Statement) : Prop :=
  Typings prospect P node K result.answers

theorem Fulfils.asExpression (hfulfils : Fulfils prospect K (Typings prospect P node) computation) :
    Fulfils prospect K (Stated prospect P node) (asExpression computation) :=
  hfulfils.bind fun _ _ _ hfound => fulfils_pure fun _ hK => hfound.restrict hK

theorem Fulfils.answersOf {computation : Infer Statement}
    (hfulfils : Fulfils prospect K (Stated prospect P node) computation) :
    Fulfils prospect K (Typings prospect P node) (answersOf computation) :=
  hfulfils.bind fun _ _ _ hfound => fulfils_pure fun _ hK => hfound.restrict hK

theorem stated_done (hclasses : P → classes.Proper)
    (hcovered : K → ∀ type, node.Shows prospect.typed (.mk site.key type [])) :
    Stated prospect P node K (done site classes) :=
  fit_leaf (fun _ => Ty.proper_void) hclasses fun hK => hcovered hK _

theorem fit_start (hclasses : P → classes.Proper) (block : Site) :
    (leaf block .void classes).Fit P K (ShowsStatements prospect.typed block []) :=
  fit_leaf (fun _ => Ty.proper_void) hclasses fun _ => ⟨rfl, nofun⟩

theorem PartsTried.cons {K' : Prop} {covers : Typed → Prop} {all : List (Typed → Prop)}
    {part : Except Failure Answers} {found : List (Except Failure Answers)}
    (hpart : Attempted K (Disjunction.Fit P K covers) part) (hK : K' → K)
    (hfound : PartsTried P K' all found) : PartsTried P K' (covers :: all) (part :: found) := by
  have hlater : Attempted K' (Disjunction.Fit P K' covers) part :=
    hpart.mono hK fun _ hfit => hfit.restrict hK
  exact Forall₂.cons hlater hfound

theorem Attempted.liftExcept {K' : Prop} {covers : Typed → Prop} {part : Except Failure Answers}
    (hpart : Attempted K (Disjunction.Fit P K covers) part) (hK : K' → K) :
    Fulfils prospect K' (fun K' => Disjunction.Fit P K' covers) (liftExcept part) :=
  fulfils_liftExcept fun _ hlater =>
    hpart.mono (hK ∘ hlater) fun _ hfit => hfit.restrict (hK ∘ hlater)

theorem partsTried_nil : PartsTried P K [] [] := .nil

/-- The inference of the node goes on, whatever is known. -/
def GoesOn (prospect : Prospect) (node : Node) : Prop :=
  ∀ {P K : Prop} {classes : Classes}, (P → classes.Proper) →
    Fulfils prospect K (Stated prospect P node) (statement classes node)

def BodyGoesOn (prospect : Prospect) (node : Node) : Prop :=
  ∀ {P K : Prop} {classes : Classes}, (P → classes.Proper) →
    Fulfils prospect K (Typings prospect P node) (bodyAnswers node classes)

section Lists

variable {nodes : List Node} (hclasses : P → classes.Proper)
include hclasses

theorem fulfils_parts (hall : ∀ node ∈ nodes, GoesOn prospect node) :
    Fulfils prospect K (fun K' => PartsTried P K' (nodes.map (Node.Shows prospect.typed)))
      (parts classes nodes) := by
  induction nodes generalizing K with
  | nil =>
    rw [parts]
    exact fulfils_pure fun _ _ => partsTried_nil
  | cons node nodes ih =>
    rw [forall_mem_cons] at hall
    rw [parts]
    refine (hall.1 hclasses).answersOf.attempt.bind fun _ part _ hpart => ?_
    exact (ih hall.2).bind fun _ found hK hfound =>
      fulfils_pure fun _ hK' => (PartsTried.cons hpart hK hfound).mono hK'

theorem fulfils_compound {make : List Answers → Infer Answers}
    (hall : ∀ part ∈ nodes, GoesOn prospect part)
    (hmake : ∀ {K' : Prop} {found},
      PartsFit P K' (nodes.map (Node.Shows prospect.typed)) found →
        Fulfils prospect K' (Typings prospect P node) (make found)) :
    Fulfils prospect K (Stated prospect P node) (compound classes nodes make) := by
  refine Fulfils.asExpression ?_
  refine (fulfils_parts hclasses hall).bind fun _ tried _ htried => ?_
  exact (fulfils_allOrLast htried).bind fun _ found _ hfound => hmake hfound

/-- `done` are the branches that `before` has typings of. -/
theorem fulfils_branchesOnto {function : Tree.Locus} {branches : List (List Pattern × Node)}
    (hall : ∀ branch ∈ branches, BodyGoesOn prospect branch.2) (done : List (List Pattern × Node))
    (before : Option Answers)
    (hbefore : ∀ answers ∈ before, answers.Fit P K (ShowsBranches prospect.typed site done))
    (hsome : before = none → done = [] ∧ branches ≠ []) :
    Fulfils prospect K
      (fun K' => Disjunction.Fit P K' (ShowsBranches prospect.typed site (done ++ branches)))
      (branchesOnto classes site function before branches) := by
  induction branches generalizing K done before with
  | nil =>
    rw [branchesOnto_nil, append_nil]
    cases before with
    | none => exact absurd rfl (hsome rfl).2
    | some answers => exact fulfils_pure fun _ hK => (hbefore answers rfl).restrict hK
  | cons branch rest ih =>
    rw [forall_mem_cons] at hall
    rw [branchesOnto_cons]
    refine (fulfils_locus _ _).bind fun K₁ locus hK₁ _ => ?_
    refine (fulfils_branch hclasses (fun _ _ hknown => hall.1 hknown)
      (keeps_bodyAnswers branch.2)).bind fun K₂ answers hK₂ hanswers => ?_
    cases before with
    | none =>
      obtain ⟨rfl, -⟩ := hsome rfl
      refine ih hall.2 [branch] (some answers) ?_ nofun
      rintro _ ⟨⟩
      exact hanswers
    | some before =>
      have hdone := (hbefore before rfl).restrict (hK₁ ∘ hK₂)
      refine (fulfils_mergeBranches hdone hanswers).bind fun K₃ merged _ hmerged => ?_
      have hrest := ih hall.2 (done ++ [branch]) (some merged) (K := K₃)
        (by rintro _ ⟨⟩; exact hmerged) nofun
      rwa [append_assoc] at hrest

theorem fulfils_caseParts {subject : Node} {subjects : Answers} {result : Ty}
    {cases : List (List Pattern × Node)} (hsubjects : Typings prospect P subject K subjects)
    (hresult : result.Proper) (hsome : ∀ clause ∈ cases, clause.1 ≠ [])
    (hall : ∀ clause ∈ cases, GoesOn prospect clause.2) :
    Fulfils prospect K (fun K' => PartsTried P K' (cases.map (ShowsCase prospect.typed subject)))
      (caseParts classes site subjects result cases) := by
  induction cases generalizing K with
  | nil =>
    rw [caseParts]
    exact fulfils_pure fun _ _ => partsTried_nil
  | cons clause cases ih =>
    rw [forall_mem_cons] at hsome hall
    obtain ⟨_ | ⟨first, others⟩, body⟩ := clause
    · exact absurd rfl hsome.1
    rw [caseParts]
    have hcase : Fulfils prospect K (fun K' => Disjunction.Fit P K'
        (ShowsCase prospect.typed subject (first :: others, body))) (do
          whenCase site subjects result first others (← nodeLocus body) body.site
            (fun known => answersOf (statement known body)) classes) := by
      refine (fulfils_locus _ _).bind fun _ locus hK _ => ?_
      exact fulfils_whenCase (hsubjects.restrict hK) (fun _ => hresult) hclasses
        fun K known hknown => (hall.1 hknown).answersOf
    refine hcase.attempt.bind fun _ part hK₁ hpart => ?_
    exact (ih (hsubjects.restrict hK₁) hsome.2 hall.2).bind fun _ found hK₂ hfound =>
      fulfils_pure fun _ hK' => (PartsTried.cons hpart hK₂ hfound).mono hK'

theorem fulfils_generatorParts {generators : List (Pattern × Node)}
    (hall : ∀ generator ∈ generators, GoesOn prospect generator.2) :
    Fulfils prospect K
      (fun K' => PartsTried P K' (generators.map fun g => g.2.Shows prospect.typed))
      (generatorParts classes generators) := by
  induction generators generalizing K with
  | nil =>
    rw [generatorParts]
    exact fulfils_pure fun _ _ => partsTried_nil
  | cons generator generators ih =>
    rw [forall_mem_cons] at hall
    rw [generatorParts]
    refine (hall.1 hclasses).answersOf.attempt.bind fun _ part _ hpart => ?_
    refine (fulfils_implicitTemplates generator.1).bind fun _ _ hK₂ _ => ?_
    exact (ih hall.2).bind fun _ found hK₃ hfound => fulfils_pure fun _ hK' =>
      (PartsTried.cons hpart (hK₂ ∘ hK₃) hfound).mono hK'

/-- `done` are the statements that `before` has typings of. A statement that has failed was
reported, so nothing is to be shown after it. -/
theorem fulfils_sequence {block : Site} (done : List Node) {before : Answers}
    (hbefore : before.Fit P K (ShowsStatements prospect.typed block done))
    (hall : ∀ node ∈ nodes, GoesOn prospect node) :
    Fulfils prospect K
      (fun K' => Disjunction.Fit P K' (ShowsStatements prospect.typed block (done ++ nodes)))
      (sequence classes block before nodes) := by
  induction nodes generalizing K done before with
  | nil =>
    rw [sequence, append_nil]
    exact fulfils_pure fun _ hK => hbefore.restrict hK
  | cons node nodes ih =>
    rw [forall_mem_cons] at hall
    rw [sequence, knownAfter_bind]
    refine (hall.1 (proper_known hbefore hclasses)).attempt.bind fun K₁ found hK₁ hfound => ?_
    cases found with
    | error failure =>
      dsimp only
      split
      · exact fulfils_throw hfound
      · have hlost : before.Fit P K₁ (ShowsStatements prospect.typed block (done ++ [node])) :=
          hbefore.mono hK₁ fun hallowed => absurd hallowed hfound.2
        have hrest := ih (done ++ [node]) hlost hall.2
        rwa [append_assoc] at hrest
    | ok result =>
      refine (fulfils_extend (hbefore.restrict hK₁) hfound).bind fun K₂ extended _ hextended => ?_
      have hrest := ih (done ++ [node]) hextended hall.2
      rwa [append_assoc] at hrest

theorem fulfils_block (hall : ∀ node ∈ nodes, GoesOn prospect node) :
    Fulfils prospect K (Typings prospect P (.block site nodes))
      (sequence classes site (leaf site .void classes) nodes) :=
  (fulfils_sequence hclasses [] (fit_start hclasses site) hall).mono fun _ _ _ hfit =>
    hfit.mono id fun _ _ hshows => hshows.block

end Lists

theorem fulfils_units {nodes : List Node} (hall : ∀ node ∈ nodes, GoesOn prospect node) :
    Fulfils prospect K (fun K' _ => K' → ∀ node ∈ nodes, node.Covered prospect.typed)
      (units nodes) := by
  induction nodes generalizing K with
  | nil =>
    rw [units]
    exact fulfils_pure fun _ _ _ => forall_mem_nil _
  | cons node nodes ih =>
    rw [forall_mem_cons] at hall
    rw [units]
    have hstatement : Fulfils prospect K (Stated prospect True node)
        (statement Classes.empty node) := hall.1 fun _ => Classes.proper_empty
    refine (hstatement.unit node.site).bind fun _ _ _ hcovered => ?_
    exact (ih hall.2).mono fun _ _ hK hrest hK' =>
      forall_mem_cons.mpr ⟨hcovered (hK hK'), hrest hK'⟩

theorem goesOn_application {function : Node} {given : Option Node}
    (hfunction : GoesOn prospect function) (hgiven : ∀ argument ∈ given, GoesOn prospect argument) :
    GoesOn prospect (.application site function given) := by
  intro P K classes hclasses
  have hfunctions {K : Prop} : Fulfils prospect K (Typings prospect P function)
      (answersOf (statement classes function)) := (hfunction hclasses).answersOf
  cases given with
  | none =>
    rw [statement]
    exact Fulfils.asExpression (hfunctions.bind fun _ functions _ => fulfils_callAll)
  | some argument =>
    rw [statement]
    refine Fulfils.asExpression ?_
    refine hfunctions.attempt.bind fun K₁ functions _ hfunctions => ?_
    refine (hgiven argument rfl hclasses).answersOf.attempt.bind fun K₂ args hK₂ hargs => ?_
    refine (hfunctions.liftExcept hK₂).bind fun K₃ functions hK₃ hfunctions => ?_
    exact (hargs.liftExcept hK₃).bind fun K₄ args hK₄ => fulfils_applyAll (hfunctions.restrict hK₄)

theorem goesOn_abstraction {branches : List (List Pattern × Node)} (hsome : branches ≠ [])
    (hbodies : ∀ branch ∈ branches, BodyGoesOn prospect branch.2) :
    GoesOn prospect (.abstraction site branches) := by
  intro P K classes hclasses
  rw [statement]
  refine Fulfils.asExpression ((fulfils_locus _ _).bind fun _ function _ _ => ?_)
  refine (fulfils_branchesOnto hclasses hbodies [] none (by rintro _ ⟨⟩) fun _ =>
    ⟨rfl, hsome⟩).mono fun _ _ _ hfit => hfit.mono id fun _ _ hshows => hshows.abstraction

theorem goesOn_when {subject : Node} {cases : List (List Pattern × Node)}
    (hsubject : GoesOn prospect subject) (hsome : ∀ clause ∈ cases, clause.1 ≠ [])
    (hcases : ∀ clause ∈ cases, GoesOn prospect clause.2) :
    GoesOn prospect (.when site subject cases) := by
  intro P K classes hclasses
  rw [statement]
  refine Fulfils.asExpression ?_
  refine (hsubject hclasses).answersOf.bind fun K₁ subjects _ hsubjects => ?_
  refine (fulfils_fresh _).bind fun K₂ v hK₂ _ => ?_
  refine (fulfils_caseParts hclasses (hsubjects.restrict hK₂) (.var v) hsome hcases).bind
    fun _ tried _ htried => ?_
  exact (fulfils_allOrLast htried).bind fun _ found _ hfound =>
    fulfils_whenCases (fun _ => .var v) hfound hclasses

theorem goesOn_comprehension {generators : List (Pattern × Node)} {body : Node}
    (hgenerators : ∀ generator ∈ generators, GoesOn prospect generator.2)
    (hbody : GoesOn prospect body) : GoesOn prospect (.comprehension site generators body) := by
  intro P K classes hclasses
  rw [statement]
  refine Fulfils.asExpression ((fulfils_locus _ _).bind fun _ node _ _ => Fulfils.inBlock ?_ node)
  refine (fulfils_generatorParts hclasses hgenerators).bind fun _ tried _ htried => ?_
  refine (fulfils_allOrLast htried).bind fun _ found _ hfound => ?_
  exact fulfils_comprehension hfound hclasses fun K known hknown => (hbody hknown).answersOf

theorem goesOn_module {name : String} {statements : List Node} {exported : Bool}
    (hall : ∀ node ∈ statements, GoesOn prospect node) :
    GoesOn prospect (.module site name statements exported) := by
  intro P K classes hclasses
  rw [statement]
  refine (fulfils_locus _ _).bind fun _ node _ _ => ?_
  refine ((fulfils_units hall).declareModule (fun _ _ hK hpost => hpost ∘ hK)
    (sure_units statements) name node exported).bind fun _ _ _ hcovered => ?_
  refine fulfils_pure fun _ hK => stated_done hclasses fun hK' type => ?_
  exact .module Typed.marks_self fun node hmem => (hcovered (hK hK') node hmem).mono fun _ => .inr

/-- One statement goes on when its parts do. -/
theorem goesOn_of_parts (hnode : node.Admits prospect.orderly)
    (hall : ∀ part ∈ node.parts, GoesOn prospect part)
    (hbodies : ∀ part ∈ node.parts, BodyGoesOn prospect part) : GoesOn prospect node := by
  intro P K classes hclasses
  cases node with
  | literal value =>
    rw [statement]
    exact fulfils_pure fun _ _ => typings_literal value hclasses
  | identifier site name =>
    rw [statement]
    exact (fulfils_identifier name hclasses).asExpression
  | list site elements =>
    rw [statement_list]
    exact fulfils_compound hclasses hall fun hfound => fulfils_list hfound hclasses
  | tuple site elements =>
    rw [statement_tuple]
    exact fulfils_compound hclasses hall fun hfound => fulfils_tuple hfound hclasses
  | map site entries =>
    rw [statement_map]
    exact fulfils_compound hclasses hall fun hfound => fulfils_map hfound hclasses
  | conditional site condition yes no =>
    rw [statement_conditional]
    exact fulfils_compound hclasses hall fun hfound => fulfils_conditional hfound hclasses
  | application site function given =>
    exact goesOn_application (hall function (.head _)) (fun argument hgiven =>
      hall argument (.tail _ (Option.mem_toList.mpr hgiven))) hclasses
  | abstraction site branches =>
    exact goesOn_abstraction (Node.allFormed_iff.mp hnode.formed).1 (fun branch hbranch =>
      hbodies branch.2 (mem_map_of_mem hbranch)) hclasses
  | assignment site target value exported =>
    rw [statement]
    refine (fulfils_assignmentTemplates target exported).bind fun _ templates _ _ => ?_
    exact (hall value (.head _) hclasses).answersOf.bind fun _ values _ =>
      fulfils_assignment exported templates _
  | block site statements =>
    rw [statement]
    exact Fulfils.asExpression ((fulfils_locus _ _).bind fun _ node _ _ =>
      (fulfils_block hclasses hall).inBlock node)
  | when site subject cases =>
    exact goesOn_when (hall subject (.head _)) (Node.allFormed_iff.mp hnode.formed).1
      (fun clause hclause => hall clause.2 (.tail _ (mem_map_of_mem hclause))) hclasses
  | comprehension site generators body =>
    refine goesOn_comprehension (fun generator hgenerator => ?_) (hall body ?_) hclasses
    · exact hall generator.2 (mem_append_left _ (mem_map_of_mem hgenerator))
    · exact mem_append_right _ (.head _)
  | access site target member =>
    rw [statement]
    exact Fulfils.asExpression ((hall target (.head _) hclasses).answersOf.bind
      fun _ targets _ => fulfils_access _ member)
  | annotated site value type =>
    rw [statement]
    refine Fulfils.asExpression ?_
    refine (fulfils_reportingAt type.site fun _ _ => tries_writtenType type).bind
      fun _ written _ hwritten => ?_
    exact (hall value (.head _) hclasses).answersOf.bind fun _ values _ =>
      fulfils_annotated type hwritten
  | importFile site path names moduleName =>
    rw [statement]
    exact (fulfils_importFile site path names moduleName).bind fun _ _ _ _ =>
      fulfils_pure fun _ _ => stated_done hclasses fun _ _ => .importFile Typed.marks_self
  | module site name statements exported => exact goesOn_module hall hclasses
  | classType site name fields exported =>
    rw [statement]
    exact (fulfils_locus _ _).bind fun _ node _ _ =>
      (fulfils_declareClass name node fields exported).bind fun _ _ _ _ =>
        fulfils_pure fun _ _ => stated_done hclasses fun _ _ => .classType Typed.marks_self
  | enumType site name variants exported =>
    rw [statement]
    exact (fulfils_locus _ _).bind fun _ node _ _ =>
      (fulfils_declareEnum name node variants exported).bind fun _ _ _ _ =>
        fulfils_pure fun _ _ => stated_done hclasses fun _ _ => .enumType Typed.marks_self
  | pattern | type =>
    rw [statement]
    exact fulfils_halt fun horderly =>
      (Node.forall_mem_expressions.mp (hnode.placed horderly)).1 trivial

/-- Every admitted statement goes on, by recursion over the tree. -/
theorem goesOn (node : Node) (hnode : node.Admits prospect.orderly) :
    GoesOn prospect node ∧ BodyGoesOn prospect node := by
  induction node using Node.parts_induction with
  | hnode node ih =>
    have hall : ∀ part ∈ node.parts, GoesOn prospect part :=
      fun part hpart => (ih part hpart (hnode.part hpart)).1
    have hgoes : GoesOn prospect node :=
      goesOn_of_parts hnode hall fun part hpart => (ih part hpart (hnode.part hpart)).2
    refine ⟨hgoes, fun hclasses => ?_⟩
    cases node with
    | block block statements => exact fulfils_block hclasses hall
    | _ => exact (hgoes hclasses).answersOf

theorem fulfils_statement (hclasses : P → classes.Proper) (node : Node)
    (hnode : node.Admits prospect.orderly) :
    Fulfils prospect K (Stated prospect P node) (statement classes node) :=
  (goesOn node hnode).1 hclasses

end Infer

end TypeSearch
