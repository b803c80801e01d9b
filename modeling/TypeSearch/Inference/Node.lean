import TypeSearch.Inference.Declaration
import TypeSearch.Inference.Function
import TypeSearch.Inference.Match
import TypeSearch.Inference.Statement

/-!
Inference of all kinds of nodes, as statements. A declaration where a value is expected has none,
and its names belong to the scope around it.
-/

namespace TypeSearch.Infer

open TypeSearch.Tree (Node Pattern Site)

def asExpression (computation : Infer Answers) : Infer Statement := do
  return { answers := ← computation, isExpression := true }

def answersOf (computation : Infer Statement) : Infer Answers := do
  return (← computation).answers

def isFunction : Node → Bool
  | .abstraction _ _ => true
  | _ => false

mutual

def statement (classes : Classes) : Node → Infer Statement
  | .literal value => return { answers := leaf value.site (literalType value) classes
                               isExpression := true }
  | .identifier site name => asExpression (identifier site name classes)
  | .list site elements => asExpression do
      list site (← allOrLast (← parts classes elements)) classes
  | .tuple site elements => asExpression do
      tuple site (← allOrLast (← parts classes elements)) classes
  | .map site entries => asExpression do
      map site (← allOrLast (← entryParts classes entries)) classes
  | .application site function none => asExpression do
      callAll site (← answersOf (statement classes function))
  | .application site function (some argument) => asExpression do
      let functions ← attempt (answersOf (statement classes function))
      let arguments ← attempt (answersOf (statement classes argument))
      applyAll site (← liftExcept functions) (← liftExcept arguments)
  | .abstraction site branches => asExpression do
      branchesOnto classes site (← locus .abstraction site) none branches
  | .assignment site target value exported => do
    let templates ← assignmentTemplates target exported
    let values ← answersOf (statement classes value)
    assignment site target templates (isFunction value) values
  | .block site statements => asExpression do
      inBlock (← locus .block site) (sequence classes site (leaf site .void classes) statements)
  | .when site subject cases => asExpression do
      let subjects ← answersOf (statement classes subject)
      let result := Ty.var (← fresh "r")
      whenCases site result (← allOrLast (← caseParts classes site subjects result cases)) classes
  | .conditional site condition yes none => asExpression do
      let condition ← attempt (answersOf (statement classes condition))
      let yes ← attempt (answersOf (statement classes yes))
      conditional site (← allOrLast [condition, yes]) classes
  | .conditional site condition yes (some no) => asExpression do
      let condition ← attempt (answersOf (statement classes condition))
      let yes ← attempt (answersOf (statement classes yes))
      let no ← attempt (answersOf (statement classes no))
      conditional site (← allOrLast [condition, yes, no]) classes
  | .comprehension site generators body => asExpression do
      inBlock (← locus .comprehension site) do
        let iterables ← allOrLast (← generatorParts classes generators)
        comprehension site (generators.map (·.1)) iterables
          (fun classes => answersOf (statement classes body)) classes
  | .access site target member => asExpression do
      access site target.site member (← answersOf (statement classes target))
  | .annotated site value type => asExpression do
      let type ← reportingAt type.site (writtenType type)
      annotated site type (← answersOf (statement classes value))
  | .importFile site path names moduleName => do
    importFile site path names moduleName
    return done site classes
  | .module site name statements exported => do
    declareModule name (← locus .module site) exported (units statements)
    return done site classes
  | .classType site name fields exported => do
    declareClass name (← locus .classType site) fields exported
    return done site classes
  | .enumType site name variants exported => do
    declareEnum name (← locus .enumType site) variants exported
    return done site classes
  | .pattern p => halt (.notAnExpression p.kind)
  | .type _ => halt (.notAnExpression .type)

/-- The typings of several nodes. A failure of one does not keep the others from being looked at. -/
def parts (classes : Classes) : List Node → Infer (List (Except Failure Answers))
  | [] => return []
  | node :: nodes => do
    let answers ← attempt (answersOf (statement classes node))
    return answers :: (← parts classes nodes)

def entryParts (classes : Classes) : List (Node × Node) → Infer (List (Except Failure Answers))
  | [] => return []
  | (key, value) :: entries => do
    let keys ← attempt (answersOf (statement classes key))
    let values ← attempt (answersOf (statement classes value))
    return keys :: values :: (← entryParts classes entries)

/-- Adds branches to a function. The block of a branch shares the scope of the body. -/
def branchesOnto (classes : Classes) (site : Site) (function : Tree.Locus)
    (before : Option Answers) : List (List Pattern × Node) → Infer Answers
  | [] => return before.getD {}
  | (params, body) :: rest => do
    let asValue (known : Classes) : Infer Answers := answersOf (statement known body)
    let inferBody (known : Classes) : Infer Answers :=
      match body with
      | .block block statements => sequence known block (leaf block .void known) statements
      | _ => asValue known
    let answers ← branch function site params (← nodeLocus body) inferBody classes
    let merged ← match before with
      | none => pure answers
      | some before => mergeBranches site before answers
    branchesOnto classes site function (some merged) rest

def caseParts (classes : Classes) (site : Site) (subjects : Answers) (result : Ty) :
    List (List Pattern × Node) → Infer (List (Except Failure Answers))
  | [] => return []
  | ([], _) :: cases => caseParts classes site subjects result cases
  | (first :: others, body) :: cases => do
    let answers ← attempt do
      whenCase site subjects result first others (← nodeLocus body) body.site
        (fun known => answersOf (statement known body)) classes
    return answers :: (← caseParts classes site subjects result cases)

/-- The typings of what generators go through; each sees the names of those before it. -/
def generatorParts (classes : Classes) :
    List (Pattern × Node) → Infer (List (Except Failure Answers))
  | [] => return []
  | (target, iterable) :: generators => do
    let answers ← attempt (answersOf (statement classes iterable))
    implicitTemplates target
    return answers :: (← generatorParts classes generators)

/-- The statements of a block, after `before`. A statement knows what those before it have found out
as long as that is a single answer. A failure counts only if the statement is the last one. -/
def sequence (classes : Classes) (block : Site) (before : Answers) : List Node → Infer Answers
  | [] => return before
  | node :: nodes => do
    let known ← knownAfter before classes
    match ← attempt (statement known node) with
    | .error failure =>
      if nodes.isEmpty then throw failure else sequence classes block before nodes
    | .ok result =>
      sequence classes block (← extend block node.site nodes.isEmpty before result) nodes

def units : List Node → Infer Unit
  | [] => return
  | node :: nodes => do
    unit node.site (statement Classes.empty node)
    units nodes

end

end TypeSearch.Infer
