import TypeSearch.Inference.Pattern

/-!
Typings of expressions from the typings of their parts.
-/

namespace TypeSearch.Infer

open TypeSearch.Tree (Site)

def leaf (site : Site) (type : Ty) (classes : Classes) : Answers :=
  .single (.mk site.key type []) type (some classes)

def answer (site : Site) (type : Ty) (children : List Typed) (classes : Classes) :
    Answer Typed :=
  ⟨.mk site.key type children, type, some classes⟩

/-- The parts of a node, if all have a typing; otherwise the last of their failures. -/
def allOrLast (parts : List (Except Failure Answers)) : Infer (List Answers) := do
  let failures := parts.filterMap fun
    | .error failure => some failure
    | .ok _ => none
  match failures.getLast? with
  | some failure => throw failure
  | none => return parts.filterMap (·.toOption)

def combine (site : Site) (parts : List Answers) (classes : Classes)
    (make : Combination Typed → Infer (Answer Typed)) : Infer Answers :=
  reportingAt site do
    let combinations ← liftM (Combinations.distribute parts (some classes))
    combinations.collect make

/-- A name with a union type has one answer for each member of the union, so that each use can be
checked by itself. -/
def identifier (site : Site) (name : String) (classes : Classes) : Infer Answers := do
  match (← table).resolve name with
  | none => failAt site (.issue (← issueAt site (.missing name "")))
  | some binding =>
    let type ← instantiate binding.type binding.quantified
    match type, binding.isPending with
    | .union members, false =>
      liftM (Disjunction.ofAnswers (members.map fun member => answer site member [] classes))
    | type, _ => return leaf site type classes

def equateAll (type : Ty) : List Ty → Classes → Infer Classes
  | [], classes => return classes
  | other :: others, classes => do equateAll type others (← equate classes type other)

def equateAlternately (first second : Ty) : List Ty → Classes → Infer Classes
  | [], classes => return classes
  | type :: types, classes => do
    equateAlternately second first types (← equate classes first type)

def list (site : Site) (elements : List Answers) (classes : Classes) : Infer Answers :=
  reportingAt site do
    let combinations ← liftM (Combinations.distribute elements (some classes))
    let element := Ty.var (← fresh "e")
    combinations.collect fun combination => do
      let classes ← equateAll element combination.types combination.classes
      return answer site (.list element) combination.nodes classes

def tuple (site : Site) (elements : List Answers) (classes : Classes) : Infer Answers :=
  combine site elements classes fun combination =>
    return answer site (.tuple combination.types) combination.nodes combination.classes

def map (site : Site) (entries : List Answers) (classes : Classes) : Infer Answers :=
  reportingAt site do
    let combinations ← liftM (Combinations.distribute entries (some classes))
    let key := Ty.var (← fresh "k")
    let value := Ty.var (← fresh "v")
    combinations.collect fun combination => do
      let classes ← equateAlternately key value combination.types combination.classes
      return answer site (.map key value) combination.nodes classes

def asFunction (function arg : Ty) (classes : Classes) : Infer (Ty × Classes) := do
  let result := Ty.var (← fresh "r")
  let classes ← equate classes (.curried [arg, result]) function
  return (result, classes)

def call (function : Ty) (classes : Classes) : Infer (Ty × Classes) := do
  match classes.resolve function with
  | .curried [result] => return (result, classes)
  | .curried [param, result] =>
    if param.same .void then return (result, classes)
    else asFunction (.curried [param, result]) .void classes
  | other => asFunction other .void classes

/-- What is left of a function that was given its first argument. -/
def remainder (result : Ty) (params : List Ty) : Outcome Failure Ty :=
  if params.isEmpty then .ok result else Ty.function (result :: params)

/-- The type of a call with one argument; further parameters are left to later calls. -/
def apply (function arg : Ty) (classes : Classes) : Infer (Ty × Classes) := do
  match classes.resolve function with
  | .curried (param :: result :: params) =>
    let classes ← equate classes param arg
    return (← liftM (remainder result params), classes)
  | other => asFunction other arg classes

def callAll (site : Site) (functions : Answers) : Infer Answers :=
  reportingAt site do
    functions.map fun f => do
      let (result, classes) ← call f.type f.classes
      return answer site result [f.node] classes

def applyAll (site : Site) (functions args : Answers) : Infer Answers :=
  reportingAt site do
    functions.merge args fun f a classes => do
      let (result, classes) ← apply f.type a.type classes
      return answer site result [f.node, a.node] classes

def access (site targetSite : Site) (member : String) (targets : Answers) : Infer Answers :=
  reportingAt site do
    targets.map fun a => do
      match ← liftM (a.reduced : Outcome Failure Ty) with
      | .parametric name args =>
        let owner := Ty.parametric name args
        match (← table).resolveType name |>.bind (·.member? member args) with
        | none => throwAt site (.missing member owner.text)
        | some found =>
          let type ← instantiate found.type found.quantified
          return answer site type [a.node] a.classes
      | other => throwAt targetSite (.indeterminate [other])

def annotated (site : Site) (type : Ty) (values : Answers) : Infer Answers :=
  reportingAt site do
    values.map fun a => do
      let (unified, classes) ← unify a.classes type a.type
      return answer site unified [a.node] classes

/-- A condition with one or two branches. With one, it has no value. -/
def conditional (site : Site) (parts : List Answers) (classes : Classes) : Infer Answers :=
  combine site parts classes fun combination => do
    match combination.types with
    | [condition, yes, no] =>
      let classes ← equate combination.classes .boolean condition
      let (unified, classes) ← unify classes yes no
      return answer site unified combination.nodes classes
    | types =>
      let classes ← equate combination.classes .boolean (types.headD .void)
      return answer site .void combination.nodes classes

end TypeSearch.Infer
