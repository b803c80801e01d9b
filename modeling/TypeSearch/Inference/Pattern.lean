import TypeSearch.Inference.TypeExpr

/-!
The types of the values that a pattern matches. The names that it binds are checked against their
templates in the current scope.
-/

namespace TypeSearch.Infer

open TypeSearch.Tree (Binder Literal Pattern Site)

/-- The type of a name of the current scope. A name that could not be declared may have any type. -/
def nameType (name : String) : Infer Ty := do
  let table ← table
  match table.currentScope.template? name with
  | some template => return .var template.var
  | none =>
    match table.resolveAmong 1 name with
    | some binding => return binding.type
    | none => return .var (← fresh name)

def literalType : Literal → Ty
  | .number _ _ => .number
  | .string _ _ => .string
  | .boolean _ _ => .boolean

def binder (binder : Binder) (classes : Classes) : Infer (Typed × Classes) := do
  let type ← nameType binder.name
  match binder.type with
  | none => return (.mk binder.site.key type [], classes)
  | some written =>
    let annotated ← writtenType written
    let (unified, classes) ← unify classes type annotated
    return (.mk binder.site.key unified [], classes)

def wrongArguments {α : Type} (params : List Ty) (count : Nat) : Infer α := do
  let args ← freshAll (List.replicate count "_")
  let actual ← liftM (Ty.function (args.map .var ++ [Ty.result params]) : Outcome Failure Ty)
  throw (.mismatch
    { expected := .curried params, actual, trace := []
      reason := "wrong number of arguments in pattern" })

mutual

def pattern (classes : Classes) : Pattern → Infer (Typed × Classes)
  | .identifier name => binder name classes
  | .wildcard site => do return (.mk site.key (.var (← fresh "_")) [], classes)
  | .literal site value =>
    let type := literalType value
    return (.mk site.key type [.mk value.site.key type []], classes)
  | .tuple site elements => do
    let (children, classes) ← patterns classes elements
    return (.mk site.key (.tuple (children.map (·.type))) children, classes)
  | .list site elements rest => do
    let element := Ty.var (← fresh "e")
    let (children, classes) ← patternsOf element classes elements
    match rest with
    | none => return (.mk site.key (.list element) children, classes)
    | some name =>
      let (child, classes) ← binder name classes
      let classes ← equate classes (.list element) child.type
      return (.mk site.key (.list element) (children ++ [child]), classes)
  | .constructor site name args => do
    match (← table).resolve name with
    | none => throwAt site (.missing name "")
    | some binding =>
      match ← instantiate binding.type binding.quantified with
      | .curried params =>
        if (Ty.arguments params).length = args.length then
          let (children, classes) ← patternsAs (Ty.arguments params) classes args
          return (.mk site.key (Ty.result params) children, classes)
        else wrongArguments params args.length
      | value =>
        if args.isEmpty then return (.mk site.key value [], classes)
        else wrongArguments [.void, value] args.length

def patterns (classes : Classes) : List Pattern → Infer (List Typed × Classes)
  | [] => return ([], classes)
  | first :: rest => do
    let (child, classes) ← pattern classes first
    let (children, classes) ← patterns classes rest
    return (child :: children, classes)

def patternsOf (type : Ty) (classes : Classes) : List Pattern → Infer (List Typed × Classes)
  | [] => return ([], classes)
  | first :: rest => do
    let (child, classes) ← pattern classes first
    let classes ← equate classes type child.type
    let (children, classes) ← patternsOf type classes rest
    return (child :: children, classes)

def patternsAs (types : List Ty) (classes : Classes) : List Pattern → Infer (List Typed × Classes)
  | [] => return ([], classes)
  | first :: rest => do
    let (child, classes) ← pattern classes first
    let classes ← equate classes (types.headD .void) child.type
    let (children, classes) ← patternsAs types.tail classes rest
    return (child :: children, classes)

end

end TypeSearch.Infer
