import TypeSearch.Inference.Basic
import TypeSearch.Text.Lowercase

/-!
The types that written types stand for. A name that starts with a small letter is a variable; it is
the same one wherever it occurs in a declaration.
-/

namespace TypeSearch

open TypeSearch.Tree (TypeExpr)

abbrev TypeNames := List (String × Variable)

def isTypeVariable (name : String) : Bool := (name.toList.head?.map Text.isLowercase).getD false

mutual

def typeVariablesOnto (seen : List String) : TypeExpr → List String
  | .mk _ name args =>
    typeVariablesOntoAll
      (if isTypeVariable name && !seen.contains name then seen ++ [name] else seen) args

def typeVariablesOntoAll (seen : List String) : List TypeExpr → List String
  | [] => seen
  | type :: types => typeVariablesOntoAll (typeVariablesOnto seen type) types

end

def typeVariables (types : List TypeExpr) : List String := typeVariablesOntoAll [] types

namespace Infer

/-- The type called `name` is written with `count` arguments, which does not fit `expected`. -/
def arityMismatch {α : Type} (site : Tree.Site) (name : String) (expected : Ty) (count : Nat) :
    Infer α := do
  let args ← freshAll (List.replicate count "_")
  throwAt site (.mismatch
    { expected, actual := .parametric name (args.map .var), trace := []
      reason := "wrong number of type arguments" })

def namedType (site : Tree.Site) (name : String) (args : List Ty) : Infer Ty := do
  if Ty.primitiveNames.contains name then
    if args.isEmpty then return .parametric name []
    else arityMismatch site name (.parametric name []) args.length
  else if name == "List" then
    match args with
    | [element] => return .list element
    | _ =>
      let element ← fresh "e"
      arityMismatch site name (.list (.var element)) args.length
  else if name == "Map" then
    match args with
    | [key, value] => return .map key value
    | _ =>
      let key ← fresh "k"
      let value ← fresh "v"
      arityMismatch site name (.map (.var key) (.var value)) args.length
  else if name == "Tuple" then return .tuple args
  else if name == "Function" then
    if args.isEmpty then
      let result ← fresh "r"
      arityMismatch site name (.curried [.var result]) 0
    else liftM (Ty.function args : Outcome Failure Ty)
  else
    match (← table).resolveType name with
    | none => throwAt site (.missing name "")
    | some declaration =>
      if declaration.params.length = args.length then return .parametric name args
      else arityMismatch site name declaration.type args.length

mutual

def typeExpr (names : TypeNames) : TypeExpr → Infer (Ty × TypeNames)
  | .mk site name args => do
    if isTypeVariable name then
      if !args.isEmpty then arityMismatch site name (.parametric name []) args.length
      else
        match names.lookup name with
        | some v => return (.var v, names)
        | none =>
          let v ← fresh name
          return (.var v, (name, v) :: names)
    else
      let (types, names) ← typeExprs names args
      return (← namedType site name types, names)

def typeExprs (names : TypeNames) : List TypeExpr → Infer (List Ty × TypeNames)
  | [] => return ([], names)
  | type :: types => do
    let (first, names) ← typeExpr names type
    let (rest, names) ← typeExprs names types
    return (first :: rest, names)

end

def writtenType (type : TypeExpr) : Infer Ty := do return (← typeExpr [] type).1

end Infer

end TypeSearch
