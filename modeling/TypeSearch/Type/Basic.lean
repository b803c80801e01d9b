/-!
Types: a variable, a named type with parameters, a function as a chain of parameters that ends in
its result, or a union of alternatives. Name hints on variables are for printing only, so equality
of types (`Ty.same`) does not look at them.
-/

namespace TypeSearch

abbrev VarId := UInt64

structure Variable where
  id : VarId
  hint : String := ""
  deriving DecidableEq, Repr, Inhabited

inductive Ty where
  | var (v : Variable)
  | parametric (name : String) (params : List Ty)
  | curried (params : List Ty)
  | union (members : List Ty)
  deriving Repr, Inhabited

namespace Ty

def number : Ty := parametric "Number" []

def string : Ty := parametric "String" []

def boolean : Ty := parametric "Boolean" []

/-- The parameter of a function that is declared without parameters. -/
def void : Ty := parametric "Void" []

def list (element : Ty) : Ty := parametric "List" [element]

def map (key value : Ty) : Ty := parametric "Map" [key, value]

def tuple (elements : List Ty) : Ty := parametric "Tuple" elements

def primitiveNames : List String := ["Number", "String", "Boolean", "Void"]

def isUnion : Ty → Bool
  | union _ => true
  | _ => false

mutual

/-- Structural equality up to the hints of variables. -/
def same : Ty → Ty → Bool
  | var v, var w => v.id == w.id
  | parametric name params, parametric name' params' => name == name' && sameAll params params'
  | curried params, curried params' => sameAll params params'
  | union members, union members' => sameAll members members'
  | _, _ => false

def sameAll : List Ty → List Ty → Bool
  | [], [] => true
  | t :: ts, u :: us => same t u && sameAll ts us
  | _, _ => false

end

mutual

def size : Ty → Nat
  | var _ => 1
  | parametric _ params => sizeAll params + 1
  | curried params => sizeAll params + 1
  | union members => sizeAll members + 1

def sizeAll : List Ty → Nat
  | [] => 0
  | t :: ts => size t + sizeAll ts

end

mutual

def occurs (id : VarId) : Ty → Bool
  | var v => v.id == id
  | parametric _ params => occursAny id params
  | curried params => occursAny id params
  | union members => occursAny id members

def occursAny (id : VarId) : List Ty → Bool
  | [] => false
  | t :: ts => occurs id t || occursAny id ts

end

mutual

/-- The variables of a type that are not in `seen` yet, after those of `seen`. -/
def collectVariables (seen : List Variable) : Ty → List Variable
  | var v => if seen.any (·.id == v.id) then seen else seen ++ [v]
  | parametric _ params => collectAll seen params
  | curried params => collectAll seen params
  | union members => collectAll seen members

def collectAll (seen : List Variable) : List Ty → List Variable
  | [] => seen
  | t :: ts => collectAll (collectVariables seen t) ts

end

def freeVariables (t : Ty) : List Variable := collectVariables [] t

/-- A function without parameters has `Void` as its only one; that parameter is not an argument. -/
def dropVoid : List Ty → List Ty
  | first :: second :: rest => if same first void then second :: rest else first :: second :: rest
  | params => params

def arguments (params : List Ty) : List Ty := (dropVoid params).dropLast

def result (params : List Ty) : Ty := params.getLastD void

end Ty

end TypeSearch
