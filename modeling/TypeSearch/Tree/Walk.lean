import TypeSearch.Tree.Basic

/-!
The nodes of a tree in the order in which they are written, each before what it holds. The types
that a node holds come before its other parts.
-/

namespace TypeSearch.Tree

mutual

def TypeExpr.walk : TypeExpr → List Node
  | .mk site name args => .type (.mk site name args) :: TypeExpr.walkAll args

def TypeExpr.walkAll : List TypeExpr → List Node
  | [] => []
  | type :: types => type.walk ++ TypeExpr.walkAll types

end

def Binder.walk (binder : Binder) : List Node :=
  .pattern (.identifier binder) :: (binder.type.map TypeExpr.walk).getD []

mutual

def Pattern.walk : Pattern → List Node
  | .identifier binder => binder.walk
  | .wildcard site => [.pattern (.wildcard site)]
  | .literal site value => [.pattern (.literal site value), .literal value]
  | .tuple site elements => .pattern (.tuple site elements) :: Pattern.walkAll elements
  | .list site elements rest =>
    .pattern (.list site elements rest) ::
      (Pattern.walkAll elements ++ (rest.map Binder.walk).getD [])
  | .constructor site name args =>
    .pattern (.constructor site name args) :: Pattern.walkAll args

def Pattern.walkAll : List Pattern → List Node
  | [] => []
  | pattern :: patterns => pattern.walk ++ Pattern.walkAll patterns

end

namespace Node

mutual

def walk : Node → List Node
  | literal value => [literal value]
  | identifier site name => [identifier site name]
  | list site elements => list site elements :: walkAll elements
  | tuple site elements => tuple site elements :: walkAll elements
  | map site entries => map site entries :: walkEntries entries
  | application site function none => application site function none :: walk function
  | application site function (some argument) =>
    application site function (some argument) :: (walk function ++ walk argument)
  | abstraction site branches => abstraction site branches :: walkClauses branches
  | assignment site target value exported =>
    assignment site target value exported :: (target.walk ++ walk value)
  | block site statements => block site statements :: walkAll statements
  | when site subject cases => when site subject cases :: (walk subject ++ walkClauses cases)
  | conditional site condition yes none =>
    conditional site condition yes none :: (walk condition ++ walk yes)
  | conditional site condition yes (some no) =>
    conditional site condition yes (some no) :: (walk condition ++ walk yes ++ walk no)
  | comprehension site generators body =>
    comprehension site generators body :: (walkGenerators generators ++ walk body)
  | access site target member => access site target member :: walk target
  | annotated site value t => annotated site value t :: (t.walk ++ walk value)
  | importFile site path names moduleName => [importFile site path names moduleName]
  | module site name statements exported =>
    module site name statements exported :: walkAll statements
  | classType site name fields exported =>
    classType site name fields exported :: TypeExpr.walkAll (fields.map (·.2))
  | enumType site name variants exported =>
    enumType site name variants exported :: TypeExpr.walkAll (variants.flatMap (·.2))
  | pattern p => p.walk
  | type t => t.walk

def walkAll : List Node → List Node
  | [] => []
  | node :: nodes => walk node ++ walkAll nodes

def walkEntries : List (Node × Node) → List Node
  | [] => []
  | (key, value) :: entries => walk key ++ walk value ++ walkEntries entries

def walkClauses : List (List Pattern × Node) → List Node
  | [] => []
  | (patterns, body) :: clauses => Pattern.walkAll patterns ++ walk body ++ walkClauses clauses

def walkGenerators : List (Pattern × Node) → List Node
  | [] => []
  | (target, iterable) :: generators => target.walk ++ walk iterable ++ walkGenerators generators

end

def isType : Node → Bool
  | type _ => true
  | _ => false

end Node

def Program.walk (program : Program) : List Node := Node.walkAll program.statements

end TypeSearch.Tree
