import TypeSearch.Source.Span
import TypeSearch.Tree.Kind

/-!
Syntax trees. Expressions, patterns and types each have a type of their own; a file may still hold a
pattern or a type where an expression belongs, so nodes include both.
-/

namespace TypeSearch.Tree

/-- Where a node is. The key tells the nodes of one file apart. -/
structure Site where
  key : Nat
  span : Span
  deriving DecidableEq, Repr, Inhabited

inductive TypeExpr where
  | mk (site : Site) (name : String) (args : List TypeExpr)
  deriving Repr, Inhabited

inductive Literal where
  | number (site : Site) (digits : String)
  | string (site : Site) (text : String)
  | boolean (site : Site) (value : Bool)
  deriving Repr, Inhabited

structure Binder where
  site : Site
  name : String
  type : Option TypeExpr
  deriving Repr, Inhabited

inductive Pattern where
  | identifier (binder : Binder)
  | wildcard (site : Site)
  | literal (site : Site) (value : Literal)
  | tuple (site : Site) (elements : List Pattern)
  /-- Matches lists that start with `elements`; `rest` is bound to what follows them. -/
  | list (site : Site) (elements : List Pattern) (rest : Option Binder)
  | constructor (site : Site) (name : String) (args : List Pattern)
  deriving Repr, Inhabited

inductive Node where
  | literal (value : Literal)
  | identifier (site : Site) (name : String)
  | list (site : Site) (elements : List Node)
  | tuple (site : Site) (elements : List Node)
  | map (site : Site) (entries : List (Node × Node))
  /-- Without an argument, the function is called with none. -/
  | application (site : Site) (function : Node) (argument : Option Node)
  /-- Each branch has parameters and a body; a call may have the shape of any branch. -/
  | abstraction (site : Site) (branches : List (List Pattern × Node))
  | assignment (site : Site) (pattern : Pattern) (value : Node) (exported : Bool)
  | block (site : Site) (statements : List Node)
  /-- Each case has alternative patterns and a body. -/
  | when (site : Site) (subject : Node) (cases : List (List Pattern × Node))
  | conditional (site : Site) (condition yes : Node) (no : Option Node)
  | comprehension (site : Site) (generators : List (Pattern × Node)) (body : Node)
  | access (site : Site) (target : Node) (member : String)
  | annotated (site : Site) (value : Node) (type : TypeExpr)
  /-- Brings in the exports of a file: all, the given names, or as a module with a name. -/
  | importFile (site : Site) (path : String) (names : List String) (moduleName : String)
  | module (site : Site) (name : String) (statements : List Node) (exported : Bool)
  | classType (site : Site) (name : String) (fields : List (String × TypeExpr)) (exported : Bool)
  | enumType (site : Site) (name : String) (variants : List (String × List TypeExpr))
      (exported : Bool)
  | pattern (p : Pattern)
  | type (t : TypeExpr)
  deriving Repr, Inhabited

structure Program where
  path : String
  span : Span
  statements : List Node
  deriving Repr, Inhabited

namespace TypeExpr

def site : TypeExpr → Site
  | mk site _ _ => site

def name : TypeExpr → String
  | mk _ name _ => name

def args : TypeExpr → List TypeExpr
  | mk _ _ args => args

end TypeExpr

namespace Literal

def site : Literal → Site
  | number site _ | string site _ | boolean site _ => site

def kind : Literal → Kind
  | number _ _ => .number
  | string _ _ => .string
  | boolean _ _ => .boolean

end Literal

namespace Pattern

def site : Pattern → Site
  | identifier binder => binder.site
  | wildcard site | literal site _ | tuple site _ | list site _ _ | constructor site _ _ => site

def kind : Pattern → Kind
  | identifier _ => .identifierPattern
  | wildcard _ => .wildcardPattern
  | literal _ _ => .literalPattern
  | tuple _ _ => .tuplePattern
  | list _ _ _ => .listPattern
  | constructor _ _ _ => .constructorPattern

mutual

def binders : Pattern → List Binder
  | identifier binder => [binder]
  | wildcard _ | literal _ _ => []
  | tuple _ elements => bindersAll elements
  | list _ elements rest => bindersAll elements ++ rest.toList
  | constructor _ _ args => bindersAll args

def bindersAll : List Pattern → List Binder
  | [] => []
  | pattern :: patterns => binders pattern ++ bindersAll patterns

end

end Pattern

namespace Node

def site : Node → Site
  | literal value => value.site
  | identifier site _ | list site _ | tuple site _ | map site _ | application site _ _
  | abstraction site _ | assignment site _ _ _ | block site _ | when site _ _
  | conditional site _ _ _ | comprehension site _ _ | access site _ _ | annotated site _ _
  | importFile site _ _ _ | module site _ _ _ | classType site _ _ _ | enumType site _ _ _ => site
  | pattern p => p.site
  | type t => t.site

def kind : Node → Kind
  | literal value => value.kind
  | identifier _ _ => .identifier
  | list _ _ => .list
  | tuple _ _ => .tuple
  | map _ _ => .map
  | application _ _ _ => .application
  | abstraction _ _ => .abstraction
  | assignment _ _ _ _ => .assignment
  | block _ _ => .block
  | when _ _ _ => .when
  | conditional _ _ _ _ => .conditional
  | comprehension _ _ _ => .comprehension
  | access _ _ _ => .access
  | annotated _ _ _ => .annotated
  | importFile _ _ _ _ => .importFile
  | module _ _ _ _ => .module
  | classType _ _ _ _ => .classType
  | enumType _ _ _ _ => .enumType
  | pattern p => p.kind
  | type _ => .type

end Node

structure Import where
  site : Site
  path : String
  deriving Repr, Inhabited

def Program.imports (program : Program) : List Import :=
  program.statements.filterMap fun
    | .importFile site path _ _ => some ⟨site, path⟩
    | _ => none

end TypeSearch.Tree
