import TypeSearch.Text.Quote
import TypeSearch.Tree.Basic

/-!
Trees as text that looks like source code. Blocks are indented by two spaces.
-/

namespace TypeSearch.Tree

mutual

def TypeExpr.render : TypeExpr → String
  | .mk _ name [] => name
  | .mk _ name (arg :: args) =>
    name ++ "<" ++ ", ".intercalate (TypeExpr.renderAll (arg :: args)) ++ ">"

def TypeExpr.renderAll : List TypeExpr → List String
  | [] => []
  | type :: types => type.render :: TypeExpr.renderAll types

end

def Literal.render : Literal → String
  | .number _ digits => digits
  | .string _ text => Text.quote text
  | .boolean _ value => if value then "true" else "false"

def Binder.render (binder : Binder) : String :=
  match binder.type with
  | some type => binder.name ++ ": " ++ type.render
  | none => binder.name

mutual

def Pattern.render : Pattern → String
  | .identifier binder => binder.render
  | .wildcard _ => "_"
  | .literal _ value => value.render
  | .tuple _ elements => "(" ++ ", ".intercalate (Pattern.renderAll elements) ++ ")"
  | .list _ elements rest =>
    let names := rest.toList.map fun binder => "..." ++ binder.name
    "[" ++ ", ".intercalate (Pattern.renderAll elements ++ names) ++ "]"
  | .constructor _ name [] => name
  | .constructor _ name (arg :: args) =>
    name ++ "(" ++ ", ".intercalate (Pattern.renderAll (arg :: args)) ++ ")"

def Pattern.renderAll : List Pattern → List String
  | [] => []
  | pattern :: patterns => pattern.render :: Pattern.renderAll patterns

end

def indentation (depth : Nat) : String := String.ofList (List.replicate (2 * depth) ' ')

def braced (depth : Nat) (lines : List String) : String :=
  "\x7b\n" ++ String.join (lines.map fun line => indentation (depth + 1) ++ line ++ "\n") ++
    indentation depth ++ "\x7d"

def exportMark (exported : Bool) : String := if exported then "export " else ""

def renderVariant (variant : String × List TypeExpr) : String :=
  if variant.2.isEmpty then variant.1
  else variant.1 ++ "(" ++ ", ".intercalate (TypeExpr.renderAll variant.2) ++ ")"

namespace Node

mutual

def renderAt (depth : Nat) : Node → String
  | literal value => value.render
  | identifier _ name => name
  | list _ elements => "[" ++ ", ".intercalate (renderAll depth elements) ++ "]"
  | tuple _ elements => "(" ++ ", ".intercalate (renderAll depth elements) ++ ")"
  | map _ entries => "\x7b" ++ ", ".intercalate (renderEntries depth entries) ++ "\x7d"
  | application _ function none => renderAt depth function ++ "()"
  | application _ function (some argument) =>
    renderAt depth function ++ "(" ++ renderAt depth argument ++ ")"
  | abstraction _ branches => " | ".intercalate (renderBranches depth branches)
  | assignment _ target value exported =>
    exportMark exported ++ target.render ++ " = " ++ renderAt depth value
  | block _ statements => braced depth (renderAll (depth + 1) statements)
  | when _ subject cases =>
    "when " ++ renderAt depth subject ++ " " ++ braced depth (renderCases (depth + 1) cases)
  | conditional _ condition yes none =>
    "if " ++ renderAt depth condition ++ " then " ++ renderAt depth yes
  | conditional _ condition yes (some no) =>
    "if " ++ renderAt depth condition ++ " then " ++ renderAt depth yes ++ " else " ++
      renderAt depth no
  | comprehension _ generators body =>
    "for " ++ ", ".intercalate (renderGenerators depth generators) ++ " -> " ++
      renderAt depth body
  | access _ target member => renderAt depth target ++ "." ++ member
  | annotated _ value t => renderAt depth value ++ ": " ++ t.render
  | importFile _ path names moduleName =>
    "import " ++ Text.quote path ++ (if moduleName.isEmpty then "" else " as " ++ moduleName) ++
      (if names.isEmpty then "" else " (" ++ ", ".intercalate names ++ ")")
  | module _ name statements exported =>
    exportMark exported ++ "module " ++ name ++ " " ++
      braced depth (renderAll (depth + 1) statements)
  | classType _ name fields exported =>
    exportMark exported ++ "class " ++ name ++ "(" ++
      ", ".intercalate (fields.map fun (field, t) => field ++ ": " ++ t.render) ++ ")"
  | enumType _ name variants exported =>
    exportMark exported ++ "enum " ++ name ++ " \x7b " ++
      ", ".intercalate (variants.map renderVariant) ++ " \x7d"
  | pattern p => p.render
  | type t => t.render

def renderAll (depth : Nat) : List Node → List String
  | [] => []
  | node :: nodes => renderAt depth node :: renderAll depth nodes

def renderEntries (depth : Nat) : List (Node × Node) → List String
  | [] => []
  | (key, value) :: entries =>
    (renderAt depth key ++ ": " ++ renderAt depth value) :: renderEntries depth entries

def renderBranches (depth : Nat) : List (List Pattern × Node) → List String
  | [] => []
  | (params, body) :: branches =>
    ("fn(" ++ ", ".intercalate (Pattern.renderAll params) ++ ") -> " ++ renderAt depth body) ::
      renderBranches depth branches

def renderCases (depth : Nat) : List (List Pattern × Node) → List String
  | [] => []
  | (patterns, body) :: cases =>
    (" | ".intercalate (Pattern.renderAll patterns) ++ " -> " ++ renderAt depth body) ::
      renderCases depth cases

def renderGenerators (depth : Nat) : List (Pattern × Node) → List String
  | [] => []
  | (p, iterable) :: generators =>
    (p.render ++ " in " ++ renderAt depth iterable) :: renderGenerators depth generators

end

def render (node : Node) : String := renderAt 0 node

end Node

def Program.render (program : Program) : String :=
  braced 0 (Node.renderAll 1 program.statements)

end TypeSearch.Tree
