/-!
The kinds of nodes of a syntax tree: their names in files and what messages call them.
-/

namespace TypeSearch.Tree

inductive Kind where
  | number | string | boolean | identifier | list | tuple | map | application | abstraction
  | assignment | block | when | conditional | comprehension | access | annotated | importFile
  | module | classType | enumType
  | identifierPattern | wildcardPattern | literalPattern | tuplePattern | listPattern
  | constructorPattern | type | program
  deriving DecidableEq, Repr, Inhabited

namespace Kind

def all : List Kind :=
  [number, string, boolean, identifier, list, tuple, map, application, abstraction, assignment,
    block, when, conditional, comprehension, access, annotated, importFile, module, classType,
    enumType, identifierPattern, wildcardPattern, literalPattern, tuplePattern, listPattern,
    constructorPattern, type, program]

def name : Kind → String
  | number => "number"
  | string => "string"
  | boolean => "boolean"
  | identifier => "identifier"
  | list => "list"
  | tuple => "tuple"
  | map => "map"
  | application => "application"
  | abstraction => "abstraction"
  | assignment => "assignment"
  | block => "block"
  | when => "when"
  | conditional => "if"
  | comprehension => "for"
  | access => "access"
  | annotated => "annotated"
  | importFile => "import"
  | module => "module"
  | classType => "class"
  | enumType => "enum"
  | identifierPattern => "identifierPattern"
  | wildcardPattern => "wildcardPattern"
  | literalPattern => "literalPattern"
  | tuplePattern => "tuplePattern"
  | listPattern => "listPattern"
  | constructorPattern => "constructorPattern"
  | type => "type"
  | program => "program"

def ofName? (text : String) : Option Kind := all.find? (·.name == text)

def description : Kind → String
  | number => "number literal"
  | string => "string literal"
  | boolean => "boolean literal"
  | identifier => "variable"
  | list => "list literal"
  | tuple => "tuple literal"
  | map => "map literal"
  | application => "function call"
  | abstraction => "function"
  | assignment => "declaration"
  | block => "block"
  | when => "pattern-matching switch"
  | conditional => "if expression"
  | comprehension => "list comprehension"
  | access => "member access"
  | annotated => "type annotation"
  | importFile => "import"
  | module => "module declaration"
  | classType => "class declaration"
  | enumType => "enum declaration"
  | identifierPattern => "variable pattern"
  | wildcardPattern => "discard pattern"
  | literalPattern => "literal pattern"
  | tuplePattern => "tuple pattern"
  | listPattern => "list pattern"
  | constructorPattern => "constructor pattern"
  | type => "type"
  | program => "program"

end Kind

end TypeSearch.Tree
