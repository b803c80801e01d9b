import TypeSearch.Source.Lines
import TypeSearch.Text.Quote
import TypeSearch.Tree.Basic
import TypeSearch.Yaml.Record

/-!
Syntax trees out of YAML trees. A node is a mapping with a `kind` and the fields of that kind; a
bare scalar is a literal or a name. A node is where its YAML node starts, unless it has a `pos` of
its own.
-/

namespace TypeSearch.Tree

open Yaml (Record)

/-- A tree that is no syntax tree. There is no message for a node that does not fit its field. -/
structure DecodeError where
  path : String
  line : Nat
  column : Nat
  message : Option String
  deriving Repr, Inhabited

def DecodeError.text? (error : DecodeError) : Option String :=
  error.message.map fun message =>
    error.path ++ ":" ++ error.line.repr ++ ":" ++ error.column.repr ++ ": " ++ message

structure Fields where
  kind : String
  pos : Option (List Int)
  name : String
  value : Option Yaml.Node
  elements : List Yaml.Node
  entries : List (Option Yaml.Node × Option Yaml.Node)
  function : Option Yaml.Node
  argument : Option Yaml.Node
  branches : List (List Yaml.Node × Option Yaml.Node)
  params : List Yaml.Node
  body : Option Yaml.Node
  pattern : Option Yaml.Node
  exported : Bool
  statements : List Yaml.Node
  subject : Option Yaml.Node
  cases : List (List Yaml.Node × Option Yaml.Node)
  condition : Option Yaml.Node
  yes : Option Yaml.Node
  no : Option Yaml.Node
  generators : List (Option Yaml.Node × Option Yaml.Node)
  target : Option Yaml.Node
  member : String
  type : Option Yaml.Node
  declared : Option Yaml.Node
  args : List Yaml.Node
  path : String
  names : List String
  moduleName : String
  fields : List Yaml.Node
  variants : List (String × List Yaml.Node)
  rest : Option Yaml.Node
  literal : Option Yaml.Node

namespace Fields

def schema : Yaml.Schema :=
  let pair (first second : String) : Yaml.Shape := .record [(first, .node), (second, .node)]
  let clause (list : String) : Yaml.Shape := .record [(list, .list .node), ("body", .node)]
  [ ("kind", .text), ("pos", .list .int), ("name", .text), ("value", .node),
    ("elements", .list .node), ("entries", .list (pair "key" "value")), ("function", .node),
    ("argument", .node), ("branches", .list (clause "params")), ("params", .list .node),
    ("body", .node), ("pattern", .node), ("exported", .flag), ("statements", .list .node),
    ("subject", .node), ("cases", .list (clause "patterns")), ("condition", .node),
    ("then", .node), ("else", .node), ("generators", .list (pair "pattern" "iterable")),
    ("target", .node), ("member", .text), ("type", .node), ("annotation", .node),
    ("args", .list .node), ("path", .text), ("names", .list .text), ("alias", .text),
    ("fields", .list .node),
    ("variants", .list (.record [("name", .text), ("fields", .list .node)])),
    ("rest", .node), ("literal", .node) ]

def ofRecord (record : Record) : Fields :=
  let pairs (list first second : String) : List (Option Yaml.Node × Option Yaml.Node) :=
    (record.records list).map fun item => (item.node? first, item.node? second)
  let clauses (list items : String) : List (List Yaml.Node × Option Yaml.Node) :=
    (record.records list).map fun item => (item.nodes items, item.node? "body")
  { kind := record.text "kind"
    pos := record.ints? "pos"
    name := record.text "name"
    value := record.node? "value"
    elements := record.nodes "elements"
    entries := pairs "entries" "key" "value"
    function := record.node? "function"
    argument := record.node? "argument"
    branches := clauses "branches" "params"
    params := record.nodes "params"
    body := record.node? "body"
    pattern := record.node? "pattern"
    exported := record.flag "exported"
    statements := record.nodes "statements"
    subject := record.node? "subject"
    cases := clauses "cases" "patterns"
    condition := record.node? "condition"
    yes := record.node? "then"
    no := record.node? "else"
    generators := pairs "generators" "pattern" "iterable"
    target := record.node? "target"
    member := record.text "member"
    type := record.node? "type"
    declared := record.node? "annotation"
    args := record.nodes "args"
    path := record.text "path"
    names := record.texts "names"
    moduleName := record.text "alias"
    fields := record.nodes "fields"
    variants := (record.records "variants").map fun item => (item.text "name", item.nodes "fields")
    rest := record.node? "rest"
    literal := record.node? "literal" }

end Fields

structure Origin where
  path : String
  lines : Lines
  document : Yaml.Document

/-- Decoding counts the nodes that it has made. -/
abbrev Decode (α : Type) := StateT Nat (Except DecodeError) α

namespace Origin

/-- The offset of a YAML node: columns count as bytes of the line. -/
def offset (origin : Origin) (node : Yaml.Node) : Nat :=
  min (origin.lines.startOf (min node.line origin.lines.count) + (node.column - 1))
    origin.lines.size

/-- Where a YAML node is: scalars are as long as their text. -/
def spanOf (origin : Origin) (node : Yaml.Node) : Span :=
  let start := origin.offset node
  match node with
  | .scalar _ _ text => ⟨start, min (start + text.utf8ByteSize) origin.lines.size⟩
  | _ => ⟨start, start⟩

def fail {α : Type} (origin : Origin) (node : Option Yaml.Node) (message : String) : Decode α :=
  throw
    { path := origin.path
      line := (node.map (·.line)).getD 0
      column := (node.map (·.column)).getD 0
      message := some message }

/-- Reads the fields of a node. If that is refused, it is an error at the node. -/
def record (origin : Origin) (schema : Yaml.Schema) (node : Yaml.Node) : Decode Record :=
  match Record.ofNode origin.document schema node with
  | .ok record => return record
  | .error _ =>
    throw { path := origin.path, line := node.line, column := node.column, message := none }

def fields (origin : Origin) (node : Yaml.Node) : Decode Fields := do
  return Fields.ofRecord (← origin.record Fields.schema node)

def site (_ : Origin) (span : Span) : Decode Site := do
  let key ← get
  set (key + 1)
  return ⟨key, span⟩

/-- A range that a file gives itself must lie in the file. -/
def explicitSpan? (origin : Origin) : List Int → Option Span
  | [start, stop] =>
    if 0 ≤ start ∧ start ≤ stop ∧ stop ≤ origin.lines.size then some ⟨start, stop⟩ else none
  | _ => none

def span (origin : Origin) (node : Yaml.Node) (fields : Fields) : Decode Span :=
  match fields.pos with
  | none => return origin.spanOf node
  | some pos =>
    match origin.explicitSpan? pos with
    | some span => return span
    | none =>
      origin.fail node ("invalid pos [" ++ " ".intercalate (pos.map toString) ++ "]")

end Origin

def present? : Option Yaml.Node → Option Yaml.Node
  | some node => if node.isNull then none else some node
  | none => none

def boolean? (text : String) : Option Bool :=
  if ["1", "t", "T", "TRUE", "true", "True"].contains text then some true
  else if ["0", "f", "F", "FALSE", "false", "False"].contains text then some false
  else none

/-- A bare scalar is a literal, or a name if it is text. -/
def decodeScalar (origin : Origin) (node : Yaml.Node) (tag text : String) : Decode Node := do
  let span := origin.spanOf node
  match tag with
  | "!!int" | "!!float" => return .literal (.number (← origin.site span) text)
  | "!!bool" =>
    match boolean? text with
    | some value => return .literal (.boolean (← origin.site span) value)
    | none => origin.fail node ("invalid boolean " ++ Text.quote text)
  | "!!str" => return .identifier (← origin.site span) text
  | _ => origin.fail node ("unexpected scalar " ++ Text.quote text)

def decodeFields (origin : Origin) (node : Yaml.Node) : Decode (Fields × Kind × Span) := do
  match node with
  | .mapping _ _ =>
    let fields ← origin.fields node
    match Kind.ofName? fields.kind with
    | none => origin.fail node ("unknown node kind '" ++ fields.kind ++ "'")
    | some kind => return (fields, kind, ← origin.span node fields)
  | _ => origin.fail node "expected a node mapping"

def typeWithin (origin : Origin) : (depth : Nat) → Option Yaml.Node → Decode TypeExpr
  | 0, node => origin.fail node "missing type"
  | depth + 1, node => do
    match present? node with
    | none => origin.fail node "missing type"
    | some present =>
      match present with
      | .scalar _ _ text => return .mk (← origin.site (origin.spanOf present)) text []
      | _ =>
        let fields ← origin.fields present
        if fields.kind ≠ "" ∧ fields.kind ≠ "type" then
          origin.fail node ("expected a type, found " ++ fields.kind)
        else
          let span ← origin.span present fields
          let args ← fields.args.mapM fun arg => typeWithin origin depth (some arg)
          return .mk (← origin.site span) fields.name args

def required (origin : Origin) (read : Yaml.Node → Decode Node) (parent : Yaml.Node)
    (node : Option Yaml.Node) (field : String) : Decode Node :=
  match present? node with
  | some node => read node
  | none => origin.fail parent ("missing required field '" ++ field ++ "'")

def optional (read : Yaml.Node → Decode Node) (node : Option Yaml.Node) : Decode (Option Node) :=
  match present? node with
  | some node => do return some (← read node)
  | none => return none

def decodeField (origin : Origin) (depth : Nat) (node : Yaml.Node) :
    Decode (String × TypeExpr) := do
  let record ← origin.record [("name", .text), ("type", .node)] node
  return (record.text "name", ← typeWithin origin depth (record.node? "type"))

mutual

def patternWithin (origin : Origin) : (depth : Nat) → Option Yaml.Node → Decode Pattern
  | 0, node => origin.fail node "missing pattern"
  | depth + 1, node => do
    let patterns (nodes : List Yaml.Node) : Decode (List Pattern) :=
      nodes.mapM fun node => patternWithin origin depth (some node)
    match present? node with
    | none => origin.fail node "missing pattern"
    | some present =>
      match present with
      | .scalar _ "!!str" text =>
        let site ← origin.site (origin.spanOf present)
        if text == "_" then return .wildcard site else return .identifier ⟨site, text, none⟩
      | .scalar _ tag text =>
        let site ← origin.site (origin.spanOf present)
        match ← decodeScalar origin present tag text with
        | .literal value => return .literal site value
        | _ => origin.fail present "missing pattern"
      | _ =>
        let (fields, kind, span) ← decodeFields origin present
        match kind with
        | .identifierPattern =>
          let type ← match present? fields.declared with
            | some type => do
              pure (some (← typeWithin origin depth (some type)))
            | none => pure none
          return .identifier ⟨← origin.site span, fields.name, type⟩
        | .wildcardPattern => return .wildcard (← origin.site span)
        | .literalPattern =>
          match ← required origin (nodeWithin origin depth) present fields.literal
              "literal" with
          | .literal value => return .literal (← origin.site span) value
          | other => origin.fail present (other.kind.description ++ " is not a literal")
        | .tuplePattern =>
          let elements ← patterns fields.elements
          return .tuple (← origin.site span) elements
        | .listPattern =>
          let elements ← patterns fields.elements
          let rest ← match present? fields.rest with
            | none => pure none
            | some rest => do
              match ← patternWithin origin depth (some rest) with
              | .identifier binder => pure (some binder)
              | _ => origin.fail rest "rest of a list pattern must be a variable"
          return .list (← origin.site span) elements rest
        | .constructorPattern =>
          let args ← patterns fields.args
          return .constructor (← origin.site span) fields.name args
        | kind => origin.fail present (kind.name ++ " is not a pattern")

def nodeWithin (origin : Origin) : (depth : Nat) → Yaml.Node → Decode Node
  | 0, node => origin.fail node "expected a node mapping"
  | depth + 1, node => do
    let read := nodeWithin origin depth
    let pattern := patternWithin origin depth
    let required := required origin read node
    let clauses (list : List (List Yaml.Node × Option Yaml.Node)) :
        Decode (List (List Pattern × Node)) :=
      list.mapM fun (nodes, body) => do
        let patterns ← nodes.mapM fun node => pattern (some node)
        return (patterns, ← required body "body")
    match node with
    | .scalar _ tag text => decodeScalar origin node tag text
    | _ =>
      let (fields, kind, span) ← decodeFields origin node
      let valueText := (fields.value.map Yaml.Node.text).getD ""
      match kind with
      | .number => return .literal (.number (← origin.site span) valueText)
      | .string => return .literal (.string (← origin.site span) valueText)
      | .boolean =>
        match boolean? valueText with
        | some value => return .literal (.boolean (← origin.site span) value)
        | none => origin.fail node ("invalid boolean " ++ Text.quote valueText)
      | .identifier => return .identifier (← origin.site span) fields.name
      | .list => return .list (← origin.site span) (← fields.elements.mapM read)
      | .tuple => return .tuple (← origin.site span) (← fields.elements.mapM read)
      | .map =>
        let site ← origin.site span
        let entries ← fields.entries.mapM fun (key, value) => do
          return (← required key "key", ← required value "value")
        return .map site entries
      | .application =>
        let site ← origin.site span
        let function ← required fields.function "function"
        return .application site function (← optional read fields.argument)
      | .abstraction =>
        let site ← origin.site span
        let branches :=
          if fields.branches.isEmpty then [(fields.params, fields.body)] else fields.branches
        return .abstraction site (← clauses branches)
      | .assignment =>
        let site ← origin.site span
        let target ← pattern fields.pattern
        return .assignment site target (← required fields.value "value") fields.exported
      | .block => return .block (← origin.site span) (← fields.statements.mapM read)
      | .when =>
        let site ← origin.site span
        let subject ← required fields.subject "subject"
        let cases ← fields.cases.mapM fun (nodes, body) => do
          let patterns ← nodes.mapM fun node => pattern (some node)
          if patterns.isEmpty then
            origin.fail node "when case must have at least one pattern"
          else return (patterns, ← required body "body")
        return .when site subject cases
      | .conditional =>
        let site ← origin.site span
        let condition ← required fields.condition "condition"
        let yes ← required fields.yes "then"
        return .conditional site condition yes (← optional read fields.no)
      | .comprehension =>
        let site ← origin.site span
        let generators ← fields.generators.mapM fun (target, iterable) => do
          return (← pattern target, ← required iterable "iterable")
        return .comprehension site generators (← required fields.body "body")
      | .access =>
        let site ← origin.site span
        return .access site (← required fields.target "target") fields.member
      | .annotated =>
        let site ← origin.site span
        let value ← required fields.value "value"
        return .annotated site value (← typeWithin origin depth fields.type)
      | .importFile =>
        if fields.path.isEmpty then origin.fail node "import must have a path"
        else
          let site ← origin.site span
          return .importFile site fields.path fields.names fields.moduleName
      | .module =>
        let site ← origin.site span
        return .module site fields.name (← fields.statements.mapM read) fields.exported
      | .classType =>
        let site ← origin.site span
        let members ← fields.fields.mapM (decodeField origin depth)
        return .classType site fields.name members fields.exported
      | .enumType =>
        let site ← origin.site span
        let variants ← fields.variants.mapM fun (name, types) => do
          return (name, ← types.mapM fun type => typeWithin origin depth (some type))
        return .enumType site fields.name variants fields.exported
      | .type => return .type (← typeWithin origin depth (some node))
      | _ => return .pattern (← pattern (some node))

end

def decodeRoot (origin : Origin) : Decode (List Node) := do
  let root := origin.document.root
  match root with
  | .mapping _ _ =>
    let fields ← origin.fields root
    fields.statements.mapM (nodeWithin origin (2 * origin.document.size + 2))
  | _ => origin.fail root "file must be a mapping with a 'statements' key"

inductive ReadError where
  | malformed
  | invalid (error : DecodeError)
  deriving Repr, Inhabited

/-- The program in a text. A text without a document is an empty program. -/
def Program.ofText (path text : String) : Except ReadError Program := do
  let lines := Lines.ofText text
  let span : Span := ⟨0, lines.size⟩
  match Yaml.Document.ofText text with
  | .error _ => throw .malformed
  | .ok none => return { path, span, statements := [] }
  | .ok (some document) =>
    match (decodeRoot { path, lines, document }).run 0 with
    | .ok (statements, _) => return { path, span, statements }
    | .error error => throw (.invalid error)

end TypeSearch.Tree
