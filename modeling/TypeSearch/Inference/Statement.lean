import TypeSearch.Inference.Expression

/-!
Statements: assignments, the statements of a block one after the other, and top-level statements,
which are units that are settled by themselves.
-/

namespace TypeSearch

structure Statement where
  answers : Answers
  templates : List Template := []
  isExpression : Bool := false
  generalizes : Bool := false
  deriving Inhabited

namespace Infer

open TypeSearch.Tree (Pattern Site)

def done (site : Site) (classes : Classes) : Statement := { answers := leaf site .void classes }

def assignmentTemplates (target : Pattern) (exported : Bool) : Infer (List Template) := do
  if exported then modifyTable (·.markNext { exported := true })
  templates target

def assign (target : Pattern) (templates : List Template) (value : Answer Typed) :
    Infer (Typed × Classes) := do
  match target, templates with
  | .identifier ⟨site, _, none⟩, [template] =>
    let type := Ty.var template.var
    return (.mk site.key type [], ← equate value.classes type value.type)
  | _, _ =>
    let (child, classes) ← pattern value.classes target
    return (child, ← equate classes child.type value.type)

def assignment (site : Site) (target : Pattern) (templates : List Template) (isFunction : Bool)
    (values : Answers) : Infer Statement := do
  let answers ← reportingAt site do
    values.map fun a => do
      let (child, classes) ← assign target templates a
      return answer site .void [child, a.node] classes
  return { answers, templates, generalizes := isFunction }

/-- The answers of a block after one more statement. Only the last one can be its value. -/
def extend (block : Site) (stmt : Site) (isLast : Bool) (before : Answers)
    (statement : Statement) : Infer Answers :=
  reportingAt stmt do
    before.merge statement.answers fun s a classes =>
      let type := if isLast && statement.isExpression then a.type else .void
      return answer block type (s.node.children ++ [a.node]) classes

def unionOver {ε : Type} (answers : Answers) (type : Ty) : Outcome ε Ty := do
  if answers.answers.isEmpty then return type
  else Ty.anyOf (← answers.answers.mapM fun a => a.classes.reduce type)

def freeInScope (table : Table) : List VarId :=
  table.visible.flatMap fun binding =>
    (binding.type.freeVariables.map (·.id)).filter fun id => !binding.quantified.contains id

def settleTemplate (answers : Answers) (generalizes : Bool) (template : Template) :
    Infer Unit := do
  let type ← liftM (unionOver answers (.var template.var) : Outcome Failure Ty)
  modifyTable fun table =>
    table.bind template type (if generalizes then type.generalize (freeInScope table) else [])

def checkDeterminate (site : Site) (answers : Answers) : Infer Unit := do
  let types ← liftM (answers.answers.mapM (·.reduced) : Outcome Failure (List Ty))
  let distinct := BucketSet.ofList Ty.hashing types
  if 1 < distinct.size then report (← issueAt site (.indeterminate distinct.toList))

/-- Writes down the type of a node. A node that has a type gets the union of both. -/
def recordEntry {ε : Type} (classes : Classes) (types : Std.HashMap Nat Ty) (entry : Nat × Ty) :
    Outcome ε (Std.HashMap Nat Ty) := do
  let reduced ← classes.reduce entry.2
  let type := match types[entry.1]? with
    | some existing => Ty.unionOf [existing, reduced]
    | none => reduced
  return types.insert entry.1 type

def recordAnswer (a : Answer Typed) : Infer Unit := do
  let types ← liftM (a.node.entries.foldlM (recordEntry a.classes) (← state).types :
    Outcome Failure _)
  modify fun state => { state with types }

def repeatedly {ε : Type} (f : Ty → Outcome ε Ty) : Nat → Ty → Outcome ε Ty
  | 0, type => .ok type
  | count + 1, type => do repeatedly f count (← f type)

/-- Settles the types of the bindings of all scopes from `first` on, each once for every such scope
that lists it. -/
def settleScopes {ε : Type} (table : Table) (first : Scope.Id) (f : Ty → Outcome ε Ty) :
    Outcome ε Table := do
  let opened := table.scopes.toList.drop first
  let listings (binding : Binding) : Nat :=
    opened.countP fun scope => scope.bindings.any fun other =>
      other.name == binding.name && other.scope == binding.scope
  let settled ← opened.mapM fun scope => do
    let bindings ← scope.bindings.mapM fun binding => do
      return { binding with type := ← repeatedly f (listings binding) binding.type }
    return { scope with bindings }
  return { table with scopes := (table.scopes.toList.take first ++ settled).toArray }

/-- Settles all that a unit, which opened the scopes from `first` on, has found out. -/
def settleUnit (site : Site) (first : Scope.Id) (statement : Statement) : Infer Unit := do
  let answers := statement.answers
  statement.templates.forM (settleTemplate answers statement.generalizes)
  (← table).currentScope.templates.forM (settleTemplate answers false)
  if statement.isExpression then checkDeterminate site answers
  answers.answers.forM recordAnswer
  let settled ← liftM (settleScopes (← table) first (unionOver answers) : Outcome Failure Table)
  modifyTable fun _ => settled

def unit (site : Site) (statement : Infer Statement) : Infer Unit := do
  let first := (← table).size
  match ← attempt statement with
  | .ok statement => settleUnit site first statement
  | .error _ => bindPending

end Infer

end TypeSearch
