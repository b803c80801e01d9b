import TypeSearch.Issue.Basic
import TypeSearch.Outcome
import TypeSearch.Scope.Basic
import TypeSearch.Tree.Basic

/-!
Tables: all scopes of a file, and which of them are open. Scopes are never removed, so that a scope
can still be looked at after it is left.
-/

namespace TypeSearch

structure Table where
  file : String
  scopes : Array Scope
  current : Scope.Id := 0
  enclosing : List Scope.Id := []
  prelude : List Binding
  /-- The first declaration of each type of the file. -/
  declared : List (String × Declaration) := []
  /-- What the next names to be bound are marked as. -/
  next : Flags := {}
  deriving Repr, Inhabited

namespace Table

def ofFile (file : String) (node : Option Tree.Locus) (prelude : List Binding) : Table :=
  { file
    scopes := #[{ id := 0, kind := .file, node }]
    prelude := prelude.map fun binding => { binding with scope := none } }

def size (table : Table) : Nat := table.scopes.size

def depth (table : Table) : Nat := table.enclosing.length + 1

def scopeAt (table : Table) (id : Scope.Id) : Scope := table.scopes.getD id default

def currentScope (table : Table) : Scope := table.scopeAt table.current

def root (table : Table) : Scope := table.scopeAt 0

def modifyScope (table : Table) (id : Scope.Id) (f : Scope → Scope) : Table :=
  { table with scopes := table.scopes.modify id f }

def modifyCurrent (table : Table) (f : Scope → Scope) : Table := table.modifyScope table.current f

/-! Entering and leaving scopes. -/

def enter (table : Table) (kind : Scope.Kind) (node : Option Tree.Locus) : Table :=
  let id := table.size
  let nested := table.modifyCurrent fun scope => { scope with children := scope.children ++ [id] }
  { nested with
    scopes := nested.scopes.push { id, kind, parent := some table.current, node }
    current := id
    enclosing := table.current :: table.enclosing }

/-- A block right inside the parameters of a function is the body of the function. -/
def enterBlock (table : Table) (node : Option Tree.Locus) : Table :=
  table.enter (if table.currentScope.kind = .abstraction then .body else .block) node

def enterAbstraction (table : Table) (node : Option Tree.Locus) : Table :=
  table.enter .abstraction node

def enterModule (table : Table) (node : Option Tree.Locus) : Table := table.enter .module node

def leave (table : Table) (kinds : List Scope.Kind) : Except Halt Table :=
  let scope := table.currentScope
  if scope.kind ∉ kinds then .error (.leavingOther scope.kind scope.id kinds)
  else if scope.parent.isNone then .error .leavingRoot
  else
    match table.enclosing with
    | [] => .error .noCurrentScope
    | outer :: rest => .ok { table with current := outer, enclosing := rest }

def leaveBlock (table : Table) : Except Halt Table := table.leave [.block, .body]

def leaveModule (table : Table) : Except Halt Table := table.leave [.module]

/-- Makes the scope `inner` a part of the scope `id`. Its bindings then belong to the latter, and
closed scopes go on listing them. -/
def mergeInto (table : Table) (id inner : Scope.Id) : Table :=
  let body := table.scopeAt inner
  let merged := table.modifyScope id (·.absorb body)
  let adopt (table : Table) (child : Scope.Id) : Table :=
    table.modifyScope child fun scope => { scope with parent := some id }
  let adopted := body.children.foldl adopt merged
  let closed := adopted.modifyScope inner fun scope =>
    { scope with children := [], mergedInto := some id }
  { closed with
    scopes := closed.scopes.map fun scope =>
      if scope.mergedInto.isSome then scope.handOver inner id else scope }

/-- Merges the only scope nested in a function's scope, its body, into it. -/
def mergeBody (table : Table) (id : Scope.Id) : Except Halt Table :=
  let scope := table.scopeAt id
  match scope.children.filter fun child => (table.scopeAt child).mergedInto.isNone with
  | [body] => .ok (table.mergeInto id body)
  | nested => .error (.mergingNested scope.kind scope.id nested.length)

def leaveAbstraction (table : Table) : Except Halt Table := do
  let left ← table.leave [.abstraction]
  left.mergeBody table.current

/-! Looking up names. -/

def outwardFrom (table : Table) : (steps : Nat) → (id : Option Scope.Id) → List Scope
  | 0, _ => []
  | _, none => []
  | steps + 1, some id =>
    let scope := table.scopeAt id
    scope :: table.outwardFrom steps scope.parent

def outward (table : Table) : List Scope := table.outwardFrom table.size (some table.current)

def resolveAmong (table : Table) (count : Nat) (name : String) : Option Binding :=
  (table.outward.take count).findSome? (·.lookup? name)

def builtIn? (name : String) : Option Binding :=
  if Ty.primitiveNames.contains name then
    some { name, type := .parametric "Type" [.parametric name []], scope := none }
  else none

/-- Looks for a name from the current scope outwards, then among the names known everywhere. -/
def resolve (table : Table) (name : String) : Option Binding :=
  (table.resolveAmong table.size name).or
    ((table.prelude.reverse.find? (·.name == name)).or (builtIn? name))

/-- Looks for a type from the current scope outwards, then among all types of the file. -/
def resolveType (table : Table) (name : String) : Option Declaration :=
  (table.outward.findSome? (·.type? name)).or (table.declared.lookup name)

def visible (table : Table) : List Binding := table.outward.flatMap (·.bindings)

/-! Declaring names. -/

def issueAt (table : Table) (node : Option Tree.Locus) (cause : Issue.Cause) : Issue :=
  ⟨table.file, node.map (·.place), cause⟩

/-- A body shares its names with the parameters of its function. -/
def ownScopes (table : Table) : Nat := if table.currentScope.kind = .body then 2 else 1

def duplicate? (table : Table) (name : String) (node : Option Tree.Locus) : Option Issue :=
  (table.resolveAmong table.ownScopes name).map fun existing =>
    table.issueAt node (.duplicate name (existing.node.map (·.place.span)))

def canExport (table : Table) : Bool := table.currentScope.kind.canExport

def markNext (table : Table) (flags : Flags) : Table := { table with next := table.next.or flags }

def addTemplate (table : Table) (marks : Flags) (binder : Tree.Binder) (fresher : Fresher) :
    Option Template × List Issue × Table × Fresher :=
  let node : Tree.Locus := ⟨.identifierPattern, table.file, binder.site.span⟩
  match table.duplicate? binder.name node with
  | some issue => (none, [issue], table, fresher)
  | none =>
    let issues :=
      if marks.exported && !table.canExport then
        [table.issueAt node (.exportOutside binder.name)]
      else []
    let (var, fresher) := fresher.fresh binder.name
    let flags : Flags :=
      { exported := marks.exported && table.canExport, implicit := marks.implicit }
    let template : Template := { name := binder.name, var, flags, node := some node }
    (some template, issues,
      table.modifyCurrent fun scope => { scope with templates := scope.templates ++ [template] },
      fresher)

def addTemplates (table : Table) (marks : Flags) :
    List Tree.Binder → Fresher → List Template × List Issue × Table × Fresher
  | [], fresher => ([], [], table, fresher)
  | binder :: binders, fresher =>
    let (template, issues, table, fresher) := table.addTemplate marks binder fresher
    let (templates, later, table, fresher) := table.addTemplates marks binders fresher
    (template.toList ++ templates, issues ++ later, table, fresher)

/-- Templates in the current scope for all names of a pattern, with the marks of the next names. -/
def templates (table : Table) (pattern : Tree.Pattern) (fresher : Fresher) :
    List Template × List Issue × Table × Fresher :=
  { table with next := {} }.addTemplates table.next pattern.binders fresher

def bind (table : Table) (template : Template) (type : Ty) (quantified : List VarId) : Table :=
  table.modifyCurrent (·.add (template.settled type quantified))

/-- Adds a binding to the current scope, with the marks of the next names. Gives the binding as it
was added. -/
def declare (table : Table) (binding : Binding) : Option Issue × Binding × Table :=
  let marked := { binding with flags := binding.flags.or table.next }
  let table := { table with next := {} }
  match table.duplicate? binding.name binding.node with
  | some issue => (some issue, binding, table)
  | none =>
    let isOutside := marked.flags.exported && !table.canExport
    let own :=
      { marked with
        flags := { marked.flags with exported := marked.flags.exported && table.canExport }
        scope := some table.current }
    (if isOutside then some (table.issueAt binding.node (.exportOutside binding.name)) else none,
      own, table.modifyCurrent (·.add own))

/-- Adds a type to the current scope. Gives the declaration as it was added. -/
def declareType (table : Table) (declaration : Declaration) :
    Option Issue × Declaration × Table :=
  let name := declaration.name
  if (table.currentScope.type? name).isSome then
    (some (table.issueAt declaration.node (.duplicate name none)), declaration, table)
  else if declaration.flags.exported && !table.canExport then
    let own := { declaration with flags := { declaration.flags with exported := false } }
    (some (table.issueAt declaration.node (.exportOutside name)), own,
      table.modifyCurrent (·.addType own))
  else
    let added := table.modifyCurrent (·.addType declaration)
    let declared :=
      if (table.declared.lookup name).isSome then table.declared
      else table.declared ++ [(name, declaration)]
    (none, declaration, { added with declared })

/-- Completes a type of the current scope, which may be the first of that name in the file. -/
def setMembers (table : Table) (name : String) (members : List Member) (isFirst : Bool) : Table :=
  let changed := table.modifyCurrent (·.setMembers name members)
  let complete (entry : String × Declaration) : String × Declaration :=
    if isFirst && entry.1 == name then (entry.1, { entry.2 with members }) else entry
  { changed with declared := changed.declared.map complete }

def checkImport (table : Table) (path : String) (node : Option Tree.Locus) : Option Issue :=
  if table.currentScope.kind = .file then none
  else some (table.issueAt node (.importOutside path))

end Table

end TypeSearch
