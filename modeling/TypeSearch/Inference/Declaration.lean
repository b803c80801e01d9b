import TypeSearch.Inference.TypeExpr

/-!
Declarations of classes, enums and modules, and imports.
-/

namespace TypeSearch.Infer

open TypeSearch.Tree (Site TypeExpr)

def declare (binding : Binding) : Infer Unit := do
  let (issue, _, table) := (← table).declare binding
  modifyTable fun _ => table
  issue.forM report

def declareType (declaration : Declaration) : Infer Unit := do
  let (issue, _, table) := (← table).declareType declaration
  modifyTable fun _ => table
  issue.forM report

def declaredType (name : String) (node : Tree.Locus) (exported : Bool) (types : List TypeExpr) :
    Infer (Declaration × TypeNames) := do
  let names := typeVariables types
  let params ← freshAll names
  return ({ name, params, flags := { exported }, node := some node }, names.zip params)

/-- The types of fields. A field without a valid type may have any. -/
def fieldTypes (names : TypeNames) : List TypeExpr → Infer (List Ty)
  | [] => return []
  | written :: rest => do
    let type ← match ← attempt (reportingAt written.site (typeExpr names written)) with
      | .ok (type, _) => pure type
      | .error _ => do pure (.var (← fresh "_"))
    return type :: (← fieldTypes names rest)

def constructorType (fields : List Ty) (result : Ty) : Outcome Failure Ty :=
  Ty.function (if fields.isEmpty then [.void, result] else fields ++ [result])

/-- The type of a class and a constructor that takes all fields. Fields may have the type itself. -/
def declareClass (name : String) (node : Tree.Locus) (fields : List (String × TypeExpr))
    (exported : Bool) : Infer Unit := do
  let written := fields.map (·.2)
  let (declaration, names) ← declaredType name node exported written
  let before ← table
  let isNew := (before.currentScope.type? name).isNone
  let isFirst := (before.declared.lookup name).isNone
  declareType declaration
  let types ← fieldTypes names written
  let members := (fields.zip types).map fun ((name, _), type) => { name, type : Member }
  if isNew then modifyTable (·.setMembers name members isFirst)
  declare
    { name, type := ← liftM (constructorType types declaration.type)
      quantified := declaration.params.map (·.id), flags := { exported }, node := some node }

def declareEnum (name : String) (node : Tree.Locus) (variants : List (String × List TypeExpr))
    (exported : Bool) : Infer Unit := do
  let (declaration, names) ← declaredType name node exported (variants.flatMap (·.2))
  declareType declaration
  variants.forM fun (variant, fields) => do
    let type ←
      if fields.isEmpty then pure declaration.type
      else do liftM (constructorType (← fieldTypes names fields) declaration.type)
    declare
      { name := variant, type, quantified := declaration.params.map (·.id)
        flags := { exported }, node := some node }

def moduleType (name : String) (node : Tree.Locus) (flags : Flags) (bindings : List Binding) :
    Declaration :=
  { name, flags, node := some node
    members := bindings.map fun b =>
      { name := b.name, type := b.type, quantified := b.quantified } }

/-- A module is a value whose members are what it exports. -/
def declareModule (name : String) (node : Tree.Locus) (exported : Bool)
    (statements : Infer Unit) : Infer Unit := do
  modifyTable (·.enterModule node)
  statements
  let inside := (← table).current
  tryTable (·.leaveModule)
  let exports := ((← table).scopeAt inside).bindings.filter (·.flags.exported)
  let declaration := moduleType name node { exported } exports
  declareType declaration
  declare { name, type := declaration.type, flags := { exported }, node := some node }

def dependency? (site : Site) : Infer (Option TypedFile) := do
  let context ← context
  let paths := context.program.imports.zip context.dependencies
  return (paths.find? fun (i, _) => i.site.key == site.key).bind fun (_, path) =>
    context.files.find? (·.path == path)

def declareImported (node : Tree.Locus) (binding : Binding) : Infer Unit :=
  declare
    { name := binding.name, type := binding.type, quantified := binding.quantified
      flags := { imported := true }, node := some node }

/-- Brings in the types of a file and its exports: all, those called `names`, or as the module
`moduleName`. -/
def importFrom (file : TypedFile) (site : Site) (node : Tree.Locus) (path : String)
    (names : List String) (moduleName : String) : Infer Unit := do
  file.exportedTypes.forM fun declaration =>
    declareType { declaration with flags := { imported := true } }
  if !moduleName.isEmpty then
    let declaration := moduleType moduleName node { imported := true } file.exports
    declareType declaration
    declare
      { name := moduleName, type := declaration.type, flags := { imported := true }
        node := some node }
  else if names.isEmpty then file.exports.forM (declareImported node)
  else
    names.forM fun name => do
      match file.exports.find? (·.name == name) with
      | some binding => declareImported node binding
      | none => report (← issueAt site (.missing name path))

def importFile (site : Site) (path : String) (names : List String) (moduleName : String) :
    Infer Unit := do
  let node ← locus .importFile site
  match (← table).checkImport path node with
  | some issue => report issue
  | none =>
    match ← dependency? site with
    | some file => importFrom file site node path names moduleName
    | none => report (← issueAt site (.unknownDependency path))

end TypeSearch.Infer
