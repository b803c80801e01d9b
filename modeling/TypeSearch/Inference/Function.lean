import TypeSearch.Inference.Expression

/-!
Functions. Each branch is typed by itself; branches whose types unify have one type, the others make
a union of function types.
-/

namespace TypeSearch.Infer

open TypeSearch.Tree (Pattern Site)

/-- The types of the parameters of a branch. If one of them fails, the branch still has a body. -/
def params (body : Tree.Locus) : List Pattern → Classes → Infer (List Typed × Classes)
  | [], classes => return ([], classes)
  | param :: rest, classes => do
    match ← attempt (pattern classes param) with
    | .error failure =>
      bindPending
      modifyTable (·.enterBlock body)
      tryTable (·.leaveBlock)
      failAt param.site failure
    | .ok (child, classes) =>
      let (children, classes) ← params body rest classes
      return (child :: children, classes)

def inBody (body : Tree.Locus) (computation : Infer Answers) : Infer Answers := do
  modifyTable (·.enterBlock body)
  let answers ← attempt computation
  bindPending
  tryTable (·.leaveBlock)
  bindPending
  match answers with
  | .ok answers => return answers
  | .error failure => throw failure

/-- A branch of a function; a branch without parameters takes nothing. -/
def branch (function : Tree.Locus) (site : Site) (patterns : List Pattern) (body : Tree.Locus)
    (inferBody : Classes → Infer Answers) (classes : Classes) : Infer Answers :=
  inAbstraction function do
    patterns.forM implicitTemplates
    let (children, classes) ← params body patterns classes
    let types := if children.isEmpty then [.void] else children.map (·.type)
    let answers ← inBody body (inferBody classes)
    reportingAt site do
      answers.map fun a => do
        let type ← liftM (Ty.function (types ++ [a.type]) : Outcome Failure Ty)
        return answer site type (children ++ [a.node]) a.classes

def mergeBranches (site : Site) (first second : Answers) : Infer Answers :=
  reportingAt site do
    first.merge second fun a b classes => do
      let children := a.node.children ++ b.node.children
      match ← attempt (unify classes a.type b.type) with
      | .ok (unified, classes) => return answer site unified children classes
      | .error _ => return answer site (Ty.unionOf [a.type, b.type]) children classes

end TypeSearch.Infer
