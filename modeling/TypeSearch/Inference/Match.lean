import TypeSearch.Inference.Expression

/-!
Matching: the cases of a `when` and the generators of a comprehension.
-/

namespace TypeSearch.Infer

open TypeSearch.Tree (Pattern Site)

/-- A name that one of two patterns binds and the other does not: of those that only the first
binds, or else only the second, the least one. -/
def unsharedName? (first second : Pattern) : Option String :=
  let names (p : Pattern) : List String := p.binders.map (·.name)
  let only (p q : Pattern) : List String := (names p).filter fun name => !(names q).contains name
  let missing := if (only first second).isEmpty then only second first else only first second
  (missing.mergeSort (· ≤ ·)).head?

def checkAlternatives (first : Pattern) (others : List Pattern) : Infer Unit := do
  let issues := others.filterMap fun other =>
    (unsharedName? first other).map fun name => (other.site, name)
  issues.forM fun (site, name) => do report (← issueAt site (.alternative name))
  if !issues.isEmpty then throw .reported

/-- The alternatives that can match a subject, and the last failure of the others. -/
def alternatives (site : Site) (result : Ty) (subject : Answer Typed) :
    List Pattern → (cause : Failure) → Infer (List (Answer Typed) × Failure)
  | [], cause => return ([], cause)
  | alternative :: rest, cause => do
    let matched ← attempt do
      let (child, classes) ← pattern subject.classes alternative
      let classes ← equate classes subject.type child.type
      return (child, classes)
    match matched with
    | .error failure => alternatives site result subject rest failure
    | .ok (child, classes) =>
      let (answers, cause) ← alternatives site result subject rest cause
      return (⟨.mk site.key result [subject.node, child], child.type, some classes⟩ :: answers,
        cause)

/-- Every alternative that can match the subject is a way into the body of a case. -/
def matchSubject (site : Site) (patterns : List Pattern) (result : Ty) (subjects : Answers) :
    Infer Answers :=
  subjects.flatMap fun subject => do
    let (answers, cause) ← alternatives site result subject patterns (.noTyping none 0)
    if answers.isEmpty then throw cause else liftM (Disjunction.ofAnswers answers)

/-- What is known when a computation goes on after answers: what the only one knows. -/
def knownAfter (answers : Answers) (classes : Classes) : Infer Classes := do
  if answers.size = 1 then return (← liftM (answers.first : Outcome Failure _)).classes
  else return classes

def whenCase (site : Site) (subjects : Answers) (result : Ty) (first : Pattern)
    (others : List Pattern) (body : Tree.Locus) (bodySite : Site)
    (inferBody : Classes → Infer Answers) (classes : Classes) : Infer Answers :=
  inBlock body do
    discard (templates first)
    checkAlternatives first others
    let matched ← reportingAt first.site (matchSubject site (first :: others) result subjects)
    let bodies ← inferBody (← knownAfter matched classes)
    reportingAt bodySite do
      matched.merge bodies fun p b classes => do
        let classes ← equate classes result b.type
        return answer site result (p.node.children ++ [b.node]) classes

def whenCases (site : Site) (result : Ty) (cases : List Answers) (classes : Classes) :
    Infer Answers :=
  combine site cases classes fun combination =>
    return answer site result combination.nodes combination.classes

def bindGenerators : List Pattern → List Ty → Classes → Infer (List Typed × Classes)
  | target :: targets, iterable :: iterables, classes => do
    let element := Ty.var (← fresh "e")
    let classes ← equate classes (.list element) iterable
    let (child, classes) ← pattern classes target
    let classes ← equate classes element child.type
    let (children, classes) ← bindGenerators targets iterables classes
    return (child :: children, classes)
  | _, _, classes => return ([], classes)

def comprehension (site : Site) (targets : List Pattern) (iterables : List Answers)
    (inferBody : Classes → Infer Answers) (classes : Classes) : Infer Answers := do
  let generators ← combine site iterables classes fun combination => do
    let (children, classes) ← bindGenerators targets combination.types combination.classes
    return answer site .void children classes
  let bodies ← inferBody classes
  reportingAt site do
    generators.merge bodies fun g b classes =>
      return answer site (.list b.type) (g.node.children ++ [b.node]) classes

end TypeSearch.Infer
