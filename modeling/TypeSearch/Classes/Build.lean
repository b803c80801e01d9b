import TypeSearch.Classes.Basic

/-!
Adding equalities to classes, and building several classes together. When two joined classes both
have a concrete type, the two must unify, and what that teaches about inner variables is added too.
-/

namespace TypeSearch.Classes

def addVariable (classes : Classes) (v : Variable) : Classes :=
  if classes.has v.id then classes
  else
    { cells := classes.cells.insert v.id { member := v, parent := v.id }
      order := classes.order.push v.id
      cached := none }

def setConcrete (classes : Classes) (root : VarId) (t : Ty) : Classes :=
  classes.modify root fun cell => { cell with concrete := some t }

def mentioned (classes : Classes) (t : Ty) : List VarId :=
  (t.freeVariables.filter (classes.has ·.id)).map (classes.root ·.id)

/-- Whether the class `goal` is among `frontier` or mentioned by it through concrete types, where
the classes `seen` are not looked at again. -/
def reaches (classes : Classes) (goal : VarId) : Nat → (frontier seen : List VarId) → Bool
  | 0, _, _ => false
  | rounds + 1, frontier, seen =>
    frontier.contains goal ||
      let next := (frontier.flatMap fun root =>
        ((classes.concrete? root).map classes.mentioned).getD []).eraseDups.filter
          (!seen.contains ·)
      !next.isEmpty && classes.reaches goal rounds next (next ++ seen)

/-- Whether a type mentions the class of `root`, directly or through the concrete types of other
classes. -/
def occursInClass (classes : Classes) (root : VarId) (t : Ty) : Bool :=
  let frontier := (classes.mentioned t).eraseDups
  classes.reaches root (classes.order.size + 1) frontier frontier

def assignConcrete (classes : Classes) (root : VarId) (t : Ty) : Outcome Mismatch Classes :=
  if classes.occursInClass root t then .failed (.infinite (classes.variableAt root) t)
  else .ok (classes.setConcrete root t)

abbrev Meet := VarId → Ty → Ty → Classes → Outcome Mismatch Classes

/-- Makes the root `child` a child of the root `root`, which loses no rank. The concrete type of
`child` is taken away. -/
def link (classes : Classes) (root child : VarId) : Classes :=
  let tied := classes.rank root == classes.rank child
  let classes := classes.modify child fun cell => { cell with parent := root, concrete := none }
  if tied then classes.modify root fun cell => { cell with rank := cell.rank + 1 } else classes

/-- Joins the classes of `id` and `other`. The root of higher rank stays a root; on a tie, that of
`id`. -/
def union (meet : Meet) (classes : Classes) (id : VarId) (other : Variable) :
    Outcome Mismatch Classes :=
  let (left, classes) := (classes.addVariable other).find id
  let (right, classes) := classes.find other.id
  if left = right then .ok classes
  else
    let (root, child) :=
      if classes.rank left < classes.rank right then (right, left) else (left, right)
    let linked := classes.link root child
    match classes.concrete? root, classes.concrete? child with
    | some t, some u => meet root t u linked
    | some t, none => linked.assignConcrete root t
    | none, some u => linked.assignConcrete root u
    | none, none => .ok linked

def assign (meet : Meet) (classes : Classes) (id : VarId) (t : Ty) : Outcome Mismatch Classes :=
  let classes := classes.addVariable ⟨id, ""⟩
  match t with
  | .var v => classes.union meet id v
  | t =>
    let (root, classes) := classes.find id
    match classes.concrete? root with
    | none => classes.assignConcrete root t
    | some existing => meet root existing t classes

def assignAll (meet : Meet) : List (VarId × Ty) → Classes → Outcome Mismatch Classes
  | [], classes => .ok classes
  | (id, t) :: rest, classes => do
    let classes ← classes.assign meet id t
    assignAll meet rest classes

def absorb (meet : Meet) (facts seed : Facts) (classes : Classes) : Outcome Mismatch Classes :=
  assignAll meet (facts.toList.filter fun entry => !seed.has entry.1) classes

/-- Unifies two concrete types of the class of `root`, at most `depth` times one inside another. -/
def meetWithin : Nat → Meet
  | 0, _, _, _, _ => .halted .endless
  | depth + 1, root, existing, t, classes => do
    let seed := classes.facts
    let (unified, facts) ← Facts.unify existing t seed
    absorb (meetWithin depth) facts seed (classes.setConcrete root unified)

/-- The number of variables that can be met in classes, counted with repetition. -/
def weight (classes : Classes) : Nat :=
  classes.order.foldl
    (fun total id => total + 1 + ((classes.concrete? id).map Ty.size).getD 0) 0

/-- Each time concrete types meet inside a meeting, there is one class less, or one class less
without a concrete type. -/
def meet (mass : Nat) : Meet := meetWithin (2 * mass + 2)

def unify (classes : Classes) (a b : Ty) : Outcome Mismatch (Ty × Classes) := do
  let seed := classes.facts
  let (unified, facts) ← Facts.unify a b seed
  if facts.size = seed.size then
    return (unified, classes)
  else
    let next ← absorb (meet (classes.weight + facts.weight)) facts seed classes
    return (unified, next.refresh)

def equate (classes : Classes) (a b : Ty) : Outcome Mismatch Classes := do
  let (_, next) ← classes.unify a b
  return next

def ofFacts (facts : Facts) : Outcome Mismatch Classes := do
  let classes ← absorb (meet facts.weight) facts Facts.empty empty
  return classes.refresh

def joinVariables (meet : Meet) (source : Classes) :
    List VarId → Classes → Outcome Mismatch Classes
  | [], classes => .ok classes
  | id :: rest, classes => do
    let classes := classes.addVariable (source.variableAt id)
    let root := source.root id
    let classes ←
      if root = id then .ok classes else classes.union meet id (source.variableAt root)
    joinVariables meet source rest classes

def merge (classes source : Classes) : Outcome Mismatch Classes := do
  let ids := source.order.toList
  let meet := meet (classes.weight + source.weight)
  let classes ← joinVariables meet source ids classes
  let classes ←
    assignAll meet (ids.filterMap fun id => (source.concrete? id).map ((id, ·))) classes
  return classes.refresh

def mergeAll : List Classes → Classes → Outcome Mismatch Classes
  | [], classes => .ok classes
  | source :: rest, classes => do
    let classes ← classes.merge source
    mergeAll rest classes

def build (graphs : List (Option Classes)) : Outcome Mismatch Classes :=
  match graphs.filterMap id with
  | [] => .ok empty
  | first :: rest => mergeAll rest first

end TypeSearch.Classes
