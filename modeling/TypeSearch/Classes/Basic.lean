import Std.Data.HashMap
import TypeSearch.Facts.Unify

/-!
Equality classes: which variables stand for the same type, as a union-find forest, and the concrete
type of a class if one is known. `facts` is the view of classes as facts: every variable stands for
the root of its class, and a root for the concrete type.
-/

namespace TypeSearch

/-- What is stored for one variable. The concrete type of a class is stored at its root. -/
structure Cell where
  member : Variable
  parent : VarId
  rank : Nat := 0
  concrete : Option Ty := none
  deriving Repr, Inhabited

structure Classes where
  cells : Std.HashMap VarId Cell := ∅
  order : Array VarId := #[]
  /-- The view as facts, unless a change made it stale. -/
  cached : Option Facts := none
  deriving Inhabited

namespace Classes

variable {ε : Type}

def empty : Classes := {}

def has (classes : Classes) (id : VarId) : Bool := classes.cells.contains id

def parent (classes : Classes) (id : VarId) : VarId :=
  ((classes.cells.get? id).map (·.parent)).getD id

def rank (classes : Classes) (id : VarId) : Nat :=
  ((classes.cells.get? id).map (·.rank)).getD 0

def concrete? (classes : Classes) (id : VarId) : Option Ty :=
  (classes.cells.get? id).bind (·.concrete)

def variableAt (classes : Classes) (id : VarId) : Variable :=
  ((classes.cells.get? id).map (·.member)).getD ⟨id, ""⟩

def modify (classes : Classes) (id : VarId) (f : Cell → Cell) : Classes :=
  { classes with cells := classes.cells.modify id f, cached := none }

/-- The end of the way from `id` to its parents, of which at most `steps` are taken. -/
def rootWithin (classes : Classes) : Nat → VarId → VarId
  | 0, id => id
  | steps + 1, id =>
    let parent := classes.parent id
    if parent = id then id else classes.rootWithin steps parent

def root (classes : Classes) (id : VarId) : VarId := classes.rootWithin classes.order.size id

def compress (classes : Classes) (root : VarId) : Nat → VarId → Classes
  | 0, _ => classes
  | steps + 1, id =>
    if id = root then classes
    else
      let next := classes.parent id
      let shorter :=
        { classes with cells := classes.cells.modify id fun cell => { cell with parent := root } }
      shorter.compress root steps next

def find (classes : Classes) (id : VarId) : VarId × Classes :=
  let root := classes.root id
  (root, classes.compress root classes.order.size id)

def factsAfresh (classes : Classes) : Facts :=
  classes.order.foldl
    (fun facts id =>
      let root := classes.root id
      if root ≠ id then facts.insert id (.var (classes.variableAt root))
      else
        match classes.concrete? id with
        | some t => facts.insert id t
        | none => facts)
    Facts.empty

def facts (classes : Classes) : Facts := classes.cached.getD classes.factsAfresh

def refresh (classes : Classes) : Classes := { classes with cached := some classes.facts }

def reduce (classes : Classes) (t : Ty) : Outcome ε Ty := classes.facts.reduce t

/-- The concrete type of the class of a variable, or the root of the class if there is none. -/
def representative (classes : Classes) (v : Variable) : Ty :=
  if classes.has v.id then
    let root := classes.root v.id
    (classes.concrete? root).getD (.var (classes.variableAt root))
  else .var v

def resolve (classes : Classes) : Ty → Ty
  | .var v => classes.representative v
  | t => t

def sameClass (classes : Classes) (a b : Variable) : Bool :=
  a.id == b.id || classes.has a.id && classes.has b.id && classes.root a.id == classes.root b.id

def roots (classes : Classes) : List VarId :=
  (classes.order.foldl
    (fun found id =>
      let root := classes.root id
      if found.contains root then found else root :: found)
    []).reverse

/-- The variables of each class in the order in which they joined, then its concrete type. -/
def toLists (classes : Classes) : List (List Ty) :=
  classes.roots.map fun root =>
    (classes.order.toList.filter (classes.root · == root)).map (.var <| classes.variableAt ·) ++
      (classes.concrete? root).toList

end Classes

end TypeSearch
