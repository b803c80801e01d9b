import TypeSearch.Facts.Mismatch
import TypeSearch.Outcome
import TypeSearch.Type.Scheme

/-!
Facts: what each variable is known to stand for. A variable has at most one fact, and facts are only
ever added. `resolve` follows facts from variable to variable, and `reduce` replaces every variable
of a type by what it stands for.
-/

namespace TypeSearch

namespace Ty

mutual

def expand {ε : Type} (replace : Variable → Outcome ε Ty) : Ty → Outcome ε Ty
  | var v => replace v
  | parametric name params => do
    let params ← expandAll replace params
    return parametric name params
  | curried params => do
    let params ← expandAll replace params
    return curried params
  | union members => do
    let members ← expandAll replace members
    return unionOf members

def expandAll {ε : Type} (replace : Variable → Outcome ε Ty) : List Ty → Outcome ε (List Ty)
  | [] => .ok []
  | t :: ts => do
    let t ← expand replace t
    let ts ← expandAll replace ts
    return t :: ts

end

end Ty

structure Facts where
  entries : List (VarId × Ty) := []
  deriving Repr, Inhabited

namespace Facts

variable {ε : Type}

def empty : Facts := {}

def find? (facts : Facts) (id : VarId) : Option Ty := facts.entries.lookup id

def has (facts : Facts) (id : VarId) : Bool := (facts.find? id).isSome

def size (facts : Facts) : Nat := facts.entries.length

def insert (facts : Facts) (id : VarId) (t : Ty) : Facts := ⟨(id, t) :: facts.entries⟩

theorem find?_insert (facts : Facts) (id other : VarId) (t : Ty) :
    (facts.insert id t).find? other = if other = id then some t else facts.find? other := by
  by_cases heq : other = id
  · simp [insert, find?, heq]
  · simp [insert, find?, List.lookup_cons, heq, beq_eq_false_iff_ne.mpr heq]

/-- What `current` stands for after at most `steps` facts, if that is settled by then. -/
def resolveWithin (facts : Facts) : Nat → Variable → Option Ty
  | 0, _ => none
  | steps + 1, current =>
    match facts.find? current.id with
    | none => some (.var current)
    | some (.var next) => facts.resolveWithin steps next
    | some t => some t

/-- The first type on the way from a variable that is no variable, or the variable without a fact
in which the way ends. -/
def resolve (facts : Facts) (v : Variable) : Outcome ε Ty :=
  match facts.resolveWithin (facts.size + 1) v with
  | some t => .ok t
  | none => .halted (.cyclicFacts v)

def resolveTop (facts : Facts) : Ty → Outcome ε Ty
  | .var v => facts.resolve v
  | t => .ok t

def expandVariable (facts : Facts) (next : Ty → Outcome ε Ty) (v : Variable) : Outcome ε Ty := do
  match ← facts.resolve v with
  | .var w => return .var w
  | t => next t

def reduceWithin (facts : Facts) : Nat → Ty → Outcome ε Ty
  | 0, t => t.expand (facts.expandVariable fun _ => .halted .endless)
  | depth + 1, t => t.expand (facts.expandVariable (facts.reduceWithin depth))

/-- Replaces every variable by what it stands for. Expansions nest at most as deep as there are
facts unless a variable stands for a type that mentions it. -/
def reduce (facts : Facts) (t : Ty) : Outcome ε Ty := facts.reduceWithin facts.size t

def bind (facts : Facts) (v : Variable) (t : Ty) : Outcome Mismatch Facts := do
  if facts.has v.id then
    .halted (.rebinding v)
  else
    let t ← facts.resolveTop t
    match t with
    | .var w =>
      if w.id = v.id then return facts
      else return facts.insert v.id t
    | t =>
      let reduced ← facts.reduce t
      if reduced.occurs v.id then .failed (.infinite v t)
      else return facts.insert v.id t

/-- The 5-bit digits of the folded number of a variable as one number, the last digit foremost. -/
def orderKey (id : VarId) : Nat :=
  let folded := (Fnv.fold32 id).toNat
  (List.range 7).foldl (fun key digit => key * 32 + (folded >>> (5 * digit)) % 32) 0

/-- Facts in the order in which they are read: as they were added while there are few, later by the
digits of their variables. -/
def toList (facts : Facts) : List (VarId × Ty) :=
  if facts.size ≤ 8 then facts.entries.reverse
  else facts.entries.reverse.mergeSort fun a b => orderKey a.1 ≤ orderKey b.1

end Facts

end TypeSearch
