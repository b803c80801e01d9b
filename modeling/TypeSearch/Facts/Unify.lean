import TypeSearch.Facts.Basic

/-!
Unification: the most general type that two types can both be, and the facts that make them so.
The left type is the expected one. A union agrees with a type if one of its members does.
-/

namespace TypeSearch.Facts

abbrev Step := Ty → Ty → Facts → Outcome Mismatch (Ty × Facts)

def unifyPairwise (step : Step) : List Ty → List Ty → Facts → Outcome Mismatch (List Ty × Facts)
  | left :: lefts, right :: rights, facts => do
    let (t, facts) ← step left right facts
    let (ts, facts) ← unifyPairwise step lefts rights facts
    return (t :: ts, facts)
  | _, _, facts => .ok ([], facts)

def unifyFirst (attempt : Ty → Outcome Mismatch (Ty × Facts)) (otherwise : Mismatch) :
    List Ty → Outcome Mismatch (Ty × Facts)
  | [] => .failed otherwise
  | member :: members =>
    match attempt member with
    | .ok found => .ok found
    | .failed _ => unifyFirst attempt otherwise members
    | .halted cause => .halted cause

/-- Unifies `candidate` with the first of `members` that agrees with it; if none does, it is a
further member. -/
def unifyInto (step : Step) (candidate : Ty) (facts : Facts) :
    List Ty → Outcome Mismatch (List Ty × Facts)
  | [] => .ok ([candidate], facts)
  | member :: members =>
    match step member candidate facts with
    | .ok (t, next) => .ok (t :: members, next)
    | .failed _ => do
      let (rest, next) ← unifyInto step candidate facts members
      return (member :: rest, next)
    | .halted cause => .halted cause

def unifyMembers (step : Step) : List Ty → List Ty → Facts → Outcome Mismatch (List Ty × Facts)
  | members, [], facts => .ok (members, facts)
  | members, candidate :: candidates, facts => do
    let (members, facts) ← unifyInto step candidate facts members
    unifyMembers step members candidates facts

/-- Unifies the parameters of `left` and `right`; a mismatch inside is seen from this pair. -/
def unifyParams (step : Step) (left right : Ty) (build : List Ty → Ty) (lefts rights : List Ty)
    (facts : Facts) : Outcome Mismatch (Ty × Facts) :=
  if lefts.length ≠ rights.length then .failed { expected := left, actual := right }
  else
    match unifyPairwise step lefts rights facts with
    | .ok (params, facts) => .ok (build params, facts)
    | .failed mismatch => .failed (mismatch.within left right)
    | .halted cause => .halted cause

def unifyResolved (step : Step) (left right : Ty) (facts : Facts) :
    Outcome Mismatch (Ty × Facts) :=
  match left, right with
  | .var v, .var w =>
    if w.id = v.id then .ok (left, facts)
    else do
      let facts ← facts.bind v right
      return (right, facts)
  | .var v, right => do
    let facts ← facts.bind v right
    return (right, facts)
  | left, .var w => do
    let facts ← facts.bind w left
    return (left, facts)
  | .union lefts, .union rights => do
    let (members, facts) ← unifyMembers step lefts rights facts
    return (Ty.unionOf members, facts)
  | .union members, right =>
    unifyFirst (fun member => step member right facts) { expected := left, actual := right }
      members
  | left, .union members =>
    unifyFirst (fun member => step left member facts) { expected := left, actual := right }
      members
  | .parametric name params, .parametric name' params' =>
    if name ≠ name' then .failed { expected := left, actual := right }
    else unifyParams step left right (Ty.parametric name) params params' facts
  | .curried params, .curried params' =>
    unifyParams step left right Ty.curried (Ty.dropVoid params) (Ty.dropVoid params') facts
  | left, right => .failed { expected := left, actual := right }

def unifyWithin : Nat → Step
  | 0, _, _, _ => .halted .endless
  | depth + 1, left, right, facts => do
    let left ← facts.resolveTop left
    let right ← facts.resolveTop right
    unifyResolved (unifyWithin depth) left right facts

def weight (facts : Facts) : Nat :=
  facts.entries.foldl (fun total entry => total + entry.2.size + 1) 0

/-- Enough depth for any unification on facts without cycles: each new fact at most doubles the
depth to which types expand, and between two facts unification nests no deeper than the square of
that depth. -/
def unifyDepth (left right : Ty) (facts : Facts) : Nat :=
  Nat.pow 2 (5 * (left.size + right.size + facts.weight) + 4)

def unify (left right : Ty) (facts : Facts) : Outcome Mismatch (Ty × Facts) :=
  unifyWithin (unifyDepth left right facts) left right facts

/-- Records that a variable stands for a type, or checks the type against what the variable
already stands for. -/
def add (facts : Facts) (v : Variable) (t : Ty) : Outcome Mismatch Facts := do
  match ← facts.resolve v with
  | .var free => facts.bind free t
  | resolved =>
    let (_, facts) ← unify resolved t facts
    return facts

end TypeSearch.Facts
