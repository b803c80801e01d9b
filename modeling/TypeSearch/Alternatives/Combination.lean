import TypeSearch.Alternatives.Basic

/-!
Combinations: one answer for each of several sibling nodes, with the classes built together from
those of all of them. `distribute` gives the combinations of siblings in lexicographic order.
-/

namespace TypeSearch

structure Combination (ν : Type) where
  answers : List (Answer ν)
  graph : Option Classes
  deriving Inhabited

namespace Combination

variable {ν : Type}

def types (combination : Combination ν) : List Ty := combination.answers.map (·.type)

def nodes (combination : Combination ν) : List ν := combination.answers.map (·.node)

def classes (combination : Combination ν) : Classes := combination.graph.getD Classes.empty

end Combination

structure Combinations (ν : Type) where
  all : List (Combination ν) := []
  deriving Inhabited

namespace Combinations

variable {ν μ : Type}

def unit (graph : Option Classes) : Combinations ν := ⟨[⟨[], graph⟩]⟩

def lift (disjunction : Disjunction ν) : Combinations ν :=
  ⟨disjunction.answers.map fun answer => ⟨[answer], answer.graph⟩⟩

def size (combinations : Combinations ν) : Nat := combinations.all.length

/-- What is left of pairs of combinations: the first failure and the number of failures count only
if nothing is left. -/
structure Kept (ν : Type) where
  /-- Last one first. -/
  kept : List (Combination ν) := []
  cause : Option Failure := none
  pruned : Nat := 0

def join (left right : Combination ν) : Outcome Mismatch (Combination ν) := do
  let classes ← Classes.build [left.graph, right.graph]
  return ⟨left.answers ++ right.answers, some classes⟩

def joinAll : List (Combination ν × Combination ν) → Kept ν → Outcome Failure (Kept ν)
  | [], kept => .ok kept
  | (left, right) :: rest, kept =>
    match join left right with
    | .ok joined => joinAll rest { kept with kept := joined :: kept.kept }
    | .failed mismatch =>
      joinAll rest
        { kept with
          cause := kept.cause.or (some (.mismatch mismatch))
          pruned := kept.pruned + 1 }
    | .halted cause => .halted cause

def product (left right : Combinations ν) : Outcome Failure (Combinations ν) := do
  let pairs := left.all.flatMap fun x => right.all.map fun y => (x, y)
  let kept ← joinAll pairs {}
  if kept.kept.isEmpty then .failed (.noTyping kept.cause kept.pruned)
  else return ⟨kept.kept.reverse⟩

def productAll : Combinations ν → List (Disjunction ν) → Outcome Failure (Combinations ν)
  | combinations, [] => .ok combinations
  | combinations, sibling :: rest => do
    let combinations ← combinations.product (lift sibling)
    productAll combinations rest

/-- The combinations of one answer for each sibling; without siblings, the empty one in `base`. -/
def distribute (siblings : List (Disjunction ν)) (base : Option Classes) :
    Outcome Failure (Combinations ν) :=
  match siblings with
  | [] => .ok (unit base)
  | first :: rest => productAll (lift first) rest

def collect {m : Type → Type} [Monad m] [MonadExceptOf Failure m] (combinations : Combinations ν)
    (f : Combination ν → m (Answer μ)) : m (Disjunction μ) :=
  searchAll combinations.all fun combination => do
    let answer ← f combination
    return [answer]

end Combinations

end TypeSearch
