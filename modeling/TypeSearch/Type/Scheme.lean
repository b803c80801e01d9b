import TypeSearch.Type.Union

/-!
Substitution, fresh variables, and the generalization and instantiation of types over a list of
quantified variables.
-/

namespace TypeSearch

namespace Ty

mutual

/-- Replaces every variable; unions are built anew from their replaced members. -/
def subst (replace : Variable → Ty) : Ty → Ty
  | var v => replace v
  | parametric name params => parametric name (substAll replace params)
  | curried params => curried (substAll replace params)
  | union members => unionOf (substAll replace members)

def substAll (replace : Variable → Ty) : List Ty → List Ty
  | [] => []
  | t :: ts => subst replace t :: substAll replace ts

end

/-- Replaces the variables that are keys of `pairs`, of which the last for a variable counts. -/
def substitute (pairs : List (VarId × Ty)) (t : Ty) : Ty :=
  if pairs.isEmpty then t
  else t.subst fun v => (pairs.reverse.lookup v.id).getD (var v)

def generalize (t : Ty) (environment : List VarId) : List VarId :=
  (t.freeVariables.map (·.id)).filter fun id => !environment.contains id

end Ty

/-- The source of new variables: the last number given out. -/
structure Fresher where
  last : UInt64 := 0
  deriving DecidableEq, Repr, Inhabited

namespace Fresher

def fresh (fresher : Fresher) (hint : String) : Variable × Fresher :=
  let id := fresher.last + 1
  (⟨id, hint⟩, ⟨id⟩)

def freshAll (fresher : Fresher) : List String → List Variable × Fresher
  | [] => ([], fresher)
  | hint :: hints =>
    let (v, next) := fresher.fresh hint
    let (vs, last) := next.freshAll hints
    (v :: vs, last)

end Fresher

/-- Replaces each quantified variable by a fresh one with the same hint. -/
def Ty.instantiate (t : Ty) (quantified : List VarId) (fresher : Fresher) : Ty × Fresher :=
  if quantified.isEmpty then (t, fresher)
  else
    let hintOf (id : VarId) : String :=
      ((t.freeVariables.find? (·.id == id)).map (·.hint)).getD ""
    let (vs, next) := fresher.freshAll (quantified.map hintOf)
    (t.substitute (quantified.zip (vs.map Ty.var)), next)

end TypeSearch
