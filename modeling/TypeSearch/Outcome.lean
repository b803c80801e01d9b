import TypeSearch.Scope.Kind
import TypeSearch.Tree.Kind
import TypeSearch.Type.Text
import TypeSearch.Type.Union

/-!
What a computation ends in: a value, a failure that a search over alternatives may recover from, or
a halt, which ends the whole run.
-/

namespace TypeSearch

inductive Halt where
  | cyclicFacts (v : Variable)
  | rebinding (v : Variable)
  | emptyUnion
  | emptyFunction
  | emptyDisjunction
  | noCurrentScope
  | leavingOther (kind : Scope.Kind) (id : Nat) (expected : List Scope.Kind)
  | leavingRoot
  | mergingNested (kind : Scope.Kind) (id nested : Nat)
  | notAnExpression (kind : Tree.Kind)
  /-- Unification, or the expansion of a type, does not end. -/
  | endless
  /-- On the way out of a first halt there was another one. -/
  | during (first last : Halt)
  deriving Repr, Inhabited

namespace Halt

def recordName (kind : Tree.Kind) : String :=
  if kind = .type then "*syntax.TypeExpr" else "*syntax." ++ kind.name.capitalize

def message : Halt → String
  | cyclicFacts v => "cycle in type constraints while resolving " ++ v.text
  | rebinding v => "rebinding already resolved variable " ++ v.text
  | emptyUnion => "union must have at least one member"
  | emptyFunction => "curried type must have at least one parameter"
  | emptyDisjunction => "empty disjunction"
  | noCurrentScope => "symbol table has no current scope"
  | leavingOther kind id expected =>
    "cannot leave " ++ kind.name ++ " scope " ++ id.repr ++ " as any of [" ++
      " ".intercalate (expected.map (·.name)) ++ "]"
  | leavingRoot => "cannot leave the root scope of a file"
  | mergingNested kind id nested =>
    "cannot reduce " ++ kind.name ++ " scope " ++ id.repr ++ " with " ++ nested.repr ++
      " nested scopes"
  | notAnExpression kind => "cannot infer node of kind " ++ kind.name ++ ": " ++ recordName kind
  | endless => "the types of the program cannot be expanded in finite time"
  | during _ last => last.message

end Halt

inductive Outcome (ε α : Type) where
  | ok (value : α)
  | failed (error : ε)
  | halted (cause : Halt)
  deriving Inhabited

namespace Outcome

variable {ε ε' α β : Type}

protected def bind (outcome : Outcome ε α) (next : α → Outcome ε β) : Outcome ε β :=
  match outcome with
  | ok value => next value
  | failed error => failed error
  | halted cause => halted cause

instance : Monad (Outcome ε) where
  pure := ok
  bind := Outcome.bind

def mapError (f : ε → ε') : Outcome ε α → Outcome ε' α
  | ok value => ok value
  | failed error => failed (f error)
  | halted cause => halted cause

@[simp]
theorem bind_ok (value : α) (next : α → Outcome ε β) : (ok value >>= next) = next value := rfl

@[simp]
theorem bind_failed (error : ε) (next : α → Outcome ε β) :
    (failed error >>= next) = failed error := rfl

@[simp]
theorem bind_halted (cause : Halt) (next : α → Outcome ε β) :
    (halted cause >>= next) = halted cause := rfl

end Outcome

namespace Ty

/-- The type of a function with these parameters, of which the last is the result. -/
def function {ε : Type} (params : List Ty) : Outcome ε Ty :=
  if params.isEmpty then .halted .emptyFunction else .ok (curried params)

/-- The union of these types, of which there has to be one. -/
def anyOf {ε : Type} (members : List Ty) : Outcome ε Ty :=
  if members.isEmpty then .halted .emptyUnion else .ok (unionOf members)

end Ty

end TypeSearch
