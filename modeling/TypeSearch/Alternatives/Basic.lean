import TypeSearch.Alternatives.Failure
import TypeSearch.Classes.Build

/-!
Disjunctions: the alternative typings of a node, in the order in which they are searched. Operations
discard the candidates that fail and remember why the first one did; when none is left, the whole
operation fails.
-/

namespace TypeSearch

/-- A node, or what was made of it, with a type and the classes in which the type was derived. -/
structure Answer (ν : Type) where
  node : ν
  type : Ty
  graph : Option Classes
  deriving Inhabited

/-- The type of an answer with all equalities of its classes applied. -/
def Answer.reduced {ν ε : Type} (answer : Answer ν) : Outcome ε Ty :=
  match answer.graph with
  | some classes => classes.reduce answer.type
  | none => .ok answer.type

def Answer.classes {ν : Type} (answer : Answer ν) : Classes := answer.graph.getD Classes.empty

structure Disjunction (ν : Type) where
  answers : List (Answer ν) := []
  deriving Inhabited

structure Survivors (ν : Type) where
  /-- Last one first. -/
  kept : List (Answer ν) := []
  cause : Option Failure := none
  pruned : Nat := 0

namespace Survivors

variable {ν : Type}

def keep (survivors : Survivors ν) (answers : List (Answer ν)) : Survivors ν :=
  { survivors with kept := answers.reverse ++ survivors.kept }

def prune (survivors : Survivors ν) (failure : Failure) : Survivors ν :=
  { survivors with
    cause := survivors.cause.or (some failure)
    pruned := survivors.pruned + 1 }

def disjunction (survivors : Survivors ν) : Except Failure (Disjunction ν) :=
  if survivors.kept.isEmpty then .error (.noTyping survivors.cause survivors.pruned)
  else .ok ⟨survivors.kept.reverse⟩

end Survivors

/-- Tries each candidate in order and keeps the answers of those that do not fail. -/
def survive {m : Type → Type} [Monad m] [MonadExceptOf Failure m] {γ ν : Type}
    (attempt : γ → m (List (Answer ν))) : List γ → Survivors ν → m (Survivors ν)
  | [], survivors => pure survivors
  | candidate :: rest, survivors => do
    let survivors ← tryCatchThe Failure
      (do let answers ← attempt candidate; return survivors.keep answers)
      (fun failure => return survivors.prune failure)
    survive attempt rest survivors

def searchAll {m : Type → Type} [Monad m] [MonadExceptOf Failure m] {γ ν : Type}
    (candidates : List γ) (attempt : γ → m (List (Answer ν))) : m (Disjunction ν) := do
  let survivors ← survive attempt candidates {}
  match survivors.disjunction with
  | .ok disjunction => return disjunction
  | .error failure => throwThe Failure failure

namespace Disjunction

variable {m : Type → Type} [Monad m] [MonadExceptOf Failure m] {α β γ : Type}

def single (node : α) (type : Ty) (graph : Option Classes) : Disjunction α :=
  ⟨[⟨node, type, graph⟩]⟩

def ofAnswers (answers : List (Answer α)) : Outcome Failure (Disjunction α) :=
  if answers.isEmpty then .failed (.noTyping none 0) else .ok ⟨answers⟩

def size (disjunction : Disjunction α) : Nat := disjunction.answers.length

def first {ε : Type} (disjunction : Disjunction α) : Outcome ε (Answer α) :=
  match disjunction.answers with
  | [] => .halted .emptyDisjunction
  | answer :: _ => .ok answer

def map (disjunction : Disjunction α) (f : Answer α → m (Answer β)) : m (Disjunction β) :=
  searchAll disjunction.answers fun answer => do
    let mapped ← f answer
    return [mapped]

def flatMap (disjunction : Disjunction α) (f : Answer α → m (Disjunction β)) :
    m (Disjunction β) :=
  searchAll disjunction.answers fun answer => do
    let mapped ← f answer
    return mapped.answers

def pairs (left : Disjunction α) (right : Disjunction β) : List (Answer α × Answer β) :=
  left.answers.flatMap fun a => right.answers.map fun b => (a, b)

/-- Combines every pair of answers whose classes can be built together. -/
def merge [MonadLiftT (Outcome Failure) m] (left : Disjunction α) (right : Disjunction β)
    (combine : Answer α → Answer β → Classes → m (Answer γ)) : m (Disjunction γ) :=
  searchAll (left.pairs right) fun (a, b) => do
    let classes ← (Classes.build [a.graph, b.graph]).asFailure
    let combined ← combine a b classes
    return [combined]

end Disjunction

end TypeSearch
