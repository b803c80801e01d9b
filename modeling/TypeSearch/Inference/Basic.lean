import TypeSearch.Alternatives.Combination
import TypeSearch.Scope.Table

/-!
Inference as a computation: it works on the scopes of one file, takes fresh variables, writes down
issues and the types of nodes. What it did before a failure or a halt stays done.
-/

namespace TypeSearch

/-- A node, by its key, with the type that it has in an answer and the same of its parts. -/
inductive Typed where
  | mk (key : Nat) (type : Ty) (children : List Typed)
  deriving Inhabited

def Typed.type : Typed → Ty
  | mk _ type _ => type

def Typed.children : Typed → List Typed
  | mk _ _ children => children

mutual

/-- The keys of a node and its parts, with their types. -/
def Typed.entries : Typed → List (Nat × Ty)
  | mk key type children => (key, type) :: entriesAll children

def Typed.entriesAll : List Typed → List (Nat × Ty)
  | [] => []
  | child :: children => entries child ++ entriesAll children

end

abbrev Answers := Disjunction Typed

structure TypedFile where
  path : String
  program : Tree.Program
  dependencies : List String
  table : Table
  types : Std.HashMap Nat Ty
  issues : List Issue

namespace TypedFile

def typeOf? (file : TypedFile) (key : Nat) : Option Ty := file.types[key]?

def lookup? (file : TypedFile) (name : String) : Option Binding := file.table.root.binding? name

def exports (file : TypedFile) : List Binding :=
  file.table.root.bindings.filter (·.flags.exported)

def exportedTypes (file : TypedFile) : List Declaration :=
  file.table.root.sortedTypes.filter (·.flags.exported)

end TypedFile

namespace Inference

structure Context where
  program : Tree.Program
  dependencies : List String
  files : List TypedFile

structure State where
  table : Table
  fresher : Fresher
  issues : List Issue := []
  types : Std.HashMap Nat Ty := ∅

end Inference

open Inference

def Infer (α : Type) := Context → State → Outcome Failure α × State

namespace Infer

variable {α β : Type}

protected def pure (value : α) : Infer α := fun _ state => (.ok value, state)

protected def bind (computation : Infer α) (next : α → Infer β) : Infer β := fun context state =>
  match computation context state with
  | (.ok value, state) => next value context state
  | (.failed failure, state) => (.failed failure, state)
  | (.halted halt, state) => (.halted halt, state)

instance : Monad Infer where
  pure := Infer.pure
  bind := Infer.bind

instance : MonadExceptOf Failure Infer where
  throw failure := fun _ state => (.failed failure, state)
  tryCatch computation handle := fun context state =>
    match computation context state with
    | (.failed failure, state) => handle failure context state
    | result => result

instance : MonadLift (Outcome Failure) Infer where
  monadLift outcome := fun _ state => (outcome, state)

def halt (cause : Halt) : Infer α := fun _ state => (.halted cause, state)

def context : Infer Context := fun context state => (.ok context, state)

def state : Infer State := fun _ state => (.ok state, state)

def modify (f : State → State) : Infer Unit := fun _ state => (.ok (), f state)

def attempt (computation : Infer α) : Infer (Except Failure α) := fun context state =>
  match computation context state with
  | (.ok value, state) => (.ok (.ok value), state)
  | (.failed failure, state) => (.ok (.error failure), state)
  | (.halted halt, state) => (.halted halt, state)

/-- Goes on with `exit` however the computation ends. Nothing comes after a computation that does
not end. -/
def thenAlways (computation : Infer α) (exit : Infer Unit) : Infer α := fun context state =>
  match computation context state with
  | (.halted .endless, state) => (.halted .endless, state)
  | (.halted first, state) =>
    match exit context state with
    | (.halted last, state) => (.halted (.during first last), state)
    | (_, state) => (.halted first, state)
  | (outcome, state) =>
    match exit context state with
    | (.ok _, state) => (outcome, state)
    | (.failed failure, state) => (.failed failure, state)
    | (.halted cause, state) => (.halted cause, state)

def table : Infer Table := do return (← state).table

def modifyTable (f : Table → Table) : Infer Unit :=
  modify fun state => { state with table := f state.table }

def tryTable (f : Table → Except Halt Table) : Infer Unit := do
  match f (← table) with
  | .ok table => modifyTable fun _ => table
  | .error cause => halt cause

def fresh (hint : String) : Infer Variable := fun _ state =>
  let (v, fresher) := state.fresher.fresh hint
  (.ok v, { state with fresher })

def freshAll (hints : List String) : Infer (List Variable) := fun _ state =>
  let (vs, fresher) := state.fresher.freshAll hints
  (.ok vs, { state with fresher })

def instantiate (type : Ty) (quantified : List VarId) : Infer Ty := fun _ state =>
  let (instantiated, fresher) := type.instantiate quantified state.fresher
  (.ok instantiated, { state with fresher })

def report (issue : Issue) : Infer Unit :=
  modify fun state => { state with issues := state.issues ++ [issue] }

def place (site : Tree.Site) : Infer Place := do return ⟨(← table).file, site.span⟩

def locus (kind : Tree.Kind) (site : Tree.Site) : Infer Tree.Locus := do
  return ⟨kind, ← place site⟩

def nodeLocus (node : Tree.Node) : Infer Tree.Locus := locus node.kind node.site

def issueAt (site : Tree.Site) (cause : Issue.Cause) : Infer Issue := do
  let place ← place site
  return ⟨place.file, some place, cause⟩

def throwAt (site : Tree.Site) (cause : Issue.Cause) : Infer α := do
  throw (.issue (← issueAt site cause))

/-- Writes down what a failure at a node comes from, unless that was done before. -/
def failAt (site : Tree.Site) (failure : Failure) : Infer α := do
  let place ← place site
  match failure.toIssue? place.file (some place) with
  | none => throw failure
  | some issue =>
    report issue
    throw .reported

def reportingAt (site : Tree.Site) (computation : Infer α) : Infer α :=
  tryCatch computation (failAt site)

def unify (classes : Classes) (a b : Ty) : Infer (Ty × Classes) :=
  liftM (classes.unify a b).asFailure

def equate (classes : Classes) (a b : Ty) : Infer Classes := liftM (classes.equate a b).asFailure

def templates (pattern : Tree.Pattern) : Infer (List Template) := fun _ state =>
  let (templates, issues, table, fresher) := state.table.templates pattern state.fresher
  (.ok templates, { state with table, fresher, issues := state.issues ++ issues })

def implicitTemplates (pattern : Tree.Pattern) : Infer Unit := do
  modifyTable (·.markNext { implicit := true })
  discard (templates pattern)

def bindPending : Infer Unit :=
  modifyTable fun table =>
    table.currentScope.templates.foldl
      (fun table template => table.bind template (.var template.var) []) table

def inBlock (node : Tree.Locus) (computation : Infer α) : Infer α := do
  modifyTable (·.enterBlock node)
  computation.thenAlways do
    bindPending
    tryTable (·.leaveBlock)

/-- Runs a computation, which must open and close a body, in the scope of a function. -/
def inAbstraction (node : Tree.Locus) (computation : Infer α) : Infer α := do
  modifyTable (·.enterAbstraction node)
  computation.thenAlways do
    let function := (← table).current
    tryTable (·.leave [.abstraction])
    tryTable (·.mergeBody function)

end Infer

end TypeSearch
