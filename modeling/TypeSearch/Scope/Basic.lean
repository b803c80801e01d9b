import TypeSearch.Scope.Binding
import TypeSearch.Scope.Kind

/-!
One scope: its names, its declared types and its place among other scopes.
-/

namespace TypeSearch

structure Scope where
  id : Scope.Id
  kind : Scope.Kind
  parent : Option Scope.Id := none
  node : Option Tree.Locus := none
  children : List Scope.Id := []
  /-- The scope of the function that a closed body has become part of. -/
  mergedInto : Option Scope.Id := none
  /-- In the order in which they were declared; no name occurs twice. -/
  bindings : List Binding := []
  templates : List Template := []
  types : List Declaration := []
  deriving Repr, Inhabited

namespace Scope

def binding? (scope : Scope) (name : String) : Option Binding :=
  scope.bindings.find? (·.name == name)

def template? (scope : Scope) (name : String) : Option Template :=
  scope.templates.find? (·.name == name)

def type? (scope : Scope) (name : String) : Option Declaration :=
  scope.types.find? (·.name == name)

def lookup? (scope : Scope) (name : String) : Option Binding :=
  (scope.binding? name).or ((scope.template? name).map (·.pending scope.id))

/-- Adds a binding, in the place of one with that name, and drops templates with that name. -/
def add (scope : Scope) (binding : Binding) : Scope :=
  let own := { binding with scope := some scope.id }
  { scope with
    bindings :=
      if (scope.binding? binding.name).isSome then
        scope.bindings.map fun old => if old.name == binding.name then own else old
      else scope.bindings ++ [own]
    templates := scope.templates.filter (·.name ≠ binding.name) }

def addType (scope : Scope) (declaration : Declaration) : Scope :=
  { scope with types := scope.types.filter (·.name ≠ declaration.name) ++ [declaration] }

def setMembers (scope : Scope) (name : String) (members : List Member) : Scope :=
  { scope with
    types := scope.types.map fun type => if type.name == name then { type with members } else type }

def absorb (scope inner : Scope) : Scope :=
  let named := inner.bindings.foldl add scope
  let typed := inner.types.foldl addType named
  { typed with templates := typed.templates ++ inner.templates, children := inner.children }

def handOver (scope : Scope) (old new : Scope.Id) : Scope :=
  { scope with
    bindings := scope.bindings.map fun binding =>
      if binding.scope = some old then { binding with scope := some new } else binding }

def sortedTypes (scope : Scope) : List Declaration :=
  scope.types.mergeSort fun a b => a.name ≤ b.name

end Scope

end TypeSearch
