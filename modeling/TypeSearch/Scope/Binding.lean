import TypeSearch.Source.Span
import TypeSearch.Tree.Kind
import TypeSearch.Type.Scheme

/-!
What scopes hold: bindings, templates for bindings whose type is still open, and declarations of
types with their members.
-/

namespace TypeSearch

/-- A node as others remember it: what it is and where it stands. -/
structure Tree.Locus where
  kind : Tree.Kind
  place : Place
  deriving DecidableEq, Repr, Inhabited

abbrev Scope.Id := Nat

/-- How a name came about. Parameters and generators bind implicitly. -/
structure Flags where
  exported : Bool := false
  implicit : Bool := false
  imported : Bool := false
  deriving DecidableEq, Repr, Inhabited

def Flags.or (a b : Flags) : Flags :=
  ⟨a.exported || b.exported, a.implicit || b.implicit, a.imported || b.imported⟩

structure Binding where
  name : String
  type : Ty
  /-- The variables of the type that stand for a new one at every use. -/
  quantified : List VarId := []
  flags : Flags := {}
  /-- Set for a template that is read as a binding. -/
  isPending : Bool := false
  node : Option Tree.Locus := none
  /-- The scope that declares it; none does so for names that are known everywhere. -/
  scope : Option Scope.Id := some 0
  deriving Repr, Inhabited

structure Template where
  name : String
  /-- The variable that every use of the name is checked against. -/
  var : Variable
  flags : Flags
  node : Option Tree.Locus
  deriving Repr, Inhabited

def Template.settled (template : Template) (type : Ty) (quantified : List VarId) : Binding :=
  { name := template.name, type, quantified, flags := template.flags, node := template.node }

def Template.pending (template : Template) (scope : Scope.Id) : Binding :=
  { name := template.name, type := .var template.var, flags := template.flags, isPending := true
    node := template.node, scope := some scope }

structure Member where
  name : String
  type : Ty
  quantified : List VarId := []
  deriving Repr, Inhabited

structure Declaration where
  name : String
  params : List Variable := []
  members : List Member := []
  flags : Flags := {}
  node : Option Tree.Locus := none
  deriving Repr, Inhabited

namespace Declaration

def type (declaration : Declaration) : Ty :=
  .parametric declaration.name (declaration.params.map .var)

/-- A member as a value of the type with the arguments `args` has it. -/
def member? (declaration : Declaration) (name : String) (args : List Ty) : Option Member :=
  (declaration.members.find? (·.name == name)).map fun member =>
    if args.length = declaration.params.length then
      { member with
        type := member.type.substitute ((declaration.params.map (·.id)).zip args) }
    else member

end Declaration

end TypeSearch
