/-!
The kinds of scopes. A body is the inside of a function; it is merged into the scope of the
function's parameters when the function is left.
-/

namespace TypeSearch.Scope

inductive Kind where
  | file | module | abstraction | body | block
  deriving DecidableEq, Repr, Inhabited

namespace Kind

def name : Kind → String
  | file => "file"
  | module => "module"
  | abstraction => "abstraction"
  | body => "body"
  | block => "block"

def canExport : Kind → Bool
  | file | module => true
  | _ => false

end Kind

end TypeSearch.Scope
