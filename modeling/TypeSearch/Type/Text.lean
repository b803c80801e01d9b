import TypeSearch.Type.Basic

/-!
The written form of types. A union stands in parentheses when it is directly inside another type.
-/

namespace TypeSearch

def Variable.text (v : Variable) : String :=
  "'" ++ (if v.hint.isEmpty then "t" else v.hint) ++ v.id.toNat.repr

namespace Ty

mutual

def text : Ty → String
  | var v => v.text
  | parametric name [] => name
  | parametric name (t :: ts) => name ++ "<" ++ textJoin ", " (t :: ts) ++ ">"
  | curried params => "(" ++ textJoin " -> " params ++ ")"
  | union members => textJoin " | " members

def textJoin (separator : String) : List Ty → String
  | [] => ""
  | [t] => textInside t
  | t :: u :: ts => textInside t ++ separator ++ textJoin separator (u :: ts)

def textInside : Ty → String
  | var v => v.text
  | parametric name [] => name
  | parametric name (t :: ts) => name ++ "<" ++ textJoin ", " (t :: ts) ++ ">"
  | curried params => "(" ++ textJoin " -> " params ++ ")"
  | union members => "(" ++ textJoin " | " members ++ ")"

end

end Ty

end TypeSearch
