import TypeSearch.Scope.Binding

/-!
The names that every file knows.
-/

namespace TypeSearch.Prelude

def binary (operand result : Ty) : Ty := .curried [operand, operand, result]

def monomorphic : List Binding :=
  [ { name := "+"
      type := Ty.unionOf [binary .number .number, binary .string .string] },
    { name := "-", type := binary .number .number },
    { name := "*", type := binary .number .number },
    { name := "/", type := binary .number .number },
    { name := "%", type := binary .number .number },
    { name := "<", type := binary .number .boolean },
    { name := ">", type := binary .number .boolean },
    { name := "<=", type := binary .number .boolean },
    { name := ">=", type := binary .number .boolean },
    { name := "&&", type := binary .boolean .boolean },
    { name := "||", type := binary .boolean .boolean },
    { name := "!", type := .curried [.boolean, .boolean] } ]

def polymorphic : List (String × (Ty → Ty)) :=
  [ ("==", fun a => binary a .boolean),
    ("!=", fun a => binary a .boolean),
    ("length", fun a => .curried [.list a, .number]),
    ("print", fun a => .curried [a, .void]),
    ("++", fun a => binary (.list a) (.list a)) ]

def bindings (fresher : Fresher) : List Binding × Fresher :=
  let (vars, fresher) := fresher.freshAll (polymorphic.map fun _ => "a")
  let schemes := polymorphic.zipWith
    (fun (name, type) v => { name, type := type (.var v), quantified := [v.id] }) vars
  (monomorphic ++ schemes, fresher)

end TypeSearch.Prelude
