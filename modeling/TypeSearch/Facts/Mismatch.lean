import TypeSearch.Type.Text

/-!
Two types that cannot be made equal, with the enclosing pairs that were being compared.
-/

namespace TypeSearch

structure Mismatch where
  expected : Ty
  actual : Ty
  trace : List (Ty × Ty) := []
  /-- Empty when the types themselves say why. -/
  reason : String := ""
  deriving Repr, Inhabited

namespace Mismatch

def infinite (v : Variable) (t : Ty) : Mismatch :=
  { expected := .var v, actual := t, reason := "infinite type" }

def within (mismatch : Mismatch) (expected actual : Ty) : Mismatch :=
  { mismatch with trace := (expected, actual) :: mismatch.trace }

def message (mismatch : Mismatch) : String :=
  "type mismatch: expected type '" ++ mismatch.expected.text ++
    "', but found a different type '" ++ mismatch.actual.text ++ "'" ++
    (if mismatch.reason.isEmpty then "" else " (" ++ mismatch.reason ++ ")") ++
    String.join (mismatch.trace.map fun (expected, actual) =>
      "\n  while unifying '" ++ expected.text ++ "' with '" ++ actual.text ++ "'")

end Mismatch

end TypeSearch
