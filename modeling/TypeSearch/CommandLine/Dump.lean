import TypeSearch.Inference.Basic
import TypeSearch.Text.Quote

/-!
The scopes of a file as a tree of records, one field or element a line.
-/

namespace TypeSearch.CommandLine

inductive Dumped where
  | word (text : String)
  | list (items : List Dumped)
  | record (name : String) (fields : List (String × Dumped))

namespace Dumped

def text (text : String) : Dumped := word (Text.quote text)

def flag (value : Bool) : Dumped := word (toString value)

def isEmptyList : Dumped → Bool
  | list [] => true
  | _ => false

def indentation (depth : Nat) : String := String.ofList (List.replicate (4 * depth) ' ')

mutual

def renderAt (depth : Nat) : Dumped → String
  | word text => text
  | list items => "[\n" ++ renderItems (depth + 1) items ++ indentation depth ++ "]"
  | record name fields =>
    name ++ "\x7b\n" ++ renderFields (depth + 1) fields ++ indentation depth ++ "\x7d"

def renderItems (depth : Nat) : List Dumped → String
  | [] => ""
  | item :: items =>
    indentation depth ++ renderAt depth item ++ "\n" ++ renderItems depth items

def renderFields (depth : Nat) : List (String × Dumped) → String
  | [] => ""
  | (name, value) :: fields =>
    (if value.isEmptyList then ""
      else indentation depth ++ name ++ ": " ++ renderAt depth value ++ "\n") ++
      renderFields depth fields

end

def ofBinding (binding : Binding) : Dumped :=
  record "dumpedBinding"
    [("Name", text binding.name), ("Type", text binding.type.text),
      ("Exported", flag binding.flags.exported), ("Imported", flag binding.flags.imported)]

def ofScope (scope : Scope) : Dumped :=
  record "dumpedScope"
    [("ID", word scope.id.repr), ("Kind", text scope.kind.name),
      ("Bindings", list (scope.bindings.map ofBinding))]

/-- The scopes of a file but those that are part of another one. -/
def ofFile (file : TypedFile) : Dumped :=
  list ((file.table.scopes.toList.filter (·.mergedInto.isNone)).map ofScope)

def render (dumped : Dumped) : String := renderAt 0 dumped

end Dumped

end TypeSearch.CommandLine
