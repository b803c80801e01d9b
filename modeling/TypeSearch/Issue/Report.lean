import TypeSearch.Issue.Basic
import TypeSearch.Source.Lines

/-!
Lists of issues, how they are sorted and how each is written with its place.
-/

namespace TypeSearch

namespace Issue

/-- Issues without a place come before those with one; those go by the rank of the file that the
place is in, and then by where it starts. -/
def startsBefore (rank : String → Nat) (a b : Issue) : Bool :=
  match a.place, b.place with
  | none, _ => true
  | some _, none => false
  | some p, some q =>
    if rank p.file = rank q.file then p.span.start ≤ q.span.start
    else rank p.file < rank q.file

def sortsBefore (rank : String → Nat) (a b : Issue) : Bool :=
  if a.file = b.file then startsBefore rank a b else a.file < b.file

def sort (rank : String → Nat) (issues : List Issue) : List Issue :=
  issues.mergeSort (sortsBefore rank)

def textAt (linesOf : String → Option Lines) (issue : Issue) : String :=
  let lead (text : String) : String := if text.isEmpty then "" else text ++ ": "
  match issue.place with
  | none => lead issue.file ++ issue.text
  | some place =>
    match linesOf place.file with
    | none => lead issue.file ++ issue.text
    | some lines =>
      let (line, column) := lines.position place.span.start.toNat
      let path := if place.file.isEmpty then "" else place.file ++ ":"
      path ++ line.repr ++ ":" ++ column.repr ++ ": " ++ issue.text

end Issue

end TypeSearch
