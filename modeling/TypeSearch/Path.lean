/-!
Paths with `/` between their elements, handled as text: no file is looked at.
-/

namespace TypeSearch.Path

def elements (path : String) : List String := (path.split '/').toList.map (·.toString)

def step (rooted : Bool) (done : List String) (element : String) : List String :=
  if element == "" || element == "." then done
  else if element == ".." then
    match done with
    | [] => if rooted then [] else [".."]
    | last :: rest => if last == ".." then ".." :: done else rest
  else element :: done

/-- The shortest path that names the same file: no empty or `.` elements, and `..` only at the start
of a path that is not rooted. -/
def clean (path : String) : String :=
  let rooted := path.startsWith "/"
  let kept := "/".intercalate ((elements path).foldl (step rooted) []).reverse
  if rooted then "/" ++ kept else if kept == "" then "." else kept

def join (first second : String) : String :=
  if first == "" && second == "" then ""
  else if first == "" then clean second
  else if second == "" then clean first
  else clean (first ++ "/" ++ second)

def folder (path : String) : String :=
  let before := (elements path).dropLast
  if before.isEmpty then "." else clean ("/".intercalate before ++ "/")

def base (path : String) : String :=
  if path == "" then "."
  else ((elements path).filter (· ≠ "")).getLastD "/"

/-- Whether a path can name a file below a root: it has no empty, `.` or `..` elements. -/
def isLocal (path : String) : Bool :=
  path == "." || (elements path).all fun element =>
    element ≠ "" && element ≠ "." && element ≠ ".."

/-- A path as it is written in a file, seen from where that file lies. -/
def relativeTo (file path : String) : String := join (folder file) path

end TypeSearch.Path
