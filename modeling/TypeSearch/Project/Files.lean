import TypeSearch.Order
import TypeSearch.Path
import TypeSearch.Tree.Decode

/-!
The files of a project: texts by path, and the files that are reached from one of them by imports.
-/

namespace TypeSearch

structure Refusal where
  text : String
  /-- Whether there is just no such file. -/
  isAbsent : Bool
  deriving Repr, Inhabited

structure Files where
  texts : List (String × String)
  refusal : String → Refusal

namespace Files

def isFolder (texts : List (String × String)) (path : String) : Bool :=
  path == "." || texts.any fun (name, _) => name.startsWith (path ++ "/")

def inMemory (texts : List (String × String)) : Files :=
  { texts := texts.filter fun (name, _) => Path.isLocal name
    refusal := fun path =>
      if Path.isLocal path && isFolder texts path then
        ⟨"read " ++ path ++ ": invalid argument", false⟩
      else ⟨"open " ++ path ++ ": file does not exist", true⟩ }

def within (folder path : String) : String :=
  if folder == "." then path else if path == "." then folder else folder ++ "/" ++ path

def longestName : Nat := 255

def longestPath : Nat := 4095

/-- Why there is no text at the end of a path: the names on it are looked up one by one, and
`passed` is the folder that is reached. -/
def obstacle (texts : List (String × String)) : (passed : String) → List String → String
  | _, [] => "is a directory"
  | passed, name :: names =>
    let next := within passed name
    if longestName < name.utf8ByteSize then "file name too long"
    else if isFolder texts next then obstacle texts next names
    else if texts.any (·.1 == next) then "not a directory"
    else "no such file or directory"

/-- The files below a folder; paths that lead out of it are refused. -/
def belowFolder (texts : List (String × String)) (folder : String) : Files :=
  { texts := texts.filterMap fun (name, text) =>
      if folder == "." then some (name, text)
      else (name.dropPrefix? (folder ++ "/")).map fun rest => (rest.toString, text)
    refusal := fun path =>
      let hasNul (text : String) : Bool := text.toList.contains '\x00'
      if !Path.isLocal path || hasNul path then ⟨"readfile " ++ path ++ ": invalid argument", false⟩
      else if hasNul folder then ⟨"open " ++ path ++ ": invalid argument", false⟩
      else
        let reason :=
          if longestPath < (folder ++ "/" ++ path).utf8ByteSize then "file name too long"
          else obstacle texts "." (Path.elements (within folder path))
        let verb := if reason == "is a directory" then "read " else "open "
        ⟨verb ++ path ++ ": " ++ reason, reason == "no such file or directory"⟩ }

end Files

structure SourceFile where
  path : String
  program : Tree.Program
  lines : Lines
  deriving Inhabited

namespace SourceFile

def ofText (path text : String) : Except Tree.ReadError SourceFile := do
  return { path, program := ← Tree.Program.ofText path text, lines := Lines.ofText text }

def dependencies (file : SourceFile) : List String :=
  file.program.imports.map fun i => Path.relativeTo file.path i.path

end SourceFile

inductive LoadError where
  | unreadable (path : String) (refusal : Refusal)
  | undecodable (path : String) (error : Tree.ReadError)
  | unordered (error : Order.Error String)
  deriving Inhabited

namespace LoadError

/-- The message, unless it is that of a text that is not YAML or does not fit its fields. -/
def text? : LoadError → Option String
  | unreadable path refusal => some ("read " ++ path ++ ": " ++ refusal.text)
  | undecodable _ .malformed => none
  | undecodable path (.invalid error) => error.text?.map (("decode " ++ path ++ ": ") ++ ·)
  | unordered error => some ("order files: " ++ error.message id)

end LoadError

namespace Files

def without (texts : List (String × String)) (path : String) : List (String × String) :=
  texts.filter (·.1 != path)

theorem length_without_lt {texts : List (String × String)} {path : String}
    {found : String × String} (h : texts.find? (·.1 == path) = some found) :
    (without texts path).length < texts.length := by
  have hfound : found.1 = path := by simpa using List.find?_some h
  exact List.length_filter_lt_length_iff_exists.mpr
    ⟨found, List.mem_of_find?_eq_some h, by simp [hfound]⟩

/-- Reads the files in the queue and those that they import, each once. Imported files that are
absent are passed over; the entry must be there. -/
def gather (refusal : String → Refusal) (entry : String) (unread : List (String × String))
    (queue visited : List String) : Except LoadError (List SourceFile) :=
  match queue with
  | [] => .ok []
  | path :: queue =>
    if visited.contains path then gather refusal entry unread queue visited
    else
      match h : unread.find? (·.1 == path) with
      | none =>
        let reason := refusal path
        if path != entry && reason.isAbsent then
          gather refusal entry unread queue (path :: visited)
        else .error (.unreadable path reason)
      | some (_, text) =>
        match SourceFile.ofText path text with
        | .error error => .error (.undecodable path error)
        | .ok file => do
          have := length_without_lt h
          let rest ← gather refusal entry (without unread path)
            (queue ++ file.dependencies) (path :: visited)
          return file :: rest
termination_by (unread.length, queue.length)

def reached (files : Files) (entry : String) : Except LoadError (List SourceFile) :=
  gather files.refusal entry files.texts [entry] []

end Files

end TypeSearch
