import TypeSearch.CommandLine.Dump
import TypeSearch.CommandLine.Options
import TypeSearch.Project.Load

/-!
The `check` command: it loads the project of a file and prints what is wrong with it.
-/

namespace TypeSearch.CommandLine

/-- What a run prints and whether it fails. The text of some errors is not fixed. -/
structure Report where
  out : String := ""
  err : Option String := some ""
  failed : Bool := false
  deriving Repr, Inhabited

namespace Report

def failure (message : Option String) (out err : String) : Report :=
  { out, err := message.map fun message => err ++ "Error: " ++ message ++ "\n", failed := true }

end Report

def typesText (project : Project) : String :=
  String.join <| project.files.flatMap fun file => file.exports.map fun binding =>
    file.path ++ ": " ++ binding.name ++ ": " ++ binding.type.text ++ "\n"

def dumpText (project : Project) : String :=
  String.join <| project.files.map fun file =>
    file.path ++ ":\n" ++ (Dumped.ofFile file).render ++ "\n"

def issuesText (project : Project) : String :=
  String.join <| project.sortedIssues.map fun issue => issue.textAt project.linesOf ++ "\n"

def report (options : Options) (project : Project) : Report :=
  let out := (if options.showTypes then typesText project else "") ++
    (if options.dump then dumpText project else "")
  let count := project.issues.length
  if count = 0 then { out }
  else .failure (some (count.repr ++ " errors found")) out (issuesText project)

def helpText : String :=
  String.join <| [
    "Type-check a program, starting from its entry file",
    "",
    "Usage:",
    "  check file.yaml [flags]",
    "",
    "Flags:",
    "      --dump            print the bindings of every scope of every file",
    "  -h, --help            help for check",
    "  -l, --log-level int   log level (default 8)",
    "      --show-types      print every exported binding with its type"].map (· ++ "\n")

def check (filesIn : (folder : String) → Files) (arguments : List String) : Except Halt Report :=
  match Request.ofArguments arguments with
  | .error error => .ok (.failure (some error.message) "" "")
  | .ok .help => .ok { out := helpText }
  | .ok (.check options path) =>
    let target := Path.clean path
    match Project.load (filesIn (Path.folder target)) (Path.base target) with
    | .project project => .ok (report options project)
    | .error error => .ok (.failure (error.text?.map ("could not load program: " ++ ·)) "" "")
    | .halted halt => .error halt

end TypeSearch.CommandLine
