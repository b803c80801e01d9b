import TypeSearch.CommandLine.Check

/-!
The command line program. It reads the files that a run needs and prints its report.
-/

namespace TypeSearch.CommandLine

def systemRefusal (path : String) : IO.Error → Refusal
  | .noFileOrDirectory _ _ _ => ⟨"open " ++ path ++ ": no such file or directory", true⟩
  | error => ⟨"open " ++ path ++ ": " ++ error.toString, false⟩

partial def readFiles (folder : String) (texts : List (String × String))
    (refusals : List (String × Refusal)) : List String → IO Files
  | [] => return { texts, refusal := fun path => (refusals.lookup path).getD default }
  | path :: queue => do
    if (texts.lookup path).isSome || (refusals.lookup path).isSome then
      readFiles folder texts refusals queue
    else if !Path.isLocal path then
      let refusal := (Files.belowFolder [] folder).refusal path
      readFiles folder texts ((path, refusal) :: refusals) queue
    else
      match ← (IO.FS.readFile (folder ++ "/" ++ path)).toBaseIO with
      | .ok text =>
        let imported := match SourceFile.ofText path text with
          | .ok file => file.dependencies
          | .error _ => []
        readFiles folder ((path, text) :: texts) refusals (queue ++ imported)
      | .error error =>
        readFiles folder texts ((path, systemRefusal path error) :: refusals) queue

def runCheck (arguments : List String) : IO UInt32 := do
  let files ← match Request.ofArguments arguments with
    | .ok (.check _ path) =>
      let target := Path.clean path
      readFiles (Path.folder target) [] [] [Path.base target]
    | _ => pure (Files.inMemory [])
  match check (fun _ => files) arguments with
  | .ok report =>
    IO.print report.out
    IO.eprint (report.err.getD "Error: could not load program\n")
    return if report.failed then 1 else 0
  | .error halt =>
    IO.eprintln halt.message
    return 2

end TypeSearch.CommandLine

def main (arguments : List String) : IO UInt32 :=
  match arguments with
  | "check" :: rest => TypeSearch.CommandLine.runCheck rest
  | _ => do
    IO.eprintln "usage: check file.yaml [-l level] [--show-types] [--dump]"
    return 1
