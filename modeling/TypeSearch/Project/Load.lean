import TypeSearch.Inference.File
import TypeSearch.Issue.Report
import TypeSearch.Project.Files

/-!
Projects: all files that an entry file reaches, inferred one after the other so that each comes
after those that it imports.
-/

namespace TypeSearch

structure Project where
  entry : String
  sources : List SourceFile
  files : List TypedFile
  /-- Issues that belong to no single file. -/
  ownIssues : List Issue

namespace Project

def defaultEntry : String := "main.yaml"

def file? (project : Project) (path : String) : Option TypedFile :=
  project.files.find? (·.path == path)

def issues (project : Project) : List Issue :=
  project.ownIssues ++ project.files.flatMap (·.issues)

def linesOf (project : Project) (path : String) : Option Lines :=
  (project.sources.find? (·.path == path)).map (·.lines)

def sortedIssues (project : Project) : List Issue :=
  Issue.sort (fun path => project.sources.findIdx (·.path == path)) project.issues

def cycleIssue (sources : List SourceFile) (source target : String) (chain : List String) : Issue :=
  let closing := (sources.find? (·.path == source)).bind fun file =>
    (file.program.imports.zip file.dependencies).find? (·.2 == target)
  ⟨source, closing.map fun (i, _) => ⟨source, i.site.span⟩, .cycle source target chain⟩

def dependenciesIn (sources : List SourceFile) (path : String) : List String :=
  ((sources.find? (·.path == path)).map (·.dependencies)).getD [] |>.filter fun dependency =>
    sources.any (·.path == dependency)

def remaining (sources : List SourceFile) (skipped : List String) : List String :=
  (sources.map (·.path)).filter (· ∉ skipped)

theorem length_remaining_lt {sources : List SourceFile} {skipped : List String} {path : String}
    (hpath : path ∈ remaining sources skipped) (added : List String) (hadded : path ∈ added) :
    (remaining sources (added ++ skipped)).length < (remaining sources skipped).length := by
  have hfilter : remaining sources (added ++ skipped) =
      (remaining sources skipped).filter (· ∉ added) := by
    simp [remaining, List.filter_filter, not_or]
  rw [hfilter]
  exact List.length_filter_lt_length_iff_exists.mpr ⟨path, hpath, by simpa using hadded⟩

/-- Orders the files that are not skipped. If some of them are on an import cycle, they are skipped
as well, and so is a file that depends on a skipped one. -/
def arrange (sources : List SourceFile) (skipped : List String) :
    Except (Order.Error String) (List String × List Issue) :=
  match h : Order.order (remaining sources skipped) (dependenciesIn sources) with
  | .ok ordered => .ok (ordered, [])
  | .error (.cycle source target chain) => do
    have := length_remaining_lt (Order.source_mem h) (source :: target :: chain)
      List.mem_cons_self
    let (ordered, issues) ← arrange sources (source :: target :: chain ++ skipped)
    return (ordered, cycleIssue sources source target chain :: issues)
  | .error (.unknown source target) =>
    have := length_remaining_lt (Order.source_mem h) [source] List.mem_cons_self
    if target ∈ skipped then arrange sources ([source] ++ skipped)
    else .error (.unknown source target)
termination_by (remaining sources skipped).length

def inferenceOrder (sources : List SourceFile) :
    Except (Order.Error String) (List String × List Issue) :=
  arrange sources []

def inferAll (done : List TypedFile) (fresher : Fresher) :
    List SourceFile → Except Halt (List TypedFile)
  | [] => .ok done
  | source :: rest => do
    let (file, fresher) ←
      TypedFile.infer source.path source.program source.dependencies done fresher
    inferAll (done ++ [file]) fresher rest

inductive Loaded where
  | project (project : Project)
  | error (error : LoadError)
  | halted (halt : Halt)

def ofSources (entry : String) (sources : List SourceFile) : Loaded :=
  match inferenceOrder sources with
  | .error error => .error (.unordered error)
  | .ok (order, ownIssues) =>
    match inferAll [] {} (order.filterMap fun path => sources.find? (·.path == path)) with
    | .error halt => .halted halt
    | .ok files => .project { entry, sources, files, ownIssues }

def load (files : Files) (entry : String) : Loaded :=
  let entry := Path.clean (if entry.isEmpty then defaultEntry else entry)
  match files.reached entry with
  | .error error => .error error
  | .ok sources => ofSources entry sources

end Project

end TypeSearch
