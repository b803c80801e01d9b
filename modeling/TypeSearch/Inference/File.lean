import TypeSearch.Inference.Node
import TypeSearch.Inference.Prelude

/-!
Inference of a whole file. Issues in one statement do not keep the next ones from being inferred.
-/

namespace TypeSearch

def TypedFile.infer (path : String) (program : Tree.Program) (dependencies : List String)
    (files : List TypedFile) (fresher : Fresher) : Except Halt (TypedFile × Fresher) :=
  let (prelude, fresher) := Prelude.bindings fresher
  let table := Table.ofFile path (some ⟨.program, path, program.span⟩) prelude
  let (outcome, state) :=
    Infer.units program.statements { program, dependencies, files } { table, fresher }
  match outcome with
  | .halted halt => .error halt
  | _ =>
    .ok ({ path, program, dependencies, table := state.table, types := state.types
           issues := state.issues }, state.fresher)

end TypeSearch
