/-!
Ordering nodes so that each comes after the nodes it depends on. Nodes that do not depend on each
other stay in the order in which they are given.
-/

namespace TypeSearch.Order

variable {α : Type} [DecidableEq α]

inductive Error (α : Type) where
  /-- `source` depends on `target`, and `chain` leads from `target` to `source`. -/
  | cycle (source target : α) (chain : List α)
  | unknown (source target : α)
  deriving Repr, Inhabited

namespace Error

def source : Error α → α
  | cycle source _ _ => source
  | unknown source _ => source

def message (render : α → String) : Error α → String
  | cycle _ target chain =>
    "dependency cycle: " ++ " -> ".intercalate ((chain ++ [target]).map render)
  | unknown source target => render source ++ " depends on unknown " ++ render target

end Error

def indexOf? (nodes : List α) (node : α) : Option (Fin nodes.length) :=
  (List.finRange nodes.length).reverse.find? fun index => nodes.get index = node

/-- The first dependency on something that is not a node: what depends on it, and what it is. -/
def unknown? (nodes : List α) (dependencies : α → List α) : Option (α × α) :=
  nodes.findSome? fun source =>
    ((dependencies source).find? fun target => target ∉ nodes).map fun target => (source, target)

def targets (nodes : List α) (dependencies : α → List α) (index : Fin nodes.length) :
    List (Fin nodes.length) :=
  (dependencies (nodes.get index)).filterMap (indexOf? nodes)

variable {count : Nat}

/-- The positions that a walk has left, last one first. -/
abbrev Walk (count : Nat) := List (Fin count)

/-- A dependency on a position of the path that leads to it: the path, innermost first, and the
position. -/
structure Cycle (count : Nat) where
  path : List (Fin count)
  target : Fin count
  target_mem : target ∈ path

namespace Cycle

def source (cycle : Cycle count) : Fin count :=
  cycle.path.head (List.ne_nil_of_mem cycle.target_mem)

def chain (cycle : Cycle count) : List (Fin count) :=
  (cycle.path.takeWhile (· != cycle.target) ++ [cycle.target]).reverse

end Cycle

/-- Visits those of the positions below `path` that were not visited yet. -/
def visitEach (visit : Fin count → Walk count → Except (Cycle count) (Walk count))
    (path : List (Fin count)) : List (Fin count) → Walk count → Except (Cycle count) (Walk count)
  | [], walk => .ok walk
  | target :: rest, walk =>
    if h : target ∈ path then .error ⟨path, target, h⟩
    else if target ∈ walk then visitEach visit path rest walk
    else do
      let walk ← visit target walk
      visitEach visit path rest walk

/-- Visits a position after its targets. The positions on the way are distinct, so `depth` need not
be more than their number. -/
def visit (targets : Fin count → List (Fin count)) :
    (depth : Nat) → List (Fin count) → Fin count → Walk count → Except (Cycle count) (Walk count)
  | 0, _, _, walk => .ok walk
  | depth + 1, path, node, walk => do
    let walk ← visitEach (visit targets depth (node :: path)) (node :: path) (targets node) walk
    return node :: walk

def walk (targets : Fin count → List (Fin count)) : Except (Cycle count) (Walk count) :=
  visitEach (visit targets count []) [] (List.finRange count) []

def order (nodes : List α) (dependencies : α → List α) : Except (Error α) (List α) :=
  match unknown? nodes dependencies with
  | some (source, target) => .error (.unknown source target)
  | none =>
    match walk (targets nodes dependencies) with
    | .ok visited => .ok (visited.reverse.map nodes.get)
    | .error cycle =>
      .error (.cycle (nodes.get cycle.source) (nodes.get cycle.target)
        (cycle.chain.map nodes.get))

theorem unknown?_eq_some {nodes : List α} {dependencies : α → List α} {source target : α}
    (h : unknown? nodes dependencies = some (source, target)) :
    source ∈ nodes ∧ target ∈ dependencies source ∧ target ∉ nodes := by
  obtain ⟨source, hsource, hfound⟩ := List.exists_of_findSome?_eq_some h
  obtain ⟨target, htarget, hpair⟩ := Option.map_eq_some_iff.mp hfound
  cases hpair
  exact ⟨hsource, List.mem_of_find?_eq_some htarget, by simpa using List.find?_some htarget⟩

theorem source_mem {nodes : List α} {dependencies : α → List α} {error : Error α}
    (h : order nodes dependencies = .error error) : error.source ∈ nodes := by
  rw [order] at h
  split at h
  next source target hunknown =>
    cases h
    exact (unknown?_eq_some hunknown).1
  next =>
    split at h
    next => cases h
    next cycle _ =>
      cases h
      exact List.get_mem nodes cycle.source

end TypeSearch.Order
