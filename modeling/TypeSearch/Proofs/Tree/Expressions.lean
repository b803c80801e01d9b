import TypeSearch.Proofs.Type.Structure
import TypeSearch.Tree.Decode
import TypeSearch.Tree.Walk

/-!
# Nodes that stand as expressions

`Node.expressions` lists the nodes of a tree that are inferred: expressions and statements, and
whatever else stands in the place of one. They are formed if functions have a branch and cases of a
`when` have a pattern. `Node.walk` lists the patterns and the types too.
-/

namespace TypeSearch.Tree

open List

variable {entries : List (Node × Node)} {node : Node} {entry : Node × Node} {program : Program}

def entryNodes (entries : List (Node × Node)) : List Node :=
  entries.flatMap fun entry => [entry.1, entry.2]

theorem mem_entryNodes :
    node ∈ entryNodes entries ↔ ∃ entry ∈ entries, node = entry.1 ∨ node = entry.2 := by
  simp [entryNodes]

theorem fst_mem_entryNodes (hentry : entry ∈ entries) : entry.1 ∈ entryNodes entries :=
  mem_entryNodes.mpr ⟨entry, hentry, .inl rfl⟩

theorem snd_mem_entryNodes (hentry : entry ∈ entries) : entry.2 ∈ entryNodes entries :=
  mem_entryNodes.mpr ⟨entry, hentry, .inr rfl⟩

namespace Node

variable {part : Node}

mutual

/-- A node and all nodes in it that stand where an expression or a statement belongs. -/
def expressions : Node → List Node
  | literal value => [literal value]
  | identifier site name => [identifier site name]
  | list site elements => list site elements :: expressionsAll elements
  | tuple site elements => tuple site elements :: expressionsAll elements
  | map site entries => map site entries :: expressionsEntries entries
  | application site function none => application site function none :: expressions function
  | application site function (some argument) =>
    application site function (some argument) :: (expressions function ++ expressions argument)
  | abstraction site branches => abstraction site branches :: expressionsClauses branches
  | assignment site target value exported =>
    assignment site target value exported :: expressions value
  | block site statements => block site statements :: expressionsAll statements
  | when site subject cases =>
    when site subject cases :: (expressions subject ++ expressionsClauses cases)
  | conditional site condition yes none =>
    conditional site condition yes none :: (expressions condition ++ expressions yes)
  | conditional site condition yes (some no) =>
    conditional site condition yes (some no) ::
      (expressions condition ++ expressions yes ++ expressions no)
  | comprehension site generators body =>
    comprehension site generators body :: (expressionsGenerators generators ++ expressions body)
  | access site target member => access site target member :: expressions target
  | annotated site value t => annotated site value t :: expressions value
  | importFile site path names moduleName => [importFile site path names moduleName]
  | module site name statements exported =>
    module site name statements exported :: expressionsAll statements
  | classType site name fields exported => [classType site name fields exported]
  | enumType site name variants exported => [enumType site name variants exported]
  | pattern p => [pattern p]
  | type t => [type t]

def expressionsAll : List Node → List Node
  | [] => []
  | node :: nodes => expressions node ++ expressionsAll nodes

def expressionsEntries : List (Node × Node) → List Node
  | [] => []
  | (key, value) :: entries => expressions key ++ expressions value ++ expressionsEntries entries

def expressionsClauses : List (List Pattern × Node) → List Node
  | [] => []
  | (_, body) :: clauses => expressions body ++ expressionsClauses clauses

def expressionsGenerators : List (Pattern × Node) → List Node
  | [] => []
  | (_, iterable) :: generators => expressions iterable ++ expressionsGenerators generators

end

/-- The nodes right inside a node that stand where an expression or a statement belongs. -/
def parts : Node → List Node
  | list _ elements | tuple _ elements => elements
  | map _ entries => entryNodes entries
  | application _ function argument => function :: argument.toList
  | abstraction _ branches => branches.map (·.2)
  | assignment _ _ value _ | annotated _ value _ => [value]
  | block _ statements | module _ _ statements _ => statements
  | when _ subject cases => subject :: cases.map (·.2)
  | conditional _ condition yes no => condition :: yes :: no.toList
  | comprehension _ generators body => generators.map (·.2) ++ [body]
  | access _ target _ => [target]
  | literal _ | identifier _ _ | importFile _ _ _ _ | classType _ _ _ _ | enumType _ _ _ _
  | pattern _ | type _ => []

theorem expressionsAll_eq (nodes : List Node) : expressionsAll nodes = nodes.flatMap expressions :=
  eq_flatMap_of_cons rfl (fun _ _ => rfl) nodes

theorem expressionsEntries_eq (entries : List (Node × Node)) :
    expressionsEntries entries = (entryNodes entries).flatMap expressions := by
  induction entries with
  | nil => rfl
  | cons entry entries ih => simp [expressionsEntries, entryNodes, ih]

theorem expressionsClauses_eq (clauses : List (List Pattern × Node)) :
    expressionsClauses clauses = (clauses.map (·.2)).flatMap expressions := by
  induction clauses with
  | nil => rfl
  | cons clause clauses ih => simp [expressionsClauses, ih]

theorem expressionsGenerators_eq (generators : List (Pattern × Node)) :
    expressionsGenerators generators = (generators.map (·.2)).flatMap expressions := by
  induction generators with
  | nil => rfl
  | cons generator generators ih => simp [expressionsGenerators, ih]

theorem expressions_eq (node : Node) :
    node.expressions = node :: node.parts.flatMap expressions := by
  cases node with
  | application site function argument => cases argument <;> simp [expressions, parts]
  | conditional site condition yes no => cases no <;> simp [expressions, parts]
  | _ => simp [expressions, parts, expressionsAll_eq, expressionsEntries_eq, expressionsClauses_eq,
      expressionsGenerators_eq]

theorem sizeOf_lt_of_mem_map {α : Type} [SizeOf α] {pairs : List (α × Node)}
    (hpart : part ∈ pairs.map (·.2)) : sizeOf part < sizeOf pairs := by
  obtain ⟨⟨first, second⟩, hmem, rfl⟩ := mem_map.mp hpart
  have hlt := sizeOf_lt_of_mem hmem
  rw [Prod.mk.sizeOf_spec] at hlt
  dsimp only
  omega

theorem sizeOf_lt_of_mem_parts (hpart : part ∈ node.parts) : sizeOf part < sizeOf node := by
  cases node <;> simp only [parts, mem_cons, mem_append, mem_entryNodes,
    not_mem_nil, or_false, Option.mem_toList] at hpart
  case list site elements | tuple site elements =>
    have hlt := sizeOf_lt_of_mem hpart
    simp only [list.sizeOf_spec, tuple.sizeOf_spec]
    omega
  case block site statements =>
    have hlt := sizeOf_lt_of_mem hpart
    rw [block.sizeOf_spec]
    omega
  case module site name statements exported =>
    have hlt := sizeOf_lt_of_mem hpart
    rw [module.sizeOf_spec]
    omega
  case map site entries =>
    obtain ⟨⟨key, value⟩, hentry, hmem⟩ := hpart
    have hlt := sizeOf_lt_of_mem hentry
    rw [Prod.mk.sizeOf_spec] at hlt
    rw [map.sizeOf_spec]
    rcases hmem with rfl | rfl <;> omega
  case abstraction site branches =>
    have hlt := sizeOf_lt_of_mem_map hpart
    rw [abstraction.sizeOf_spec]
    omega
  case when site subject cases =>
    rw [when.sizeOf_spec]
    rcases hpart with rfl | hcase
    · omega
    · have hlt := sizeOf_lt_of_mem_map hcase
      omega
  case comprehension site generators body =>
    rw [comprehension.sizeOf_spec]
    rcases hpart with hgenerator | rfl
    · have hlt := sizeOf_lt_of_mem_map hgenerator
      omega
    · omega
  case application site function argument =>
    rw [application.sizeOf_spec]
    rcases hpart with rfl | rfl
    · omega
    · rw [Option.some.sizeOf_spec]
      omega
  case conditional site condition yes no =>
    rw [conditional.sizeOf_spec]
    rcases hpart with rfl | rfl | rfl
    · omega
    · omega
    · rw [Option.some.sizeOf_spec]
      omega
  case assignment site target value exported =>
    rw [hpart, assignment.sizeOf_spec]
    omega
  case access site target member =>
    rw [hpart, access.sizeOf_spec]
    omega
  case annotated site value t =>
    rw [hpart, annotated.sizeOf_spec]
    omega

variable {p : Node → Prop}

theorem forall_mem_expressions :
    (∀ part ∈ node.expressions, p part) ↔
      p node ∧ ∀ part ∈ node.parts, ∀ q ∈ part.expressions, p q := by
  rw [expressions_eq, forall_mem_cons, forall_mem_flatMap]

theorem parts_induction (hnode : ∀ node, (∀ part ∈ node.parts, p part) → p node) (node : Node) :
    p node :=
  hnode node fun part hpart =>
    have _hsmaller := sizeOf_lt_of_mem_parts hpart
    parts_induction hnode part
termination_by sizeOf node

theorem expressions_closed (node : Node) (hall : ∀ part ∈ node.expressions, p part) :
    ∀ part ∈ node.expressions, ∀ q ∈ part.expressions, p q := by
  induction node using parts_induction with
  | hnode node ih =>
    rw [forall_mem_expressions]
    exact ⟨hall, fun part hpart => ih part hpart ((forall_mem_expressions.mp hall).2 part hpart)⟩

/-! ### All nodes -/

/-- The nodes right inside a node, patterns and types among them. -/
def held : Node → List Node
  | list _ elements | tuple _ elements => elements
  | map _ entries => entryNodes entries
  | application _ function argument => function :: argument.toList
  | abstraction _ branches => branches.flatMap fun branch => branch.1.map pattern ++ [branch.2]
  | assignment _ target value _ => [pattern target, value]
  | block _ statements | module _ _ statements _ => statements
  | when _ subject cases =>
    subject :: cases.flatMap fun clause => clause.1.map pattern ++ [clause.2]
  | conditional _ condition yes no => condition :: yes :: no.toList
  | comprehension _ generators body =>
    generators.flatMap (fun generator => [pattern generator.1, generator.2]) ++ [body]
  | access _ target _ => [target]
  | annotated _ value t => [type t, value]
  | classType _ _ fields _ => fields.map fun field => type field.2
  | enumType _ _ variants _ => variants.flatMap fun variant => variant.2.map type
  | pattern (.identifier binder) => binder.type.toList.map type
  | pattern (.literal _ value) => [literal value]
  | pattern (.tuple _ elements) | pattern (.constructor _ _ elements) => elements.map pattern
  | pattern (.list _ elements rest) =>
    elements.map pattern ++ rest.toList.map fun binder => pattern (.identifier binder)
  | type (.mk _ _ args) => args.map type
  | literal _ | identifier _ _ | importFile _ _ _ _ | pattern (.wildcard _) => []

theorem walkAll_eq (nodes : List Node) : walkAll nodes = nodes.flatMap walk :=
  eq_flatMap_of_cons rfl (fun _ _ => rfl) nodes

theorem walkAll_types (types : List TypeExpr) :
    TypeExpr.walkAll types = (types.map type).flatMap walk := by
  rw [flatMap_map]
  exact eq_flatMap_of_cons rfl (fun _ _ => rfl) types

theorem walkAll_patterns (patterns : List Pattern) :
    Pattern.walkAll patterns = (patterns.map pattern).flatMap walk := by
  rw [flatMap_map]
  exact eq_flatMap_of_cons rfl (fun _ _ => rfl) patterns

theorem walkEntries_eq (entries : List (Node × Node)) :
    walkEntries entries = (entryNodes entries).flatMap walk := by
  induction entries with
  | nil => rfl
  | cons entry entries ih => simp [walkEntries, entryNodes, ih]

theorem walkClauses_eq (clauses : List (List Pattern × Node)) :
    walkClauses clauses =
      (clauses.flatMap fun clause => clause.1.map pattern ++ [clause.2]).flatMap walk := by
  induction clauses with
  | nil => rfl
  | cons clause clauses ih => simp [walkClauses, walkAll_patterns, ih]

theorem walkGenerators_eq (generators : List (Pattern × Node)) :
    walkGenerators generators =
      (generators.flatMap fun generator => [pattern generator.1, generator.2]).flatMap walk := by
  induction generators with
  | nil => rfl
  | cons generator generators ih => simp [walkGenerators, walk, ih]

theorem walk_eq (node : Node) : node.walk = node :: node.held.flatMap walk := by
  cases node with
  | application site function argument => cases argument <;> simp [walk, held]
  | conditional site condition yes no => cases no <;> simp [walk, held]
  | pattern p =>
    cases p with
    | identifier binder =>
      cases htype : binder.type <;> simp [walk, Pattern.walk, Binder.walk, held, htype]
    | list site elements rest =>
      cases rest <;> simp [walk, Pattern.walk, held, walkAll_patterns]
    | _ => simp [walk, Pattern.walk, held, walkAll_patterns]
  | type t =>
    cases t
    simp [walk, TypeExpr.walk, held, walkAll_types]
  | classType site name fields exported =>
    rw [walk, held, walkAll_types, map_map]
    rfl
  | enumType site name variants exported => rw [walk, held, walkAll_types, map_flatMap]
  | _ => simp [walk, held, walkAll_eq, walkEntries_eq, walkClauses_eq, walkGenerators_eq]

theorem forall_mem_walk :
    (∀ part ∈ node.walk, p part) ↔ p node ∧ ∀ part ∈ node.held, ∀ q ∈ part.walk, p q := by
  rw [walk_eq, forall_mem_cons, forall_mem_flatMap]

theorem mem_held_of_mem_parts (hpart : part ∈ node.parts) : part ∈ node.held := by
  cases node <;> simp only [parts, held, mem_cons, mem_append, mem_map, mem_flatMap] at hpart ⊢
  all_goals grind

theorem expressions_subset_walk (node : Node) : node.expressions ⊆ node.walk := by
  induction node using parts_induction with
  | hnode node ih =>
    rw [expressions_eq, walk_eq]
    refine cons_subset_cons _ fun found hfound => ?_
    obtain ⟨part, hpart, hfound⟩ := mem_flatMap.mp hfound
    exact mem_flatMap.mpr ⟨part, mem_held_of_mem_parts hpart, ih part hpart hfound⟩

def Misplaced : Node → Prop
  | pattern _ | type _ => True
  | _ => False

instance : DecidablePred Misplaced := fun node => by
  cases node with
  | pattern | type => exact .isTrue trivial
  | _ => exact .isFalse id

def Formed : Node → Prop
  | abstraction _ branches => branches ≠ []
  | when _ _ cases => ∀ clause ∈ cases, clause.1 ≠ []
  | _ => True

def AllFormed (node : Node) : Prop := ∀ part ∈ node.expressions, part.Formed

theorem allFormed_iff : node.AllFormed ↔ node.Formed ∧ ∀ part ∈ node.parts, part.AllFormed :=
  forall_mem_expressions

end Node

/-- All nodes of a program that stand where an expression or a statement belongs. -/
def Program.expressions (program : Program) : List Node :=
  program.statements.flatMap Node.expressions

/-- Neither a pattern nor a type stands in the place of an expression. -/
def Program.Orderly (program : Program) : Prop := ∀ node ∈ program.expressions, ¬node.Misplaced

instance : DecidablePred Program.Orderly := fun program =>
  inferInstanceAs (Decidable (∀ node ∈ program.expressions, ¬node.Misplaced))

theorem Program.forall_mem_expressions {p : Node → Prop}
    (hall : ∀ node ∈ program.expressions, p node) :
    ∀ node ∈ program.expressions, ∀ part ∈ node.expressions, p part := by
  unfold Program.expressions at *
  rw [forall_mem_flatMap] at *
  exact fun node hnode => node.expressions_closed (hall node hnode)

theorem Program.mem_expressions (hnode : node ∈ program.statements) : node ∈ program.expressions :=
  mem_flatMap.mpr ⟨node, hnode, node.expressions_eq ▸ mem_cons_self⟩

end TypeSearch.Tree
