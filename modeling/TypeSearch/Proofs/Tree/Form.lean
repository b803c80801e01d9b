import TypeSearch.Proofs.Tree.Expressions
import TypeSearch.Proofs.Yaml.Form

/-!
# How trees are written

Each node of a syntax tree has a form: its kind and its fields. The digits of a number are a field
whose key is left open here; with the other fields there is no choice.
-/

namespace TypeSearch.Tree

open Yaml (Form Written Fits)

def nodeForm (kind : Kind) (fields : List (String × Form)) : Form :=
  .record (("kind", .text kind.name) :: fields)

def optionalForm (name : String) : Option Form → List (String × Form)
  | some form => [(name, form)]
  | none => []

namespace TypeExpr

mutual

def form : TypeExpr → Form
  | mk _ name args => nodeForm .type [("name", .text name), ("args", .list (formAll args))]

def formAll : List TypeExpr → List Form
  | [] => []
  | t :: types => form t :: formAll types

end

mutual

def bare : TypeExpr → TypeExpr
  | mk _ name args => mk default name (bareAll args)

def bareAll : List TypeExpr → List TypeExpr
  | [] => []
  | t :: types => bare t :: bareAll types

end

theorem formAll_eq (types : List TypeExpr) : formAll types = types.map form :=
  eq_map_of_cons rfl (fun _ _ => rfl) types

theorem bareAll_eq (types : List TypeExpr) : bareAll types = types.map bare :=
  eq_map_of_cons rfl (fun _ _ => rfl) types

end TypeExpr

def Literal.form (key : String) : Literal → Form
  | number _ digits => nodeForm .number [(key, .text digits)]
  | string _ text => nodeForm .string [("value", .text text)]
  | boolean _ value => nodeForm .boolean [("value", .flag value)]

/-- The literal without its site, if `digits` is made of the digits of numbers. -/
def Literal.bare (digits : String → String) : Literal → Literal
  | number _ text => number default (digits text)
  | string _ text => string default text
  | boolean _ value => boolean default value

def Binder.form (binder : Binder) : Form :=
  nodeForm .identifierPattern
    (("name", .text binder.name) :: optionalForm "annotation" (binder.type.map TypeExpr.form))

def Binder.bare (binder : Binder) : Binder :=
  ⟨default, binder.name, binder.type.map TypeExpr.bare⟩

namespace Pattern

section Form

variable (key : String)

mutual

def form : Pattern → Form
  | identifier binder => binder.form
  | wildcard _ => nodeForm .wildcardPattern []
  | literal _ value => nodeForm .literalPattern [("literal", value.form key)]
  | tuple _ elements => nodeForm .tuplePattern [("elements", .list (formAll elements))]
  | list _ elements rest =>
    nodeForm .listPattern
      (("elements", .list (formAll elements)) :: optionalForm "rest" (rest.map Binder.form))
  | constructor _ name args =>
    nodeForm .constructorPattern [("name", .text name), ("args", .list (formAll args))]

def formAll : List Pattern → List Form
  | [] => []
  | pattern :: patterns => form pattern :: formAll patterns

end

theorem formAll_eq (patterns : List Pattern) : formAll key patterns = patterns.map (form key) :=
  eq_map_of_cons rfl (fun _ _ => rfl) patterns

end Form

section Bare

variable (digits : String → String)

mutual

def bare : Pattern → Pattern
  | identifier binder => identifier binder.bare
  | wildcard _ => wildcard default
  | literal _ value => literal default (value.bare digits)
  | tuple _ elements => tuple default (bareAll elements)
  | list _ elements rest => list default (bareAll elements) (rest.map Binder.bare)
  | constructor _ name args => constructor default name (bareAll args)

def bareAll : List Pattern → List Pattern
  | [] => []
  | pattern :: patterns => bare pattern :: bareAll patterns

end

theorem bareAll_eq (patterns : List Pattern) :
    bareAll digits patterns = patterns.map (bare digits) :=
  eq_map_of_cons rfl (fun _ _ => rfl) patterns

end Bare

theorem depth_form_pos {key : String} (p : Pattern) : 0 < (p.form key).depth := by
  cases p <;> rw [form] <;> exact Nat.succ_pos _

end Pattern

namespace Node

section Form

variable (key : String)

def clauseForm (list : String) (patterns : List Pattern) (body : Form) : Form :=
  .record [(list, .list (patterns.map (Pattern.form key))), ("body", body)]

def fieldForm (field : String × TypeExpr) : Form :=
  .record [("name", .text field.1), ("type", field.2.form)]

def variantForm (variant : String × List TypeExpr) : Form :=
  .record [("name", .text variant.1), ("fields", .list (variant.2.map TypeExpr.form))]

mutual

def form : Node → Form
  | literal value => value.form key
  | identifier _ name => nodeForm .identifier [("name", .text name)]
  | list _ elements => nodeForm .list [("elements", .list (formAll elements))]
  | tuple _ elements => nodeForm .tuple [("elements", .list (formAll elements))]
  | map _ entries => nodeForm .map [("entries", .list (formEntries entries))]
  | application _ function none => nodeForm .application [("function", form function)]
  | application _ function (some argument) =>
    nodeForm .application [("function", form function), ("argument", form argument)]
  | abstraction _ branches =>
    nodeForm .abstraction [("branches", .list (formClauses "params" branches))]
  | assignment _ target value exported =>
    nodeForm .assignment
      [("pattern", target.form key), ("value", form value), ("exported", .flag exported)]
  | block _ statements => nodeForm .block [("statements", .list (formAll statements))]
  | when _ subject cases =>
    nodeForm .when
      [("subject", form subject), ("cases", .list (formClauses "patterns" cases))]
  | conditional _ condition yes none =>
    nodeForm .conditional [("condition", form condition), ("then", form yes)]
  | conditional _ condition yes (some no) =>
    nodeForm .conditional
      [("condition", form condition), ("then", form yes), ("else", form no)]
  | comprehension _ generators body =>
    nodeForm .comprehension
      [("generators", .list (formGenerators generators)), ("body", form body)]
  | access _ target member => nodeForm .access [("target", form target), ("member", .text member)]
  | annotated _ value t => nodeForm .annotated [("value", form value), ("type", t.form)]
  | importFile _ path names moduleName =>
    nodeForm .importFile
      [("path", .text path), ("names", .list (names.map .text)), ("alias", .text moduleName)]
  | module _ name statements exported =>
    nodeForm .module
      [("name", .text name), ("statements", .list (formAll statements)),
        ("exported", .flag exported)]
  | classType _ name fields exported =>
    nodeForm .classType
      [("name", .text name), ("fields", .list (fields.map fieldForm)), ("exported", .flag exported)]
  | enumType _ name variants exported =>
    nodeForm .enumType
      [("name", .text name), ("variants", .list (variants.map variantForm)),
        ("exported", .flag exported)]
  | pattern p => p.form key
  | type t => t.form

def formAll : List Node → List Form
  | [] => []
  | node :: nodes => form node :: formAll nodes

def formEntries : List (Node × Node) → List Form
  | [] => []
  | (entryKey, value) :: entries =>
    .record [("key", form entryKey), ("value", form value)] :: formEntries entries

def formClauses (list : String) : List (List Pattern × Node) → List Form
  | [] => []
  | (patterns, body) :: clauses =>
    clauseForm key list patterns (form body) :: formClauses list clauses

def formGenerators : List (Pattern × Node) → List Form
  | [] => []
  | (target, iterable) :: generators =>
    .record [("pattern", target.form key), ("iterable", form iterable)] :: formGenerators generators

end

theorem formAll_eq (nodes : List Node) : formAll key nodes = nodes.map (form key) :=
  eq_map_of_cons rfl (fun _ _ => rfl) nodes

theorem formEntries_eq (entries : List (Node × Node)) :
    formEntries key entries =
      entries.map fun entry => .record [("key", entry.1.form key), ("value", entry.2.form key)] :=
  eq_map_of_cons rfl (fun _ _ => rfl) entries

theorem formClauses_eq (list : String) (clauses : List (List Pattern × Node)) :
    formClauses key list clauses =
      clauses.map fun clause => clauseForm key list clause.1 (clause.2.form key) :=
  eq_map_of_cons rfl (fun _ _ => rfl) clauses

theorem formGenerators_eq (generators : List (Pattern × Node)) :
    formGenerators key generators =
      generators.map fun generator =>
        .record [("pattern", generator.1.form key), ("iterable", generator.2.form key)] :=
  eq_map_of_cons rfl (fun _ _ => rfl) generators

end Form

theorem depth_form_pos {key : String} (node : Node) : 0 < (node.form key).depth := by
  cases node with
  | literal value => cases value <;> exact Nat.succ_pos _
  | application site function argument => cases argument <;> exact Nat.succ_pos _
  | conditional site condition yes no => cases no <;> exact Nat.succ_pos _
  | pattern p => exact p.depth_form_pos
  | type t => cases t; exact Nat.succ_pos _
  | _ =>
    rw [form]
    exact Nat.succ_pos _

section Bare

variable (digits : String → String)

mutual

/-- The tree without its sites, if `digits` is made of the digits of numbers. -/
def bare : Node → Node
  | literal value => literal (value.bare digits)
  | identifier _ name => identifier default name
  | list _ elements => list default (bareAll elements)
  | tuple _ elements => tuple default (bareAll elements)
  | map _ entries => map default (bareEntries entries)
  | application _ function none => application default (bare function) none
  | application _ function (some argument) =>
    application default (bare function) (some (bare argument))
  | abstraction _ branches => abstraction default (bareClauses branches)
  | assignment _ target value exported =>
    assignment default (target.bare digits) (bare value) exported
  | block _ statements => block default (bareAll statements)
  | when _ subject cases => when default (bare subject) (bareClauses cases)
  | conditional _ condition yes none => conditional default (bare condition) (bare yes) none
  | conditional _ condition yes (some no) =>
    conditional default (bare condition) (bare yes) (some (bare no))
  | comprehension _ generators body =>
    comprehension default (bareGenerators generators) (bare body)
  | access _ target member => access default (bare target) member
  | annotated _ value t => annotated default (bare value) t.bare
  | importFile _ path names moduleName => importFile default path names moduleName
  | module _ name statements exported => module default name (bareAll statements) exported
  | classType _ name fields exported =>
    classType default name (fields.map fun field => (field.1, field.2.bare)) exported
  | enumType _ name variants exported =>
    enumType default name
      (variants.map fun variant => (variant.1, variant.2.map TypeExpr.bare)) exported
  | pattern p => pattern (p.bare digits)
  | type t => type t.bare

def bareAll : List Node → List Node
  | [] => []
  | node :: nodes => bare node :: bareAll nodes

def bareEntries : List (Node × Node) → List (Node × Node)
  | [] => []
  | (key, value) :: entries => (bare key, bare value) :: bareEntries entries

def bareClauses : List (List Pattern × Node) → List (List Pattern × Node)
  | [] => []
  | (patterns, body) :: clauses =>
    (patterns.map (Pattern.bare digits), bare body) :: bareClauses clauses

def bareGenerators : List (Pattern × Node) → List (Pattern × Node)
  | [] => []
  | (target, iterable) :: generators =>
    (target.bare digits, bare iterable) :: bareGenerators generators

end

theorem bareAll_eq (nodes : List Node) : bareAll digits nodes = nodes.map (bare digits) :=
  eq_map_of_cons rfl (fun _ _ => rfl) nodes

theorem bareEntries_eq (entries : List (Node × Node)) :
    bareEntries digits entries =
      entries.map fun entry => (entry.1.bare digits, entry.2.bare digits) :=
  eq_map_of_cons rfl (fun _ _ => rfl) entries

theorem bareClauses_eq (clauses : List (List Pattern × Node)) :
    bareClauses digits clauses =
      clauses.map fun clause => (clause.1.map (Pattern.bare digits), clause.2.bare digits) :=
  eq_map_of_cons rfl (fun _ _ => rfl) clauses

theorem bareGenerators_eq (generators : List (Pattern × Node)) :
    bareGenerators digits generators =
      generators.map fun generator => (generator.1.bare digits, generator.2.bare digits) :=
  eq_map_of_cons rfl (fun _ _ => rfl) generators

end Bare

theorem exists_literal_of_bare {digits digits' : String → String} {node : Node} {value : Literal}
    (hbare : node.bare digits = (literal value).bare digits') :
    ∃ value', node = literal value' ∧ value'.bare digits = value.bare digits' := by
  rw [bare] at hbare
  cases node with
  | literal value' =>
    rw [bare] at hbare
    exact ⟨value', rfl, literal.inj hbare⟩
  | application site function argument => cases argument <;> cases hbare
  | conditional site condition yes no => cases no <;> cases hbare
  | _ => cases hbare

def NamesFile : Node → Prop
  | importFile _ path _ _ => path ≠ ""
  | _ => True

/-- Expressions stand where expressions belong, functions have branches, cases have patterns, and
imports name files. -/
def Placed (node : Node) : Prop :=
  ∀ part ∈ node.expressions, ¬part.Misplaced ∧ part.Formed ∧ part.NamesFile

theorem placed_iff {node : Node} :
    node.Placed ↔ (¬node.Misplaced ∧ node.Formed ∧ node.NamesFile) ∧
      ∀ part ∈ node.parts, part.Placed :=
  forall_mem_expressions

theorem Placed.parts {node : Node} (hplaced : node.Placed) : ∀ part ∈ node.parts, part.Placed :=
  (placed_iff.mp hplaced).2

end Node

def fileForm (key : String) (statements : List Node) : Form :=
  .record [("statements", .list (statements.map (Node.form key)))]

end TypeSearch.Tree
