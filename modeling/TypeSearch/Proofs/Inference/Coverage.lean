import TypeSearch.Proofs.Inference.Reach

/-!
# The nodes that have a type

If a file is inferred without an issue, its statements are covered: the nodes in them have types, at
any depth, but for what comprehensions go through, for the subjects of a `when` without cases, and
for alternatives, of which each case has one that has a type. In a program without these every node
has a type that is not a type itself.
-/

namespace TypeSearch

open List
open TypeSearch.Tree (Binder Node Pattern Program TypeExpr)

namespace Tree

/-! ### The nodes of a tree -/

variable {marked : Nat → Prop} {node : Node}

def AllMarked (marked : Nat → Prop) (nodes : List Node) : Prop :=
  ∀ node ∈ nodes, node.isType = false → marked node.site.key

theorem allMarked_walk_iff :
    AllMarked marked node.walk ↔
      (node.isType = false → marked node.site.key) ∧
        ∀ part ∈ node.held, AllMarked marked part.walk :=
  Node.forall_mem_walk

mutual

theorem TypeExpr.allMarked_walk : ∀ t : TypeExpr, AllMarked marked t.walk
  | .mk _ _ args =>
    forall_mem_cons.mpr ⟨nofun, TypeExpr.allMarked_walkAll args⟩

theorem TypeExpr.allMarked_walkAll : ∀ types : List TypeExpr, AllMarked marked (walkAll types)
  | [] => nofun
  | type :: types =>
    forall_mem_append.mpr ⟨type.allMarked_walk, TypeExpr.allMarked_walkAll types⟩

end

theorem allMarked_types (types : List TypeExpr) :
    ∀ part ∈ types.map Node.type, AllMarked marked part.walk :=
  forall_mem_map.mpr fun t _ => t.allMarked_walk

theorem Pattern.Covered.allMarked {p : Pattern} (hcovered : p.Covered marked) :
    AllMarked marked p.walk := by
  change AllMarked marked (Node.pattern p).walk
  induction hcovered with
  | identifier hkey => exact allMarked_walk_iff.mpr ⟨fun _ => hkey, allMarked_types _⟩
  | wildcard hkey => exact allMarked_walk_iff.mpr ⟨fun _ => hkey, nofun⟩
  | literal hkey hvalue =>
    refine allMarked_walk_iff.mpr ⟨fun _ => hkey, forall_mem_singleton.mpr ?_⟩
    exact allMarked_walk_iff.mpr ⟨fun _ => hvalue, nofun⟩
  | tuple hkey _ ih | constructor hkey _ ih =>
    exact allMarked_walk_iff.mpr ⟨fun _ => hkey, forall_mem_map.mpr ih⟩
  | list hkey _ hrest ih =>
    refine allMarked_walk_iff.mpr ⟨fun _ => hkey, forall_mem_append.mpr ⟨forall_mem_map.mpr ih, ?_⟩⟩
    refine forall_mem_map.mpr fun binder hbinder => ?_
    have hkey := hrest binder (Option.mem_toList.mp hbinder)
    exact allMarked_walk_iff.mpr ⟨fun _ => hkey, allMarked_types _⟩

namespace Node

theorem allMarked_clauses {clauses : List (List Pattern × Node)}
    (hpatterns : ∀ clause ∈ clauses, ∀ p ∈ clause.1, p.Covered marked)
    (hbodies : ∀ clause ∈ clauses, AllMarked marked clause.2.walk) :
    ∀ part ∈ clauses.flatMap fun clause => clause.1.map pattern ++ [clause.2],
      AllMarked marked part.walk := by
  refine forall_mem_flatMap.mpr fun clause hclause => forall_mem_append.mpr ⟨?_, ?_⟩
  · exact forall_mem_map.mpr fun p hp => (hpatterns clause hclause p hp).allMarked
  · exact forall_mem_singleton.mpr (hbodies clause hclause)

/-- A comprehension goes through nothing, and a `when` has cases, of one pattern each. -/
def Plain : Node → Prop
  | comprehension _ generators _ => generators = []
  | when _ _ cases => cases ≠ [] ∧ ∀ clause ∈ cases, clause.1.length ≤ 1
  | _ => True

theorem plain_when_iff {site : Site} {subject : Node} {cases : List (List Pattern × Node)} :
    (!cases.isEmpty && cases.all fun clause => clause.1.length.ble 1) = true ↔
      (when site subject cases).Plain := by
  simp [Plain]

instance : DecidablePred Plain
  | comprehension _ generators _ =>
    decidable_of_iff (generators.isEmpty = true) List.isEmpty_iff
  | when _ _ _ => decidable_of_iff _ plain_when_iff
  | literal _ | identifier _ _ | list _ _ | tuple _ _ | map _ _ | application _ _ _
  | abstraction _ _ | assignment _ _ _ _ | block _ _ | conditional _ _ _ _ | access _ _ _
  | annotated _ _ _ | importFile _ _ _ _ | module _ _ _ _ | classType _ _ _ _
  | enumType _ _ _ _ | pattern _ | type _ => .isTrue trivial

theorem Covered.allMarked (hcovered : node.Covered marked)
    (hplain : ∀ part ∈ node.expressions, part.Plain) : AllMarked marked node.walk := by
  induction hcovered with
  | literal hkey | identifier hkey | importFile hkey =>
    exact allMarked_walk_iff.mpr ⟨fun _ => hkey, nofun⟩
  | list hkey _ ih | tuple hkey _ ih | block hkey _ ih | module hkey _ ih =>
    have hparts := (forall_mem_expressions.mp hplain).2
    exact allMarked_walk_iff.mpr
      ⟨fun _ => hkey, fun part hpart => ih part hpart (hparts part hpart)⟩
  | map hkey _ _ ihkeys ihvalues =>
    have hparts := (forall_mem_expressions.mp hplain).2
    refine allMarked_walk_iff.mpr ⟨fun _ => hkey, fun part hpart => ?_⟩
    obtain ⟨entry, hentry, rfl | rfl⟩ := mem_entryNodes.mp hpart
    · exact ihkeys entry hentry (hparts _ hpart)
    · exact ihvalues entry hentry (hparts _ hpart)
  | application hkey _ _ ihfunction ihargument =>
    obtain ⟨hfunction, hargument⟩ := forall_mem_cons.mp (forall_mem_expressions.mp hplain).2
    refine allMarked_walk_iff.mpr ⟨fun _ => hkey, forall_mem_cons.mpr ⟨ihfunction hfunction, ?_⟩⟩
    exact fun part hpart => ihargument part (Option.mem_toList.mp hpart) (hargument part hpart)
  | abstraction hkey hparams _ ih =>
    have hparts := (forall_mem_expressions.mp hplain).2
    exact allMarked_walk_iff.mpr ⟨fun _ => hkey, allMarked_clauses hparams fun branch hbranch =>
      ih branch hbranch (hparts _ (mem_map_of_mem hbranch))⟩
  | assignment hkey htarget _ ih =>
    have hvalue := forall_mem_singleton.mp (forall_mem_expressions.mp hplain).2
    refine allMarked_walk_iff.mpr ⟨fun _ => hkey, forall_mem_cons.mpr ⟨htarget.allMarked, ?_⟩⟩
    exact forall_mem_singleton.mpr (ih hvalue)
  | when hkey _ halternative _ ihsubject ihbodies =>
    obtain ⟨⟨hsome, hsingle⟩, hparts⟩ := forall_mem_expressions.mp hplain
    obtain ⟨hsubject, hbodies⟩ := forall_mem_cons.mp hparts
    refine allMarked_walk_iff.mpr
      ⟨fun _ => hkey, forall_mem_cons.mpr ⟨ihsubject hsome hsubject, ?_⟩⟩
    refine allMarked_clauses (fun clause hclause p hp => ?_) fun clause hclause =>
      ihbodies clause hclause (hbodies _ (mem_map_of_mem hclause))
    -- the one pattern of the case is the one that is covered
    obtain ⟨q, hq, hcovered⟩ := halternative clause hclause
    obtain ⟨only, honly⟩ := length_eq_one_iff.mp
      (Nat.le_antisymm (hsingle clause hclause) (length_pos_of_mem hq))
    rw [honly, mem_singleton] at hp hq
    rwa [hp, ← hq]
  | conditional hkey _ _ _ ihcondition ihyes ihno =>
    obtain ⟨hcondition, hparts⟩ := forall_mem_cons.mp (forall_mem_expressions.mp hplain).2
    obtain ⟨hyes, hno⟩ := forall_mem_cons.mp hparts
    refine allMarked_walk_iff.mpr ⟨fun _ => hkey, forall_mem_cons.mpr ⟨ihcondition hcondition,
      forall_mem_cons.mpr ⟨ihyes hyes, fun part hpart => ?_⟩⟩⟩
    exact ihno part (Option.mem_toList.mp hpart) (hno part hpart)
  | comprehension hkey _ _ ih =>
    obtain ⟨hnone, hparts⟩ := forall_mem_expressions.mp hplain
    obtain rfl : _ = [] := hnone
    exact allMarked_walk_iff.mpr
      ⟨fun _ => hkey, forall_mem_singleton.mpr (ih (forall_mem_singleton.mp hparts))⟩
  | access hkey _ ih =>
    have htarget := forall_mem_singleton.mp (forall_mem_expressions.mp hplain).2
    exact allMarked_walk_iff.mpr ⟨fun _ => hkey, forall_mem_singleton.mpr (ih htarget)⟩
  | annotated hkey _ ih =>
    have hvalue := forall_mem_singleton.mp (forall_mem_expressions.mp hplain).2
    refine allMarked_walk_iff.mpr ⟨fun _ => hkey, forall_mem_cons.mpr ⟨?_, ?_⟩⟩
    · exact TypeExpr.allMarked_walk _
    · exact forall_mem_singleton.mpr (ih hvalue)
  | classType hkey =>
    exact allMarked_walk_iff.mpr
      ⟨fun _ => hkey, forall_mem_map.mpr fun field _ => field.2.allMarked_walk⟩
  | enumType hkey =>
    exact allMarked_walk_iff.mpr
      ⟨fun _ => hkey, forall_mem_flatMap.mpr fun variant _ => allMarked_types variant.2⟩

end Node

end Tree

namespace TypedFile

/-- The statements of a file without issues are covered by nodes that have a type. So all nodes of a
plain program have one. -/
theorem nodes_are_typed {path text : String} {program : Program} {dependencies : List String}
    {files : List TypedFile} {fresher next : Fresher} {file : TypedFile}
    (hread : Program.ofText path text = .ok program) (hfiles : Inferred files)
    (hinfer : infer path program dependencies files fresher = .ok (file, next))
    (hclean : file.issues = []) :
    (∀ node ∈ program.statements, node.Covered fun key => (file.typeOf? key).isSome) ∧
    ((∀ node ∈ program.expressions, node.Plain) →
      ∀ node ∈ program.walk, node.isType = false → (file.typeOf? node.site.key).isSome) := by
  obtain ⟨-, -, -, -, -, hcovered⟩ := grows_of_infer hfiles.sound hread hinfer
  have htyped : ∀ node ∈ program.statements, node.Covered fun key => (file.typeOf? key).isSome :=
    fun node hnode => (hcovered hclean node hnode).mono fun key hkey =>
      Std.HashMap.isSome_getElem?_iff_mem.mpr hkey
  refine ⟨htyped, fun hplain => ?_⟩
  rw [Program.walk, Tree.Node.walkAll_eq, forall_mem_flatMap]
  exact fun node hnode => (htyped node hnode).allMarked fun part hpart =>
    hplain part (List.mem_flatMap.mpr ⟨node, hnode, hpart⟩)

/-- The result of a function of numbers is assigned to a pattern, inside a module. -/
def callText : String := "statements: [{kind: module, name: M, statements: [{kind: assignment,
  pattern: 1, value: {kind: application, argument: 4,
    function: {kind: abstraction, params: [2], body: 3}}}]}]"

def callKinds : List Tree.Kind := [.module, .assignment, .literalPattern, .number, .application,
  .abstraction, .literalPattern, .number, .number, .number]

theorem nodes_are_typed_of_call : ∃ program file next,
    Program.ofText "m" callText = .ok program ∧
      infer "m" program [] [] {} = .ok (file, next) ∧ file.issues = [] ∧
      program.walk.map (·.kind) = callKinds ∧
      ∀ node ∈ program.walk, node.isType = false → (file.typeOf? node.site.key).isSome := by
  have heval : ((Program.ofText "m" callText).toOption.any fun program =>
      decide ((∀ node ∈ program.expressions, node.Plain) ∧ program.walk.map (·.kind) = callKinds) &&
        (infer "m" program [] [] {}).toOption.any (·.1.issues.isEmpty)) = true := by
    decide +kernel
  obtain ⟨program, hread, htest⟩ := exists_of_any heval
  obtain ⟨hshape, hissues⟩ := Bool.and_eq_true_iff.mp htest
  obtain ⟨hplain, hkinds⟩ := of_decide_eq_true hshape
  cases hinfer : infer "m" program [] [] {} with
  | error halt =>
    rw [hinfer] at hissues
    cases hissues
  | ok found =>
    rw [hinfer] at hissues
    have hclean : found.1.issues = [] := List.isEmpty_iff.mp hissues
    refine ⟨program, found.1, found.2, hread, hinfer, hclean, hkinds, ?_⟩
    exact (nodes_are_typed hread .none hinfer hclean).2 hplain

end TypedFile

end TypeSearch
