import TypeSearch.Proofs.Inference.Reach

/-!
# Scopes are opened and closed in balance

However the inference of a node or a unit ends, with an answer or with a failure, the open scopes
are those that were open before. A run that halts, in a tree where neither a pattern nor a type
stands in the place of an expression, halts because of its types: facts are cyclic, or an expansion
does not end. Only on the way out of such a halt, when a body that was not left is found instead of
its function, can leaving a scope or merging a body halt too, and hide the first cause. There is
always a current scope, there is always a first answer, and types are made of other types and never
of none: all types of all states are proper.
-/

namespace TypeSearch

open Inference
open TypeSearch.Tree (Node Program)

namespace Infer

variable {α : Type} {orderly : Prop} {context : Context} {state : State}

/-- There are answers, and their types and graphs are proper if what was known before is. -/
def Formed (classes : Classes) (answers : Answers) : Prop :=
  answers.answers ≠ [] ∧ (classes.Proper → ∀ a ∈ answers.answers, a.Proper)

/-- The scopes that are open after a run are those that were open before, all types are proper, and
a value is as `made` says. If there is no after, types are the cause. -/
def Balanced (orderly : Prop) (state : State) (made : α → Prop) :
    Outcome Failure α × State → Prop
  | (.ok value, after) => after.table.path = state.table.path ∧ after.Sound ∧ made value
  | (.failed _, after) => after.table.path = state.table.path ∧ after.Sound
  | (.halted cause, after) => after.table.WellFormed ∧ (orderly → cause.OfTypes)

theorem balanced_of_fulfils (hreach : Reachable context state) {computation : Infer α}
    {post : Prop → α → Prop} {made : α → Prop}
    (hfulfils : Fulfils (state.prospect orderly) True post computation)
    (hmade : ∀ K value, post K value → made value) :
    Balanced orderly state made (computation context state) := by
  have hrun := hfulfils context state hreach.sound_context hreach.sound le_rfl fun _ => trivial
  generalize computation context state = run at hrun ⊢
  obtain ⟨value | failure | cause, after⟩ := run
  · exact ⟨hrun.1.table.frame.path_eq, hrun.1.sound, hmade _ value hrun.2⟩
  · exact ⟨hrun.1.table.frame.path_eq, hrun.1.sound⟩
  · exact hrun

theorem formed_of_typings {prospect : Prospect} {classes : Classes} {node : Node} {K : Prop}
    {answers : Answers} (hfit : Typings prospect classes.Proper node K answers) :
    Formed classes answers :=
  ⟨hfit.some, fun hclasses a ha => (hfit.each a ha).proper hclasses⟩

/-- In every state that is reached, with whatever is known from before, every node and every unit of
a tree that was read leaves the scopes in balance and all types proper. If the tree is orderly, the
inference of the whole file halts only because of types, and if it does not halt, only the scope of
the file is open in the end. What forms types makes proper types of proper types. -/
theorem scopes_stay_balanced {path text : String} {program : Program}
    (hread : Program.ofText path text = .ok program) :
    (∀ context state, Reachable context state → state.Sound ∧
      ∀ node ∈ program.expressions, ∀ classes,
        Balanced program.Orderly state (fun result => Formed classes result.answers)
          (statement classes node context state) ∧
        Balanced program.Orderly state (Formed classes)
          (answersOf (statement classes node) context state) ∧
        Balanced program.Orderly state (fun _ => True)
          (unit node.site (statement Classes.empty node) context state)) ∧
    (∀ dependencies files fresher, TypedFile.Inferred files →
      match TypedFile.infer path program dependencies files fresher with
      | .ok (file, _) => file.table.path = [0] ∧ file.table.Proper ∧
          ∀ key type, file.typeOf? key = some type → type.Proper
      | .error halt => program.Orderly → halt.OfTypes) ∧
    ∀ (classes : Classes) (a b : Ty), classes.Proper → a.Proper → b.Proper →
      (classes.unify a b).Meets (fun found => found.1.Proper ∧ found.2.Proper) (fun _ => True) ∧
      (classes.reduce a : Outcome Failure Ty).Meets Ty.Proper fun _ => False := by
  refine ⟨fun context state hreach => ⟨hreach.sound, fun node hnode classes => ?_⟩, ?_, ?_⟩
  · have hadmits : node.Admits program.Orderly := Tree.admits_of_ofText hread id node hnode
    have hstatement : Fulfils (state.prospect program.Orderly) True
        (Stated (state.prospect program.Orderly) classes.Proper node) (statement classes node) :=
      fulfils_statement id node hadmits
    have hempty : Fulfils (state.prospect program.Orderly) True
        (Stated (state.prospect program.Orderly) True node) (statement Classes.empty node) :=
      fulfils_statement (fun _ => Classes.proper_empty) node hadmits
    exact ⟨balanced_of_fulfils hreach hstatement fun _ _ => formed_of_typings,
      balanced_of_fulfils hreach hstatement.answersOf fun _ _ => formed_of_typings,
      balanced_of_fulfils hreach (hempty.unit node.site) fun _ _ _ => trivial⟩
  · intro dependencies files fresher hfiles
    split
    · rename_i file next hinfer
      obtain ⟨after, hgrows, htable, htypes, -⟩ :=
        TypedFile.grows_of_infer hfiles.sound hread hinfer
      simp only [TypedFile.typeOf?, htable, htypes]
      exact ⟨hgrows.table.frame.path_eq, hgrows.table.proper, hgrows.types⟩
    · rename_i halt hinfer
      exact TypedFile.ofTypes_of_infer hfiles.sound hread hinfer
  · intro classes a b hclasses ha hb
    have hunify := Classes.keeps_unify Classes.stable_proper Classes.unifies_proper
      (fun _ : True => hclasses) (fun _ => ha) fun _ => hb
    have hreduce : (classes.reduce a : Outcome Failure Ty).Meets (fun type => True → type.Proper)
        fun _ => False := Classes.reduce_meets (fun _ => hclasses) fun _ => ha
    exact ⟨hunify.mono (fun _ hfound => ⟨hfound.1 trivial, hfound.2 trivial⟩) fun _ _ => trivial,
      hreduce.imp fun _ htype => htype trivial⟩

/-- A function that gives back what it takes. -/
theorem scopes_stay_balanced_of_function : ∃ program node,
    Program.ofText "m" "statements:\n- kind: abstraction\n  params: [x]\n  body: x" = .ok program ∧
      program.Orderly ∧ node ∈ program.expressions ∧
      Balanced program.Orderly (.start "m" program {})
        (fun result => Formed Classes.empty result.answers)
        (statement Classes.empty node ⟨program, [], []⟩ (.start "m" program {})) ∧
      ∀ halt, TypedFile.infer "m" program [] [] {} = .error halt → halt.OfTypes := by
  have heval : ((Program.ofText "m"
      "statements:\n- kind: abstraction\n  params: [x]\n  body: x").toOption.any fun program =>
        decide program.Orderly && program.expressions.any fun node => isFunction node) = true := by
    decide +kernel
  obtain ⟨program, hread, htest⟩ := exists_of_any heval
  obtain ⟨horderly, hsome⟩ := Bool.and_eq_true_iff.mp htest
  obtain ⟨node, hnode, -⟩ := List.any_eq_true.mp hsome
  have hreach : Reachable ⟨program, [], []⟩ (.start "m" program {}) := .start .none "m" {}
  obtain ⟨hnodes, hfile, -⟩ := scopes_stay_balanced hread
  refine ⟨program, node, hread, of_decide_eq_true horderly, hnode, ?_, fun halt hinfer => ?_⟩
  · exact ((hnodes _ _ hreach).2 node hnode Classes.empty).1
  · have hhalts := hfile [] [] {} .none
    rw [hinfer] at hhalts
    exact hhalts (of_decide_eq_true horderly)

end Infer

end TypeSearch
