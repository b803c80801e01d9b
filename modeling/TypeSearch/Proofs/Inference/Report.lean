import TypeSearch.Proofs.Inference.Reach

/-!
# No failure is silent

Whatever node of a tree is inferred, in whatever state that is reached: if this fails, then the
failure has been reported, there are more issues than before and all that were added have a code; if
it succeeds, there is an answer. So an ill-typed program never passes for a well-typed one.
-/

namespace TypeSearch

open Inference
open TypeSearch.Tree (Node Pattern Program Site)

namespace Infer

variable {α : Type} {orderly : Prop} {state : State}

/-- What a run from `state` lets hear of itself, where `answers` are those of its value. -/
def Voiced (orderly : Prop) (state : State) (answers : α → Answers) :
    Outcome Failure α × State → Prop
  | (.ok value, after) =>
    (answers value).answers ≠ [] ∧
      ∃ new, after.issues = state.issues ++ new ∧ ∀ issue ∈ new, issue.cause.code ≠ 0
  | (.failed failure, after) =>
    failure = .reported ∧
      ∃ new, new ≠ [] ∧ after.issues = state.issues ++ new ∧ ∀ issue ∈ new, issue.cause.code ≠ 0
  | (.halted cause, _) => orderly → cause.OfTypes

theorem Fulfilled.voiced {post : Prop → α → Prop} {answers : α → Answers}
    {run : Outcome Failure α × State} (hrun : Fulfilled (state.prospect orderly) state post run)
    (hsome : ∀ K value, post K value → (answers value).answers ≠ []) :
    Voiced orderly state answers run := by
  obtain ⟨value | failure | cause, after⟩ := run
  · exact ⟨hsome _ value hrun.2, hrun.1.issues⟩
  · obtain ⟨hgrows, hreported, hallows⟩ := hrun
    obtain ⟨new, hnew, hcodes⟩ := hgrows.issues
    refine ⟨hreported, new, ?_, hnew, hcodes⟩
    rintro rfl
    rw [List.append_nil] at hnew
    exact hallows ⟨(congrArg List.length hnew).le, fun _ _ => trivial⟩
  · exact hrun.2

variable {context : Context} (hreach : Reachable context state) (classes : Classes) {node : Node}
include hreach

theorem voiced_of_fulfils {computation : Infer α} {post : Prop → α → Prop} {answers : α → Answers}
    (hfulfils : Fulfils (state.prospect orderly) True post computation)
    (hsome : ∀ K value, post K value → (answers value).answers ≠ []) :
    Voiced orderly state answers (computation context state) :=
  (hfulfils context state hreach.sound_context hreach.sound le_rfl fun _ => trivial).voiced hsome

variable (hnode : node.Admits orderly)
include hnode

theorem voiced_statement :
    Voiced orderly state Statement.answers (statement classes node context state) :=
  voiced_of_fulfils hreach (fulfils_statement (P := False) False.elim node hnode)
    fun _ _ hfit => Disjunction.Fit.some hfit

theorem voiced_infer : Voiced orderly state id (answersOf (statement classes node) context state) :=
  voiced_of_fulfils hreach (fulfils_statement (P := False) False.elim node hnode).answersOf
    fun _ _ hfit => hfit.some

theorem voiced_branch (site : Site) (params : List Pattern) (function body : Tree.Locus) :
    Voiced orderly state id
      (branch function site params body (bodyAnswers node) classes context state) := by
  have hbody : ∀ (K : Prop) (known : Classes), (False → known.Proper) →
      Fulfils (state.prospect orderly) K (Typings (state.prospect orderly) False node)
        (bodyAnswers node known) :=
    fun _ _ hknown => (goesOn node hnode).2 hknown
  exact voiced_of_fulfils hreach (fulfils_branch False.elim hbody (keeps_bodyAnswers node))
    fun _ _ hfit => hfit.some

omit hnode

/-- Every node and every branch of a tree that was read reports its failures, in every state that
inference reaches and whatever is known from before; and no issue of a file is without a code. -/
theorem failures_are_reported {path text : String} {program : Program}
    (hread : Program.ofText path text = .ok program) :
    (∀ node ∈ program.expressions,
      Voiced program.Orderly state Statement.answers (statement classes node context state) ∧
      Voiced program.Orderly state id (answersOf (statement classes node) context state) ∧
      ∀ site branches, node = .abstraction site branches → ∀ clause ∈ branches,
        ∀ function body : Tree.Locus, Voiced program.Orderly state id
          (branch function site clause.1 body (bodyAnswers clause.2) classes context state)) ∧
    ∀ files dependencies fresher file next, TypedFile.Inferred files →
      TypedFile.infer path program dependencies files fresher = .ok (file, next) →
        ∀ issue ∈ file.issues, issue.cause.code ≠ 0 := by
  have hadmits : ∀ node ∈ program.expressions, node.Admits program.Orderly :=
    Tree.admits_of_ofText hread id
  refine ⟨fun node hnode => ⟨?_, ?_, ?_⟩, ?_⟩
  · exact voiced_statement hreach classes (hadmits node hnode)
  · exact voiced_infer hreach classes (hadmits node hnode)
  · rintro site branches rfl clause hclause function body
    have hbody : clause.2.Admits program.Orderly :=
      (hadmits _ hnode).part (List.mem_map_of_mem hclause)
    exact voiced_branch hreach classes hbody site clause.1 function body
  · intro files dependencies fresher file next hfiles hinfer
    obtain ⟨after, hgrows, -, -, hissues, -⟩ := TypedFile.grows_of_infer hfiles.sound hread hinfer
    obtain ⟨new, hnew, hcodes⟩ := hgrows.issues
    rw [hissues, hnew]
    exact hcodes

omit hreach

/-- The name `x` is not known. -/
theorem failures_are_reported_of_unknown : ∃ program node,
    Program.ofText "m" "statements: [x]" = .ok program ∧ node ∈ program.expressions ∧
      (statement Classes.empty node ⟨program, [], []⟩ (.start "m" program {})).2.issues.length = 1 ∧
      Voiced program.Orderly (.start "m" program {}) Statement.answers
        (statement Classes.empty node ⟨program, [], []⟩ (.start "m" program {})) := by
  have heval : ((Program.ofText "m" "statements: [x]").toOption.any fun program =>
      program.expressions.any fun node =>
        (statement Classes.empty node ⟨program, [], []⟩
          (.start "m" program {})).2.issues.length == 1) = true := by
    decide +kernel
  obtain ⟨program, hread, htest⟩ := exists_of_any heval
  obtain ⟨node, hnode, hissues⟩ := List.any_eq_true.mp htest
  have hreach : Reachable ⟨program, [], []⟩ (.start "m" program {}) := .start .none "m" {}
  refine ⟨program, node, hread, hnode, beq_iff_eq.mp hissues, ?_⟩
  exact ((failures_are_reported hreach Classes.empty hread).1 node hnode).1

end Infer

end TypeSearch
