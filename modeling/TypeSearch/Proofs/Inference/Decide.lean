import TypeSearch.Proofs.Inference.Combine

/-!
# Runs that equations decide

What inference requires of types are equations, and on first-order graphs it neither loses nor
invents solutions. So a run can be said to be decided: it succeeds if there is a solution of all
that it requires, and otherwise it does not succeed. Runs are decided step by step, as each step
adds its equations to those of the graph.
-/

namespace TypeSearch

open Classes (FirstOrderGraph)

/-! ### Graphs -/

namespace Classes

variable {classes next left right : Classes} {a b t : Ty}

theorem FirstOrderGraph.solves_unify_iff (hgraph : FirstOrderGraph classes) (ha : a.FirstOrder)
    (hb : b.FirstOrder) (hunify : classes.unify a b = .ok (t, next)) (σ : VarId → Ty) :
    next.Solves σ ↔ classes.Solves σ ∧ Ty.Agree σ a b :=
  (hgraph.sound.adds_of_unify_eq_ok (fun _ => ha) (fun _ => hb) hunify).solves_iff trivial σ

theorem FirstOrderGraph.build_cases (hleft : FirstOrderGraph left)
    (hright : FirstOrderGraph right) :
    (∃ built, Classes.build [some left, some right] = .ok built ∧ FirstOrderGraph built ∧
        ∀ σ, built.Solves σ ↔ left.Solves σ ∧ right.Solves σ) ∨
      (∀ built, Classes.build [some left, some right] ≠ .ok built) ∧
        ¬∃ σ, left.Solves σ ∧ right.Solves σ := by
  have hgraphs : ∀ graph, some graph ∈ [some left, some right] → FirstOrderGraph graph := by
    simp [hleft, hright]
  have hall : ∀ σ, SolvesAll σ [some left, some right] ↔ left.Solves σ ∧ right.Solves σ := by
    simp [SolvesAll]
  have hexists := exists_build_iff hgraphs
  simp only [hall] at hexists
  by_cases hbuild : ∃ built, Classes.build [some left, some right] = .ok built
  · obtain ⟨built, hbuilt⟩ := hbuild
    refine .inl ⟨built, hbuilt, .build hgraphs hbuilt, fun σ => ?_⟩
    rw [solves_build_iff hgraphs hbuilt, hall]
  · exact .inr ⟨not_exists.mp hbuild, fun hsolves => hbuild (hexists.mpr hsolves)⟩

end Classes

namespace Infer

open Inference
open TypeSearch.Tree (Node Site)

variable {α β : Type} {context : Context} {state after : State} {computation : Infer α}
  {next : α → Infer β} {solvable solvable' : Prop} {post : α → State → Prop}
  {later : β → State → Prop}

/-- The run succeeds as `post` says, or it does not succeed and there is no solution. -/
def Decided (solvable : Prop) (post : α → State → Prop) (run : Outcome Failure α × State) : Prop :=
  (∃ value after, run = (.ok value, after) ∧ post value after) ∨
    (∀ value after, run ≠ (.ok value, after)) ∧ ¬solvable

theorem decided_of_ok {run : Outcome Failure α × State} {value : α}
    (hrun : run = (.ok value, after)) (hpost : post value after) : Decided solvable post run :=
  .inl ⟨value, after, hrun, hpost⟩

theorem Decided.run {value : α} (hdecided : Decided solvable post (computation context state))
    (hrun : computation context state = (.ok value, after)) : post value after := by
  rcases hdecided with ⟨found, last, hfound, hpost⟩ | ⟨hnever, -⟩
  · cases hrun.symm.trans hfound
    exact hpost
  · exact absurd hrun (hnever value after)

theorem Decided.exists (hdecided : Decided solvable post (computation context state))
    (hsolvable : solvable) :
    ∃ value after, computation context state = (.ok value, after) ∧ post value after := by
  rcases hdecided with hfound | ⟨-, hnone⟩
  · exact hfound
  · exact absurd hsolvable hnone

theorem Decided.bind (hfirst : Decided solvable post (computation context state))
    (hnext : ∀ value after, post value after →
      Decided solvable' later (next value context after))
    (himp : solvable' → solvable) :
    Decided solvable' later ((computation >>= next) context state) := by
  rcases hfirst with ⟨value, middle, hrun, hpost⟩ | ⟨hnever, hnone⟩
  · rw [bind_of_ok hrun]
    exact hnext value middle hpost
  · refine .inr ⟨fun result after hrun => ?_, fun hsolvable => hnone (himp hsolvable)⟩
    obtain ⟨value, middle, hvalue, -⟩ := bind_eq_ok hrun
    exact hnever value middle hvalue

theorem Decided.mono {post' : α → State → Prop} {run : Outcome Failure α × State}
    (hdecided : Decided solvable post run) (himp : solvable' → solvable)
    (hpost : ∀ value after, post value after → post' value after) :
    Decided solvable' post' run := by
  rcases hdecided with ⟨value, after, hrun, hvalue⟩ | ⟨hnever, hnone⟩
  · exact .inl ⟨value, after, hrun, hpost value after hvalue⟩
  · exact .inr ⟨hnever, fun hsolvable => hnone (himp hsolvable)⟩

theorem Decided.reportingAt (hdecided : Decided solvable post (computation context state))
    (site : Site) : Decided solvable post (reportingAt site computation context state) := by
  rcases hdecided with ⟨value, after, hrun, hpost⟩ | ⟨hnever, hnone⟩
  · exact .inl ⟨value, after, reportingAt_of_ok hrun, hpost⟩
  · exact .inr ⟨fun value after hrun => hnever value after (reportingAt_eq_ok hrun), hnone⟩

/-! ### Searches through one candidate -/

section Search

variable {ν μ γ : Type} {found : Disjunction γ → State → Prop}

theorem Decided.search {candidate : ν} {f : ν → Infer (Answer γ)}
    (hdecided : Decided solvable (fun b after => found ⟨[b]⟩ after) (f candidate context state)) :
    Decided solvable found
      ((searchAll [candidate] fun candidate => do return [← f candidate] : Infer _)
        context state) := by
  rcases hdecided with ⟨b, after, hrun, hpost⟩ | ⟨hnever, hnone⟩
  · exact .inl ⟨_, after, searchAll_of_ok (List.cons_ne_nil b []) (bind_of_ok hrun), hpost⟩
  · refine .inr ⟨fun answers after hrun => ?_, hnone⟩
    obtain ⟨b, hb, -⟩ := searchAll_answer hrun
    exact hnever b after hb

theorem Decided.collect {combination : Combination ν} {f : Combination ν → Infer (Answer γ)}
    (hdecided : Decided solvable (fun b after => found ⟨[b]⟩ after) (f combination context state)) :
    Decided solvable found (Combinations.collect ⟨[combination]⟩ f context state) :=
  hdecided.search

theorem decided_merge {a : Answer ν} {b : Answer μ} {left right : Classes}
    {combine : Answer ν → Answer μ → Classes → Infer (Answer γ)} (ha : a.graph = some left)
    (hb : b.graph = some right) (hleft : FirstOrderGraph left) (hright : FirstOrderGraph right)
    (himp : solvable → ∃ σ, left.Solves σ ∧ right.Solves σ)
    (hcombine : ∀ built, FirstOrderGraph built →
      (∀ σ, built.Solves σ ↔ left.Solves σ ∧ right.Solves σ) →
        Decided solvable (fun c after => found ⟨[c]⟩ after) (combine a b built context state)) :
    Decided solvable found (Disjunction.merge ⟨[a]⟩ ⟨[b]⟩ combine context state) := by
  rcases hleft.build_cases hright with ⟨built, hbuild, hbuilt, hsolves⟩ | ⟨hnever, hnone⟩
  · rw [← ha, ← hb] at hbuild
    rcases hcombine built hbuilt hsolves with ⟨c, after, hrun, hpost⟩ | ⟨hnever, hnone⟩
    · exact .inl ⟨_, after, merge_of_ok hbuild hrun, hpost⟩
    · refine .inr ⟨fun answers after hrun => ?_, hnone⟩
      obtain ⟨other, c, hother, hc, -⟩ := merge_one hrun
      cases hbuild.symm.trans hother
      exact hnever c after hc
  · refine .inr ⟨fun answers after hrun => ?_, fun hsolvable => hnone (himp hsolvable)⟩
    obtain ⟨built, c, hbuild, -, -⟩ := merge_one hrun
    rw [ha, hb] at hbuild
    exact hnever built hbuild

end Search

/-! ### Equations -/

section Equate

variable {classes : Classes} {a b type first second : Ty} {others : List Ty}

section Requirements

variable (hgraph : FirstOrderGraph classes)
include hgraph

theorem decided_unify (ha : a.FirstOrder) (hb : b.FirstOrder) :
    Decided (∃ σ, classes.Solves σ ∧ Ty.Agree σ a b)
      (fun result after => after = state ∧ FirstOrderGraph result.2 ∧ result.1.FirstOrder ∧
        ∀ σ, (result.2.Solves σ ↔ classes.Solves σ ∧ Ty.Agree σ a b) ∧
          (result.2.Solves σ → Ty.Agree σ result.1 a))
      (unify classes a b context state) := by
  have hsettles := hgraph.sound.unify (fun _ => ha) fun _ => hb
  change Decided _ _ ((classes.unify a b).asFailure, state)
  cases hunify : classes.unify a b with
  | ok result =>
    obtain ⟨t, last⟩ := result
    obtain ⟨-, -, htype⟩ := hgraph.unified ha hb hunify
    refine decided_of_ok rfl ⟨rfl, .unify hgraph ha hb hunify, htype.left, fun σ => ⟨?_, ?_⟩⟩
    · exact hgraph.solves_unify_iff ha hb hunify σ
    · exact htype.agree σ
  | failed mismatch =>
    rw [hunify] at hsettles
    refine .inr ⟨fun value after heq => ?_, ?_⟩
    · cases heq
    · rintro ⟨σ, hsolves⟩
      exact hsettles trivial σ hsolves
  | halted cause =>
    rw [hunify] at hsettles
    exact hsettles.elim

theorem decided_equate (ha : a.FirstOrder) (hb : b.FirstOrder) :
    Decided (∃ σ, classes.Solves σ ∧ Ty.Agree σ a b)
      (fun last after => after = state ∧ FirstOrderGraph last ∧
        ∀ σ, last.Solves σ ↔ classes.Solves σ ∧ Ty.Agree σ a b)
      (equate classes a b context state) := by
  have hequate : equate classes a b = (do return (← unify classes a b).2) := by
    funext context state
    change ((classes.equate a b).asFailure, state) = Infer.bind _ _ context state
    have hunify : unify classes a b context state = ((classes.unify a b).asFailure, state) := rfl
    rw [Infer.bind, hunify, Classes.equate]
    cases classes.unify a b <;> rfl
  rw [hequate]
  refine (decided_unify hgraph ha hb).bind (fun result after hpost => ?_) id
  obtain ⟨rfl, hlast, -, hsolves⟩ := hpost
  exact decided_of_ok rfl ⟨rfl, hlast, fun σ => (hsolves σ).1⟩

theorem decided_equate_bind {rest all : (VarId → Ty) → Prop} {next : Classes → Infer Classes}
    (ha : a.FirstOrder) (hb : b.FirstOrder)
    (hall : ∀ σ, all σ ↔ Ty.Agree σ b a ∧ rest σ)
    (hnext : ∀ {middle : Classes}, FirstOrderGraph middle →
      Decided (∃ σ, middle.Solves σ ∧ rest σ)
        (fun last after => after = state ∧ FirstOrderGraph last ∧
          ∀ σ, last.Solves σ ↔ middle.Solves σ ∧ rest σ) (next middle context state)) :
    Decided (∃ σ, classes.Solves σ ∧ all σ)
      (fun last after => after = state ∧ FirstOrderGraph last ∧
        ∀ σ, last.Solves σ ↔ classes.Solves σ ∧ all σ)
      ((equate classes a b >>= next) context state) := by
  refine (decided_equate hgraph ha hb).bind (fun middle after hpost => ?_) ?_
  · obtain ⟨rfl, hmiddle, hsolves⟩ := hpost
    have hboth : ∀ σ, (middle.Solves σ ∧ rest σ) ↔ classes.Solves σ ∧ all σ := by
      intro σ
      rw [hsolves, hall, and_assoc]
      exact and_congr_right fun _ => and_congr_left fun _ => ⟨.symm, .symm⟩
    refine (hnext hmiddle).mono ?_ fun last after hlast => ?_
    · exact Exists.imp fun σ => (hboth σ).mpr
    · exact ⟨hlast.1, hlast.2.1, fun σ => (hlast.2.2 σ).trans (hboth σ)⟩
  · rintro ⟨σ, hsolves, hσ⟩
    exact ⟨σ, hsolves, ((hall σ).mp hσ).1.symm⟩

theorem decided_equateAlternately (hfirst : first.FirstOrder) (hsecond : second.FirstOrder)
    (hothers : ∀ t ∈ others, t.FirstOrder) :
    Decided (∃ σ, classes.Solves σ ∧ Alternate (Ty.Agree σ) first second others)
      (fun last after => after = state ∧ FirstOrderGraph last ∧
        ∀ σ, last.Solves σ ↔ classes.Solves σ ∧ Alternate (Ty.Agree σ) first second others)
      (equateAlternately first second others classes context state) := by
  induction others generalizing classes first second with
  | nil => exact decided_of_ok rfl ⟨rfl, hgraph, fun σ => by simp [Alternate]⟩
  | cons other others ih =>
    rw [List.forall_mem_cons] at hothers
    exact decided_equate_bind hgraph hfirst hothers.1 (fun σ => Iff.rfl)
      fun hmiddle => ih hmiddle hsecond hfirst hothers.2

end Requirements

end Equate

end Infer

end TypeSearch
