import TypeSearch.Proofs.Classes.Proper
import TypeSearch.Proofs.Inference.Run

/-!
# Searching for typings

A computation that `Tries` changes nothing but the source of new variables: it writes down no issue
and no name. If it fails, the failure is of a kind that can be written down as an issue with a code,
and if it halts, types are the cause. A search through some candidates that does so has an answer or
such a failure itself; a failure that names no cause would need a search through no candidates.
-/

namespace TypeSearch

open Inference List

variable {failure : Failure}

/-- The failure comes from a mismatch or from an issue of a known kind, which nobody has written
down yet. -/
def Failure.Classified (failure : Failure) : Prop :=
  match failure.origin with
  | .mismatch _ => True
  | .issue i => i.cause.code ≠ 0
  | .noTyping _ _ => False
  | .reported => False

theorem Failure.Classified.noTyping (hclassified : failure.Classified) (pruned : Nat) :
    (Failure.noTyping (some failure) pruned).Classified := hclassified

theorem Failure.Classified.toIssue? (hclassified : failure.Classified) (file : String)
    (place : Option Place) :
    ∃ issue, failure.toIssue? file place = some issue ∧ issue.cause.code ≠ 0 := by
  unfold Failure.Classified at hclassified
  unfold Failure.toIssue?
  split at hclassified <;> rename_i horigin <;> rw [horigin]
  · exact ⟨_, rfl, Nat.succ_ne_zero 5⟩
  · exact ⟨_, rfl, hclassified⟩
  · exact hclassified.elim
  · exact hclassified.elim

theorem Outcome.Meets.asFailure {α : Type} {outcome : Outcome Mismatch α} {post : α → Prop}
    (hmeets : outcome.Meets post fun _ => True) :
    outcome.asFailure.Meets post Failure.Classified := by
  cases outcome with
  | ok value => exact hmeets
  | failed mismatch => exact trivial
  | halted cause => exact hmeets

namespace Infer

open TypeSearch.Tree (Site)

variable {α β γ ν : Type} {table : Table} {post : α → Prop} {later : β → Prop}
  {computation : Infer α} {next : α → Infer β}

/-- On a state with the given table, the computation changes only the source of variables, gives
values of which `post` holds, and fails and halts in no other way than types can bring about. -/
def Tries (table : Table) (post : α → Prop) (computation : Infer α) : Prop :=
  ∀ context state, state.table = table →
    (∃ fresher, (computation context state).2 = { state with fresher }) ∧
      (computation context state).1.Meets post Failure.Classified

theorem tries_pure {value : α} (hvalue : post value) : Tries table post (pure value) :=
  fun _ state _ => ⟨⟨state.fresher, rfl⟩, hvalue⟩

theorem tries_throw (hfailure : failure.Classified) : Tries table post (throw failure) :=
  fun _ state _ => ⟨⟨state.fresher, rfl⟩, hfailure⟩

theorem tries_liftM {outcome : Outcome Failure α} (hmeets : outcome.Meets post Failure.Classified) :
    Tries table post (liftM outcome) :=
  fun _ state _ => ⟨⟨state.fresher, rfl⟩, hmeets⟩

section Tries

variable (htries : Tries table post computation)
include htries

theorem Tries.bind (hnext : ∀ value, post value → Tries table later (next value)) :
    Tries table later (computation >>= next) := by
  intro context state htable
  obtain ⟨⟨fresher, hstate⟩, hmeets⟩ := htries context state htable
  rw [bind_apply, Infer.bind]
  generalize computation context state = run at *
  obtain ⟨value | failure | cause, middle⟩ := run
  · obtain rfl : middle = _ := hstate
    exact hnext value hmeets context _ htable
  · exact ⟨⟨fresher, hstate⟩, hmeets⟩
  · exact ⟨⟨fresher, hstate⟩, hmeets⟩

theorem Tries.mono {post' : α → Prop} (himp : ∀ value, post value → post' value) :
    Tries table post' computation :=
  fun context state htable =>
    ⟨(htries context state htable).1, (htries context state htable).2.imp himp⟩

theorem Tries.tryCatch {handle : Failure → Infer α}
    (hhandle : ∀ failure, failure.Classified → Tries table post (handle failure)) :
    Tries table post (tryCatchThe Failure computation handle) := by
  intro context state htable
  obtain ⟨⟨fresher, hstate⟩, hmeets⟩ := htries context state htable
  rw [tryCatch_apply]
  generalize computation context state = run at *
  obtain ⟨value | failure | cause, middle⟩ := run
  · exact ⟨⟨fresher, hstate⟩, hmeets⟩
  · obtain rfl : middle = _ := hstate
    exact hhandle failure hmeets context _ htable
  · exact ⟨⟨fresher, hstate⟩, hmeets⟩

theorem Tries.attempt : Tries table
      (fun found => (∀ value, found = .ok value → post value) ∧
        ∀ failure, found = .error failure → failure.Classified) (attempt computation) := by
  intro context state htable
  obtain ⟨⟨fresher, hstate⟩, hmeets⟩ := htries context state htable
  unfold Infer.attempt
  generalize computation context state = run at *
  obtain ⟨value | failure | cause, middle⟩ := run
  · refine ⟨⟨fresher, hstate⟩, ?_, nofun⟩
    rintro _ ⟨⟩
    exact hmeets
  · refine ⟨⟨fresher, hstate⟩, nofun, ?_⟩
    rintro _ ⟨⟩
    exact hmeets
  · exact ⟨⟨fresher, hstate⟩, hmeets⟩

end Tries

theorem tries_table {next : Table → Infer β} (hnext : Tries table later (next table)) :
    Tries table later (Infer.table >>= next) := by
  intro context state htable
  subst htable
  exact hnext context state rfl

theorem tries_fresh (hint : String) : Tries table (fun _ => True) (fresh hint) :=
  fun _ _ _ => ⟨⟨_, rfl⟩, trivial⟩

theorem tries_freshAll (hints : List String) : Tries table (fun _ => True) (freshAll hints) :=
  fun _ _ _ => ⟨⟨_, rfl⟩, trivial⟩

theorem tries_instantiate {P : Prop} {type : Ty} (htype : P → type.Proper)
    (quantified : List VarId) :
    Tries table (fun found => P → found.Proper) (instantiate type quantified) :=
  fun _ state _ => ⟨⟨_, rfl⟩, fun hP => (htype hP).instantiate quantified state.fresher⟩

theorem tries_throwAt (site : Site) {cause : Issue.Cause} (hcode : cause.code ≠ 0) :
    Tries table post (throwAt site cause) := by
  intro context state _
  refine ⟨⟨state.fresher, rfl⟩, ?_⟩
  change Failure.Classified (.issue ⟨state.table.file, some ⟨state.table.file, site.span⟩, cause⟩)
  exact hcode

section Types

variable {P : Prop} {classes : Classes} {a b : Ty}

theorem tries_unify (hclasses : P → classes.Proper) (ha : P → a.Proper) (hb : P → b.Proper) :
    Tries table (fun found => P → found.1.Proper ∧ found.2.Proper) (unify classes a b) := by
  have hunify := Classes.keeps_unify Classes.stable_proper Classes.unifies_proper hclasses ha hb
  exact tries_liftM (hunify.imp fun _ hfound hP => ⟨hfound.1 hP, hfound.2 hP⟩).asFailure

theorem tries_equate (hclasses : P → classes.Proper) (ha : P → a.Proper) (hb : P → b.Proper) :
    Tries table (fun next => P → next.Proper) (equate classes a b) :=
  tries_liftM (Outcome.Meets.asFailure
    (Classes.keeps_equate Classes.stable_proper Classes.unifies_proper hclasses ha hb))

end Types

/-! ### Searches -/

section Survivors

variable {keeps : Answer ν → Prop} {attempt : γ → Infer (List (Answer ν))} {survivors : Survivors ν}

structure Spared (keeps : Answer ν → Prop) (survivors : Survivors ν) : Prop where
  kept : ∀ answer ∈ survivors.kept, keeps answer
  cause : ∀ failure ∈ survivors.cause, failure.Classified

def Tested (survivors : Survivors ν) : Prop := survivors.kept ≠ [] ∨ survivors.cause ≠ none

theorem spared_none : Spared keeps {} := by
  refine ⟨?_, ?_⟩
  · rintro _ ⟨⟩
  · rintro _ ⟨⟩

theorem Spared.keep (hspared : Spared keeps survivors)
    {answers : List (Answer ν)} (hanswers : ∀ answer ∈ answers, keeps answer) :
    Spared keeps (survivors.keep answers) := by
  refine ⟨fun answer hanswer => ?_, hspared.cause⟩
  rcases mem_append.mp hanswer with hnew | hold
  · exact hanswers answer (mem_reverse.mp hnew)
  · exact hspared.kept answer hold

theorem Spared.prune (hspared : Spared keeps survivors)
    (hfailure : failure.Classified) :
    Spared keeps (survivors.prune failure) ∧ Tested (survivors.prune failure) := by
  obtain ⟨first, hpruned, hclassified⟩ :
      ∃ first, (survivors.prune failure).cause = some first ∧ first.Classified := by
    cases hcause : survivors.cause with
    | none => exact ⟨failure, by simp [Survivors.prune, hcause], hfailure⟩
    | some first => exact ⟨first, by simp [Survivors.prune, hcause], hspared.cause first hcause⟩
  refine ⟨⟨hspared.kept, ?_⟩, .inr ?_⟩
  · rw [hpruned]
    rintro _ ⟨⟩
    exact hclassified
  · rw [hpruned]
    exact Option.some_ne_none first

section Candidates

variable {candidates : List γ} (hattempt : ∀ candidate ∈ candidates,
  Tries table (fun answers => answers ≠ [] ∧ ∀ a ∈ answers, keeps a) (attempt candidate))
include hattempt

/-- A search keeps only answers that `keeps` allows, or says why there is none. -/
theorem tries_survive (hspared : Spared keeps survivors)
    (htested : candidates ≠ [] ∨ Tested survivors) :
    Tries table (fun last => Spared keeps last ∧ Tested last)
      (survive attempt candidates survivors) := by
  induction candidates generalizing survivors with
  | nil => exact tries_pure ⟨hspared, htested.resolve_left fun hne => hne rfl⟩
  | cons candidate candidates ih =>
    rw [forall_mem_cons] at hattempt
    have hstep : Tries table (fun last => Spared keeps last ∧ Tested last)
        (tryCatchThe Failure
          (do let answers ← attempt candidate; return survivors.keep answers)
          (fun failure => return survivors.prune failure)) := by
      refine Tries.tryCatch ?_ fun failure hfailure => tries_pure (hspared.prune hfailure)
      refine hattempt.1.bind fun answers hanswers => tries_pure ?_
      exact ⟨hspared.keep hanswers.2, .inl fun hnil =>
        hanswers.1 (reverse_eq_nil_iff.mp (append_eq_nil_iff.mp hnil).1)⟩
    rw [survive]
    exact hstep.bind fun last hlast => ih hattempt.2 hlast.1 (.inr hlast.2)

theorem tries_searchAll (hsome : candidates ≠ []) :
    Tries table (fun found => found.answers ≠ [] ∧ ∀ a ∈ found.answers, keeps a)
      (searchAll candidates attempt) := by
  refine (tries_survive hattempt spared_none (.inl hsome)).bind ?_
  rintro survivors ⟨hspared, htested⟩
  unfold Survivors.disjunction
  split
  · rename_i hfound
    split at hfound
    · cases hfound
    · rename_i hkept
      cases hfound
      rw [List.isEmpty_iff] at hkept
      refine tries_pure ⟨fun hnil => hkept (reverse_eq_nil_iff.mp hnil), fun a ha => ?_⟩
      exact hspared.kept a (mem_reverse.mp ha)
  · rename_i failure hfailed
    split at hfailed
    · rename_i hnil
      cases hfailed
      have hcause := htested.resolve_left (not_not.mpr (List.isEmpty_iff.mp hnil))
      obtain ⟨first, hfirst⟩ := Option.ne_none_iff_exists'.mp hcause
      rw [hfirst]
      exact tries_throw (Failure.Classified.noTyping (hspared.cause first hfirst) _)
    · cases hfailed

end Candidates

end Survivors

end Infer

end TypeSearch
