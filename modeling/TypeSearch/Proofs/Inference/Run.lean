import TypeSearch.Inference.Node
import TypeSearch.Proofs.Outcome
import TypeSearch.Proofs.Tree.Expressions

/-!
# Runs that succeed

From a run of inference that succeeds to the runs of its parts, which succeed too. A search through
one candidate succeeds only if the candidate does, and has its answers.
-/

namespace TypeSearch.Infer

open Inference
open TypeSearch.Tree (Node Pattern Site entryNodes)

def emptyContext : Context := ⟨⟨"main", Span.zero, []⟩, [], []⟩

variable {α β : Type} {context : Context} {state after middle last : State} {computation : Infer α}
  {failure : Failure} {cause : Halt} {classes next : Classes} {a b : Ty} {site : Site}
  {exit : Infer Unit} {result : α}

instance : LawfulMonad Infer :=
  LawfulMonad.mk' _
    (fun computation => by
      funext context state
      change Infer.bind computation _ context state = _
      unfold Infer.bind
      rcases computation context state with ⟨outcome, after⟩
      cases outcome <;> rfl)
    (fun _ _ => rfl)
    (fun computation next last => by
      funext context state
      change Infer.bind (Infer.bind computation next) last context state =
        Infer.bind computation (fun value => Infer.bind (next value) last) context state
      unfold Infer.bind
      rcases computation context state with ⟨outcome, after⟩
      cases outcome <;> rfl)

theorem bind_apply (computation : Infer α) (next : α → Infer β) (context : Context)
    (state : State) :
    (computation >>= next) context state = Infer.bind computation next context state := rfl

theorem bind_eq {next : α → Infer β} {run : Outcome Failure β × State}
    (hrun : (computation >>= next) context state = run) :
    (∃ value middle, computation context state = (.ok value, middle) ∧
        next value context middle = run) ∨
      (∃ failure middle, computation context state = (.failed failure, middle) ∧
        run = (.failed failure, middle)) ∨
      ∃ cause middle, computation context state = (.halted cause, middle) ∧
        run = (.halted cause, middle) := by
  rw [bind_apply, Infer.bind] at hrun
  generalize computation context state = first at hrun ⊢
  obtain ⟨value | failure | cause, middle⟩ := first
  · exact .inl ⟨value, middle, rfl, hrun⟩
  · exact .inr (.inl ⟨failure, middle, rfl, hrun.symm⟩)
  · exact .inr (.inr ⟨cause, middle, rfl, hrun.symm⟩)

theorem bind_eq_ok {next : α → Infer β} {result : β}
    (hrun : (computation >>= next) context state = (.ok result, after)) :
    ∃ value middle, computation context state = (.ok value, middle) ∧
      next value context middle = (.ok result, after) := by
  rcases bind_eq hrun with hok | ⟨_, _, -, ⟨⟩⟩ | ⟨_, _, -, ⟨⟩⟩
  exact hok

theorem bind_eq_failed {next : α → Infer β}
    (hrun : (computation >>= next) context state = (.failed failure, after)) :
    computation context state = (.failed failure, after) ∨
      ∃ value middle, computation context state = (.ok value, middle) ∧
        next value context middle = (.failed failure, after) := by
  rcases bind_eq hrun with hok | ⟨_, _, hfirst, ⟨⟩⟩ | ⟨_, _, -, ⟨⟩⟩
  · exact .inr hok
  · exact .inl hfirst

theorem bind_of_ok {next : α → Infer β} {value : α}
    (hrun : computation context state = (.ok value, middle)) :
    (computation >>= next) context state = next value context middle := by
  change Infer.bind computation next context state = _
  rw [Infer.bind, hrun]

theorem pure_eq_ok {value result : α}
    (hrun : (pure value : Infer α) context state = (.ok result, after)) :
    result = value ∧ after = state := by
  cases hrun
  exact ⟨rfl, rfl⟩

theorem liftM_eq_ok {outcome : Outcome Failure α}
    (hrun : (liftM outcome : Infer α) context state = (.ok result, after)) :
    outcome = .ok result ∧ after = state := by
  have hrun : (outcome, state) = (.ok result, after) := hrun
  cases hrun
  exact ⟨rfl, rfl⟩

theorem asFailure_eq_ok {outcome : Outcome Mismatch α}
    (hok : outcome.asFailure = .ok result) : outcome = .ok result := by
  cases outcome with
  | ok value =>
    cases hok
    rfl
  | failed mismatch | halted cause => cases hok

theorem equate_eq_ok (hrun : equate classes a b context state = (.ok next, after)) :
    classes.equate a b = .ok next ∧ after = state :=
  (liftM_eq_ok hrun).imp_left asFailure_eq_ok

theorem equate_of_ok (hequate : classes.equate a b = .ok next) (context : Context) (state : State) :
    equate classes a b context state = (.ok next, state) := by
  change ((classes.equate a b).asFailure, state) = _
  rw [hequate]
  rfl

theorem attempt_eq_ok {result : Except Failure α}
    (hrun : attempt computation context state = (.ok result, after)) :
    (∃ value, result = .ok value ∧ computation context state = (.ok value, after)) ∨
      ∃ failure, result = .error failure ∧
        computation context state = (.failed failure, after) := by
  unfold attempt at hrun
  split at hrun
  · rename_i value middle hfirst
    cases hrun
    exact .inl ⟨value, rfl, hfirst⟩
  · rename_i failure middle hfirst
    cases hrun
    exact .inr ⟨failure, rfl, hfirst⟩
  · cases hrun

theorem failAt_ne_ok (site : Site) (failure : Failure) (result : α) :
    failAt site failure context state ≠ (.ok result, after) := by
  intro hrun
  obtain ⟨place, middle, -, hrun⟩ := bind_eq_ok hrun
  generalize failure.toIssue? place.file (some place) = issue at hrun
  cases issue with
  | none => cases hrun
  | some issue =>
    obtain ⟨_, _, -, hrun⟩ := bind_eq_ok hrun
    cases hrun

theorem tryCatch_apply (computation : Infer α) (handle : Failure → Infer α) (context : Context)
    (state : State) :
    tryCatchThe Failure computation handle context state =
      match computation context state with
      | (.failed failure, state) => handle failure context state
      | result => result := rfl

theorem tryCatch_eq_ok {handle : Failure → Infer α}
    (hrun : tryCatchThe Failure computation handle context state = (.ok result, after)) :
    computation context state = (.ok result, after) ∨
      ∃ failure middle, computation context state = (.failed failure, middle) ∧
        handle failure context middle = (.ok result, after) := by
  rw [tryCatch_apply] at hrun
  split at hrun
  · rename_i failure middle hfirst
    exact .inr ⟨failure, middle, hfirst, hrun⟩
  · exact .inl hrun

theorem reportingAt_eq_ok
    (hrun : reportingAt site computation context state = (.ok result, after)) :
    computation context state = (.ok result, after) := by
  rcases tryCatch_eq_ok hrun with hok | ⟨failure, middle, -, hfail⟩
  · exact hok
  · exact absurd hfail (failAt_ne_ok site failure result)

theorem tryCatch_of_ok {handle : Failure → Infer α}
    (hrun : computation context state = (.ok result, after)) :
    tryCatchThe Failure computation handle context state = (.ok result, after) := by
  rw [tryCatch_apply, hrun]

theorem reportingAt_of_ok (hrun : computation context state = (.ok result, after)) :
    reportingAt site computation context state = (.ok result, after) := tryCatch_of_ok hrun

theorem thenAlways_of_ok {value : α} (hrun : computation context state = (.ok value, middle))
    (hexit : exit context middle = (.ok (), last)) :
    computation.thenAlways exit context state = (.ok value, last) := by
  simp only [thenAlways, hrun, hexit]

theorem thenAlways_of_halted (hrun : computation context state = (.halted cause, middle)) :
    ∃ final last, computation.thenAlways exit context state = (.halted final, last) ∧
      (last = middle ∨ last = (exit context middle).2) ∧ (final = cause ∨
        ∃ other, (exit context middle).1 = .halted other ∧ final = .during cause other) := by
  unfold thenAlways
  rw [hrun]
  split
  · rename_i heq
    cases heq
    exact ⟨_, _, rfl, .inl rfl, .inl rfl⟩
  · rename_i heq
    cases heq
    split
    · rename_i other last hexit
      rw [hexit]
      exact ⟨_, _, rfl, .inr rfl, .inr ⟨other, rfl, rfl⟩⟩
    · rename_i hexit
      rw [hexit]
      exact ⟨_, _, rfl, .inr rfl, .inl rfl⟩
  · rename_i hother heq
    cases heq
    exact absurd rfl (hother cause)

theorem thenAlways_eq_ok
    (hrun : computation.thenAlways exit context state = (.ok result, after)) :
    ∃ middle, computation context state = (.ok result, middle) ∧
      exit context middle = (.ok (), after) := by
  rcases hfirst : computation context state with ⟨value | failure | cause, middle⟩
  · unfold thenAlways at hrun
    rw [hfirst] at hrun
    dsimp only at hrun
    split at hrun
    · rename_i hexit
      cases hrun
      exact ⟨middle, rfl, hexit⟩
    · cases hrun
    · cases hrun
  · unfold thenAlways at hrun
    rw [hfirst] at hrun
    dsimp only at hrun
    split at hrun <;> cases hrun
  · obtain ⟨final, last, hhalted, -, -⟩ := thenAlways_of_halted hfirst
    rw [hhalted] at hrun
    cases hrun

theorem liftExcept_eq_ok {given : Except Failure α}
    (hrun : (liftExcept given : Infer α) context state = (.ok result, after)) :
    given = .ok result ∧ after = state := by
  cases given with
  | error failure => cases hrun
  | ok value =>
    cases hrun
    exact ⟨rfl, rfl⟩

theorem answersOf_asExpression (computation : Infer Answers) :
    answersOf (asExpression computation) = computation := by
  simp only [answersOf, asExpression, bind_assoc, pure_bind, bind_pure]

theorem equateAll_eq (type : Ty) (types : List Ty) (classes : Classes) :
    equateAll type types classes = equateAlternately type type types classes := by
  induction types generalizing classes with
  | nil => rfl
  | cons other others ih => simp only [equateAll, equateAlternately, ih]

/-! ### Nodes that are put together from their parts -/

def compound (classes : Classes) (nodes : List Node) (make : List Answers → Infer Answers) :
    Infer Statement :=
  asExpression do make (← allOrLast (← parts classes nodes))

theorem statement_list (classes : Classes) (site : Site) (elements : List Node) :
    statement classes (.list site elements) = compound classes elements (list site · classes) := by
  rw [statement, compound]

theorem statement_tuple (classes : Classes) (site : Site) (elements : List Node) :
    statement classes (.tuple site elements) =
      compound classes elements (tuple site · classes) := by
  rw [statement, compound]

theorem entryParts_eq (classes : Classes) (entries : List (Node × Node)) :
    entryParts classes entries = parts classes (entryNodes entries) := by
  induction entries with
  | nil => rfl
  | cons entry entries ih =>
    have hnodes : entryNodes (entry :: entries) = entry.1 :: entry.2 :: entryNodes entries := rfl
    rw [hnodes, entryParts, parts, parts, ih]
    simp only [bind_assoc, pure_bind]

theorem statement_map (classes : Classes) (site : Site) (entries : List (Node × Node)) :
    statement classes (.map site entries) =
      compound classes (entryNodes entries) (map site · classes) := by
  rw [statement, compound, entryParts_eq]

theorem statement_conditional (classes : Classes) (site : Site) (condition yes : Node)
    (no : Option Node) :
    statement classes (.conditional site condition yes no) =
      compound classes (condition :: yes :: no.toList) (conditional site · classes) := by
  cases no <;> simp only [statement, compound, parts, Option.toList, bind_assoc, pure_bind]

theorem abstraction_eq_ok_iff {branches : List (List Pattern × Node)} {result : Statement} :
    statement classes (.abstraction site branches) context state = (.ok result, after) ↔
      ∃ found, branchesOnto classes site ⟨.abstraction, state.table.file, site.span⟩ none branches
        context state = (.ok found, after) ∧
          result = { answers := found, isExpression := true } := by
  have hfunction : locus .abstraction site context state =
      (.ok ⟨.abstraction, state.table.file, site.span⟩, state) := rfl
  rw [statement]
  constructor
  · intro hrun
    obtain ⟨found, middle, hfound, hrun⟩ := bind_eq_ok hrun
    obtain ⟨rfl, rfl⟩ := pure_eq_ok hrun
    rw [bind_of_ok hfunction] at hfound
    exact ⟨found, hfound, rfl⟩
  · rintro ⟨found, hfound, rfl⟩
    exact bind_of_ok ((bind_of_ok hfunction).trans hfound)

/-! ### Searches -/

section Search

variable {γ ν μ : Type} {found : Disjunction μ} {candidate : γ}

theorem searchAll_one {attempt : γ → Infer (List (Answer ν))}
    {found : Disjunction ν}
    (hrun : searchAll [candidate] attempt context state = (.ok found, after)) :
    attempt candidate context state = (.ok found.answers, after) := by
  obtain ⟨survivors, middle, hsurvive, hrun⟩ := bind_eq_ok hrun
  obtain ⟨kept, last, hkept, hsurvive⟩ := bind_eq_ok hsurvive
  obtain ⟨hsame, rfl⟩ := pure_eq_ok hsurvive
  rw [hsame] at hrun
  rcases tryCatch_eq_ok hkept with hkept | ⟨failure, last, -, hkept⟩
  · obtain ⟨answers, last, hattempt, hkept⟩ := bind_eq_ok hkept
    obtain ⟨rfl, rfl⟩ := pure_eq_ok hkept
    have hdisjunction : (({} : Survivors ν).keep answers).disjunction =
        if answers.isEmpty then .error (.noTyping none 0) else .ok ⟨answers⟩ := by
      simp [Survivors.disjunction, Survivors.keep]
    rw [hdisjunction] at hrun
    by_cases hempty : answers.isEmpty = true
    · rw [if_pos hempty] at hrun
      cases hrun
    · rw [if_neg hempty] at hrun
      obtain ⟨rfl, rfl⟩ := pure_eq_ok hrun
      exact hattempt
  · -- the candidate failed, so nothing is left
    obtain ⟨rfl, rfl⟩ := pure_eq_ok hkept
    cases hrun

theorem searchAll_of_ok {attempt : γ → Infer (List (Answer ν))}
    {answers : List (Answer ν)} (hne : answers ≠ [])
    (hrun : attempt candidate context state = (.ok answers, after)) :
    searchAll [candidate] attempt context state = (.ok ⟨answers⟩, after) := by
  have hsurvive : survive attempt [candidate] {} context state =
      (.ok (({} : Survivors ν).keep answers), after) := by
    rw [survive, bind_of_ok (tryCatch_of_ok (bind_of_ok hrun))]
    rfl
  have hdisjunction : (({} : Survivors ν).keep answers).disjunction = .ok ⟨answers⟩ := by
    simp [Survivors.disjunction, Survivors.keep, hne]
  rw [searchAll, bind_of_ok hsurvive, hdisjunction]
  rfl

theorem searchAll_answer {f : γ → Infer (Answer μ)}
    (hrun : (searchAll [candidate] fun candidate => do return [← f candidate] : Infer _)
      context state = (.ok found, after)) :
    ∃ b, f candidate context state = (.ok b, after) ∧ found = ⟨[b]⟩ := by
  obtain ⟨b, middle, hf, hrun⟩ := bind_eq_ok (searchAll_one hrun)
  obtain ⟨hanswers, rfl⟩ := pure_eq_ok hrun
  exact ⟨b, hf, congrArg Disjunction.mk hanswers⟩

theorem map_of_ok {a : Answer ν} {b : Answer μ} {f : Answer ν → Infer (Answer μ)}
    (hrun : f a context state = (.ok b, after)) :
    Disjunction.map ⟨[a]⟩ f context state = (.ok ⟨[b]⟩, after) :=
  searchAll_of_ok (List.cons_ne_nil _ _) (bind_of_ok hrun)

theorem merge_one {a : Answer ν} {b : Answer μ}
    {combine : Answer ν → Answer μ → Classes → Infer (Answer γ)} {found : Disjunction γ}
    (hrun : Disjunction.merge ⟨[a]⟩ ⟨[b]⟩ combine context state = (.ok found, after)) :
    ∃ classes c, Classes.build [a.graph, b.graph] = .ok classes ∧
      combine a b classes context state = (.ok c, after) ∧ found = ⟨[c]⟩ := by
  change (searchAll [(a, b)] _ : Infer (Disjunction γ)) context state = _ at hrun
  obtain ⟨classes, middle, hbuild, hrest⟩ := bind_eq_ok (searchAll_one hrun)
  obtain ⟨hbuilt, rfl⟩ := liftM_eq_ok hbuild
  obtain ⟨c, last, hcombine, hlast⟩ := bind_eq_ok hrest
  obtain ⟨hanswers, rfl⟩ := pure_eq_ok hlast
  exact ⟨classes, c, asFailure_eq_ok hbuilt, hcombine, congrArg Disjunction.mk hanswers⟩

theorem merge_of_ok {a : Answer ν} {b : Answer μ} {c : Answer γ}
    {combine : Answer ν → Answer μ → Classes → Infer (Answer γ)}
    (hbuild : Classes.build [a.graph, b.graph] = .ok classes)
    (hrun : combine a b classes context state = (.ok c, after)) :
    Disjunction.merge ⟨[a]⟩ ⟨[b]⟩ combine context state = (.ok ⟨[c]⟩, after) := by
  change (searchAll [(a, b)] _ : Infer (Disjunction γ)) context state = _
  refine searchAll_of_ok (List.cons_ne_nil c []) ?_
  have hlift : (liftM (Classes.build [a.graph, b.graph]).asFailure : Infer Classes) context state =
      (.ok classes, state) := by
    rw [hbuild]
    rfl
  exact (bind_of_ok hlift).trans (bind_of_ok hrun)

theorem collect_one {combination : Combination ν} {f : Combination ν → Infer (Answer μ)}
    (hrun : Combinations.collect ⟨[combination]⟩ f context state = (.ok found, after)) :
    ∃ b, f combination context state = (.ok b, after) ∧ found = ⟨[b]⟩ :=
  searchAll_answer hrun

end Search

end TypeSearch.Infer
