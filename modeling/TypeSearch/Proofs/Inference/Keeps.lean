import TypeSearch.Proofs.Inference.Pattern

/-!
# What inference leaves as it was

`Keeps R` says of a computation that, unless it halts, the tables before and after it are in the
relation `R`, also when it fails. Relations that can be put one after the other are kept by
sequences, by recovery from failures and by the search through candidates. Typing expressions and
patterns from their parts does not touch the table at all, so it keeps every such relation.
-/

namespace TypeSearch

open Inference

/-- A relation of tables for changes that can be put one after the other. -/
class Composes (R : Table → Table → Prop) : Prop where
  refl : ∀ table, R table table
  trans : ∀ {table next last}, R table next → R next last → R table last

def Table.Frames (declares : Prop) (table next : Table) : Prop :=
  table.WellFormed → Table.Frame declares table next

instance (declares : Prop) : Composes (Table.Frames declares) where
  refl _ hwf := hwf.frame_refl declares
  trans hleft hright hwf := (hleft hwf).trans (hright (hleft hwf).wellFormed)

namespace Infer

open TypeSearch.Tree (Node Pattern Site TypeExpr)

variable {α β : Type} {R S : Table → Table → Prop} {context : Context} {state after : State}

/-- Unless the computation halts, the tables before and after it are in the relation. -/
def Keeps (R : Table → Table → Prop) (computation : Infer α) : Prop :=
  ∀ context state, (∀ cause, (computation context state).1 ≠ .halted cause) →
    R state.table (computation context state).2.table

theorem Keeps.mono {computation : Infer α} (hkeeps : Keeps R computation)
    (himp : ∀ table next, R table next → S table next) : Keeps S computation :=
  fun context state hhalts => himp _ _ (hkeeps context state hhalts)

theorem Keeps.run {computation : Infer α} {value : α} (hkeeps : Keeps R computation)
    (hrun : computation context state = (.ok value, after)) : R state.table after.table := by
  have hkept := hkeeps context state (by rw [hrun]; nofun)
  rwa [hrun] at hkept

theorem Keeps.run_failed {computation : Infer α} {failure : Failure} (hkeeps : Keeps R computation)
    (hrun : computation context state = (.failed failure, after)) : R state.table after.table := by
  have hkept := hkeeps context state (by rw [hrun]; nofun)
  rwa [hrun] at hkept

theorem Keeps.declares {declares : Prop} {computation : Infer α}
    (hkeeps : Keeps (Table.Frames False) computation) :
    Keeps (Table.Frames declares) computation :=
  hkeeps.mono fun _ _ hframes hwf => (hframes hwf).mono False.elim

theorem keeps_modifyTable {f : Table → Table} (hf : ∀ table, R table (f table)) :
    Keeps R (modifyTable f) :=
  fun _ state _ => hf state.table

section Composition

variable [Composes R] {computation : Infer α} {next : α → Infer β} {failure : Failure}

theorem keeps_of_table_eq
    (htable : ∀ context state, (computation context state).2.table = state.table) :
    Keeps R computation := by
  intro context state _
  rw [htable]
  exact Composes.refl _

omit [Composes R] in
theorem Keeps.followedBy {T : Table → Table → Prop} (hkeeps : Keeps R computation)
    (hnext : ∀ value, Keeps S (next value))
    (himp : ∀ table next last, R table next → S next last → T table last)
    (hfails : ∀ context state failure after, computation context state = (.failed failure, after) →
      R state.table after.table → T state.table after.table) :
    Keeps T (computation >>= next) := by
  intro context state hhalts
  rw [bind_apply, Infer.bind] at hhalts ⊢
  have hfirst := hkeeps context state
  have hfails := hfails context state
  generalize computation context state = run at hfirst hfails hhalts ⊢
  obtain ⟨value | failure | cause, after⟩ := run
  · exact himp _ _ _ (hfirst (by simp)) (hnext value context after hhalts)
  · exact hfails failure after rfl (hfirst (by simp))
  · exact absurd rfl (hhalts cause)

omit [Composes R] in
theorem Keeps.followed (hkeeps : Keeps R computation) (hnext : ∀ value, Keeps S (next value))
    (himp : ∀ table next last, R table next → S next last → R table last) :
    Keeps R (computation >>= next) :=
  hkeeps.followedBy hnext himp fun _ _ _ _ _ => id

theorem Keeps.bind (hkeeps : Keeps R computation) (hnext : ∀ value, Keeps R (next value)) :
    Keeps R (computation >>= next) :=
  hkeeps.followed hnext fun _ _ _ => Composes.trans

theorem keeps_pure {value : α} : Keeps R (pure value : Infer α) := keeps_of_table_eq fun _ _ => rfl

theorem Keeps.map (hkeeps : Keeps R computation) (f : α → β) : Keeps R (f <$> computation) :=
  hkeeps.bind fun _ => keeps_pure

theorem keeps_throw : Keeps R (throw failure : Infer α) := keeps_of_table_eq fun _ _ => rfl

theorem keeps_liftM {outcome : Outcome Failure α} : Keeps R (liftM outcome : Infer α) :=
  keeps_of_table_eq fun _ _ => rfl

theorem Keeps.tryCatch {handle : Failure → Infer α} (hkeeps : Keeps R computation)
    (hhandle : ∀ failure, Keeps R (handle failure)) :
    Keeps R (MonadExcept.tryCatch computation handle) := by
  intro context state hhalts
  have hfirst := hkeeps context state
  change ∀ cause, (tryCatchThe Failure computation handle context state).1 ≠ .halted cause at hhalts
  change R _ (tryCatchThe Failure computation handle context state).2.table
  rw [tryCatch_apply] at hhalts ⊢
  generalize computation context state = run at hfirst hhalts ⊢
  obtain ⟨value | failure | cause, after⟩ := run
  · exact hfirst nofun
  · exact Composes.trans (hfirst nofun) (hhandle failure context after hhalts)
  · exact absurd rfl (hhalts cause)

omit [Composes R] in
theorem Keeps.attempt (hkeeps : Keeps R computation) : Keeps R (Infer.attempt computation) := by
  intro context state hhalts
  have hfirst := hkeeps context state
  unfold Infer.attempt at hhalts ⊢
  generalize computation context state = run at hfirst hhalts ⊢
  obtain ⟨value | failure | cause, after⟩ := run
  · exact hfirst nofun
  · exact hfirst nofun
  · exact absurd rfl (hhalts cause)

theorem keeps_forM {f : α → Infer PUnit} {items : List α} (hf : ∀ item, Keeps R (f item)) :
    Keeps R (items.forM f) := by
  induction items with
  | nil => exact keeps_pure
  | cons item items ih => exact (hf item).bind fun _ => ih

theorem keeps_halt {cause : Halt} : Keeps R (halt cause : Infer α) :=
  keeps_of_table_eq fun _ _ => rfl

end Composition

/-! ### Computations that do not touch the table -/

section Untouched

variable [Composes R] {name : String} {type : Ty} {types : List Ty} {site : Site}
  {cause : Issue.Cause} {failure : Failure} {classes : Classes} {a b : Ty}
  {answers others : Answers} {elements : List Answers}

theorem keeps_table : Keeps R table := keeps_of_table_eq fun _ _ => rfl

theorem keeps_fresh : Keeps R (fresh name) := keeps_of_table_eq fun _ _ => rfl

theorem keeps_freshAll {hints : List String} : Keeps R (freshAll hints) :=
  keeps_of_table_eq fun _ _ => rfl

theorem keeps_instantiate {quantified : List VarId} : Keeps R (instantiate type quantified) :=
  keeps_of_table_eq fun _ _ => rfl

theorem keeps_report (issue : Issue) : Keeps R (report issue) := keeps_of_table_eq fun _ _ => rfl

theorem keeps_locus {kind : Tree.Kind} : Keeps R (locus kind site) :=
  keeps_of_table_eq fun _ _ => rfl

theorem keeps_nodeLocus {node : Node} : Keeps R (nodeLocus node) := keeps_locus

theorem keeps_issueAt : Keeps R (issueAt site cause) := keeps_of_table_eq fun _ _ => rfl

theorem keeps_throwAt : Keeps R (throwAt site cause : Infer α) :=
  keeps_of_table_eq fun _ _ => rfl

theorem keeps_unify : Keeps R (unify classes a b) := keeps_liftM

theorem keeps_equate : Keeps R (equate classes a b) := keeps_liftM

theorem keeps_failAt : Keeps R (failAt site failure : Infer α) := by
  refine (keeps_of_table_eq fun _ _ => rfl : Keeps R (place site)).bind fun place => ?_
  split
  · exact keeps_throw
  · exact (keeps_report _).bind fun _ => keeps_throw

theorem Keeps.reportingAt {computation : Infer α} (hkeeps : Keeps R computation) :
    Keeps R (reportingAt site computation) :=
  hkeeps.tryCatch fun _ => keeps_failAt

theorem keeps_liftExcept {result : Except Failure α} : Keeps R (liftExcept result : Infer α) := by
  cases result with
  | error failure => exact keeps_throw
  | ok value => exact keeps_pure

/-! The search through candidates -/

variable {γ ν μ : Type} {candidates : List γ} {disjunction : Disjunction ν}

/-- A search keeps what each of its attempts keeps. -/
theorem keeps_survive {survivors : Survivors ν} {attempt : γ → Infer (List (Answer ν))}
    (hattempt : ∀ candidate, Keeps R (attempt candidate)) :
    Keeps R (survive attempt candidates survivors) := by
  induction candidates generalizing survivors with
  | nil => exact keeps_pure
  | cons candidate rest ih =>
    refine Keeps.bind ?_ fun _ => ih
    exact ((hattempt candidate).bind fun _ => keeps_pure).tryCatch fun _ => keeps_pure

theorem keeps_searchAll {attempt : γ → Infer (List (Answer ν))}
    (hattempt : ∀ candidate, Keeps R (attempt candidate)) :
    Keeps R (searchAll candidates attempt) := by
  refine (keeps_survive hattempt).bind fun survivors => ?_
  split
  · exact keeps_pure
  · exact keeps_throw

theorem keeps_map {f : Answer ν → Infer (Answer μ)} (hf : ∀ answer, Keeps R (f answer)) :
    Keeps R (disjunction.map f) :=
  keeps_searchAll fun answer => (hf answer).bind fun _ => keeps_pure

theorem keeps_merge {right : Disjunction μ}
    {combine : Answer ν → Answer μ → Classes → Infer (Answer γ)}
    (hcombine : ∀ a b classes, Keeps R (combine a b classes)) :
    Keeps R (disjunction.merge right combine) :=
  keeps_searchAll fun (a, b) => keeps_liftM.bind fun classes =>
    (hcombine a b classes).bind fun _ => keeps_pure

theorem keeps_collect {combinations : Combinations ν} {f : Combination ν → Infer (Answer μ)}
    (hf : ∀ combination, Keeps R (f combination)) : Keeps R (combinations.collect f) :=
  keeps_searchAll fun combination => (hf combination).bind fun _ => keeps_pure

/-! Written types and patterns -/

theorem Tries.keeps {post : α → Prop} {computation : Infer α}
    (htries : ∀ table, Tries table post computation) : Keeps R computation := by
  refine keeps_of_table_eq fun context state => ?_
  obtain ⟨fresher, hstate⟩ := (htries state.table context state rfl).1
  rw [hstate]

theorem keeps_typeExpr {names : TypeNames} {type : TypeExpr} : Keeps R (typeExpr names type) :=
  Tries.keeps fun _ => tries_typeExpr _ _

theorem keeps_writtenType {type : TypeExpr} : Keeps R (writtenType type) :=
  Tries.keeps fun _ => tries_writtenType _

theorem keeps_pattern {p : Pattern} : Keeps R (pattern classes p) := by
  have htries : ∀ table, Tries table (Matched False (fun _ => False) p) (pattern classes p) :=
    fun _ => tries_pattern False.elim False.elim p
  exact Tries.keeps htries

/-- What is known after answers: what the only one knows. -/
def known (answers : Answers) (classes : Classes) : Classes :=
  match answers.answers with
  | [only] => only.classes
  | _ => classes

omit [Composes R] in
theorem knownAfter_bind (next : Classes → Infer β) :
    (knownAfter answers classes >>= next) = next (known answers classes) := by
  obtain ⟨_ | ⟨only, _ | ⟨second, rest⟩⟩⟩ := answers <;> rfl

/-- What a branch does inside the scope of its function. -/
def withinFunction (site : Site) (params : List Pattern) (body : Tree.Locus)
    (inferBody : Classes → Infer Answers) (classes : Classes) : Infer Answers := do
  params.forM implicitTemplates
  let (children, classes) ← Infer.params body params classes
  let types := if children.isEmpty then [.void] else children.map (·.type)
  let answers ← inBody body (inferBody classes)
  reportingAt site do
    answers.map fun a =>
      return answer site (.curried (types ++ [a.type])) (children ++ [a.node]) a.classes

omit [Composes R] in
theorem branch_eq (function : Tree.Locus) (site : Site) (params : List Pattern) (body : Tree.Locus)
    (inferBody : Classes → Infer Answers) (classes : Classes) :
    branch function site params body inferBody classes =
      inAbstraction function (withinFunction site params body inferBody classes) := by
  simp only [branch, Ty.function_concat]
  rfl

/-! Expressions -/

theorem keeps_allOrLast {parts : List (Except Failure Answers)} : Keeps R (allOrLast parts) := by
  simp only [allOrLast]
  split
  · exact keeps_throw
  · exact keeps_pure

theorem keeps_combine {make : Combination Typed → Infer (Answer Typed)}
    (hmake : ∀ combination, Keeps R (make combination)) :
    Keeps R (combine site elements classes make) :=
  (keeps_liftM.bind fun _ => keeps_collect hmake).reportingAt

theorem keeps_identifier : Keeps R (identifier site name classes) := by
  refine keeps_table.bind fun table => ?_
  split
  · exact keeps_issueAt.bind fun _ => keeps_failAt
  · refine keeps_instantiate.bind fun type => ?_
    split
    · exact keeps_liftM
    · exact keeps_pure

theorem keeps_equateAlternately : Keeps R (equateAlternately a b types classes) := by
  induction types generalizing a b classes with
  | nil => exact keeps_pure
  | cons type types ih => exact keeps_equate.bind fun _ => ih

theorem keeps_list : Keeps R (list site elements classes) := by
  simp only [list, equateAll_eq]
  exact (keeps_liftM.bind fun _ => keeps_fresh.bind fun _ =>
    keeps_collect (fun _ => keeps_equateAlternately.bind fun _ => keeps_pure)).reportingAt

theorem keeps_tuple : Keeps R (tuple site elements classes) :=
  keeps_combine fun _ => keeps_pure

theorem keeps_mapLiteral : Keeps R (Infer.map site elements classes) :=
  (keeps_liftM.bind fun _ => keeps_fresh.bind fun _ => keeps_fresh.bind fun _ =>
    keeps_collect (fun _ => keeps_equateAlternately.bind fun _ => keeps_pure)).reportingAt

theorem keeps_asFunction : Keeps R (asFunction a b classes) :=
  keeps_fresh.bind fun _ => keeps_equate.bind fun _ => keeps_pure

theorem keeps_call : Keeps R (call a classes) := by
  unfold call
  split
  · exact keeps_pure
  · split
    · exact keeps_pure
    · exact keeps_asFunction
  · exact keeps_asFunction

theorem keeps_apply : Keeps R (apply a b classes) := by
  unfold apply
  split
  · exact keeps_equate.bind fun _ => keeps_liftM.bind fun _ => keeps_pure
  · exact keeps_asFunction

theorem keeps_callAll : Keeps R (callAll site answers) :=
  (keeps_map (fun _ => keeps_call.bind fun _ => keeps_pure)).reportingAt

theorem keeps_applyAll : Keeps R (applyAll site answers others) :=
  (keeps_merge (fun _ _ _ => keeps_apply.bind fun _ => keeps_pure)).reportingAt

theorem keeps_access {other : Site} : Keeps R (access site other name answers) := by
  refine (keeps_map (fun answer => ?_)).reportingAt
  refine keeps_liftM.bind fun type => ?_
  split
  · refine keeps_table.bind fun table => ?_
    split
    · exact keeps_throwAt
    · exact keeps_instantiate.bind fun _ => keeps_pure
  · exact keeps_throwAt

theorem keeps_annotated : Keeps R (annotated site type answers) :=
  (keeps_map (fun _ => keeps_unify.bind fun _ => keeps_pure)).reportingAt

theorem keeps_conditional : Keeps R (conditional site elements classes) := by
  refine keeps_combine fun combination => ?_
  split
  · exact keeps_equate.bind fun _ => keeps_unify.bind fun _ => keeps_pure
  · exact keeps_equate.bind fun _ => keeps_pure

theorem keeps_mergeBranches : Keeps R (mergeBranches site answers others) := by
  refine (keeps_merge (fun a b classes => ?_)).reportingAt
  refine keeps_unify.attempt.bind fun unified => ?_
  split
  · exact keeps_pure
  · exact keeps_pure

end Untouched

end Infer

end TypeSearch
