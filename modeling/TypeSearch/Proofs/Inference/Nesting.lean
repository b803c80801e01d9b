import TypeSearch.Proofs.Inference.Keeps

/-!
# Inference closes the scopes that it opens

Names are declared in the current scope only, and what opens a scope closes it, however the
computation inside ends. So inferring a node keeps the scopes around the current one, and a function
keeps the current one too.
-/

namespace TypeSearch.Infer

open Inference List
open TypeSearch.Tree (Node Pattern Site TypeExpr)

variable {α β : Type} {R : Table → Table → Prop} {next : Table} {site : Site} {classes : Classes}
  {answers : Answers} {p : Pattern} {exported : Bool} {patterns : List Pattern}

/-- Of the open scopes the computation changes the current one only, and only its names. -/
abbrev Declares (computation : Infer α) : Prop := Keeps (Table.Frames True) computation

/-! ### Computations that declare names -/

section Declaring

variable {binding : Binding} {declaration : Declaration} {name path moduleName : String}
  {names : List String} {node : Tree.Locus} {types : List TypeExpr} {written : List Template}

theorem keeps_templates : Declares (templates p) :=
  fun _ state _ => (state.table.declares_templates p state.fresher).frame

theorem keeps_markNext {flags : Flags} : Declares (modifyTable (·.markNext flags)) :=
  keeps_modifyTable fun table => (table.declares_marked _ _).frame

theorem keeps_implicitTemplates (p : Pattern) : Declares (implicitTemplates p) :=
  keeps_markNext.bind fun _ => keeps_templates.map _

theorem keeps_assignmentTemplates : Declares (assignmentTemplates p exported) := by
  unfold assignmentTemplates
  split
  · exact keeps_markNext.bind fun _ => keeps_templates
  · exact keeps_templates

theorem keeps_bindPending : Declares bindPending :=
  keeps_modifyTable fun table => table.declares_boundPending.frame

theorem keeps_assign [Composes R] {value : Answer Typed} : Keeps R (assign p written value) := by
  unfold assign
  split
  · exact keeps_equate.bind fun _ => keeps_pure
  · exact keeps_pattern.bind fun _ => keeps_equate.bind fun _ => keeps_pure

theorem keeps_assignment [Composes R] {isFunction : Bool} :
    Keeps R (assignment site p written isFunction answers) :=
  (keeps_map fun _ => keeps_assign.bind fun _ => keeps_pure).reportingAt.bind fun _ => keeps_pure

theorem keeps_optionForM [Composes R] {item : Option α} {f : α → Infer PUnit}
    (hf : ∀ item, Keeps R (f item)) : Keeps R (item.forM f) := by
  cases item with
  | none => exact keeps_pure
  | some item => exact hf item

theorem keeps_replaceTable [Composes R] {f : Table → Table} {next : Table → Infer α}
    (hf : ∀ table, R table (f table)) (hnext : ∀ table, Keeps R (next table)) :
    Keeps R (table >>= fun table => modifyTable (fun _ => f table) >>= fun _ => next table) :=
  fun context state hhalts => Composes.trans (hf state.table)
    (hnext state.table context { state with table := f state.table } hhalts)

theorem keeps_declare : Declares (declare binding) :=
  keeps_replaceTable (fun table => (table.declares_declare binding).frame) fun _ =>
    keeps_optionForM keeps_report

theorem keeps_declareType : Declares (declareType declaration) :=
  keeps_replaceTable (fun table => (table.declares_declareType declaration).frame) fun _ =>
    keeps_optionForM keeps_report

theorem keeps_fieldTypes [Composes R] {names : TypeNames} : Keeps R (fieldTypes names types) := by
  induction types with
  | nil => exact keeps_pure
  | cons written rest ih =>
    have hrest : ∀ type, Keeps R (do return type :: (← fieldTypes names rest)) :=
      fun type => ih.bind fun _ => keeps_pure
    refine keeps_typeExpr.reportingAt.attempt.bind fun result => ?_
    dsimp only
    split
    · exact keeps_pure.bind hrest
    · exact keeps_fresh.bind fun _ => keeps_pure.bind hrest

theorem keeps_declaredType [Composes R] : Keeps R (declaredType name node exported types) :=
  keeps_freshAll.bind fun _ => keeps_pure

theorem keeps_declareClass {fields : List (String × TypeExpr)} :
    Declares (declareClass name node fields exported) := by
  refine keeps_declaredType.bind fun _ => keeps_table.bind fun _ =>
    keeps_declareType.bind fun _ => keeps_fieldTypes.bind fun _ => ?_
  dsimp only
  split
  · exact (keeps_modifyTable fun table => (table.declares_setMembers _ _ _).frame).bind
      fun _ => keeps_liftM.bind fun _ => keeps_declare
  · exact keeps_liftM.bind fun _ => keeps_declare

theorem keeps_declareEnum {variants : List (String × List TypeExpr)} :
    Declares (declareEnum name node variants exported) := by
  refine keeps_declaredType.bind fun _ => keeps_declareType.bind fun _ =>
    keeps_forM fun variant => ?_
  dsimp only
  split
  · exact keeps_pure.bind fun _ => keeps_declare
  · exact keeps_fieldTypes.bind fun _ => keeps_liftM.bind fun _ => keeps_declare

theorem keeps_importFrom {file : TypedFile} :
    Declares (importFrom file site node path names moduleName) := by
  refine (keeps_forM fun _ => keeps_declareType).bind fun _ => ?_
  split
  · exact keeps_declareType.bind fun _ => keeps_declare
  · split
    · exact keeps_forM fun _ => keeps_declare
    · refine keeps_forM fun name => ?_
      split
      · exact keeps_declare
      · exact keeps_issueAt.bind fun _ => keeps_report _

theorem keeps_importFile : Declares (importFile site path names moduleName) := by
  refine keeps_locus.bind fun node => keeps_table.bind fun table => ?_
  split
  · exact keeps_report _
  · refine (keeps_of_table_eq fun _ _ => rfl : Keeps _ (dependency? site)).bind fun file => ?_
    split
    · exact keeps_importFrom
    · exact keeps_issueAt.bind fun _ => keeps_report _

end Declaring

/-! ### Computations in scopes of their own -/

section Nested

variable {computation : Infer α} {exit : Infer Unit} {S T : Table → Table → Prop}
  {kinds : List Scope.Kind} {last : Table} {node : Option Tree.Locus}
  {inferBody : Classes → Infer Answers} {f : Table → Except Halt Table} {result : Ty}
  {subjects : Answers} {body function : Tree.Locus}

def Sure (computation : Infer α) : Prop :=
  ∀ context state failure, (computation context state).1 ≠ .failed failure

theorem Sure.bind {next : α → Infer β} (hsure : Sure computation)
    (hnext : ∀ value, Sure (next value)) : Sure (computation >>= next) := by
  intro context state failure
  have hfirst := hsure context state failure
  rw [bind_apply, Infer.bind]
  generalize computation context state = run at hfirst ⊢
  obtain ⟨value | other | cause, after⟩ := run
  · exact hnext value context after failure
  · exact fun heq => hfirst (by simpa using heq)
  · exact fun heq => by cases heq

theorem Keeps.andThen {next : α → Infer β} (hkeeps : Keeps R computation) (hsure : Sure computation)
    (hnext : ∀ value, Keeps S (next value))
    (himp : ∀ table next last, R table next → S next last → T table last) :
    Keeps T (computation >>= next) :=
  hkeeps.followedBy hnext himp fun context state failure _ hfailed =>
    absurd (congrArg Prod.fst hfailed) (hsure context state failure)

theorem sure_attempt : Sure (Infer.attempt computation) := by
  intro context state failure
  unfold Infer.attempt
  split <;> exact nofun

theorem tryTable_run (f : Table → Except Halt Table) (context : Context) (state : State) :
    tryTable f context state =
      match f state.table with
      | .ok table => (.ok (), { state with table })
      | .error cause => (.halted cause, state) := by
  change (match f state.table with
    | .ok table => modifyTable fun _ => table
    | .error cause => halt cause) context state = _
  cases f state.table <;> rfl

theorem keeps_tryTable (hf : ∀ table next, f table = .ok next → R table next) :
    Keeps R (tryTable f) := by
  intro context state hhalts
  rw [tryTable_run] at hhalts ⊢
  cases hchange : f state.table with
  | ok next => exact hf _ _ hchange
  | error cause =>
    rw [hchange] at hhalts
    exact absurd rfl (hhalts cause)

theorem sure_tryTable : Sure (tryTable f) := by
  intro context state failure
  rw [tryTable_run]
  split <;> exact nofun

theorem sure_table : Sure table := fun _ _ _ => nofun

theorem sure_modifyTable {f : Table → Table} : Sure (modifyTable f) := fun _ _ _ => nofun

theorem sure_bindPending : Sure bindPending := sure_modifyTable

theorem Keeps.thenAlways (hkeeps : Keeps R computation) (hexit : Keeps S exit) (hsure : Sure exit)
    (himp : ∀ table next last, R table next → S next last → T table last) :
    Keeps T (computation.thenAlways exit) := by
  intro context state hhalts
  have hfirst := hkeeps context state
  rcases hrun : computation context state with ⟨value | failure | cause, after⟩
  case halted =>
    obtain ⟨final, last, hhalted, -, -⟩ := thenAlways_of_halted hrun
    exact absurd (congrArg Prod.fst hhalted) (hhalts final)
  all_goals
    rw [hrun] at hfirst
    have hlast := hexit context after
    have hfails := hsure context after
    unfold Infer.thenAlways at hhalts ⊢
    rw [hrun] at hhalts ⊢
    dsimp only at hhalts ⊢
    generalize exit context after = left at *
    obtain ⟨_ | failure | cause, last⟩ := left
    · exact himp _ _ _ (hfirst nofun) (hlast nofun)
    · exact absurd rfl (hfails failure)
    · exact absurd rfl (hhalts cause)

def Leaves (table next : Table) : Prop :=
  table.WellFormed → ∃ named kinds, Table.Frame True table named ∧ named.leave kinds = .ok next

theorem keeps_tryLeave :
    Keeps (fun table next => table.leave kinds = .ok next) (tryTable (·.leave kinds)) :=
  keeps_tryTable fun _ _ hleave => hleave

theorem keeps_leaveBlock :
    Keeps Leaves (do
      bindPending
      tryTable (·.leaveBlock)) :=
  keeps_bindPending.andThen sure_bindPending (fun _ => keeps_tryLeave)
    fun _ named _ hframes hleave hwf => ⟨named, _, hframes hwf, hleave⟩

theorem frames_of_leaves {table : Table} {kind : Scope.Kind}
    (hframes : Table.Frames True (table.enter kind node) next) (hleaves : Leaves next last) :
    Table.Frames False table last := by
  intro hwf
  have hframe := hframes (hwf.enter kind node)
  obtain ⟨named, kinds, hnamed, hleave⟩ := hleaves hframe.wellFormed
  exact hwf.frame_leave (hframe.trans hnamed) hleave

theorem Keeps.inBlock (hkeeps : Declares computation) (node : Tree.Locus) :
    Keeps (Table.Frames False) (inBlock node computation) := by
  have hinner := hkeeps.thenAlways keeps_leaveBlock
    (sure_bindPending.bind fun _ => sure_tryTable)
    (T := fun table last => ∃ next, Table.Frames True table next ∧ Leaves next last)
    fun table next last hframes hleaves => ⟨next, hframes, hleaves⟩
  intro context state hhalts
  obtain ⟨next, hframes, hleaves⟩ := hinner context
    { state with table := state.table.enterBlock node } hhalts
  exact frames_of_leaves hframes hleaves

/-- The current scope, of a function, was left and its body became a part of it. -/
def LeavesFunction (function : Scope.Id) (table next : Table) : Prop :=
  ∃ outside, table.leave [.abstraction] = .ok outside ∧ outside.mergeBody function = .ok next

theorem keeps_leaveFunction (function : Scope.Id) :
    Keeps (LeavesFunction function) (do
      tryTable (·.leave [.abstraction])
      tryTable (·.mergeBody function)) :=
  keeps_tryLeave.andThen sure_tryTable
    (fun _ => keeps_tryTable fun _ _ hmerge => hmerge)
    fun _ outside _ hleave hmerge => ⟨outside, hleave, hmerge⟩

theorem Keeps.inAbstraction (hkeeps : Declares computation)
    (node : Tree.Locus) : Keeps (Table.Frames False) (inAbstraction node computation) := by
  have hexit : Keeps (fun table last => LeavesFunction table.current table last) (do
      let function := (← table).current
      tryTable (·.leave [.abstraction])
      tryTable (·.mergeBody function)) :=
    fun context state hhalts => keeps_leaveFunction state.table.current context state hhalts
  have hsure : Sure (do
      let function := (← table).current
      tryTable (·.leave [.abstraction])
      tryTable (·.mergeBody function)) :=
    fun context state => sure_tryTable.bind (fun _ => sure_tryTable) context state
  have hinner := hkeeps.thenAlways hexit hsure
    (T := fun table last => ∃ next, Table.Frames True table next ∧
      LeavesFunction next.current next last)
    fun table next last hframes hleaves => ⟨next, hframes, hleaves⟩
  intro context state hhalts hwf
  obtain ⟨next, hframes, outside, hleave, hmerge⟩ := hinner context
    { state with table := state.table.enterAbstraction node } hhalts
  have hframe := hframes (hwf.enter .abstraction node)
  refine (hwf.frame_leave hframe hleave).mergeBody ?_ hmerge
  rw [hframe.current]
  exact hwf.current_lt

theorem Keeps.resume [Composes R] (hpending : Keeps R bindPending)
    (answers : Except Failure Answers) : Keeps R (do
      bindPending
      match answers with
      | .ok answers => return answers
      | .error failure => throw failure) := by
  refine hpending.bind fun _ => ?_
  split
  · exact keeps_pure
  · exact keeps_throw

/-- The body of a function is entered and left. What comes after it keeps what the settling of open
templates keeps. -/
theorem Keeps.enterBody [Composes R] {computation : Infer Answers}
    (hkeeps : Declares computation) (hpending : Keeps R bindPending)
    (body : Tree.Locus) :
    Keeps (fun table last => ∃ next left, Table.Frames True (table.enterBlock body) next ∧
      Leaves next left ∧ R left last) (inBody body computation) := by
  have hleave := fun answers => keeps_tryLeave.andThen sure_tryTable
    (fun _ => hpending.resume answers)
    (T := fun table last => ∃ next, table.leave [.block, .body] = .ok next ∧ R next last)
    fun table next last hleave hrest => ⟨next, hleave, hrest⟩
  have hexit := fun answers => keeps_bindPending.andThen sure_bindPending (fun _ => hleave answers)
    (T := fun table last => ∃ next, Leaves table next ∧ R next last)
    fun table named last hframes ⟨next, hleave, hrest⟩ =>
      ⟨next, fun hwf => ⟨named, _, hframes hwf, hleave⟩, hrest⟩
  have hinner := hkeeps.attempt.andThen sure_attempt hexit
    (T := fun table last => ∃ next left, Table.Frames True table next ∧ Leaves next left ∧
      R left last)
    fun table next last hframes ⟨left, hleaves, hrest⟩ => ⟨next, left, hframes, hleaves, hrest⟩
  exact fun context state hhalts =>
    hinner context { state with table := state.table.enterBlock body } hhalts

theorem Keeps.inBody {computation : Infer Answers}
    (hkeeps : Declares computation) (body : Tree.Locus) :
    Declares (inBody body computation) := by
  refine (hkeeps.enterBody keeps_bindPending body).mono ?_
  rintro table last ⟨next, left, hframes, hleaves, hrest⟩
  refine Composes.trans (fun hwf => ?_) hrest
  exact (frames_of_leaves hframes hleaves hwf).mono False.elim

theorem Keeps.emptyBody {next : Infer α} (hnext : Keeps R next) (body : Tree.Locus) :
    Keeps (fun table last => ∃ left, (table.enterBlock body).leave [.block, .body] = .ok left ∧
      R left last) (do
        modifyTable (·.enterBlock body)
        tryTable (·.leaveBlock)
        next) := by
  have hinner := keeps_tryLeave.andThen sure_tryTable (fun _ => hnext)
    (T := fun table last => ∃ left, table.leave [.block, .body] = .ok left ∧ R left last)
    fun table left last hleave hrest => ⟨left, hleave, hrest⟩
  exact fun context state hhalts =>
    hinner context { state with table := state.table.enterBlock body } hhalts

theorem frames_emptyBody {table left : Table}
    (hleave : (table.enterBlock node).leave kinds = .ok left)
    (hframes : Table.Frames True left last) : Table.Frames True table last := by
  refine Composes.trans (fun hwf => ?_) hframes
  exact (hwf.frame_leave ((hwf.enter _ _).frame_refl True) hleave).mono False.elim

theorem keeps_params : Declares (params body patterns classes) := by
  induction patterns generalizing classes with
  | nil => exact keeps_pure
  | cons param rest ih =>
    refine keeps_pattern.attempt.bind fun result => ?_
    split
    · refine keeps_bindPending.bind fun _ =>
        (Keeps.emptyBody (R := Table.Frames True) keeps_failAt body).mono ?_
      exact fun _ _ ⟨_, hleave, hframes⟩ => frames_emptyBody hleave hframes
    · exact ih.bind fun _ => keeps_pure

theorem keeps_branch (hbody : ∀ known, Declares (inferBody known)) :
    Keeps (Table.Frames False) (branch function site patterns body inferBody classes) := by
  rw [branch_eq]
  refine Keeps.inAbstraction ?_ _
  refine (keeps_forM keeps_implicitTemplates).bind fun _ => keeps_params.bind
    fun _ => ((hbody _).inBody _).bind fun _ => ?_
  exact (keeps_map fun _ => keeps_pure).reportingAt

theorem keeps_alternatives [Composes R] {subject : Answer Typed} {cause : Failure} :
    Keeps R (alternatives site result subject patterns cause) := by
  induction patterns generalizing cause with
  | nil => exact keeps_pure
  | cons alternative rest ih =>
    refine (keeps_pattern.bind fun _ => keeps_equate.bind fun _ =>
      keeps_pure).attempt.bind fun matched => ?_
    split
    · exact ih
    · exact ih.bind fun _ => keeps_pure

theorem keeps_matchSubject [Composes R] : Keeps R (matchSubject site patterns result subjects) := by
  refine keeps_searchAll fun subject => Keeps.bind ?_ fun _ => keeps_pure
  refine keeps_alternatives.bind fun (answers, cause) => ?_
  dsimp only
  split
  · exact keeps_throw
  · exact keeps_liftM

theorem keeps_checkAlternatives [Composes R] {others : List Pattern} :
    Keeps R (checkAlternatives p others) := by
  refine (keeps_forM fun _ => keeps_issueAt.bind fun _ => keeps_report _).bind fun _ => ?_
  split
  · exact keeps_throw
  · exact keeps_pure

theorem keeps_whenCase {others : List Pattern} {bodySite : Site}
    (hbody : ∀ known, Declares (inferBody known)) :
    Keeps (Table.Frames False)
      (whenCase site subjects result p others body bodySite inferBody classes) := by
  refine Keeps.inBlock ?_ body
  refine (keeps_templates.map _).bind fun _ => keeps_checkAlternatives.bind fun _ =>
    keeps_matchSubject.reportingAt.bind fun _ => ?_
  rw [knownAfter_bind]
  refine (hbody _).bind fun _ => ?_
  exact (keeps_merge fun _ _ _ => keeps_equate.bind fun _ => keeps_pure).reportingAt

theorem keeps_bindGenerators [Composes R] {iterables : List Ty} :
    Keeps R (bindGenerators patterns iterables classes) := by
  induction patterns generalizing iterables classes with
  | nil => exact keeps_pure
  | cons target targets ih =>
    cases iterables with
    | nil => exact keeps_pure
    | cons iterable iterables =>
      exact keeps_fresh.bind fun _ => keeps_equate.bind fun _ =>
        keeps_pattern.bind fun _ => keeps_equate.bind fun _ =>
          ih.bind fun _ => keeps_pure

theorem keeps_comprehension {iterables : List Answers}
    (hbody : ∀ known, Declares (inferBody known)) :
    Declares (comprehension site patterns iterables inferBody classes) :=
  (keeps_combine fun _ => keeps_bindGenerators.bind fun _ => keeps_pure).bind
    fun _ => (hbody _).bind fun _ => (keeps_merge fun _ _ _ => keeps_pure).reportingAt

theorem keeps_withTable {next : Table → Infer α} (hnext : ∀ table, Keeps R (next table)) :
    Keeps R (table >>= next) :=
  fun context state => hnext state.table context state

theorem Keeps.declareModule {statements : Infer Unit}
    (hkeeps : Declares statements) (hsure : Sure statements) (name : String)
    (node : Tree.Locus) (exported : Bool) :
    Declares (declareModule name node exported statements) := by
  have hdeclare : ∀ inside : Scope.Id, Declares (do
      let exports := ((← table).scopeAt inside).bindings.filter (·.flags.exported)
      let declaration := moduleType name node { exported } exports
      declareType declaration
      declare { name, type := declaration.type, flags := { exported }, node := some node }) :=
    fun inside => keeps_table.bind fun _ => keeps_declareType.bind fun _ => keeps_declare
  have hleave := fun inside => keeps_tryLeave.andThen sure_tryTable (fun _ => hdeclare inside)
    (T := fun table last => ∃ left, table.leave [.module] = .ok left ∧ Table.Frames True left last)
    fun table left last hleave hframes => ⟨left, hleave, hframes⟩
  have hinner := hkeeps.andThen hsure (fun _ => keeps_withTable fun table => hleave table.current)
    (T := fun table last => ∃ next left, Table.Frames True table next ∧
      next.leave [.module] = .ok left ∧ Table.Frames True left last)
    fun table next last hframes ⟨left, hleave, hdeclared⟩ =>
      ⟨next, left, hframes, hleave, hdeclared⟩
  intro context state hhalts
  obtain ⟨next, left, hframes, hleave, hdeclared⟩ := hinner context
    { state with table := state.table.enterModule node } hhalts
  refine Composes.trans (fun hwf => ?_) hdeclared
  exact (hwf.frame_leave (hframes (hwf.enter .module node)) hleave).mono False.elim

end Nested

/-! ### Units -/

section Units

variable {ε : Type} {statement : Infer Statement} {f : Ty → Outcome ε Ty} {generalizes : Bool}
  {template : Template} {first : Scope.Id}

theorem sure_liftM {outcome : Outcome Failure α} (hsure : ∀ failure, outcome ≠ .failed failure) :
    Sure (liftM outcome) :=
  fun _ _ failure => hsure failure

theorem sure_forM {f : α → Infer PUnit} (hf : ∀ item, Sure (f item)) (items : List α) :
    Sure (items.forM f) := by
  induction items with
  | nil => exact fun _ _ _ => nofun
  | cons item items ih => exact (hf item).bind fun _ => ih

theorem reduce_ne_failed (classes : Classes) (type : Ty) (error : ε) :
    classes.reduce type ≠ .failed error :=
  Facts.reduceWithin_ne_failed _ _ _

theorem unionOver_ne_failed (answers : Answers) (type : Ty) (error : ε) :
    unionOver answers type ≠ .failed error := by
  unfold unionOver
  split
  · exact nofun
  · refine Outcome.bind_ne_failed (Outcome.mapM_ne_failed fun a _ => ?_) fun types => ?_
    · exact reduce_ne_failed a.classes type error
    · unfold Ty.anyOf
      split <;> exact nofun

theorem sure_settleTemplate : Sure (settleTemplate answers generalizes template) :=
  (sure_liftM (unionOver_ne_failed answers _)).bind fun _ => sure_modifyTable

theorem keeps_settleTemplate : Declares (settleTemplate answers generalizes template) :=
  keeps_liftM.bind fun _ => keeps_modifyTable fun table => (table.declares_add _).frame

theorem reduced_ne_failed (a : Answer Typed) (failure : Failure) : a.reduced ≠ .failed failure := by
  unfold Answer.reduced
  split
  · exact reduce_ne_failed _ _ _
  · exact nofun

theorem sure_checkDeterminate : Sure (checkDeterminate site answers) := by
  refine Sure.bind (sure_liftM fun failure =>
    Outcome.mapM_ne_failed fun a _ => reduced_ne_failed a failure) fun types => ?_
  dsimp only
  split
  · exact fun _ _ _ => nofun
  · exact fun _ _ _ => nofun

theorem keeps_checkDeterminate [Composes R] : Keeps R (checkDeterminate site answers) := by
  refine keeps_liftM.bind fun types => ?_
  dsimp only
  split
  · exact keeps_issueAt.bind fun _ => keeps_report _
  · exact keeps_pure

theorem sure_recordAnswer (a : Answer Typed) : Sure (recordAnswer a) := by
  have hstate : Sure state := fun _ _ _ => nofun
  refine hstate.bind fun before => ?_
  refine Sure.bind (sure_liftM fun failure => ?_) fun types => ?_
  · exact Outcome.foldlM_ne_failed fun _ entry =>
      Outcome.bind_ne_failed (reduce_ne_failed a.classes entry.2 failure) fun _ => nofun
  · exact fun _ _ _ => nofun

theorem keeps_recordAnswer [Composes R] (a : Answer Typed) : Keeps R (recordAnswer a) :=
  (keeps_of_table_eq fun _ _ => rfl : Keeps R state).bind fun _ => keeps_liftM.bind fun _ =>
    keeps_of_table_eq fun _ _ => rfl

theorem repeatedly_ne_failed {count : Nat} {type : Ty} {error : ε}
    (hf : ∀ type, f type ≠ .failed error) :
    repeatedly f count type ≠ .failed error := by
  induction count generalizing type with
  | zero => exact nofun
  | succ count ih => exact Outcome.bind_ne_failed (hf type) fun _ => ih

theorem settleScopes_ne_failed {table : Table} {error : ε}
    (hf : ∀ type, f type ≠ .failed error) :
    settleScopes table first f ≠ .failed error := by
  refine Outcome.bind_ne_failed (Outcome.mapM_ne_failed fun scope _ => ?_) fun _ => nofun
  refine Outcome.bind_ne_failed (Outcome.mapM_ne_failed fun binding _ => ?_) fun _ => nofun
  exact Outcome.bind_ne_failed (repeatedly_ne_failed hf) fun _ => nofun

/-- A change of a well-formed table in which only scopes before `first` are open. -/
def FramesBefore (first : Scope.Id) (table next : Table) : Prop :=
  table.WellFormed → (∀ id ∈ table.path, id < first) → Table.Frame True table next

instance (first : Scope.Id) : Composes (FramesBefore first) where
  refl _ hwf _ := hwf.frame_refl True
  trans hleft hright hwf hbefore := by
    have hframe := hleft hwf hbefore
    refine hframe.trans (hright hframe.wellFormed ?_)
    rwa [hframe.path_eq]

def Scope.Rebinds (scope next : Scope) : Prop := next = { scope with bindings := next.bindings }

theorem settleScopes_eq_ok {table : Table} {first : Scope.Id}
    (hsettle : settleScopes table first f = .ok next) :
    ∃ settled, Forall₂ Scope.Rebinds (table.scopes.toList.drop first) settled ∧
      next = { table with scopes := (table.scopes.toList.take first ++ settled).toArray } := by
  obtain ⟨settled, hsettled, hlast⟩ := Outcome.bind_eq_ok hsettle
  cases hlast
  refine ⟨settled, (Outcome.forall₂_of_mapM hsettled).imp fun scope next hscope => ?_, rfl⟩
  obtain ⟨bindings, -, hlast⟩ := Outcome.bind_eq_ok hscope
  cases hlast
  rfl

section Settled

variable {table next : Table} {first : Scope.Id} {settled : List Scope}

theorem forall₂_settled
    (hsettled : Forall₂ Scope.Rebinds (table.scopes.toList.drop first) settled) :
    Forall₂ Scope.Rebinds table.scopes.toList (table.scopes.toList.take first ++ settled) := by
  have hrefl : Forall₂ Scope.Rebinds (table.scopes.toList.take first)
      (table.scopes.toList.take first) := forall₂_same.mpr fun _ _ => rfl
  have happend : Forall₂ Scope.Rebinds
      (table.scopes.toList.take first ++ table.scopes.toList.drop first)
      (table.scopes.toList.take first ++ settled) := rel_append hrefl hsettled
  rwa [take_append_drop] at happend

theorem getD_of_forall₂ {R : Scope → Scope → Prop} (hdefault : R default default)
    {before after : List Scope} (hscopes : Forall₂ R before after) (id : Scope.Id) :
    R (before[id]?.getD default) (after[id]?.getD default) := by
  induction hscopes generalizing id with
  | nil => exact hdefault
  | cons hhead _ ih =>
    cases id with
    | zero => exact hhead
    | succ id => exact ih id

theorem scopeAt_of_forall₂ {scopes : List Scope}
    (hscopes : Forall₂ Scope.Rebinds table.scopes.toList scopes) (id : Scope.Id) :
    Scope.Rebinds (table.scopeAt id) ({ table with scopes := scopes.toArray }.scopeAt id) := by
  rw [Table.scopeAt_eq, Table.scopeAt_eq, getElem?_toArray, ← Array.getElem?_toList]
  exact getD_of_forall₂ (R := Scope.Rebinds) rfl hscopes id

theorem scopeAt_settled_of_lt (settled : List Scope) {id : Scope.Id} (hid : id < table.size)
    (hfirst : id < first) :
    { table with scopes := (table.scopes.toList.take first ++ settled).toArray }.scopeAt id =
      table.scopeAt id := by
  have htake : id < (table.scopes.toList.take first).length := by
    rw [length_take]
    exact lt_min hfirst hid
  rw [Table.scopeAt_eq, Table.scopeAt_eq, getElem?_toArray, getElem?_append_left htake,
    getElem?_take_of_lt hfirst, Array.getElem?_toList]

theorem frames_settleScopes
    (hsettle : settleScopes table first f = .ok next) : FramesBefore first table next := by
  intro hwf hbefore
  obtain ⟨settled, hsettled, rfl⟩ := settleScopes_eq_ok hsettle
  have hall := forall₂_settled hsettled
  have hat := scopeAt_of_forall₂ hall
  have hsize : { table with
      scopes := (table.scopes.toList.take first ++ settled).toArray }.size = table.size := by
    exact hall.length_eq.symm
  -- only the scopes that the unit made are changed, and the open ones are older
  have hopen : ∀ id ∈ table.path, { table with
      scopes := (table.scopes.toList.take first ++ settled).toArray }.scopeAt id =
        table.scopeAt id :=
    fun id hid => scopeAt_settled_of_lt settled (hwf.lt_size hid) (hbefore id hid)
  refine ⟨⟨?_, hwf.nested.congr fun id hid => by rw [hopen id hid], fun id hid => ?_,
    fun id child hchild => ?_⟩, rfl, rfl, rfl, rfl, hsize.ge,
    fun id hid => hopen id (.tail _ hid), .inl trivial⟩
  · rw [hsize]
    exact hwf.current_lt
  · rw [hopen id hid]
    exact hwf.unmerged id hid
  · rw [hat id] at hchild
    rw [hsize]
    exact hwf.children id child hchild

end Settled

def settleFrom (first : Scope.Id) (answers : Answers) : Infer Unit := do
  let settled ← liftM (settleScopes (← table) first (unionOver answers) : Outcome Failure Table)
  modifyTable fun _ => settled

theorem settleFrom_cases {context : Context} {state : State} {first : Scope.Id}
    {answers : Answers} {P : Outcome Failure Unit × State → Prop}
    (hok : ∀ table, (settleScopes state.table first (unionOver answers) : Outcome Failure Table) =
      .ok table → P (.ok (), { state with table }))
    (hfailed : ∀ failure, settleScopes state.table first (unionOver answers) = .failed failure →
      P (.failed failure, state))
    (hhalted : ∀ cause, (settleScopes state.table first (unionOver answers) :
      Outcome Failure Table) = .halted cause → P (.halted cause, state)) :
    P (settleFrom first answers context state) := by
  change P ((liftM (settleScopes state.table first (unionOver answers) : Outcome Failure Table) >>=
    fun settled => modifyTable fun _ => settled : Infer Unit) context state)
  cases hsettle : (settleScopes state.table first (unionOver answers) : Outcome Failure Table) with
  | ok table => exact hok table hsettle
  | failed failure => exact hfailed failure hsettle
  | halted cause => exact hhalted cause hsettle

theorem sure_settleFrom (first : Scope.Id) (answers : Answers) : Sure (settleFrom first answers) :=
  sure_table.bind fun _ => (sure_liftM fun _ =>
    settleScopes_ne_failed (unionOver_ne_failed _ · _)).bind fun _ => sure_modifyTable

theorem keeps_settleTypes [Composes R] {statement : Statement}
    (hscopes : ∀ {table next : Table}, (settleScopes table first (unionOver statement.answers) :
      Outcome Failure Table) = .ok next → R table next) :
    Keeps R (do
      if statement.isExpression then checkDeterminate site statement.answers
      statement.answers.answers.forM recordAnswer
      settleFrom first statement.answers) := by
  have hsettle : Keeps R (settleFrom first statement.answers) := by
    intro context state
    refine settleFrom_cases (P := fun result => (∀ cause, result.1 ≠ .halted cause) →
      R state.table result.2.table) (fun table hsettle _ => hscopes hsettle)
      (fun failure hfailed => ?_) fun cause _ hhalts => absurd rfl (hhalts cause)
    exact absurd hfailed (settleScopes_ne_failed (unionOver_ne_failed _ · _))
  have hrecord : Keeps R (statement.answers.answers.forM recordAnswer) :=
    keeps_forM keeps_recordAnswer
  dsimp only
  split
  · exact keeps_checkDeterminate.bind fun _ => hrecord.bind fun _ => hsettle
  · exact hrecord.bind fun _ => hsettle

theorem keeps_settleUnit {statement : Statement} :
    Keeps (FramesBefore first) (settleUnit site first statement) := by
  have hsettle : ∀ generalizes template,
      Keeps (FramesBefore first) (settleTemplate statement.answers generalizes template) :=
    fun generalizes template => keeps_settleTemplate.mono
      fun _ _ hframes hwf _ => hframes hwf
  exact (keeps_forM (hsettle _)).bind fun _ => keeps_table.bind fun _ =>
    (keeps_forM (hsettle _)).bind fun _ => keeps_settleTypes frames_settleScopes

theorem sure_settleUnit {statement : Statement} : Sure (settleUnit site first statement) := by
  have hrest := (sure_forM sure_recordAnswer statement.answers.answers).bind
    fun _ => sure_settleFrom first statement.answers
  refine (sure_forM (fun _ => sure_settleTemplate) _).bind fun _ => sure_table.bind fun _ =>
    (sure_forM (fun _ => sure_settleTemplate) _).bind fun _ => ?_
  dsimp only
  split
  · exact sure_checkDeterminate.bind fun _ => hrest
  · exact hrest

theorem Keeps.attemptUnit (hkeeps : Declares statement) (site : Site)
    (size : Nat) :
    Keeps (FramesBefore size) (do
      match ← Infer.attempt statement with
      | .ok statement => settleUnit site size statement
      | .error _ => bindPending) := by
  have hframes : ∀ table next, Table.Frames True table next → FramesBefore size table next :=
    fun _ _ hframes hwf _ => hframes hwf
  refine (hkeeps.mono hframes).attempt.bind fun result => ?_
  split
  · exact keeps_settleUnit
  · exact keeps_bindPending.mono hframes

theorem Keeps.unit (hkeeps : Declares statement) (site : Site) :
    Declares (unit site statement) := by
  intro context state hhalts hwf
  exact hkeeps.attemptUnit site state.table.size context state hhalts hwf
    fun id hid => hwf.lt_size hid

theorem sure_unit : Sure (unit site statement) := by
  refine sure_table.bind fun _ => sure_attempt.bind fun result => ?_
  split
  · exact sure_settleUnit
  · exact sure_bindPending

theorem sure_units (nodes : List Node) : Sure (units nodes) := by
  induction nodes with
  | nil =>
    rw [units]
    exact fun _ _ _ => nofun
  | cons node nodes ih =>
    rw [units]
    exact sure_unit.bind fun _ => ih

end Units

/-! ### Nodes -/

section Nodes

def bodyAnswers (body : Node) (known : Classes) : Infer Answers :=
  match body with
  | .block block statements => sequence known block (leaf block .void known) statements
  | _ => answersOf (statement known body)

theorem bodyAnswers_identifier (site : Site) (name : String) :
    bodyAnswers (.identifier site name) = identifier site name := by
  funext known
  rw [bodyAnswers, statement, answersOf_asExpression]
  rintro _ _ ⟨⟩

theorem branchesOnto_nil (classes : Classes) (site : Site) (function : Tree.Locus)
    (before : Option Answers) :
    branchesOnto classes site function before [] = pure (before.getD {}) := rfl

theorem branchesOnto_cons (classes : Classes) (site : Site) (function : Tree.Locus)
    (before : Option Answers) (params : List Pattern) (body : Node)
    (rest : List (List Pattern × Node)) :
    branchesOnto classes site function before ((params, body) :: rest) = (do
      let answers ← branch function site params (← nodeLocus body) (bodyAnswers body) classes
      let merged ← match before with
        | none => pure answers
        | some before => mergeBranches site before answers
      branchesOnto classes site function (some merged) rest) := by
  cases body <;> rfl

theorem answersOf_function (classes : Classes) (site : Site) (params : List Pattern) (body : Node)
    (context : Context) (state : State) :
    answersOf (statement classes (.abstraction site [(params, body)])) context state =
      branch ⟨.abstraction, state.table.file, site.span⟩ site params
        ⟨body.kind, state.table.file, body.site.span⟩ (bodyAnswers body) classes context state := by
  have hfunction : locus .abstraction site context state =
      (.ok ⟨.abstraction, state.table.file, site.span⟩, state) := rfl
  have hbody : nodeLocus body context state =
      (.ok ⟨body.kind, state.table.file, body.site.span⟩, state) := rfl
  rw [statement, answersOf_asExpression, bind_of_ok hfunction, branchesOnto_cons, bind_of_ok hbody]
  change Infer.bind _ _ context state = _
  rw [Infer.bind]
  generalize branch _ site params _ (bodyAnswers body) classes context state = run
  rcases run with ⟨outcome, after⟩
  cases outcome <;> rfl

theorem Keeps.asExpression [Composes R] {computation : Infer Answers}
    (hkeeps : Keeps R computation) : Keeps R (asExpression computation) :=
  hkeeps.bind fun _ => keeps_pure

theorem Keeps.answersOf [Composes R] {computation : Infer Statement}
    (hkeeps : Keeps R computation) : Keeps R (answersOf computation) :=
  hkeeps.bind fun _ => keeps_pure

variable {nodes : List Node} {before : Answers}

theorem keeps_parts [Composes R] (hall : ∀ node ∈ nodes, Keeps R (statement classes node)) :
    Keeps R (parts classes nodes) := by
  induction nodes with
  | nil =>
    rw [parts]
    exact keeps_pure
  | cons node nodes ih =>
    rw [forall_mem_cons] at hall
    rw [parts]
    exact hall.1.answersOf.attempt.bind fun _ => (ih hall.2).bind fun _ => keeps_pure

theorem keeps_compound [Composes R] {make : List Answers → Infer Answers}
    (hall : ∀ node ∈ nodes, Keeps R (statement classes node))
    (hmake : ∀ found, Keeps R (make found)) : Keeps R (compound classes nodes make) :=
  ((keeps_parts hall).bind fun _ => keeps_allOrLast.bind fun _ => hmake _).asExpression

theorem keeps_branchesOnto {before : Option Answers} {branches : List (List Pattern × Node)}
    {function : Tree.Locus}
    (hall : ∀ branch ∈ branches, ∀ known, Declares (bodyAnswers branch.2 known)) :
    Keeps (Table.Frames False) (branchesOnto classes site function before branches) := by
  induction branches generalizing before with
  | nil =>
    rw [branchesOnto_nil]
    exact keeps_pure
  | cons branch rest ih =>
    rw [forall_mem_cons] at hall
    rw [branchesOnto_cons]
    refine keeps_nodeLocus.bind fun _ => (keeps_branch hall.1).bind fun answers => ?_
    cases before with
    | none => exact keeps_pure.bind fun _ => ih hall.2
    | some before => exact keeps_mergeBranches.bind fun _ => ih hall.2

theorem keeps_caseParts {cases : List (List Pattern × Node)} {subjects : Answers} {result : Ty}
    (hall : ∀ clause ∈ cases, ∀ known, Declares (statement known clause.2)) :
    Declares (caseParts classes site subjects result cases) := by
  induction cases with
  | nil =>
    rw [caseParts]
    exact keeps_pure
  | cons clause cases ih =>
    rw [forall_mem_cons] at hall
    obtain ⟨_ | ⟨first, others⟩, body⟩ := clause <;> rw [caseParts]
    · exact ih hall.2
    · refine Keeps.bind (Keeps.attempt ?_) fun _ => (ih hall.2).bind fun _ => keeps_pure
      exact keeps_nodeLocus.bind fun _ =>
        (keeps_whenCase fun known => (hall.1 known).answersOf).declares

theorem keeps_generatorParts {generators : List (Pattern × Node)}
    (hall : ∀ generator ∈ generators, Declares (statement classes generator.2)) :
    Declares (generatorParts classes generators) := by
  induction generators with
  | nil =>
    rw [generatorParts]
    exact keeps_pure
  | cons generator generators ih =>
    rw [forall_mem_cons] at hall
    rw [generatorParts]
    exact hall.1.answersOf.attempt.bind fun _ => (keeps_implicitTemplates _).bind fun _ =>
      (ih hall.2).bind fun _ => keeps_pure

/-- A block leaves the enclosing scopes alone when its statements do. -/
theorem keeps_sequence {block : Site}
    (hall : ∀ node ∈ nodes, ∀ known, Declares (statement known node)) :
    Declares (sequence classes block before nodes) := by
  induction nodes generalizing before with
  | nil =>
    rw [sequence]
    exact keeps_pure
  | cons node nodes ih =>
    rw [forall_mem_cons] at hall
    rw [sequence, knownAfter_bind]
    refine (hall.1 _).attempt.bind fun result => ?_
    split
    · split
      · exact keeps_throw
      · exact ih hall.2
    · exact (keeps_merge fun _ _ _ => keeps_pure).reportingAt.bind fun _ => ih hall.2

theorem keeps_units
    (hall : ∀ node ∈ nodes, Declares (statement Classes.empty node)) :
    Declares (units nodes) := by
  induction nodes with
  | nil =>
    rw [units]
    exact keeps_pure
  | cons node nodes ih =>
    rw [forall_mem_cons] at hall
    rw [units]
    exact (hall.1.unit _).bind fun _ => ih hall.2

theorem keeps_application [Composes R] {function : Node} {given : Option Node}
    (hfunction : Keeps R (statement classes function))
    (hgiven : ∀ argument ∈ given, Keeps R (statement classes argument)) :
    Keeps R (statement classes (.application site function given)) := by
  cases given with
  | none =>
    rw [statement]
    exact (hfunction.answersOf.bind fun _ => keeps_callAll).asExpression
  | some argument =>
    rw [statement]
    exact (hfunction.answersOf.attempt.bind fun _ =>
      (hgiven argument rfl).answersOf.attempt.bind fun _ => keeps_liftExcept.bind fun _ =>
        keeps_liftExcept.bind fun _ => keeps_applyAll).asExpression

theorem keeps_abstraction {branches : List (List Pattern × Node)}
    (hbodies : ∀ branch ∈ branches, ∀ known, Declares (bodyAnswers branch.2 known)) :
    Keeps (Table.Frames False) (statement classes (.abstraction site branches)) := by
  rw [statement]
  exact (keeps_locus.bind fun _ => keeps_branchesOnto hbodies).asExpression

theorem keeps_when {subject : Node} {cases : List (List Pattern × Node)}
    (hsubject : Declares (statement classes subject))
    (hcases : ∀ clause ∈ cases, ∀ known, Declares (statement known clause.2)) :
    Declares (statement classes (.when site subject cases)) := by
  rw [statement]
  exact (hsubject.answersOf.bind fun _ => keeps_fresh.bind fun _ =>
    (keeps_caseParts hcases).bind fun _ => keeps_allOrLast.bind fun _ =>
      keeps_combine fun _ => keeps_pure).asExpression

theorem keeps_generated {generators : List (Pattern × Node)} {body : Node}
    (hgenerators : ∀ generator ∈ generators, Declares (statement classes generator.2))
    (hbody : ∀ known, Declares (statement known body)) :
    Declares (statement classes (.comprehension site generators body)) := by
  rw [statement]
  refine (keeps_locus.bind fun _ => (Keeps.inBlock ?_ _).declares).asExpression
  exact (keeps_generatorParts hgenerators).bind fun _ => keeps_allOrLast.bind fun _ =>
    keeps_comprehension fun known => (hbody known).answersOf

/-- One statement, given its parts. -/
theorem keeps_statementOf {node : Node}
    (hall : ∀ part ∈ node.parts, ∀ known, Declares (statement known part))
    (hbodies : ∀ part ∈ node.parts, ∀ known, Declares (bodyAnswers part known))
    (classes : Classes) : Declares (statement classes node) := by
  have hparts : ∀ part ∈ node.parts, Declares (statement classes part) :=
    fun part hpart => hall part hpart classes
  cases node with
  | literal value =>
    rw [statement]
    exact keeps_pure
  | identifier site name =>
    rw [statement]
    exact keeps_identifier.asExpression
  | list site elements =>
    rw [statement_list]
    exact keeps_compound hparts fun _ => keeps_list
  | tuple site elements =>
    rw [statement_tuple]
    exact keeps_compound hparts fun _ => keeps_tuple
  | map site entries =>
    rw [statement_map]
    exact keeps_compound hparts fun _ => keeps_mapLiteral
  | conditional site condition yes no =>
    rw [statement_conditional]
    exact keeps_compound hparts fun _ => keeps_conditional
  | application site function given =>
    exact keeps_application (hparts function (.head _)) fun argument hgiven =>
      hparts argument (.tail _ (Option.mem_toList.mpr hgiven))
  | abstraction site branches =>
    exact (keeps_abstraction fun branch hbranch =>
      hbodies branch.2 (mem_map_of_mem hbranch)).declares
  | assignment site target value exported =>
    rw [statement]
    exact keeps_assignmentTemplates.bind fun _ =>
      (hparts value (.head _)).answersOf.bind fun _ => keeps_assignment
  | block site statements =>
    rw [statement]
    exact (keeps_locus.bind fun _ =>
      ((keeps_sequence hall).inBlock _).declares).asExpression
  | when site subject cases =>
    exact keeps_when (hparts subject (.head _)) fun clause hclause =>
      hall clause.2 (.tail _ (mem_map_of_mem hclause))
  | comprehension site generators body =>
    refine keeps_generated (fun generator hgenerator => ?_) (hall body ?_)
    · exact hparts generator.2 (mem_append_left _ (mem_map_of_mem hgenerator))
    · exact mem_append_right _ (.head _)
  | access site target member =>
    rw [statement]
    exact ((hparts target (.head _)).answersOf.bind fun _ => keeps_access).asExpression
  | annotated site value type =>
    rw [statement]
    exact (keeps_writtenType.reportingAt.bind fun _ =>
      (hparts value (.head _)).answersOf.bind fun _ => keeps_annotated).asExpression
  | importFile site path names moduleName =>
    rw [statement]
    exact keeps_importFile.bind fun _ => keeps_pure
  | module site name statements exported =>
    rw [statement]
    exact keeps_locus.bind fun _ =>
      ((keeps_units fun node hnode => hall node hnode _).declareModule (sure_units statements)
        _ _ _).bind fun _ => keeps_pure
  | classType site name fields exported =>
    rw [statement]
    exact keeps_locus.bind fun _ => keeps_declareClass.bind fun _ => keeps_pure
  | enumType site name variants exported =>
    rw [statement]
    exact keeps_locus.bind fun _ => keeps_declareEnum.bind fun _ => keeps_pure
  | pattern | type =>
    rw [statement]
    exact keeps_halt

/-- Every statement and every body, by recursion over the tree. -/
theorem keeps_node (node : Node) (classes : Classes) :
    Declares (statement classes node) ∧
      Declares (bodyAnswers node classes) := by
  induction node using Node.parts_induction generalizing classes with
  | hnode node ih =>
    have hall := fun part hpart known => (ih part hpart known).1
    have hnode := keeps_statementOf hall (fun part hpart known => (ih part hpart known).2) classes
    refine ⟨hnode, ?_⟩
    cases node with
    | block block statements => exact keeps_sequence hall
    | _ => exact hnode.answersOf

theorem keeps_statement (classes : Classes) (node : Node) :
    Declares (statement classes node) :=
  (keeps_node node classes).1

theorem keeps_bodyAnswers (body : Node) (known : Classes) : Declares (bodyAnswers body known) :=
  (keeps_node body known).2

end Nodes

end TypeSearch.Infer
