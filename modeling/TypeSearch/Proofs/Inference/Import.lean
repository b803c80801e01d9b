import TypeSearch.Proofs.Inference.Reach

/-!
# What an import reports

The issues of a file are those of its statements, one after the other. An import at the top level
reports an unknown dependency if its file was not inferred before, and nothing else then; otherwise
its issues are about names.
-/

namespace TypeSearch

open Inference List
open TypeSearch.Tree (Import Node Program Site)

namespace Infer

variable {α β : Type} {P : Issue → Prop} {computation : Infer α} {context : Context}
  {state after : State} {site : Site} {path moduleName : String} {names : List String}
  {issue : Issue}

/-- Whatever comes of the computation, it writes down only issues with a property. -/
def Adds (P : Issue → Prop) (computation : Infer α) : Prop :=
  ∀ context state, ∃ new, (computation context state).2.issues = state.issues ++ new ∧
    ∀ issue ∈ new, P issue

theorem adds_of_issues_eq
    (hissues : ∀ context state, (computation context state).2.issues = state.issues) :
    Adds P computation := by
  intro context state
  refine ⟨[], ?_, by simp⟩
  rw [hissues, append_nil]

theorem Adds.bind {next : α → Infer β} (hcomputation : Adds P computation)
    (hnext : ∀ value, Adds P (next value)) : Adds P (computation >>= next) := by
  intro context state
  obtain ⟨new, hnew, hall⟩ := hcomputation context state
  rw [bind_apply, Infer.bind]
  generalize computation context state = run at hnew ⊢
  obtain ⟨value | failure | cause, middle⟩ := run
  · obtain ⟨newer, hnewer, hall'⟩ := hnext value context middle
    refine ⟨new ++ newer, ?_, forall_mem_append.mpr ⟨hall, hall'⟩⟩
    rw [hnewer, hnew, append_assoc]
  · exact ⟨new, hnew, hall⟩
  · exact ⟨new, hnew, hall⟩

theorem adds_pure (value : α) : Adds P (pure value) := adds_of_issues_eq fun _ _ => rfl

theorem adds_liftM (outcome : Outcome Failure α) : Adds P (liftM outcome) :=
  adds_of_issues_eq fun _ _ => rfl

theorem adds_modifyTable (f : Table → Table) : Adds P (modifyTable f) :=
  adds_of_issues_eq fun _ _ => rfl

theorem adds_table : Adds P table := adds_of_issues_eq fun _ _ => rfl

theorem adds_report (hissue : P issue) : Adds P (report issue) :=
  fun _ _ => ⟨[issue], rfl, forall_mem_singleton.mpr hissue⟩

theorem adds_forM {f : α → Infer PUnit} (hf : ∀ item, Adds P (f item)) (items : List α) :
    Adds P (items.forM f) := by
  induction items with
  | nil => exact adds_pure _
  | cons item items ih => exact (hf item).bind fun _ => ih

theorem Adds.issues_eq (hadds : Adds (fun _ => False) computation) :
    (computation context state).2.issues = state.issues := by
  obtain ⟨new, hnew, hnone⟩ := hadds context state
  rw [hnew, eq_nil_iff_forall_not_mem.mpr hnone, append_nil]

/-! ### What is declared for an import -/

def Lacks (issue : Issue) : Prop := ∃ path, issue.cause = .unknownDependency path

theorem adds_reportAll {found : Option Issue} (hfound : ∀ issue, found = some issue → P issue) :
    Adds P (found.forM report) := by
  cases found with
  | none => exact adds_pure _
  | some issue => exact adds_report (hfound issue rfl)

theorem not_lacks_of_declare {table : Table} {binding : Binding}
    (hissue : (table.declare binding).1 = some issue) : ¬ Lacks issue := by
  rintro ⟨path, hpath⟩
  unfold Table.declare Table.duplicate? at hissue
  dsimp only at hissue
  split at hissue
  · rename_i hduplicate
    obtain ⟨existing, -, rfl⟩ := Option.map_eq_some_iff.mp hduplicate
    cases hissue
    cases hpath
  · split at hissue
    · cases hissue
      cases hpath
    · cases hissue

theorem not_lacks_of_declareType {table : Table} {declaration : Declaration}
    (hissue : (table.declareType declaration).1 = some issue) : ¬ Lacks issue := by
  rintro ⟨path, hpath⟩
  unfold Table.declareType at hissue
  dsimp only at hissue
  split at hissue
  · cases hissue
    cases hpath
  · split at hissue
    · cases hissue
      cases hpath
    · cases hissue

theorem adds_declare (binding : Binding) : Adds (fun issue => ¬ Lacks issue) (declare binding) :=
  adds_table.bind fun _ => (adds_modifyTable _).bind fun _ =>
    adds_reportAll fun _ => not_lacks_of_declare

theorem adds_declareType (declaration : Declaration) :
    Adds (fun issue => ¬ Lacks issue) (declareType declaration) :=
  adds_table.bind fun _ => (adds_modifyTable _).bind fun _ =>
    adds_reportAll fun _ => not_lacks_of_declareType

theorem adds_importFrom (file : TypedFile) (site : Site) (node : Tree.Locus) (path : String)
    (names : List String) (moduleName : String) :
    Adds (fun issue => ¬ Lacks issue) (importFrom file site node path names moduleName) := by
  have hmissing (name : String) : Adds (fun issue => ¬ Lacks issue)
      (do report (← issueAt site (.missing name path))) := by
    intro context state
    refine ⟨[⟨state.table.file, some ⟨state.table.file, site.span⟩, .missing name path⟩], rfl, ?_⟩
    refine forall_mem_singleton.mpr ?_
    rintro ⟨other, hother⟩
    cases hother
  refine (adds_forM (fun _ => adds_declareType _) _).bind fun _ => ?_
  split
  · exact (adds_declareType _).bind fun _ => adds_declare _
  · split
    · exact adds_forM (fun _ => adds_declare _) _
    · refine adds_forM (fun name => ?_) _
      split
      · exact adds_declare _
      · exact hmissing name

/-! ### A statement that is an import -/

theorem adds_settleTemplate (answers : Answers) (generalizes : Bool) (template : Template) :
    Adds P (settleTemplate answers generalizes template) :=
  (adds_liftM _).bind fun _ => adds_modifyTable _

theorem adds_recordAnswer (a : Answer Typed) : Adds P (recordAnswer a) :=
  (adds_of_issues_eq fun _ _ => rfl : Adds P Infer.state).bind fun _ =>
    (adds_liftM _).bind fun _ => adds_of_issues_eq fun _ _ => rfl

theorem adds_settleUnit (site : Site) (first : Scope.Id) {result : Statement}
    (hresult : result.isExpression = false) : Adds P (settleUnit site first result) := by
  unfold settleUnit
  dsimp only
  rw [hresult]
  refine (adds_forM (adds_settleTemplate _ _) _).bind fun _ => adds_table.bind fun _ =>
    (adds_forM (adds_settleTemplate _ _) _).bind fun _ => ?_
  exact (adds_forM adds_recordAnswer _).bind fun _ => adds_table.bind fun _ =>
    (adds_liftM _).bind fun _ => adds_modifyTable _

theorem issues_unit_importFile (context : Context) (state : State) (site : Site) (path : String)
    (names : List String) (moduleName : String) :
    (unit site (statement Classes.empty (.importFile site path names moduleName))
        context state).2.issues =
      (importFile site path names moduleName context state).2.issues := by
  have htable : table context state = (.ok state.table, state) := rfl
  rw [unit, bind_of_ok htable, statement]
  change (Infer.bind (attempt (Infer.bind (importFile site path names moduleName) _)) _
    context state).2.issues = _
  rw [Infer.bind, attempt, Infer.bind]
  generalize importFile site path names moduleName context state = run
  obtain ⟨_ | failure | cause, after⟩ := run
  · exact (adds_settleUnit site _ rfl).issues_eq
  · rfl
  · rfl

def imported? (context : Context) (site : Site) : Option TypedFile :=
  let paths := context.program.imports.zip context.dependencies
  (paths.find? fun (i, _) => i.site.key == site.key).bind fun (_, path) =>
    context.files.find? (·.path == path)

section TopLevel

variable (hkind : state.table.currentScope.kind = .file) (path : String) (names : List String)
  (moduleName : String)
include hkind

theorem importFile_eq (context : Context) (site : Site) :
    importFile site path names moduleName context state =
      (imported? context site).elim (do report (← issueAt site (.unknownDependency path)))
        (fun file => importFrom file site ⟨.importFile, state.table.file, site.span⟩ path names
          moduleName) context state := by
  have hlocus : locus .importFile site context state =
      (.ok ⟨.importFile, state.table.file, site.span⟩, state) := rfl
  have htable : table context state = (.ok state.table, state) := rfl
  have hcheck (node : Option Tree.Locus) : state.table.checkImport path node = none := if_pos hkind
  have hdependency : dependency? site context state = (.ok (imported? context site), state) := rfl
  rw [importFile, bind_of_ok hlocus, bind_of_ok htable, hcheck]
  generalize imported? context site = found at hdependency ⊢
  cases found with
  | none | some file => exact bind_of_ok hdependency

end TopLevel

/-! ### Statements in turn -/

theorem units_append_eq_ok {first second : List Node}
    (hrun : units (first ++ second) context state = (.ok (), after)) :
    ∃ middle, units first context state = (.ok (), middle) ∧
      units second context middle = (.ok (), after) := by
  induction first generalizing state with
  | nil =>
    refine ⟨state, ?_, hrun⟩
    rw [units]
    rfl
  | cons node first ih =>
    rw [cons_append, units] at hrun
    obtain ⟨_, next, hunit, hrest⟩ := bind_eq_ok hrun
    obtain ⟨middle, hfirst, hsecond⟩ := ih hrest
    refine ⟨middle, ?_, hsecond⟩
    rw [units, bind_of_ok hunit, hfirst]

theorem grows_units (hcontext : context.Sound) (hsound : state.Sound) {nodes : List Node}
    (hnodes : ∀ node ∈ nodes, node.Admits False)
    (hrun : units nodes context state = (.ok (), after)) : state.Grows after := by
  have hfulfils : Fulfils (state.prospect False) True _ (units nodes) :=
    fulfils_units fun node hnode => (goesOn node (hnodes node hnode)).1
  have hunits := hfulfils context state hcontext hsound le_rfl fun _ => trivial
  rw [hrun] at hunits
  exact hunits.1

theorem find?_of_pairwise {items : List α} {key : α → Nat} {item : α}
    (hkeys : items.Pairwise fun first second => key first < key second) (hitem : item ∈ items) :
    items.find? (fun other => key other == key item) = some item := by
  induction hkeys with
  | nil => cases hitem
  | @cons first items hless _ ih =>
    obtain rfl | hitem := mem_cons.mp hitem
    · simp
    · rw [find?_cons_of_neg, ih hitem]
      simpa using (hless item hitem).ne

theorem imported?_eq {name : Import → String}
    (hkeys : context.program.statements.Pairwise fun first second =>
      first.site.key < second.site.key)
    (hdependencies : context.dependencies = context.program.imports.map name)
    (hnode : .importFile site path names moduleName ∈ context.program.statements) :
    imported? context site = context.files.find? (·.path == name ⟨site, path⟩) := by
  have himports : context.program.imports.Pairwise fun first second =>
      first.site.key < second.site.key := by
    refine hkeys.filterMap _ fun first second hless i hi j hj => ?_
    split at hi
    · split at hj
      · cases hi
        cases hj
        exact hless
      · cases hj
    · cases hi
  have hmem : (⟨site, path⟩ : Import) ∈ context.program.imports :=
    mem_filterMap.mpr ⟨_, hnode, rfl⟩
  have hfind : context.program.imports.find? (fun i => i.site.key == site.key) =
      some ⟨site, path⟩ := find?_of_pairwise himports hmem
  rw [imported?, hdependencies, ← map_prod_left_eq_zip, find?_map]
  change (Option.map _ (context.program.imports.find? fun i => i.site.key == site.key)).bind _ = _
  rw [hfind]
  rfl

end Infer

namespace TypedFile

variable {context : Context} {path text moduleName : String} {names : List String}
  {fresher next : Fresher} {file : TypedFile} {n : Nat} {site : Site}

def stateAfter (context : Context) (path : String) (fresher : Fresher) (count : Nat) : State :=
  (Infer.units (context.program.statements.take count) context
    (.start path context.program fresher)).2

def issuesAt (context : Context) (path : String) (fresher : Fresher) (n : Nat) : List Issue :=
  (stateAfter context path fresher (n + 1)).issues.drop
    (stateAfter context path fresher n).issues.length

theorem infer_eq_ok {program : Program} {dependencies : List String} {files : List TypedFile}
    (hinfer : infer path program dependencies files fresher = .ok (file, next)) :
    ∃ after, Infer.units program.statements ⟨program, dependencies, files⟩
        (.start path program fresher) = (.ok (), after) ∧
      file = ⟨path, program, dependencies, after.table, after.types, after.issues⟩ := by
  obtain ⟨outcome, after, hrun, ⟨cause, -, hhalted⟩ | ⟨rfl, hok⟩⟩ :=
    infer_run path program dependencies files fresher
  · rw [hhalted] at hinfer
    cases hinfer
  · rw [hok] at hinfer
    cases hinfer
    exact ⟨after, hrun, rfl⟩

section Whole

variable (hfiles : context.Sound) (hread : Program.ofText path text = .ok context.program)
  (hinfer : infer path context.program context.dependencies context.files fresher =
    .ok (file, next))

include hinfer

theorem run_stateAfter (count : Nat) :
    Infer.units (context.program.statements.take count) context
      (.start path context.program fresher) = (.ok (), stateAfter context path fresher count) := by
  obtain ⟨after, hrun, -⟩ := infer_eq_ok hinfer
  rw [← take_append_drop count context.program.statements] at hrun
  obtain ⟨middle, hfirst, -⟩ := Infer.units_append_eq_ok hrun
  have hstate : stateAfter context path fresher count = middle := congrArg Prod.snd hfirst
  rw [hstate]
  exact hfirst

theorem issues_eq_stateAfter :
    file.issues = (stateAfter context path fresher context.program.statements.length).issues := by
  obtain ⟨after, hrun, rfl⟩ := infer_eq_ok hinfer
  rw [stateAfter, take_length, hrun]

theorem units_stateAfter (n : Nat) :
    Infer.units context.program.statements[n]?.toList context (stateAfter context path fresher n) =
      (.ok (), stateAfter context path fresher (n + 1)) := by
  have hrun := run_stateAfter hinfer (n + 1)
  rw [take_add_one] at hrun
  obtain ⟨middle, hfirst, hlast⟩ := Infer.units_append_eq_ok hrun
  have hstate : stateAfter context path fresher n = middle := congrArg Prod.snd hfirst
  rw [hstate, hlast]

include hfiles hread

theorem grows_stateAfter (count : Nat) :
    (State.start path context.program fresher).Grows (stateAfter context path fresher count) := by
  refine Infer.grows_units hfiles (State.sound_start path _ fresher) (fun node hnode => ?_)
    (run_stateAfter hinfer count)
  exact Tree.admits_of_ofText hread False.elim node
    (Program.mem_expressions (mem_of_mem_take hnode))

theorem issues_stateAfter_succ (n : Nat) :
    (stateAfter context path fresher (n + 1)).issues =
      (stateAfter context path fresher n).issues ++ issuesAt context path fresher n := by
  have hadmits : ∀ node ∈ context.program.statements[n]?.toList, node.Admits False := by
    intro node hnode
    have hmem := mem_of_getElem? (Option.mem_toList.mp hnode)
    exact Tree.admits_of_ofText hread False.elim node (Program.mem_expressions hmem)
  have hsound := (grows_stateAfter hfiles hread hinfer n).sound
  obtain ⟨new, hnew, -⟩ :=
    (Infer.grows_units hfiles hsound hadmits (units_stateAfter hinfer n)).issues
  rw [issuesAt, hnew, drop_left]

theorem issues_eq_flatMap :
    file.issues = (List.range context.program.statements.length).flatMap
      (issuesAt context path fresher) := by
  rw [issues_eq_stateAfter hinfer]
  induction context.program.statements.length with
  | zero =>
    rw [stateAfter, take_zero, Infer.units]
    rfl
  | succ n ih =>
    rw [issues_stateAfter_succ hfiles hread hinfer, ih, range_succ, flatMap_append,
      flatMap_singleton]

theorem kind_stateAfter (count : Nat) :
    (stateAfter context path fresher count).table.currentScope.kind = .file ∧
      (stateAfter context path fresher count).table.file = path := by
  have hgrows := grows_stateAfter hfiles hread hinfer count
  refine ⟨?_, hgrows.table.frame.file⟩
  rw [Table.currentScope, hgrows.table.frame.current]
  exact hgrows.table.kinds _ Nat.zero_lt_one

section Import

variable {other : String}
  (hnode : context.program.statements[n]? = some (.importFile site other names moduleName))
include hnode

omit hfiles hread in
theorem issues_stateAfter_import :
    (stateAfter context path fresher (n + 1)).issues =
      (Infer.importFile site other names moduleName context
        (stateAfter context path fresher n)).2.issues := by
  have hrun := units_stateAfter hinfer n
  rw [hnode, Option.toList_some, Infer.units] at hrun
  obtain ⟨_, after, hunit, hdone⟩ := Infer.bind_eq_ok hrun
  rw [Infer.units] at hdone
  cases hdone
  rw [← Infer.issues_unit_importFile]
  exact (congrArg (·.2.issues) hunit).symm

theorem issuesAt_of_unknown (hunknown : Infer.imported? context site = none) :
    issuesAt context path fresher n =
      [⟨path, some ⟨path, site.span⟩, .unknownDependency other⟩] := by
  obtain ⟨hkind, hpath⟩ := kind_stateAfter hfiles hread hinfer n
  rw [issuesAt, issues_stateAfter_import hinfer hnode, Infer.importFile_eq hkind, hunknown]
  exact drop_left.trans (by rw [hpath])

theorem not_lacks_of_known {known : TypedFile}
    (hknown : Infer.imported? context site = some known) :
    ∀ issue ∈ issuesAt context path fresher n, ¬ Infer.Lacks issue := by
  obtain ⟨hkind, -⟩ := kind_stateAfter hfiles hread hinfer n
  obtain ⟨new, hnew, hissues⟩ := Infer.adds_importFrom known site
    ⟨.importFile, _, site.span⟩ other names moduleName context (stateAfter context path fresher n)
  rwa [issuesAt, issues_stateAfter_import hinfer hnode, Infer.importFile_eq hkind, hknown,
    Option.elim_some, hnew, drop_left]

end Import

end Whole

end TypedFile

end TypeSearch
