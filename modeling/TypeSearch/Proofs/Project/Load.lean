import TypeSearch.Proofs.Inference.Import
import TypeSearch.Proofs.Project.Arrange
import TypeSearch.Proofs.Project.Gather

/-!
# Loading a project

A project that is loaded has read what its entry leads to. Its files are inferred one after the
other, so an import finds its file among those that were inferred before, unless there is no such
file at all.
-/

namespace TypeSearch.Project

open List Relation
open Inference
open TypeSearch.Order (DependsOn)

variable {files : Files} {entry : String} {project : Project} {done inferred : List TypedFile}
  {sources : List SourceFile} {fresher : Fresher} {source : SourceFile}

def contextAfter (before : List TypedFile) (source : SourceFile) : Context :=
  ⟨source.program, source.dependencies, before⟩

def FollowsFrom (source : SourceFile) (before : List TypedFile) (fresher : Fresher)
    (file : TypedFile) : Prop :=
  ∃ next, TypedFile.infer source.path source.program source.dependencies before fresher =
    .ok (file, next)

theorem FollowsFrom.path_eq {before : List TypedFile} {file : TypedFile}
    (hfollows : FollowsFrom source before fresher file) : file.path = source.path := by
  obtain ⟨next, hinfer⟩ := hfollows
  obtain ⟨after, -, rfl⟩ := TypedFile.infer_eq_ok hinfer
  rfl

/-- By induction on the sources: each file is added to those that the next one comes after. -/
theorem inferAll_eq_ok (hdone : TypedFile.Inferred done)
    (hread : ∀ source ∈ sources, ∃ text, Tree.Program.ofText source.path text = .ok source.program)
    (hinfer : inferAll done fresher sources = .ok inferred) :
    ∃ new, inferred = done ++ new ∧ new.map (·.path) = sources.map (·.path) ∧
      ∀ before file after, new = before ++ file :: after → TypedFile.Inferred (done ++ before) ∧
        ∃ source ∈ sources, ∃ fresher, FollowsFrom source (done ++ before) fresher file := by
  induction sources generalizing done fresher with
  | nil =>
    cases hinfer
    refine ⟨[], (append_nil _).symm, rfl, fun before file after hsplit => ?_⟩
    simp at hsplit
  | cons source sources ih =>
    rw [forall_mem_cons] at hread
    obtain ⟨text, htext⟩ := hread.1
    rw [inferAll] at hinfer
    cases hfirst : TypedFile.infer source.path source.program source.dependencies done fresher with
    | error halt =>
      rw [hfirst] at hinfer
      cases hinfer
    | ok found =>
      obtain ⟨file, next⟩ := found
      rw [hfirst] at hinfer
      have hfollows : FollowsFrom source done fresher file := ⟨next, hfirst⟩
      obtain ⟨new, rfl, hpaths, hnew⟩ := ih (hdone.more htext hfirst) hread.2 hinfer
      refine ⟨file :: new, by simp, by simp [hpaths, hfollows.path_eq], ?_⟩
      rintro (_ | ⟨first, before⟩) other after hsplit
      · cases hsplit
        rw [append_nil]
        exact ⟨hdone, source, .head _, fresher, hfollows⟩
      · cases hsplit
        obtain ⟨hinferred, later, hlater, fresher, hother⟩ := hnew before other after rfl
        rw [append_assoc] at hinferred hother
        exact ⟨hinferred, later, .tail _ hlater, fresher, hother⟩

theorem map_path_inOrder {order : List String} (hsubset : order ⊆ sources.map (·.path)) :
    (order.filterMap fun path => sources.find? (·.path == path)).map (·.path) = order := by
  induction order with
  | nil => rfl
  | cons path order ih =>
    obtain ⟨hpath, hsubset⟩ := cons_subset.mp hsubset
    obtain ⟨source, hsource, hsame⟩ := mem_map.mp hpath
    cases hfind : sources.find? (·.path == path) with
    | none =>
      have hnone := find?_eq_none.mp hfind source hsource
      simp [hsame] at hnone
    | some found =>
      have hfound : found.path = path := by simpa using find?_some hfind
      simp only [filterMap_cons, hfind, map_cons, hfound, ih hsubset]

/-! ### Projects that are loaded -/

theorem load_eq_project (hload : load files entry = .project project) :
    project.entry = Path.clean (if entry.isEmpty then defaultEntry else entry) ∧
      files.reached project.entry = .ok project.sources ∧
      ∃ order, inferenceOrder project.sources = .ok (order, project.ownIssues) ∧
        inferAll [] {} (order.filterMap fun path => project.sources.find? (·.path == path)) =
          .ok project.files := by
  unfold load at hload
  dsimp only at hload
  split at hload
  · cases hload
  · rename_i sources hreached
    unfold ofSources at hload
    split at hload
    · cases hload
    · rename_i order ownIssues horder
      split at hload
      · cases hload
      · rename_i inferred hinfer
        cases hload
        exact ⟨rfl, hreached, order, horder, hinfer⟩

/-- A file is inferred from a source, and of the files that it imports those are inferred before it
that exist. -/
structure Resumes (files : Files) (before : List TypedFile) (source : SourceFile)
    (fresher : Fresher) (file : TypedFile) : Prop where
  inferred : TypedFile.Inferred before
  holds : files.Holds source
  follows : FollowsFrom source before fresher file
  imports : ∀ other ∈ source.dependencies, (files.Absent other ↔ other ∉ before.map (·.path))

section Loaded

variable {order : List String} (hreached : files.reached project.entry = .ok project.sources)
  (harranges : Arranges project.sources ∅ order project.ownIssues)
  (hinfer : inferAll [] {} (order.filterMap fun path =>
    project.sources.find? (·.path == path)) = .ok project.files)
include hreached harranges

theorem mem_before_iff (hsource : source ∈ project.sources) {before after : List String}
    (hsplit : order = before ++ source.path :: after) {other : String}
    (hother : other ∈ source.dependencies) : files.Absent other ↔ other ∉ before := by
  have hpaths := (Files.gathers_of_reached hreached).nodup
  rw [Files.absent_iff hreached hsource hother, not_iff_not]
  refine ⟨fun hread => ?_, fun hbefore => harranges.subset ?_⟩
  · have hdepends : DependsOn (dependenciesIn project.sources) source.path other := by
      rw [dependsOn_eq_imports hpaths]
      exact ⟨source, hsource, rfl, hother, hread⟩
    exact harranges.sorted before source.path after hsplit hdepends
  · rw [hsplit]
    exact mem_append_left _ hbefore

include hinfer

theorem exists_resumes : project.files.map (·.path) = order ∧
    ∀ before file after, project.files = before ++ file :: after →
      ∃ source ∈ project.sources, ∃ fresher, Resumes files before source fresher file := by
  have hmem : ∀ source ∈ order.filterMap (fun path => project.sources.find? (·.path == path)),
      source ∈ project.sources := by
    intro source hsource
    obtain ⟨path, -, hfind⟩ := mem_filterMap.mp hsource
    exact mem_of_find?_eq_some hfind
  have hholds := (Files.gathers_of_reached hreached).holds
  obtain ⟨new, hnew, hpaths, hsteps⟩ := inferAll_eq_ok .none
    (fun source hsource => (hholds source (hmem source hsource)).program) hinfer
  rw [nil_append] at hnew
  subst hnew
  rw [map_path_inOrder harranges.subset] at hpaths
  refine ⟨hpaths, fun before file after hsplit => ?_⟩
  obtain ⟨hinferred, source, hsource, fresher, hfollows⟩ := hsteps before file after hsplit
  rw [nil_append] at hinferred hfollows
  have horder : order = before.map (·.path) ++ source.path :: after.map (·.path) := by
    rw [← hpaths, hsplit, map_append, map_cons, hfollows.path_eq]
  refine ⟨source, hmem source hsource, fresher, hinferred, hholds source (hmem source hsource),
    hfollows, fun other hother => ?_⟩
  exact mem_before_iff hreached harranges (hmem source hsource) horder hother

end Loaded

section Resumes

variable {before : List TypedFile} {source : SourceFile} {file : TypedFile}
  (hresumes : Resumes files before source fresher file)
include hresumes

theorem Resumes.sound : (contextAfter before source).Sound := hresumes.inferred.sound

theorem Resumes.issues_eq : file.issues =
    (List.range source.program.statements.length).flatMap
      (TypedFile.issuesAt (contextAfter before source) source.path fresher) := by
  obtain ⟨text, htext⟩ := hresumes.holds.program
  obtain ⟨next, hinfer⟩ := hresumes.follows
  exact TypedFile.issues_eq_flatMap hresumes.sound htext hinfer

variable {n : Nat} {site : Tree.Site} {path moduleName : String} {names : List String}
  (hnode : source.program.statements[n]? = some (.importFile site path names moduleName))
include hnode

theorem Resumes.imported?_eq_none_iff :
    Infer.imported? (contextAfter before source) site = none ↔
      files.Absent (Path.relativeTo source.path path) := by
  obtain ⟨text, htext⟩ := hresumes.holds.program
  have hmem : .importFile site path names moduleName ∈
      (contextAfter before source).program.statements := mem_of_getElem? hnode
  have hother : Path.relativeTo source.path path ∈ source.dependencies :=
    mem_map.mpr ⟨⟨site, path⟩, mem_filterMap.mpr ⟨_, hmem, rfl⟩, rfl⟩
  have himported : Infer.imported? (contextAfter before source) site =
      before.find? (·.path == Path.relativeTo source.path path) :=
    Infer.imported?_eq (Tree.Program.pairwise_of_ofText htext) rfl hmem
  rw [himported, hresumes.imports _ hother]
  simp

theorem Resumes.issuesAt_of_absent (habsent : files.Absent (Path.relativeTo source.path path)) :
    TypedFile.issuesAt (contextAfter before source) source.path fresher n =
      [⟨source.path, some ⟨source.path, site.span⟩, .unknownDependency path⟩] := by
  obtain ⟨text, htext⟩ := hresumes.holds.program
  obtain ⟨next, hinfer⟩ := hresumes.follows
  exact TypedFile.issuesAt_of_unknown hresumes.sound htext hinfer hnode
    ((hresumes.imported?_eq_none_iff hnode).mpr habsent)

theorem Resumes.lacks_iff :
    (∃ issue ∈ TypedFile.issuesAt (contextAfter before source) source.path fresher n,
      Infer.Lacks issue) ↔ files.Absent (Path.relativeTo source.path path) := by
  obtain ⟨text, htext⟩ := hresumes.holds.program
  obtain ⟨next, hinfer⟩ := hresumes.follows
  refine ⟨fun ⟨issue, hissue, hlacks⟩ => ?_, fun habsent => ?_⟩
  · rw [← hresumes.imported?_eq_none_iff hnode, Option.eq_none_iff_forall_ne_some]
    intro known hknown
    exact TypedFile.not_lacks_of_known hresumes.sound htext hinfer hnode hknown issue hissue hlacks
  · rw [hresumes.issuesAt_of_absent hnode habsent]
    exact ⟨_, mem_singleton_self _, path, rfl⟩

end Resumes

/-- **A project has what its entry leads to, and an import is unknown only if there is no file.**
Every file is inferred once, after the files that it imports. Its issues are those of its
statements, and a statement that is an import of an absent file has no issue but that. -/
theorem load_resolves_imports (hload : load files entry = .project project) :
    project.entry = Path.clean (if entry.isEmpty then defaultEntry else entry) ∧
    (project.sources.map (·.path)).Nodup ∧
    (∀ source ∈ project.sources, files.Holds source) ∧
    (∀ path, path ∈ project.sources.map (·.path) ↔
      ReflTransGen files.Imports project.entry path) ∧
    (project.files.map (·.path)).Nodup ∧
    ∀ before file after, project.files = before ++ file :: after →
      ∃ source ∈ project.sources, ∃ fresher, source.path = file.path ∧
        FollowsFrom source before fresher file ∧
        (∀ other ∈ source.dependencies, (files.read? other).isSome →
          other ∈ before.map (·.path)) ∧
        let issuesAt := TypedFile.issuesAt (contextAfter before source) source.path fresher
        file.issues = (List.range source.program.statements.length).flatMap issuesAt ∧
        ∀ n site path names moduleName,
          source.program.statements[n]? = some (.importFile site path names moduleName) →
          ((∃ issue ∈ issuesAt n, Infer.Lacks issue) ↔
            files.Absent (Path.relativeTo file.path path)) ∧
          (files.Absent (Path.relativeTo file.path path) → issuesAt n =
            [⟨file.path, some ⟨file.path, site.span⟩, .unknownDependency path⟩]) := by
  obtain ⟨hentry, hreached, order, horder, hinfer⟩ := load_eq_project hload
  have hgathers := Files.gathers_of_reached hreached
  have harranges := arranges_of_inferenceOrder horder
  obtain ⟨hpaths, hresumes⟩ := exists_resumes hreached harranges hinfer
  refine ⟨hentry, hgathers.nodup, hgathers.holds, fun path => Files.mem_sources_iff hreached,
    hpaths ▸ harranges.nodup hgathers.nodup, fun before file after hsplit => ?_⟩
  obtain ⟨source, hsource, fresher, hresumes⟩ := hresumes before file after hsplit
  have hpath := hresumes.follows.path_eq
  rw [hpath]
  refine ⟨source, hsource, fresher, rfl, hresumes.follows, fun other hother hexists => ?_,
    hresumes.issues_eq, fun n site path names moduleName hnode =>
      ⟨hresumes.lacks_iff hnode, hresumes.issuesAt_of_absent hnode⟩⟩
  by_contra hnot
  have habsent := (hresumes.imports other hother).mpr hnot
  rw [habsent.1] at hexists
  cases hexists

section Examples

open TypeSearch.Tree (Import Program)

variable {program : Program}

/-- A file that imports two others, of which one exists. -/
def lackingOne : Files where
  texts := [("a", "statements: [{kind: import, path: b}, {kind: import, path: x}]"),
    ("b", "statements: []")]
  refusal _ := ⟨"", true⟩

theorem paths_lackingOne : Path.clean "a" = "a" ∧ Path.relativeTo "a" "b" = "b" ∧
    Path.relativeTo "a" "x" = "x" := by
  have hpaths : [Path.clean "a", Path.relativeTo "a" "b", Path.relativeTo "a" "x"] =
      ["a", "b", "x"] := by
    cbv
  simpa using hpaths

section LackingOne

variable {importer leaf : SourceFile} (himports : importer.dependencies = ["b", "x"])
  (hnone : leaf.dependencies = [])
include himports hnone

theorem reached_lackingOne
    (himporter : SourceFile.ofText "a"
      "statements: [{kind: import, path: b}, {kind: import, path: x}]" = .ok importer)
    (hleaf : SourceFile.ofText "b" "statements: []" = .ok leaf) :
    lackingOne.reached "a" = .ok [importer, leaf] := by
  refine Files.gather_of_found (by simp) rfl himporter ?_
  rw [himports]
  refine Files.gather_of_found (by simp) rfl hleaf ?_
  rw [hnone, append_nil, Files.gather_of_absent (by simp) rfl (by simp) rfl, Files.gather]

theorem inferenceOrder_lackingOne (himporter : importer.path = "a") (hleaf : leaf.path = "b") :
    inferenceOrder [importer, leaf] = .ok (["b", "a"], []) := by
  have hdependencies : dependenciesIn [importer, leaf] =
      fun path => if path = "a" then ["b"] else [] := by
    funext path
    by_cases ha : path = "a"
    · subst ha
      simp [dependenciesIn, himporter, himports, hleaf]
    · by_cases hb : path = "b"
      · subst hb
        simp [dependenciesIn, himporter, hnone, hleaf]
      · simp [dependenciesIn, himporter, hleaf, ha, Ne.symm hb, Ne.symm ha]
  have horder : Order.order (remaining [importer, leaf] []) (dependenciesIn [importer, leaf]) =
      .ok ["b", "a"] := by
    have hremaining : remaining [importer, leaf] [] = ["a", "b"] := by
      simp [remaining, himporter, hleaf]
    rw [hdependencies, hremaining]
    rfl
  rw [inferenceOrder, arrange]
  split
  next ordered hresult =>
    rw [horder] at hresult
    cases hresult
    rfl
  next hresult =>
    rw [horder] at hresult
    cases hresult
  next hresult =>
    rw [horder] at hresult
    cases hresult

end LackingOne

theorem exists_ofText {path text : String} (hread : Program.ofText path text = .ok program) :
    ∃ source, SourceFile.ofText path text = .ok source ∧ source.path = path ∧
      source.program = program := by
  refine ⟨⟨path, program, Lines.ofText text⟩, ?_, rfl, rfl⟩
  rw [SourceFile.ofText, hread]
  rfl

theorem dependencies_eq (source : SourceFile) : source.dependencies =
    (source.program.imports.map (·.path)).map (Path.relativeTo source.path) := by
  rw [SourceFile.dependencies, List.map_map]
  rfl

theorem exists_load_lackingOne : ∃ importer leaf first last,
    load lackingOne "a" = .project ⟨"a", [importer, leaf], [first, last], []⟩ ∧
      importer.path = "a" ∧ leaf.path = "b" ∧ last.path = "a" ∧
      importer.program.imports.map (·.path) = ["b", "x"] := by
  have heval : ((Program.ofText "a"
      "statements: [{kind: import, path: b}, {kind: import, path: x}]").toOption.any fun whole =>
        (Program.ofText "b" "statements: []").toOption.any fun empty =>
          decide (whole.imports.map (·.path) = ["b", "x"] ∧ empty.imports.map (·.path) = []) &&
            (TypedFile.infer "b" empty [] [] {}).toOption.any fun found =>
              (TypedFile.infer "a" whole ["b", "x"] [found.1] found.2).toOption.any
                fun _ => true) = true := by
    decide +kernel
  obtain ⟨whole, hwhole, htest⟩ := exists_of_any heval
  obtain ⟨empty, hempty, htest⟩ := exists_of_any htest
  obtain ⟨hshape, htest⟩ := Bool.and_eq_true_iff.mp htest
  obtain ⟨himports, hnone⟩ := of_decide_eq_true hshape
  obtain ⟨⟨first, fresher⟩, hfirst, htest⟩ := exists_of_any htest
  obtain ⟨⟨last, final⟩, hlast, -⟩ := exists_of_any htest
  obtain ⟨hclean, hb, hx⟩ := paths_lackingOne
  obtain ⟨importer, himporter, hpath, rfl⟩ := exists_ofText hwhole
  obtain ⟨leaf, hleaf, hleafPath, rfl⟩ := exists_ofText hempty
  have hdependencies : importer.dependencies = ["b", "x"] := by
    rw [dependencies_eq, himports, hpath, map_cons, map_cons, hb, hx, map_nil]
  have hnothing : leaf.dependencies = [] := by
    rw [dependencies_eq, hnone, map_nil]
  have hinfer : inferAll [] {} (["b", "a"].filterMap fun path =>
      [importer, leaf].find? (·.path == path)) = .ok [first, last] := by
    have hsources : (["b", "a"].filterMap fun path => [importer, leaf].find? (·.path == path)) =
        [leaf, importer] := by
      simp [hpath, hleafPath]
    rw [hsources, inferAll, hleafPath, hnothing, hfirst]
    change inferAll [first] fresher [importer] = _
    rw [inferAll, hpath, hdependencies, hlast]
    rfl
  rw [← hpath, ← hdependencies] at hlast
  have hfollows : FollowsFrom importer [first] fresher last := ⟨final, hlast⟩
  refine ⟨importer, leaf, first, last, ?_, hpath, hleafPath, hfollows.path_eq.trans hpath, himports⟩
  have hentry : Path.clean (if "a".isEmpty then defaultEntry else "a") = "a" := hclean
  rw [load, hentry, reached_lackingOne hdependencies hnothing himporter hleaf]
  dsimp only
  rw [ofSources, inferenceOrder_lackingOne hdependencies hnothing hpath hleafPath]
  dsimp only
  rw [hinfer]

theorem exists_statement {i : Import} (hi : i ∈ program.imports) :
    ∃ (n : Nat) (names : List String) (moduleName : String),
      program.statements[n]? = some (.importFile i.site i.path names moduleName) := by
  obtain ⟨node, hnode, heq⟩ := mem_filterMap.mp hi
  obtain ⟨n, hn⟩ := getElem?_of_mem hnode
  split at heq
  · cases heq
    exact ⟨n, _, _, hn⟩
  · cases heq

theorem load_resolves_imports_of_lackingOne : ∃ project, load lackingOne "a" = .project project ∧
    lackingOne.Absent "x" ∧ ReflTransGen lackingOne.Imports project.entry "b" ∧
    ∃ span, ⟨"a", some ⟨"a", span⟩, .unknownDependency "x"⟩ ∈ project.issues := by
  obtain ⟨importer, leaf, first, last, hload, hpath, hleaf, hlast, himports⟩ :=
    exists_load_lackingOne
  have habsent : lackingOne.Absent "x" := ⟨rfl, rfl⟩
  obtain ⟨-, -, -, hreaches, -, hfiles⟩ := load_resolves_imports hload
  obtain ⟨source, hsource, fresher, hsame, -, -, hissues, himport⟩ := hfiles [first] last [] rfl
  obtain rfl : source = importer := by
    obtain hsource | hsource : source = importer ∨ source = leaf := by simpa using hsource
    · exact hsource
    · rw [hsource, hleaf, hlast] at hsame
      exact absurd hsame (by decide)
  obtain ⟨i, hi, hx⟩ : ∃ i ∈ source.program.imports, i.path = "x" := by
    simpa using congrArg ("x" ∈ ·) himports
  obtain ⟨n, names, moduleName, hnode⟩ := exists_statement hi
  have hissue := (himport n _ _ _ _ hnode).2
  rw [hlast, hx, paths_lackingOne.2.2] at hissue
  refine ⟨_, hload, habsent, (hreaches "b").mp ?_, i.site.span, ?_⟩
  · simp [hleaf]
  · have hn : n < source.program.statements.length := (List.getElem?_eq_some_iff.mp hnode).1
    have hmem : ⟨"a", some ⟨"a", i.site.span⟩, .unknownDependency "x"⟩ ∈ last.issues := by
      rw [hissues, List.mem_flatMap]
      refine ⟨n, List.mem_range.mpr hn, ?_⟩
      rw [hissue habsent]
      exact List.mem_singleton_self _
    exact List.mem_append_right _ (List.mem_flatMap.mpr ⟨last, by simp, hmem⟩)

end Examples

end TypeSearch.Project
