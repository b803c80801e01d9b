import Mathlib
import TypeSearch.Project.Load
import TypeSearch.Proofs.Order

/-!
# The order in which files are inferred

Files are skipped round by round: those of a cycle that was found, or one that imports a skipped
file. Every skipped file leads to a cycle that was reported, and the files that are left at the end
can be ordered, so they lead to none.
-/

namespace TypeSearch.Project

open List
open TypeSearch.Order (DependsOn IsCycle ReachesCycle Sorted)
open Relation

variable {sources : List SourceFile} {skipped ordered chain : List String} {issues : List Issue}
  {path source target : String} {reported : Set String}

def Imports (sources : List SourceFile) (path other : String) : Prop :=
  ∃ file ∈ sources, file.path = path ∧ other ∈ file.dependencies ∧ other ∈ sources.map (·.path)

theorem dependenciesIn_subset (sources : List SourceFile) (path : String) :
    dependenciesIn sources path ⊆ sources.map (·.path) := by
  intro other hother
  obtain ⟨file, hfile, hpath⟩ := any_eq_true.mp (mem_filter.mp hother).2
  exact mem_map.mpr ⟨file, hfile, by simpa using hpath⟩

theorem find?_of_mem (hpaths : (sources.map (·.path)).Nodup) {file : SourceFile}
    (hfile : file ∈ sources) : sources.find? (·.path == file.path) = some file := by
  obtain ⟨found, hfound⟩ : ∃ found, sources.find? (·.path == file.path) = some found := by
    rw [← Option.isSome_iff_exists, find?_isSome]
    exact ⟨file, hfile, by simp⟩
  have hpath : found.path = file.path := by simpa using find?_some hfound
  rw [hfound, inj_on_of_nodup_map hpaths (mem_of_find?_eq_some hfound) hfile hpath]

theorem dependsOn_eq_imports (hpaths : (sources.map (·.path)).Nodup) :
    DependsOn (dependenciesIn sources) = Imports sources := by
  funext path other
  refine propext ⟨fun hother => ?_, ?_⟩
  · have hread := dependenciesIn_subset sources path hother
    have hmem := (mem_filter.mp hother).1
    cases hfound : sources.find? (·.path == path) with
    | none => simp [hfound] at hmem
    | some file =>
      rw [hfound] at hmem
      refine ⟨file, mem_of_find?_eq_some hfound, ?_, hmem, hread⟩
      simpa using find?_some hfound
  · rintro ⟨file, hfile, rfl, hother, hread⟩
    refine mem_filter.mpr ⟨?_, ?_⟩
    · rwa [find?_of_mem hpaths hfile]
    · simpa using hread

theorem mem_remaining_iff : path ∈ remaining sources skipped ↔
    path ∈ sources.map (·.path) ∧ path ∉ skipped := by
  simp [remaining]

structure Stuck (sources : List SourceFile) (reported : Set String) (path : String) : Prop where
  reachesCycle : ReachesCycle (DependsOn (dependenciesIn sources)) path
  reported : ∃ file ∈ reported, ReflTransGen (DependsOn (dependenciesIn sources)) path file

theorem Stuck.mono {reported' : Set String} (hstuck : Stuck sources reported path)
    (hsubset : reported ⊆ reported') : Stuck sources reported' path := by
  obtain ⟨file, hfile, hreaches⟩ := hstuck.reported
  exact ⟨hstuck.reachesCycle, file, hsubset hfile, hreaches⟩

theorem Stuck.of_dependsOn (hstuck : Stuck sources reported target)
    (hdepends : DependsOn (dependenciesIn sources) source target) :
    Stuck sources reported source := by
  obtain ⟨⟨other, hother, hcycle⟩, file, hfile, hreaches⟩ := hstuck
  exact ⟨⟨other, .head hdepends hother, hcycle⟩, file, hfile, .head hdepends hreaches⟩

theorem stuck_of_isCycle (hcycle : IsCycle (dependenciesIn sources) source target chain)
    (hpath : path ∈ source :: target :: chain) : Stuck sources {file | file ∈ chain} path := by
  have hchain : path ∈ chain := by
    obtain rfl | rfl | hpath : path = source ∨ path = target ∨ path ∈ chain := by simpa using hpath
    · exact hcycle.source_mem
    · exact hcycle.target_mem
    · exact hpath
  exact ⟨hcycle.reachesCycle hchain, path, hchain, .refl⟩

/-- The issue reports a cycle of imports, which is given as `chain`. -/
def Reports (sources : List SourceFile) (issue : Issue) (chain : List String) : Prop :=
  ∃ source target, issue = cycleIssue sources source target chain ∧
    IsCycle (dependenciesIn sources) source target chain

def reportedFiles (sources : List SourceFile) (issues : List Issue) : Set String :=
  {file | ∃ issue ∈ issues, ∃ chain, Reports sources issue chain ∧ file ∈ chain}

/-- What arranging comes to if it starts with files that are stuck at `reported` ones. -/
structure Arranges (sources : List SourceFile) (reported : Set String) (ordered : List String)
    (issues : List Issue) : Prop where
  sorted : Sorted (dependenciesIn sources) ordered
  reports : ∀ issue ∈ issues, ∃ chain, Reports sources issue chain
  perm : ∃ skipped, ordered.Perm (remaining sources skipped) ∧
    ∀ path ∈ skipped, Stuck sources (reported ∪ reportedFiles sources issues) path

theorem Arranges.report {issue : Issue}
    (harranges : Arranges sources (reported ∪ {file | file ∈ chain}) ordered issues)
    (hissue : Reports sources issue chain) :
    Arranges sources reported ordered (issue :: issues) := by
  obtain ⟨skipped, hperm, hstuck⟩ := harranges.perm
  refine ⟨harranges.sorted, forall_mem_cons.mpr ⟨⟨chain, hissue⟩, harranges.reports⟩, skipped,
    hperm, fun path hpath => (hstuck path hpath).mono ?_⟩
  rintro file ((hfile | hfile) | ⟨other, hother, hfile⟩)
  · exact .inl hfile
  · exact .inr ⟨issue, .head _, chain, hissue, hfile⟩
  · exact .inr ⟨other, .tail _ hother, hfile⟩

/-- Each round skips a file more, so the induction is on the number of files that remain. A file
that is not among them is skipped, so the order of the files never lacks one for another reason. -/
theorem exists_arrange (reported : Set String)
    (hskipped : ∀ path ∈ skipped, Stuck sources reported path) :
    ∃ ordered issues, arrange sources skipped = .ok (ordered, issues) ∧
      Arranges sources reported ordered issues := by
  induction hlength : (remaining sources skipped).length using Nat.strong_induction_on
    generalizing skipped reported with
  | _ length ih =>
    have horders := Order.order_orders (remaining sources skipped) (dependenciesIn sources)
    rw [arrange]
    split
    next ordered hresult =>
      rw [hresult] at horders
      cases horders with
      | ok hperm hsorted =>
        refine ⟨ordered, [], rfl, hsorted, by simp, skipped, hperm, fun path hpath => ?_⟩
        exact (hskipped path hpath).mono Set.subset_union_left
    next source target chain hresult =>
      rw [hresult] at horders
      cases horders with
      | cycle hnodes hcycle =>
        have hless := length_remaining_lt (Order.source_mem hresult) (source :: target :: chain)
          (.head _)
        have hmore : ∀ path ∈ source :: target :: chain ++ skipped,
            Stuck sources (reported ∪ {file | file ∈ chain}) path := by
          intro path hpath
          obtain hpath | hpath := mem_append.mp hpath
          · exact (stuck_of_isCycle hcycle hpath).mono Set.subset_union_right
          · exact (hskipped path hpath).mono Set.subset_union_left
        obtain ⟨ordered, issues, harrange, harranges⟩ := ih _ (hlength ▸ hless) _ hmore rfl
        refine ⟨ordered, cycleIssue sources source target chain :: issues, ?_, ?_⟩
        · rw [harrange]
          rfl
        · exact harranges.report ⟨source, target, rfl, hcycle⟩
    next source target hresult =>
      rw [hresult] at horders
      cases horders with
      | unknown hsource htarget hunknown =>
        have hless := length_remaining_lt (Order.source_mem hresult) [source] (.head _)
        have hstuck : target ∈ skipped := by
          by_contra hnot
          exact hunknown
            (mem_remaining_iff.mpr ⟨dependenciesIn_subset sources source htarget, hnot⟩)
        rw [if_pos hstuck]
        refine ih _ (hlength ▸ hless) reported (fun path hpath => ?_) rfl
        obtain hpath | hpath := mem_append.mp hpath
        · rw [mem_singleton.mp hpath]
          exact (hskipped target hstuck).of_dependsOn htarget
        · exact hskipped path hpath

theorem exists_inferenceOrder (sources : List SourceFile) :
    ∃ ordered issues, inferenceOrder sources = .ok (ordered, issues) ∧
      Arranges sources ∅ ordered issues :=
  exists_arrange ∅ (by simp)

theorem arranges_of_inferenceOrder (horder : inferenceOrder sources = .ok (ordered, issues)) :
    Arranges sources ∅ ordered issues := by
  obtain ⟨_, _, hfound, harranges⟩ := exists_inferenceOrder sources
  rw [horder] at hfound
  cases hfound
  exact harranges

section Arranges

variable {reported : Set String} (harranges : Arranges sources reported ordered issues)
include harranges

theorem Arranges.subset : ordered ⊆ sources.map (·.path) := by
  obtain ⟨skipped, hperm, -⟩ := harranges.perm
  exact fun path hpath => (mem_remaining_iff.mp (hperm.mem_iff.mp hpath)).1

theorem Arranges.nodup (hpaths : (sources.map (·.path)).Nodup) : ordered.Nodup := by
  obtain ⟨skipped, hperm, -⟩ := harranges.perm
  exact hperm.nodup_iff.mpr (hpaths.filter _)

end Arranges

section Examples

end Examples

end TypeSearch.Project
