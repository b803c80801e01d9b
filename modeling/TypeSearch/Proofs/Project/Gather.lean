import Mathlib.Logic.Relation
import TypeSearch.Project.Files

/-!
# The files that are read

Files are read from a queue to which the imports of a file are added when it is read. If no file
stops this, what was read are the files that the entry leads to through imports of files that exist,
and none of them was read twice.
-/

namespace TypeSearch.Files

open List Relation

variable {files : Files} {refusal : String → Refusal} {entry path other name text : String}
  {unread texts : List (String × String)} {queue visited : List String} {source : SourceFile}
  {sources : List SourceFile}

def read? (files : Files) (path : String) : Option String :=
  (files.texts.find? (·.1 == path)).map (·.2)

def Absent (files : Files) (path : String) : Prop :=
  files.read? path = none ∧ (files.refusal path).isAbsent

def Holds (files : Files) (source : SourceFile) : Prop :=
  ∃ text, files.read? source.path = some text ∧ SourceFile.ofText source.path text = .ok source

/-- A file has a top-level import of one that exists. -/
def Imports (files : Files) (path other : String) : Prop :=
  ∃ source, files.Holds source ∧ source.path = path ∧ other ∈ source.dependencies ∧
    (files.read? other).isSome

theorem ofText_eq_ok (hsource : SourceFile.ofText path text = .ok source) :
    ∃ program, Tree.Program.ofText path text = .ok program ∧
      source = ⟨path, program, Lines.ofText text⟩ := by
  unfold SourceFile.ofText at hsource
  cases hprogram : Tree.Program.ofText path text with
  | error error =>
    rw [hprogram] at hsource
    cases hsource
  | ok program =>
    rw [hprogram] at hsource
    cases hsource
    exact ⟨program, rfl, rfl⟩

theorem path_of_ofText (hsource : SourceFile.ofText path text = .ok source) :
    source.path = path := by
  obtain ⟨program, -, rfl⟩ := ofText_eq_ok hsource
  rfl

theorem Holds.program (hsource : files.Holds source) :
    ∃ text, Tree.Program.ofText source.path text = .ok source.program := by
  obtain ⟨text, -, hread⟩ := hsource
  obtain ⟨program, hprogram, hsource⟩ := ofText_eq_ok hread
  refine ⟨text, hprogram.trans ?_⟩
  rw [hsource]

theorem Holds.isSome (hsource : files.Holds source) : (files.read? source.path).isSome := by
  obtain ⟨text, htext, -⟩ := hsource
  rw [htext]
  rfl

theorem Holds.unique {source' : SourceFile} (hsource : files.Holds source)
    (hsource' : files.Holds source') (hpath : source.path = source'.path) : source = source' := by
  obtain ⟨text, htext, hread⟩ := hsource
  obtain ⟨text', htext', hread'⟩ := hsource'
  rw [hpath, htext'] at htext
  cases htext
  rw [hpath, hread'] at hread
  exact (Except.ok.inj hread).symm

theorem find?_without (hother : other ≠ path) :
    (without texts path).find? (·.1 == other) = texts.find? (·.1 == other) := by
  rw [without, find?_filter]
  congr 1
  funext entry
  by_cases hentry : entry.1 = other
  · simp [hentry, hother]
  · simp [hentry]

theorem gather_of_found (hfresh : path ∉ visited)
    (hfind : unread.find? (·.1 == path) = some (name, text))
    (hsource : SourceFile.ofText path text = .ok source)
    (hrest : gather refusal entry (without unread path) (queue ++ source.dependencies)
      (path :: visited) = .ok sources) :
    gather refusal entry unread (path :: queue) visited = .ok (source :: sources) := by
  rw [gather, if_neg (by simpa using hfresh)]
  split
  next hnone =>
    rw [hfind] at hnone
    cases hnone
  next found hfound =>
    rw [hfind] at hfound
    cases hfound
    rw [hsource]
    dsimp only
    rw [hrest]
    rfl

theorem gather_of_absent (hfresh : path ∉ visited) (hfind : unread.find? (·.1 == path) = none)
    (hentry : path ≠ entry) (habsent : (refusal path).isAbsent) :
    gather refusal entry unread (path :: queue) visited =
      gather refusal entry unread queue (path :: visited) := by
  rw [gather, if_neg (by simpa using hfresh)]
  split
  next => exact if_pos (by simp [hentry, habsent])
  next found hfound =>
    rw [hfind] at hfound
    cases hfound

/-- What is read if `queue` waits and `visited` was dealt with before. -/
structure Gathers (files : Files) (entry : String) (queue visited : List String)
    (sources : List SourceFile) : Prop where
  holds : ∀ source ∈ sources, files.Holds source
  nodup : (sources.map (·.path)).Nodup
  fresh : ∀ source ∈ sources, source.path ∉ visited
  settled : ∀ path, path ∈ queue ∨ (∃ source ∈ sources, path ∈ source.dependencies) →
    path ∈ visited ∨ path ∈ sources.map (·.path) ∨ files.Absent path ∧ path ≠ entry
  found : ∀ source ∈ sources, ∃ start ∈ queue, (files.read? start).isSome ∧
    ReflTransGen files.Imports start source.path

theorem gathers_nil : Gathers files entry [] visited [] := by
  constructor <;> simp

theorem Gathers.skip (hgathers : Gathers files entry queue visited sources)
    (hpath : path ∈ visited) : Gathers files entry (path :: queue) visited sources where
  holds := hgathers.holds
  nodup := hgathers.nodup
  fresh := hgathers.fresh
  settled other hother := by
    obtain hother | hother := hother
    · obtain rfl | hother := mem_cons.mp hother
      · exact .inl hpath
      · exact hgathers.settled other (.inl hother)
    · exact hgathers.settled other (.inr hother)
  found source hsource := by
    obtain ⟨start, hstart, hreaches⟩ := hgathers.found source hsource
    exact ⟨start, .tail _ hstart, hreaches⟩

theorem Gathers.absent (hgathers : Gathers files entry queue (path :: visited) sources)
    (hpath : files.Absent path) (hentry : path ≠ entry) :
    Gathers files entry (path :: queue) visited sources where
  holds := hgathers.holds
  nodup := hgathers.nodup
  fresh source hsource hvisited := hgathers.fresh source hsource (.tail _ hvisited)
  settled other hother := by
    by_cases hsame : other = path
    · exact hsame ▸ .inr (.inr ⟨hpath, hentry⟩)
    · simpa [hsame] using hgathers.settled other (by simpa [hsame] using hother)
  found source hsource := by
    obtain ⟨start, hstart, hreaches⟩ := hgathers.found source hsource
    exact ⟨start, .tail _ hstart, hreaches⟩

theorem Gathers.reading
    (hgathers : Gathers files entry (queue ++ source.dependencies) (source.path :: visited) sources)
    (hsource : files.Holds source) (hfresh : source.path ∉ visited) :
    Gathers files entry (source.path :: queue) visited (source :: sources) where
  holds := forall_mem_cons.mpr ⟨hsource, hgathers.holds⟩
  nodup := by
    rw [map_cons, nodup_cons]
    refine ⟨fun hmem => ?_, hgathers.nodup⟩
    obtain ⟨other, hother, hpath⟩ := mem_map.mp hmem
    exact hgathers.fresh other hother (hpath ▸ mem_cons_self)
  fresh := by
    refine forall_mem_cons.mpr ⟨hfresh, fun other hother hvisited => ?_⟩
    exact hgathers.fresh other hother (.tail _ hvisited)
  settled path hpath := by
    by_cases hsame : path = source.path
    · exact .inr (.inl (hsame ▸ mem_cons_self))
    · have hsettled := hgathers.settled path (by simpa [hsame, or_assoc] using hpath)
      simpa [hsame] using hsettled
  found := by
    refine forall_mem_cons.mpr ⟨⟨_, .head _, hsource.isSome, .refl⟩, fun other hother => ?_⟩
    obtain ⟨start, hstart, hexists, hreaches⟩ := hgathers.found other hother
    obtain hstart | hstart := mem_append.mp hstart
    · exact ⟨start, .tail _ hstart, hexists, hreaches⟩
    · refine ⟨source.path, .head _, hsource.isSome, .head ?_ hreaches⟩
      exact ⟨source, hsource, rfl, hstart, hexists⟩

theorem gather_gathers
    (hunread : ∀ path ∉ visited, unread.find? (·.1 == path) = files.texts.find? (·.1 == path))
    (hgather : gather files.refusal entry unread queue visited = .ok sources) :
    Gathers files entry queue visited sources := by
  fun_induction gather files.refusal entry unread queue visited generalizing sources with
  | case1 unread visited =>
    cases hgather
    exact gathers_nil
  | case2 unread visited path queue hvisited ih =>
    exact (ih hunread hgather).skip (contains_iff_mem.mp hvisited)
  | case3 unread visited path queue hvisited hfind reason habsent =>
    rename_i ih
    rw [contains_iff_mem] at hvisited
    obtain ⟨hentry, habsent⟩ := Bool.and_eq_true_iff.mp habsent
    have hread : files.read? path = none := by
      rw [read?, ← hunread path hvisited, hfind]
      rfl
    refine (ih (fun other hother => ?_) hgather).absent ⟨hread, habsent⟩ (by simpa using hentry)
    exact hunread other fun hmem => hother (.tail _ hmem)
  | case4 | case5 => cases hgather
  | case6 unread visited path queue hvisited name text hfind file hfile hless ih =>
    rw [contains_iff_mem] at hvisited
    obtain rfl := path_of_ofText hfile
    have hholds : files.Holds file := by
      refine ⟨text, ?_, hfile⟩
      rw [read?, ← hunread _ hvisited, hfind]
      rfl
    cases hrest : gather files.refusal entry (without unread file.path)
        (queue ++ file.dependencies) (file.path :: visited) with
    | error error =>
      rw [hrest] at hgather
      cases hgather
    | ok rest =>
      rw [hrest] at hgather
      cases hgather
      refine (ih (fun other hother => ?_) hrest).reading hholds hvisited
      obtain ⟨hother, hfresh⟩ := ne_and_not_mem_of_not_mem_cons hother
      rw [find?_without hother, hunread other hfresh]

section Reached

variable (hreached : files.reached entry = .ok sources)
include hreached

theorem gathers_of_reached : Gathers files entry [entry] [] sources :=
  gather_gathers (fun _ _ => rfl) hreached

theorem mem_of_reached : entry ∈ sources.map (·.path) := by
  simpa using (gathers_of_reached hreached).settled entry (.inl (.head _))

theorem absent_iff (hsource : source ∈ sources) (hpath : path ∈ source.dependencies) :
    files.Absent path ↔ path ∉ sources.map (·.path) := by
  have hgathers := gathers_of_reached hreached
  refine ⟨fun habsent hmem => ?_, fun hlacks => ?_⟩
  · obtain ⟨found, hfound, rfl⟩ := mem_map.mp hmem
    have hexists := (hgathers.holds found hfound).isSome
    rw [habsent.1] at hexists
    cases hexists
  · obtain hvisited | hmem | ⟨habsent, -⟩ := hgathers.settled path (.inr ⟨source, hsource, hpath⟩)
    · cases hvisited
    · exact absurd hmem hlacks
    · exact habsent

theorem mem_sources_of_isSome (hsource : source ∈ sources) (hpath : path ∈ source.dependencies)
    (hexists : (files.read? path).isSome) : path ∈ sources.map (·.path) := by
  refine Classical.byContradiction fun hlacks => ?_
  rw [((absent_iff hreached hsource hpath).mpr hlacks).1] at hexists
  cases hexists

/-- **What is read is what the entry leads to.** -/
theorem mem_sources_iff : path ∈ sources.map (·.path) ↔ ReflTransGen files.Imports entry path := by
  have hgathers := gathers_of_reached hreached
  refine ⟨fun hmem => ?_, fun hreaches => ?_⟩
  · obtain ⟨source, hsource, rfl⟩ := mem_map.mp hmem
    obtain ⟨start, hstart, -, hreaches⟩ := hgathers.found source hsource
    rwa [mem_singleton.mp hstart] at hreaches
  · induction hreaches with
    | refl => exact mem_of_reached hreached
    | tail _ himport ih =>
      obtain ⟨source, hholds, rfl, hother, hexists⟩ := himport
      obtain ⟨found, hfound, hsame⟩ := mem_map.mp ih
      obtain rfl := (hgathers.holds found hfound).unique hholds hsame
      exact mem_sources_of_isSome hreached hfound hother hexists

end Reached

end TypeSearch.Files
