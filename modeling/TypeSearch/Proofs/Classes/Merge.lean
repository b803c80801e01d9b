import TypeSearch.Proofs.Classes.Enforce
import TypeSearch.Proofs.Classes.Operations

/-!
# Merging classes into others

Merging adds the equalities of one graph of classes to another, first between variables and then
with concrete types. Both the merging of a list and `build` are described for any way in which
concrete types meet.
-/

namespace TypeSearch.Classes

open List

variable {classes source : Classes} {plain halts : Prop} {meet : Meet} {σ : VarId → Ty}

/-- A run of assignments enforces every equation it was given. -/
theorem Sound.assignAll (hsound : Sound plain classes) (hmeet : MeetEnforces plain halts meet)
    {entries : List (VarId × Ty)} (hentries : plain → ∀ entry ∈ entries, entry.2.FirstOrder) :
    Enforces plain halts classes
      (fun σ => ∀ entry ∈ entries, Ty.same (σ entry.1) (entry.2.apply σ) = true)
      (Classes.assignAll meet entries classes) := by
  induction entries generalizing classes with
  | nil => exact ⟨hsound, fun _ σ => by simp⟩
  | cons entry rest ih =>
    have hstep := hsound.assign hmeet entry.1 fun hplain => hentries hplain entry (.head _)
    refine (hstep.bind fun next hadds => ih hadds.toSound fun hplain other hother =>
      hentries hplain other (.tail _ hother)).congr fun _ σ => ?_
    rw [forall_mem_cons]

theorem Sound.joinVariable (hsound : Sound plain classes) (hmeet : MeetEnforces plain halts meet)
    (hsource : source.WellFormed) (id : VarId) :
    Enforces plain halts classes (fun σ => Ty.same (σ id) (σ (source.root id)) = true)
      (Classes.joinVariable meet source id classes) := by
  have hadmits := hsound.wellFormed.addVariable (source.variableAt id)
  rw [hsource.variableAt_id] at hadmits
  unfold Classes.joinVariable
  split
  · rename_i hroot
    refine ⟨hadmits.sound hsound, fun _ σ => ?_⟩
    rw [hadmits.solves_iff hsound.wellFormed, hroot]
    exact ⟨fun hsolves => ⟨hsolves, Ty.same_refl _⟩, And.left⟩
  · have hunion := (hadmits.sound hsound).union hmeet ((hadmits.has_iff id).mpr (.inr rfl))
      (source.variableAt (source.root id))
    refine hunion.congr fun _ σ => ?_
    rw [hadmits.solves_iff hsound.wellFormed, hsource.variableAt_id]

/-- Joining variables with their roots in `source` enforces those equations. -/
theorem Sound.joinVariables (hsound : Sound plain classes) (hmeet : MeetEnforces plain halts meet)
    (hsource : source.WellFormed) (ids : List VarId) :
    Enforces plain halts classes
      (fun σ => ∀ id ∈ ids, Ty.same (σ id) (σ (source.root id)) = true)
      (Classes.joinVariables meet source ids classes) := by
  induction ids generalizing classes with
  | nil => exact ⟨hsound, fun _ σ => by simp⟩
  | cons id rest ih =>
    rw [joinVariables_cons]
    refine ((hsound.joinVariable hmeet hsource id).bind fun next hadds =>
      ih hadds.toSound).congr fun _ σ => ?_
    rw [forall_mem_cons]

theorem WellFormed.mem_concretes_iff (hsource : source.WellFormed) {id : VarId} {t : Ty} :
    (id, t) ∈ source.concretes ↔ source.concrete? id = some t := by
  simp only [concretes, mem_filterMap, Option.map_eq_some_iff, Prod.mk.injEq]
  constructor
  · rintro ⟨id, -, t, hconcrete, rfl, rfl⟩
    exact hconcrete
  · intro hconcrete
    exact ⟨id, (hsource.mem_order_iff id).mpr (has_of_concrete hconcrete), t, hconcrete, rfl, rfl⟩

theorem WellFormed.solves_iff_entries (hsource : source.WellFormed) :
    (∀ id ∈ source.order.toList, Ty.same (σ id) (σ (source.root id)) = true) ∧
        (∀ entry ∈ source.concretes, Ty.same (σ entry.1) (entry.2.apply σ) = true) ↔
      source.Solves σ := by
  constructor
  · rintro ⟨hroots, hconcretes⟩
    refine hsource.solves_of_root (fun v => ?_) fun id t hconcrete => ?_
    · by_cases hv : source.has v = true
      · exact hroots v ((hsource.mem_order_iff v).mpr hv)
      · rw [root_of_not_has (Bool.eq_false_of_not_eq_true hv)]
        exact Ty.same_refl _
    · exact hconcretes (id, t) (hsource.mem_concretes_iff.mpr hconcrete)
  · intro hsolves
    exact ⟨fun id _ => hsolves.root hsource id, fun entry hentry =>
      hsolves.concrete? _ _ (hsource.mem_concretes_iff.mp hentry)⟩

theorem Sound.refresh (hsound : Sound plain classes) : Sound plain classes.refresh := by
  obtain ⟨hwf, halike⟩ := hsound.wellFormed.refresh
  refine ⟨hwf, ?_, hsound.firstOrder⟩
  unfold Acyclic Refers
  rw [halike.root]
  exact hsound.acyclic

theorem WellFormed.solves_refresh_iff (hwf : classes.WellFormed) :
    classes.refresh.Solves σ ↔ classes.Solves σ := by
  obtain ⟨hwf', halike⟩ := hwf.refresh
  rw [hwf.solves_iff, hwf'.solves_iff, halike.root, halike.concrete?]

theorem Sound.mergeWith (hsound : Sound plain classes) (hmeet : MeetEnforces plain halts meet)
    (hsource : Sound plain source) :
    Enforces plain halts classes (fun σ => source.Solves σ)
      (Classes.mergeWith meet classes source) := by
  have hentries : plain → ∀ entry ∈ source.concretes, entry.2.FirstOrder :=
    fun hplain entry hentry => (hsource.firstOrder hplain _ _
      (hsource.wellFormed.mem_concretes_iff.mp hentry)).1
  have hrefresh : ∀ next : Classes, Sound plain next →
      Enforces plain halts next (fun _ => True) (.ok next.refresh) := fun next hnext =>
    ⟨hnext.refresh, fun _ σ => by rw [hnext.wellFormed.solves_refresh_iff, and_true]⟩
  have hjoined := hsound.joinVariables hmeet hsource.wellFormed source.order.toList
  refine (hjoined.bind fun next hadds => (hadds.toSound.assignAll hmeet hentries).bind
    fun last hlast => hrefresh last hlast.toSound).congr fun _ σ => ?_
  rw [and_true, hsource.wellFormed.solves_iff_entries]

def MergeEnforces (plain halts : Prop) (merge : Classes → Classes → Outcome Mismatch Classes) :
    Prop :=
  ∀ ⦃classes source : Classes⦄, Sound plain classes → Sound plain source →
    Enforces plain halts classes (fun σ => source.Solves σ) (merge classes source)

variable {merge : Classes → Classes → Outcome Mismatch Classes}

theorem Sound.mergeAllWith (hsound : Sound plain classes) (hmerge : MergeEnforces plain halts merge)
    {sources : List Classes} (hsources : ∀ source ∈ sources, Sound plain source) :
    Enforces plain halts classes (fun σ => ∀ source ∈ sources, source.Solves σ)
      (Classes.mergeAllWith merge sources classes) := by
  induction sources generalizing classes with
  | nil => exact ⟨hsound, fun _ σ => by simp⟩
  | cons source rest ih =>
    rw [forall_mem_cons] at hsources
    refine ((hmerge hsound hsources.1).bind fun next hadds =>
      ih hadds.toSound hsources.2).congr fun _ σ => ?_
    rw [forall_mem_cons]

theorem concrete?_empty (id : VarId) : empty.concrete? id = none := by
  simp [empty, concrete?]

theorem sound_empty (plain : Prop) : Sound plain empty := by
  refine ⟨wellFormed_empty, fun id hcycle => ?_, fun _ id t ht => ?_⟩
  · obtain ⟨other, ⟨t, -, ht, -⟩, -⟩ := Relation.TransGen.head'_iff.mp hcycle
    rw [concrete?_empty] at ht
    cases ht
  · rw [concrete?_empty] at ht
    cases ht

theorem solves_empty (σ : VarId → Ty) : empty.Solves σ := by
  refine wellFormed_empty.solves_iff.mpr ⟨fun v w hroot => ?_, fun id t ht => ?_⟩
  · have habsent : ∀ v, empty.has v = false := fun v => by simp [empty, has]
    rw [root_of_not_has (habsent v), root_of_not_has (habsent w)] at hroot
    rw [hroot]
    exact Ty.same_refl _
  · rw [concrete?_empty] at ht
    cases ht

theorem buildWith_settles (hmerge : MergeEnforces plain halts merge)
    {graphs : List (Option Classes)} (hgraphs : ∀ graph, some graph ∈ graphs → Sound plain graph) :
    (buildWith merge graphs).Settles
      (halts ∧ (plain → ∀ σ, ¬ ∀ graph, some graph ∈ graphs → graph.Solves σ))
      (fun next => Sound plain next ∧
        (plain → ∀ σ, next.Solves σ ↔ ∀ graph, some graph ∈ graphs → graph.Solves σ))
      (plain → ∀ σ, ¬ ∀ graph, some graph ∈ graphs → graph.Solves σ) := by
  have hmem : ∀ graph, some graph ∈ graphs ↔ graph ∈ graphs.filterMap id := by simp
  simp only [hmem] at hgraphs ⊢
  unfold buildWith
  cases hsome : graphs.filterMap id with
  | nil =>
    exact ⟨sound_empty plain, fun _ σ => iff_of_true (solves_empty σ) nofun⟩
  | cons first rest =>
    rw [hsome, forall_mem_cons] at hgraphs
    have henforces := hgraphs.1.mergeAllWith hmerge hgraphs.2
    simp only [forall_mem_cons]
    exact henforces.settles.mono (fun hhalts => hhalts) (fun hrefused => hrefused)
      fun next _ hadds => ⟨hadds.toSound, hadds.solves_iff⟩

end TypeSearch.Classes
