import TypeSearch.Proofs.Classes.Build

/-!
# Building with an occurs check at every meeting

When two concrete types meet in a class, nothing checks that neither of them leads to the class.
`checkedBuild` is `build` with that check: it fails if one of the two leads to the class they would
meet in. It always ends, and what it builds from graphs made by unification is acyclic, so every
type can be reduced in it. `build` is the same unless the added check fails; it may then give a
class a type that mentions the class.
-/

namespace TypeSearch.Classes

open List

variable {classes next : Classes}

def checkedMeet (mass : Nat) : Meet := fun root existing t classes =>
  if classes.occursInClass root existing then
    .failed (.infinite (classes.variableAt root) existing)
  else if classes.occursInClass root t then .failed (.infinite (classes.variableAt root) t)
  else meet mass root existing t classes

def checkedMerge (classes source : Classes) : Outcome Mismatch Classes :=
  mergeWith (checkedMeet (classes.weight + source.weight)) classes source

def checkedBuild (graphs : List (Option Classes)) : Outcome Mismatch Classes :=
  buildWith checkedMerge graphs

theorem meetEnforces_checkedMeet (plain : Prop) (mass : Nat) :
    MeetEnforces plain False (checkedMeet mass) := by
  intro classes root existing t hmeeting
  have hiff := fun u => hmeeting.wellFormed.occursInClass_iff (t := u) hmeeting.has_root
  unfold checkedMeet
  split
  · rename_i hoccurs
    exact ⟨hmeeting.contradicts (.inl ((hiff existing).mp hoccurs))⟩
  · rename_i hexisting
    split
    · rename_i hoccurs
      exact ⟨hmeeting.contradicts (.inr ((hiff t).mp hoccurs))⟩
    · rename_i hapart
      rw [hiff] at hexisting hapart
      exact hmeeting.enforces_of_apart hexisting hapart _

theorem mergeEnforces_checkedMerge (plain : Prop) : MergeEnforces plain False checkedMerge :=
  fun _ _ hsound hsource => hsound.mergeWith (meetEnforces_checkedMeet plain _) hsource

/-- The same outcome, or a failure for an infinite type in its place. -/
def Guards (outcome guarded : Outcome Mismatch Classes) : Prop :=
  guarded = outcome ∨ ∃ v t, guarded = .failed (.infinite v t)

theorem follows_guards : Follows (fun _ => True) Guards where
  ok _ _ := .inl rfl
  failed _ := .inl rfl
  bind := by
    rintro outcome guarded later later' (rfl | ⟨v, t, rfl⟩) hlater
    · cases guarded with
      | ok classes => exact hlater classes trivial
      | failed mismatch | halted cause => exact .inl rfl
    · exact .inr ⟨v, t, rfl⟩

theorem guards_checkedMeet (mass : Nat) (root : VarId) (existing t : Ty) (classes : Classes) :
    Guards (meet mass root existing t classes) (checkedMeet mass root existing t classes) := by
  unfold checkedMeet
  split
  · exact .inr ⟨_, _, rfl⟩
  · split
    · exact .inr ⟨_, _, rfl⟩
    · exact .inl rfl

theorem guards_checkedBuild (graphs : List (Option Classes)) :
    Guards (build graphs) (checkedBuild graphs) := by
  have hstable : Stable (fun _ => True) (fun _ _ => True) (fun _ _ => True) fun _ => True := by
    constructor <;> simp
  rw [build_eq]
  refine compare_buildWith hstable follows_guards _ _ ?_ fun _ _ => trivial
  intro classes source _ _
  refine compare_mergeWith hstable follows_guards ?_ trivial trivial
  exact fun root existing t classes _ _ _ _ => guards_checkedMeet _ root existing t classes

inductive Reachable : Classes → Prop
  | empty : Reachable empty
  | unify {classes next : Classes} {a b t : Ty} (hgraph : Reachable classes)
      (hunify : classes.unify a b = .ok (t, next)) : Reachable next
  | equate {classes next : Classes} {a b : Ty} (hgraph : Reachable classes)
      (hequate : classes.equate a b = .ok next) : Reachable next

theorem Reachable.sound (hgraph : Reachable classes) : Sound False classes := by
  induction hgraph with
  | empty => exact sound_empty False
  | unify _ hunify ih => exact (ih.adds_of_unify_eq_ok False.elim False.elim hunify).toSound
  | equate _ hequate ih =>
    obtain ⟨t, hunify⟩ := unify_of_equate hequate
    exact (ih.adds_of_unify_eq_ok False.elim False.elim hunify).toSound

theorem checkedBuild_settles (graphs : List (Option Classes))
    (hgraphs : ∀ graph, some graph ∈ graphs → Reachable graph) :
    (∃ mismatch, checkedBuild graphs = .failed mismatch) ∨
      ∃ next, checkedBuild graphs = .ok next ∧ next.WellFormed ∧ next.Acyclic := by
  have hsettles := buildWith_settles (mergeEnforces_checkedMerge False)
    fun graph hmem => (hgraphs graph hmem).sound
  rw [← checkedBuild] at hsettles
  cases hbuild : checkedBuild graphs with
  | failed mismatch => exact .inl ⟨mismatch, rfl⟩
  | halted cause =>
    rw [hbuild] at hsettles
    exact hsettles.1.elim
  | ok next =>
    rw [hbuild] at hsettles
    exact .inr ⟨next, rfl, hsettles.1.wellFormed, hsettles.1.acyclic⟩

theorem checkedBuild_eq_ok_iff {graphs : List (Option Classes)}
    (hgraphs : ∀ graph, some graph ∈ graphs → FirstOrderGraph graph) (next : Classes) :
    checkedBuild graphs = .ok next ↔ build graphs = .ok next := by
  have hguards := guards_checkedBuild graphs
  constructor
  · intro hchecked
    rw [hchecked] at hguards
    rcases hguards with hsame | ⟨v, t, hinfinite⟩
    · exact hsame.symm
    · cases hinfinite
  · intro hbuild
    obtain ⟨σ, hsolves⟩ := (exists_build_iff hgraphs).mp ⟨next, hbuild⟩
    have hsettles := buildWith_settles (mergeEnforces_checkedMerge True)
      fun graph hmem => (hgraphs graph hmem).sound
    rw [← checkedBuild] at hsettles
    rcases hguards with hsame | ⟨v, t, hinfinite⟩
    · rw [hsame, hbuild]
    · rw [hinfinite] at hsettles
      exact absurd hsolves (hsettles trivial σ)

section Unchecked

variable {source : Classes} {root v : VarId} {existing t unified : Ty}

theorem meet_eq_of_unify (mass : Nat)
    (hunify : Facts.unify existing t classes.facts = .ok (unified, classes.facts)) :
    meet mass root existing t classes = .ok (classes.setConcrete root unified) := by
  rw [meet, meetWithin, hunify]
  change assignAll _ (newFacts classes.facts classes.facts) _ = _
  rw [newFacts_self, assignAll]

theorem joinVariables_of_roots (hwf : classes.WellFormed) (meet : Meet) (hsource : source.root = id)
    (ids : List VarId) :
    ∃ next, joinVariables meet source ids classes = .ok next ∧ next.WellFormed ∧
      next.root = classes.root ∧ next.concrete? = classes.concrete? := by
  induction ids generalizing classes with
  | nil => exact ⟨classes, rfl, hwf, rfl, rfl⟩
  | cons first rest ih =>
    have hadmits := hwf.addVariable (source.variableAt first)
    obtain ⟨next, hjoin, hnext, hroot, hconcrete⟩ := ih hadmits.wellFormed
    refine ⟨next, ?_, hnext, hroot.trans hadmits.root, hconcrete.trans hadmits.concrete?⟩
    have hfirst : source.root first = first := by rw [hsource, id_eq]
    rw [joinVariables_cons, joinVariable, if_pos hfirst]
    exact hjoin

theorem mergeWith_eq (hwf : classes.WellFormed) (meet : Meet) (hsource : source.root = id)
    (hconcretes : source.concretes = [(v, t)]) :
    ∃ prepared : Classes, prepared.WellFormed ∧ prepared.root = classes.root ∧
      prepared.concrete? = classes.concrete? ∧
      mergeWith meet classes source =
        prepared.assign meet v t >>= fun next : Classes => .ok next.refresh := by
  obtain ⟨prepared, hjoin, hprepared, hroot, hconcrete⟩ :=
    joinVariables_of_roots hwf meet hsource source.order.toList
  refine ⟨prepared, hprepared, hroot, hconcrete, ?_⟩
  rw [mergeWith, hjoin, hconcretes]
  change (assignAll meet [(v, t)] prepared >>= fun next : Classes => .ok next.refresh) = _
  rw [assignAll]
  cases prepared.assign meet v t <;> rfl

theorem WellFormed.concretes_eq (hwf : classes.WellFormed)
    (hconcrete : ∀ id u, classes.concrete? id = some u ↔ id = v ∧ u = t) :
    classes.concretes = [(v, t)] := by
  have hv := (hconcrete v t).mpr ⟨rfl, rfl⟩
  have hnone : ∀ id, id ≠ v → classes.concrete? id = none := fun id hid =>
    Option.eq_none_iff_forall_ne_some.mpr fun u hu => hid ((hconcrete id u).mp hu).1
  obtain ⟨before, after, horder⟩ :=
    append_of_mem ((hwf.mem_order_iff v).mpr (has_of_concrete hv))
  have hnodup := hwf.nodup
  rw [horder, nodup_middle, nodup_cons, mem_append, not_or] at hnodup
  have hothers : ∀ ids : List VarId, v ∉ ids →
      ids.filterMap (fun id => (classes.concrete? id).map ((id, ·))) = [] := by
    intro ids hids
    refine filterMap_eq_nil_iff.mpr fun id hid => ?_
    rw [hnone id (fun heq => hids (heq ▸ hid)), Option.map_none]
  rw [concretes, horder, filterMap_append, filterMap_cons, hothers before hnodup.1.1,
    hothers after hnodup.1.2, hv]
  rfl

theorem mergeWith_eq_ok (hwf : classes.WellFormed) (mass : Nat) (hsource : source.root = id)
    (hconcretes : source.concretes = [(v, t)]) (hbuilt : t.isVariable = false)
    (hexisting : classes.concrete? (classes.root v) = some existing)
    (hunify : ∀ facts, Facts.unify existing t facts = .ok (unified, facts)) :
    ∃ next, mergeWith (meet mass) classes source = .ok next ∧ next.root = classes.root ∧
      next.concrete? (classes.root v) = some unified := by
  obtain ⟨joined, hjoined, hroot, hconcrete, hmerge⟩ :=
    mergeWith_eq hwf (meet mass) hsource hconcretes
  obtain ⟨prepared, hadmits, hassign⟩ := hjoined.assign_built (meet mass) v hbuilt
  have hhas : prepared.has (classes.root v) = true := by
    rw [← hroot, ← hadmits.root, hadmits.wellFormed.has_root_iff]
    exact (hadmits.has_iff v).mpr (.inr rfl)
  have hprepared : prepared.root (classes.root v) = classes.root v := by
    rw [hadmits.root, hroot, hwf.root_root]
  have hsets := hadmits.wellFormed.setConcrete hhas hprepared unified
  obtain ⟨-, halike⟩ := hsets.wellFormed.refresh
  refine ⟨(prepared.setConcrete (classes.root v) unified).refresh, ?_, ?_, ?_⟩
  · rw [hmerge, hassign, hroot, hconcrete, hexisting]
    change meet mass _ _ _ _ >>= _ = _
    rw [meet_eq_of_unify mass (hunify prepared.facts)]
    rfl
  · rw [halike.root, hsets.root, hadmits.root, hroot]
  · rw [halike.concrete?, hsets.concrete?, Function.update_self]

theorem exists_reachable {a b : Ty} {target : Facts}
    (hunify : Facts.unify a b Facts.empty = .ok (t, target)) :
    ∃ graph, Reachable graph ∧ Reflects empty target [] graph := by
  have hempty := sound_empty False
  rcases hempty.wellFormed.unify_cases hempty.acyclic a b with
    ⟨mismatch, hfailed, -⟩ | ⟨unified, grown, graph, hok, -, hgraph, hreflects⟩
  · cases hunify.symm.trans hfailed
  · cases hunify.symm.trans hok
    exact ⟨graph, .unify .empty hgraph, hreflects⟩

theorem find?_single {w : VarId} {u : Ty} :
    (Facts.empty.insert v t).find? w = some u ↔ w = v ∧ t = u := by
  rw [Facts.find?_insert]
  split <;> simp_all [Facts.empty, Facts.find?]

theorem Reflects.single (hbuilt : t.isVariable = false)
    (hreflects : Reflects empty (Facts.empty.insert v t) [] classes) :
    classes.root = id ∧ classes.concretes = [(v, t)] := by
  have hstops : ∀ w x, ¬ (Facts.empty.insert v t).StepsTo w x := by
    rintro w _ ⟨x, hfind, -⟩
    obtain ⟨-, rfl⟩ := find?_single.mp hfind
    cases hbuilt
  have hroot : classes.root = id := by
    funext w
    have hlinked := hreflects.linked _ _ (hreflects.wellFormed.root_root w)
    exact Equivalence.eqvGen_iff eq_equivalence |>.mp
      (Relation.EqvGen.mono (fun a b hstep => (hstops a b hstep).elim) _ _ hlinked)
  refine ⟨hroot, hreflects.wellFormed.concretes_eq fun w u => ⟨fun hu => ?_, ?_⟩⟩
  · obtain ⟨home, rfl, hfind, -⟩ := hreflects.home w u hu
    rw [hroot]
    exact (find?_single.mp hfind).imp_right Eq.symm
  · rintro ⟨rfl, rfl⟩
    rcases hreflects.covers w u (find?_single.mpr ⟨rfl, rfl⟩) not_mem_nil with ⟨x, rfl, -⟩ | hu
    · cases hbuilt
    · rwa [hroot] at hu

/-- The concrete types of one class may unify as unions although one of them has a list of the class
among its members. -/
theorem exists_cyclic_build :
    ∃ first second next, Reachable first ∧ Reachable second ∧
      build [some first, some second] = .ok next ∧ ¬ next.Acyclic := by
  let scalar : Ty := .union [.number, .string]
  let list : Ty := .union [.list (.var ⟨1, "a"⟩), .number]
  have hscalar : Facts.unify (.curried [.var ⟨1, "a"⟩, .var ⟨1, "a"⟩])
      (.curried [.var ⟨2, "b"⟩, scalar]) Facts.empty =
        .ok (.curried [.var ⟨2, "b"⟩, scalar],
          (Facts.empty.insert 1 (.var ⟨2, "b"⟩)).insert 2 scalar) :=
    Facts.unify_eq_of_unifyWithin fun depth => rfl
  have hlist : Facts.unify (.var ⟨2, "b"⟩) list Facts.empty =
      .ok (list, Facts.empty.insert 2 list) :=
    Facts.unify_eq_of_unifyWithin fun depth => rfl
  have hunify : ∀ facts, Facts.unify scalar list facts =
      .ok (.union [.number, .string, .list (.var ⟨1, "a"⟩)], facts) := fun facts =>
    Facts.unify_eq_of_unifyWithin fun depth => rfl
  -- the first graph joins both variables, and the second gives one of them a list of the other
  obtain ⟨first, hfirst, hreflects⟩ := exists_reachable hscalar
  obtain ⟨second, hsecond, hsingle⟩ := exists_reachable hlist
  obtain ⟨hroot, hconcretes⟩ := hsingle.single rfl
  have hjoined : first.root 1 = first.root 2 := by
    rcases hreflects.covers 1 (.var ⟨2, "b"⟩) rfl not_mem_nil with ⟨w, hw, heq⟩ | hvar
    · cases hw
      exact heq
    · cases hreflects.built (fun id u hu => by cases (concrete?_empty id).symm.trans hu) hvar
  have hexisting : first.concrete? (first.root 2) = some scalar := by
    rcases hreflects.covers 2 scalar rfl not_mem_nil with ⟨w, hw, -⟩ | hsome
    · exact absurd hw (by simp [scalar])
    · exact hsome
  obtain ⟨next, hmerge, hnext, hconcrete⟩ := mergeWith_eq_ok hreflects.wellFormed
    (first.weight + second.weight) hroot hconcretes rfl hexisting hunify
  refine ⟨first, second, next, hfirst, hsecond, ?_, fun hacyclic => ?_⟩
  · change mergeWith _ first second >>= _ = _
    rw [hmerge]
    rfl
  · refine hacyclic (first.root 2) (.single ⟨_, 1, hconcrete, by decide, ?_⟩)
    rw [hnext, hjoined]

end Unchecked

/-- **Only the missing check lets an infinite type through.** With an occurs check where concrete
types meet, building always ends, and no class of the result leads back to itself. Without the check
the outcome is the same, unless the check is what fails; for first-order graphs it fails only where
there is no answer without it either. -/
theorem checkedBuild_acyclic (graphs : List (Option Classes))
    (hgraphs : ∀ graph, some graph ∈ graphs → Reachable graph) :
    ((∃ mismatch, checkedBuild graphs = .failed mismatch) ∨
        ∃ next, checkedBuild graphs = .ok next ∧ next.Acyclic ∧
          ∀ t, ∃ r, next.reduce t = (.ok r : Outcome Mismatch Ty)) ∧
      (build graphs = checkedBuild graphs ∨
        ∃ v t, checkedBuild graphs = .failed (.infinite v t)) ∧
      ((∀ graph, some graph ∈ graphs → FirstOrderGraph graph) →
        ∀ next, checkedBuild graphs = .ok next ↔ build graphs = .ok next) := by
  refine ⟨?_, (guards_checkedBuild graphs).imp_left Eq.symm, checkedBuild_eq_ok_iff⟩
  refine (checkedBuild_settles graphs hgraphs).imp_right ?_
  rintro ⟨next, hbuild, hwf, hacyclic⟩
  exact ⟨next, hbuild, hacyclic, (hwf.acyclic_facts_iff.mpr hacyclic).exists_reduce⟩

theorem checkedBuild_acyclic_of_unions :
    ∃ first second next, Reachable first ∧ Reachable second ∧
      build [some first, some second] = .ok next ∧ ¬ next.Acyclic ∧
      ∃ v t, checkedBuild [some first, some second] = .failed (.infinite v t) := by
  obtain ⟨first, second, next, hfirst, hsecond, hbuild, hcyclic⟩ := exists_cyclic_build
  have hreachable : ∀ graph, some graph ∈ [some first, some second] → Reachable graph := by
    simp [hfirst, hsecond]
  refine ⟨first, second, next, hfirst, hsecond, hbuild, hcyclic, ?_⟩
  obtain ⟨hsettled, hsame | hinfinite, -⟩ := checkedBuild_acyclic _ hreachable
  · rw [← hsame, hbuild] at hsettled
    rcases hsettled with ⟨mismatch, hfailed⟩ | ⟨graph, hok, hacyclic, -⟩
    · cases hfailed
    · cases hok
      exact absurd hacyclic hcyclic
  · exact hinfinite

end TypeSearch.Classes
