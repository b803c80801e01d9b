import TypeSearch.Proofs.Classes.Checked

/-!
# Graphs of one equation

A graph that knows of a single variable, and of it that it stands for a type. Building two such
graphs unifies the two types; what comes of it is again such a graph if unification finds out
nothing else.
-/

namespace TypeSearch.Classes

variable {classes source : Classes} {v : VarId} {t u r : Ty}

structure Knows (v : VarId) (t : Ty) (classes : Classes) : Prop where
  wellFormed : classes.WellFormed
  root : classes.root = id
  concrete?_iff : ∀ other u, classes.concrete? other = some u ↔ other = v ∧ u = t

theorem Knows.concretes_eq (hknows : Knows v t classes) : classes.concretes = [(v, t)] :=
  hknows.wellFormed.concretes_eq hknows.concrete?_iff

theorem exists_knows {v : Variable} (hbuilt : t.isVariable = false)
    (hunify : ∀ depth, Facts.unifyWithin (depth + 4) (.var v) t Facts.empty =
      .ok (t, Facts.empty.insert v.id t)) :
    ∃ graph, empty.equate (.var v) t = .ok graph ∧ Knows v.id t graph := by
  have hunified := Facts.unify_eq_of_unifyWithin hunify
  have hempty := sound_empty False
  obtain ⟨mismatch, hfailed, -⟩ | ⟨unified, grown, graph, hok, -, hgraph, hreflects⟩ :=
    hempty.wellFormed.unify_cases hempty.acyclic (.var v) t
  · cases hunified.symm.trans hfailed
  · cases hunified.symm.trans hok
    obtain ⟨hroot, hconcretes⟩ := hreflects.single hbuilt
    refine ⟨graph, by rw [equate, hgraph]; rfl, hreflects.wellFormed, hroot, fun other u => ?_⟩
    rw [← hreflects.wellFormed.mem_concretes_iff, hconcretes, List.mem_singleton, Prod.mk.injEq]

theorem Knows.merge (hclasses : Knows v t classes) (hsource : Knows v u source)
    (hbuilt : u.isVariable = false) :
    ∃ prepared, Knows v t prepared ∧
      classes.merge source =
        meet (classes.weight + source.weight) v t u prepared >>= fun next => .ok next.refresh := by
  obtain ⟨joined, hwf, hroot, hconcrete, hmerge⟩ := mergeWith_eq hclasses.wellFormed
    (meet (classes.weight + source.weight)) hsource.root hsource.concretes_eq
  obtain ⟨prepared, hadmits, hassign⟩ :=
    hwf.assign_built (meet (classes.weight + source.weight)) v hbuilt
  refine ⟨prepared, ⟨hadmits.wellFormed, ?_, fun other u => ?_⟩, ?_⟩
  · rw [hadmits.root, hroot, hclasses.root]
  · rw [hadmits.concrete?, hconcrete, hclasses.concrete?_iff]
  · change mergeWith _ classes source = _
    rw [hmerge, hassign, hroot, hconcrete, hclasses.root, id_eq,
      (hclasses.concrete?_iff v t).mpr ⟨rfl, rfl⟩]
    rfl

theorem Knows.setConcrete (hclasses : Knows v t classes) (r : Ty) :
    Knows v r (classes.setConcrete v r).refresh := by
  have hhas := has_of_concrete ((hclasses.concrete?_iff v t).mpr ⟨rfl, rfl⟩)
  have hsets := hclasses.wellFormed.setConcrete hhas (by rw [hclasses.root, id_eq]) r
  obtain ⟨hwf, halike⟩ := hsets.wellFormed.refresh
  refine ⟨hwf, by rw [halike.root, hsets.root, hclasses.root], fun other u => ?_⟩
  rw [halike.concrete?, hsets.concrete?, Function.update_apply]
  by_cases hother : other = v
  · simp [hother, eq_comm]
  · simp [hother, hclasses.concrete?_iff]

section Build

variable (hclasses : Knows v t classes) (hsource : Knows v u source)
  (hbuilt : u.isVariable = false)
include hclasses hsource hbuilt

theorem Knows.build_ok
    (hunify : ∀ facts depth, Facts.unifyWithin (depth + 4) t u facts = .ok (r, facts)) :
    ∃ next, build [some classes, some source] = .ok next ∧ Knows v r next := by
  obtain ⟨prepared, hprepared, hmerge⟩ := hclasses.merge hsource hbuilt
  refine ⟨_, ?_, hprepared.setConcrete r⟩
  change (do mergeAll [] (← classes.merge source)) = _
  rw [hmerge, meet_eq_of_unify _ (Facts.unify_eq_of_unifyWithin (hunify prepared.facts))]
  rfl

theorem Knows.build_failed {mismatch : Mismatch}
    (hunify : ∀ facts depth, Facts.unifyWithin (depth + 4) t u facts = .failed mismatch) :
    build [some classes, some source] = .failed mismatch := by
  obtain ⟨prepared, -, hmerge⟩ := hclasses.merge hsource hbuilt
  change (do mergeAll [] (← classes.merge source)) = _
  rw [hmerge, meet, meetWithin, Facts.unify_eq_of_unifyWithin (hunify prepared.facts)]
  rfl

end Build

end TypeSearch.Classes
