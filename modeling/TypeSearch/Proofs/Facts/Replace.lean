import TypeSearch.Proofs.Facts.MostGeneral

/-!
# Replacing a fact by what comes of unification

A variable stands for a type that is unified with another one, and then stands for the result. When
neither of the two types leads to the variable, the unification never looks at the replaced fact, so
the new facts have no cycle if the given ones had none, and no solution is lost or invented.
-/

namespace TypeSearch.Facts

open Relation

variable {facts grown : Facts} {root : VarId} {existing t unified : Ty} {σ : VarId → Ty}

def away (facts : Facts) (root : VarId) : Set VarId :=
  {v | ¬ ReflTransGen facts.Mentions v root}

theorem closed_away (facts : Facts) (root : VarId) : facts.Closed (facts.away root) := by
  intro v hv t hfind w hoccurs hpath
  exact hv (.head ⟨t, hfind, hoccurs⟩ hpath)

theorem notMem_away (facts : Facts) (root : VarId) : root ∉ facts.away root :=
  fun hmem => hmem .refl

theorem over_away_iff : t.Over (facts.away root) ↔ ¬ facts.Leads t root := by
  constructor
  · rintro hover ⟨w, hoccurs, hpath⟩
    exact hover w hoccurs hpath
  · exact fun hleads w hoccurs hpath => hleads ⟨w, hoccurs, hpath⟩

section Unified

variable (hunify : unify existing t facts = .ok (unified, grown))
include hunify

theorem grows_away_of_unify (hexisting : ¬ facts.Leads existing root) (ht : ¬ facts.Leads t root) :
    Grows (facts.away root) facts grown ∧ unified.Over (facts.away root) :=
  grows_of_unify (facts.closed_away root) (over_away_iff.mpr hexisting) (over_away_iff.mpr ht)
    hunify

theorem Acyclic.replace (hacyclic : facts.Acyclic) (hexisting : ¬ facts.Leads existing root)
    (ht : ¬ facts.Leads t root) : (grown.insert root unified).Acyclic := by
  obtain ⟨hgrows, hunified⟩ := grows_away_of_unify hunify hexisting ht
  refine (hgrows.acyclic hacyclic).insert ?_
  rintro ⟨w, hoccurs, hpath⟩
  exact facts.notMem_away root
    ((hgrows.closed (facts.closed_away root)).mem_of_reflTransGen (hunified w hoccurs) hpath)

theorem FirstOrder.replace (hfirst : facts.FirstOrder) (hexisting : existing.FirstOrder)
    (ht : t.FirstOrder) : (grown.insert root unified).FirstOrder := by
  have hanswers := unify_answers (σ := fun v => .var ⟨v, ""⟩) (plain_univ_iff.mpr hfirst)
    hexisting.plain ht.plain
  rw [hunify] at hanswers
  exact plain_univ_iff.mp (hanswers.facts_plain.insert hanswers.type_plain)

theorem solves_replace_iff (hfirst : facts.FirstOrder) (hroot : facts.find? root = some existing)
    (hexisting : ¬ facts.Leads existing root) (ht : t.FirstOrder) (hapart : ¬ facts.Leads t root) :
    (grown.insert root unified).Solves σ ↔ facts.Solves σ ∧ Ty.Agree σ existing t := by
  -- all that unification reads and records is away from `root`
  obtain ⟨hgrows, -⟩ := grows_away_of_unify hunify hexisting hapart
  have hplain : facts.Plain (facts.away root) := fun v hv u hfind =>
    ⟨hfirst v u hfind, facts.closed_away root v hv u hfind⟩
  have hanswers := unify_answers (σ := σ) hplain
    ⟨hfirst root existing hroot, over_away_iff.mpr hexisting⟩ ⟨ht, over_away_iff.mpr hapart⟩
  rw [hunify] at hanswers
  have hne : ∀ v ∈ facts.away root, v ≠ root := by
    rintro v hv rfl
    exact facts.notMem_away v hv
  constructor
  · intro hsolves
    have hgrown : ∀ v u, v ≠ root → grown.find? v = some u → Ty.same (σ v) (u.apply σ) = true :=
      fun v u hv hfind => hsolves v u (by rw [find?_insert, if_neg hv, hfind])
    have hon : grown.SolvesOn (facts.away root) σ := fun v hv u => hgrown v u (hne v hv)
    refine ⟨fun v u hfind => ?_, (hanswers.solves_iff.mp hon).2⟩
    by_cases hv : v = root
    · subst hv
      obtain rfl := Option.some.inj (hroot.symm.trans hfind)
      have hunified := hsolves v unified (by rw [find?_insert, if_pos rfl])
      exact Ty.same_trans hunified (hanswers.agree hon)
    · exact hgrown v u hv (hgrows.find?_eq_some hfind)
  · rintro ⟨hsolves, hagree⟩ v u hfind
    have hon : grown.SolvesOn (facts.away root) σ :=
      hanswers.solves_iff.mpr ⟨fun v _ => hsolves v, hagree⟩
    rw [find?_insert] at hfind
    split at hfind
    · rename_i hv
      subst hv
      obtain rfl := Option.some.inj hfind
      exact Ty.same_trans (hsolves v existing hroot) (Ty.same_symm (hanswers.agree hon))
    · by_cases hv : v ∈ facts.away root
      · exact hon v hv u hfind
      · rw [hgrows.find?_of_notMem hv] at hfind
        exact hsolves v u hfind

end Unified

end TypeSearch.Facts
