import TypeSearch.Proofs.Classes.Absorb
import TypeSearch.Proofs.Facts.Solution

/-!
# Solutions of classes

A substitution solves classes when it makes all variables of a class equal, and equal to the
concrete type of the class. These are the solutions of the facts that the classes stand for, and of
any facts that were absorbed into them.
-/

namespace TypeSearch

theorem Facts.Solves.linked {facts : Facts} {σ : VarId → Ty} (hsolves : facts.Solves σ)
    {v w : VarId} (hlinked : facts.Linked v w) : Ty.same (σ v) (σ w) = true := by
  induction hlinked with
  | rel v w hstep =>
    obtain ⟨x, hfind, rfl⟩ := hstep
    exact hsolves v _ hfind
  | refl v => exact Ty.same_refl _
  | symm v w _ ih => exact Ty.same_symm ih
  | trans v w x _ _ ihleft ihright => exact Ty.same_trans ihleft ihright

namespace Classes

variable {classes : Classes} {σ : VarId → Ty} {id : VarId}

/-- The substitution maps all variables of a class to one type, which is that of the concrete type
of the class. -/
structure Solves (σ : VarId → Ty) (classes : Classes) : Prop where
  sameClass : ∀ v w, classes.sameClass v w = true → Ty.same (σ v.id) (σ w.id) = true
  concrete? : ∀ id t, classes.concrete? id = some t → Ty.same (σ id) (t.apply σ) = true

section WellFormed

variable (hwf : classes.WellFormed)
include hwf

theorem WellFormed.root_of_sameClass {v w : Variable} :
    classes.sameClass v w = true ↔ classes.root v.id = classes.root w.id := by
  simp only [sameClass, Bool.or_eq_true, Bool.and_eq_true, beq_iff_eq]
  constructor
  · rintro (heq | ⟨-, hroot⟩)
    exacts [by rw [heq], hroot]
  · intro hroot
    by_cases hv : classes.has v.id = true
    · exact .inr ⟨⟨hv, by rwa [← hwf.has_root_iff, ← hroot, hwf.has_root_iff]⟩, hroot⟩
    · have hw : ¬ classes.has w.id = true := by
        rwa [← hwf.has_root_iff, ← hroot, hwf.has_root_iff]
      rw [root_of_not_has (Bool.eq_false_of_not_eq_true hv),
        root_of_not_has (Bool.eq_false_of_not_eq_true hw)] at hroot
      exact .inl hroot

theorem WellFormed.solves_iff : classes.Solves σ ↔
      (∀ v w, classes.root v = classes.root w → Ty.same (σ v) (σ w) = true) ∧
        ∀ id t, classes.concrete? id = some t → Ty.same (σ id) (t.apply σ) = true := by
  constructor
  · rintro ⟨hclass, hconcrete⟩
    refine ⟨fun v w hroot => ?_, hconcrete⟩
    exact hclass ⟨v, ""⟩ ⟨w, ""⟩ (hwf.root_of_sameClass.mpr hroot)
  · rintro ⟨hclass, hconcrete⟩
    exact ⟨fun v w hsame => hclass v.id w.id (hwf.root_of_sameClass.mp hsame), hconcrete⟩

theorem Solves.root (hsolves : classes.Solves σ) (v : VarId) :
    Ty.same (σ v) (σ (classes.root v)) = true :=
  (hwf.solves_iff.mp hsolves).1 v _ (hwf.root_root v).symm

theorem WellFormed.solves_of_root (hroot : ∀ v, Ty.same (σ v) (σ (classes.root v)) = true)
    (hconcrete : ∀ id t, classes.concrete? id = some t → Ty.same (σ id) (t.apply σ) = true) :
    classes.Solves σ := by
  refine hwf.solves_iff.mpr ⟨fun v w heq => ?_, hconcrete⟩
  rw [Ty.same_congr (hroot v) (hroot w), heq]
  exact Ty.same_refl _

theorem WellFormed.solves_facts_iff : classes.facts.Solves σ ↔ classes.Solves σ := by
  constructor
  · intro hsolves
    refine hwf.solves_of_root (fun v => ?_) fun id t hconcrete => hsolves id t ?_
    · by_cases hv : classes.root v = v
      · rw [hv]
        exact Ty.same_refl _
      · have hfact : classes.facts.find? v = some (.var (classes.variableAt (classes.root v))) := by
          rw [hwf.find?_facts, fact?, if_neg hv]
        have hsame := hsolves v _ hfact
        rwa [Ty.apply_var, hwf.variableAt_id] at hsame
    · rw [hwf.find?_facts, fact?, if_pos (hwf.root_of_concrete? hconcrete), hconcrete]
  · intro hsolves v t hfind
    rw [hwf.find?_facts, fact?] at hfind
    split at hfind
    · exact hsolves.concrete? v t hfind
    · obtain rfl := Option.some.inj hfind
      rw [Ty.apply_var, hwf.variableAt_id]
      exact hsolves.root hwf v

end WellFormed

theorem Reflects.solves_iff {start : Classes} {target : Facts}
    (hreflects : Reflects start target [] classes) :
    classes.Solves σ ↔ target.Solves σ := by
  have hwf := hreflects.wellFormed
  constructor
  · intro hsolves v t hfind
    rcases hreflects.covers v t hfind (by simp) with ⟨w, rfl, hroot⟩ | hconcrete
    · exact (hwf.solves_iff.mp hsolves).1 v w.id hroot
    · exact Ty.same_trans (hsolves.root hwf v) (hsolves.concrete? _ t hconcrete)
  · intro hsolves
    refine hwf.solves_iff.mpr ⟨fun v w heq => ?_, fun id t hconcrete => ?_⟩
    · exact Facts.Solves.linked hsolves (hreflects.linked v w heq)
    · obtain ⟨home, hhome⟩ := hreflects.home id t hconcrete
      have hlinked := hreflects.linked_root home
      rw [hhome.root_eq] at hlinked
      exact Ty.same_trans (Ty.same_symm (Facts.Solves.linked hsolves hlinked))
        (hsolves home t hhome.find?_eq)

end Classes

end TypeSearch
