import TypeSearch.Proofs.Classes.Solution
import TypeSearch.Proofs.Facts.Finite
import TypeSearch.Proofs.Facts.Replace

/-!
# When two concrete types of a class meet

`Enforces` says that a computation adds an equation to acyclic classes: an answer is acyclic again,
and if the types are first-order its solutions are those of the classes that satisfy the equation;
a failure or a halt means that there are none. When neither of two concrete types leads to the class
they meet in, their meeting enforces that they are equal, and it never halts. No occurs check is
made there, so this is an assumption in general; for first-order types it is a consequence of the
meeting's success.
-/

namespace TypeSearch.Classes

open Relation

variable {classes next start : Classes} {plain halts : Prop} {root : VarId} {existing t : Ty}
  {equation : (VarId → Ty) → Prop} {target grown : Facts} {unified : Ty}

/-- The concrete types of all classes are first-order, and none is a variable. -/
def FirstOrder (classes : Classes) : Prop :=
  ∀ id t, classes.concrete? id = some t → t.FirstOrder ∧ t.isVariable = false

theorem WellFormed.firstOrder_facts (hwf : classes.WellFormed) (hfirst : classes.FirstOrder) :
    classes.facts.FirstOrder := by
  intro v t hfind
  rw [hwf.find?_facts, fact?] at hfind
  split at hfind
  · exact (hfirst v t hfind).1
  · obtain rfl := Option.some.inj hfind
    exact .var _

/-- Acyclic classes, with concrete types that are first-order if types are `plain`. -/
structure Sound (plain : Prop) (classes : Classes) : Prop where
  wellFormed : classes.WellFormed
  acyclic : classes.Acyclic
  firstOrder : plain → classes.FirstOrder

/-- The equation was added to the classes. What this says of the solutions is said only if types
are `plain`. -/
structure Adds (plain : Prop) (classes : Classes) (equation : (VarId → Ty) → Prop)
    (next : Classes) : Prop extends Sound plain next where
  solves_iff : plain → ∀ σ, next.Solves σ ↔ classes.Solves σ ∧ equation σ

/-- Nothing solves the classes and the equation, if types are `plain`. -/
def Contradicts (plain : Prop) (classes : Classes) (equation : (VarId → Ty) → Prop) : Prop :=
  plain → ∀ σ, ¬ (classes.Solves σ ∧ equation σ)

/-- The computation adds the equation to the classes, or fails because nothing solves both. It may
halt only if `halts` allows it, and only for the same reason. -/
structure Enforces (plain halts : Prop) (classes : Classes) (equation : (VarId → Ty) → Prop)
    (outcome : Outcome Mismatch Classes) : Prop where
  settles : outcome.Settles (halts ∧ Contradicts plain classes equation)
    (Adds plain classes equation) (Contradicts plain classes equation)

theorem Reflects.built {pending : List (VarId × Ty)} {id : VarId}
    (hreflects : Reflects start target pending next)
    (hstart : ∀ id u, start.concrete? id = some u → u.isVariable = false)
    (ht : next.concrete? id = some t) : t.isVariable = false := by
  obtain ⟨home, -, -, ⟨hnew, -⟩ | ⟨hold, -⟩⟩ := hreflects.home id t ht
  exacts [hnew, hstart id t hold]

theorem Reflects.adds (hreflects : Reflects start target [] next) (hacyclic : target.Acyclic)
    (hfirst : plain → target.FirstOrder)
    (hstart : plain → ∀ id u, start.concrete? id = some u → u.isVariable = false)
    (hsolves : plain → ∀ σ, target.Solves σ ↔ classes.Solves σ ∧ equation σ) :
    Adds plain classes equation next := by
  refine ⟨⟨hreflects.wellFormed, hreflects.acyclic hacyclic, fun hplain id u hu => ?_⟩,
    fun hplain σ => hreflects.solves_iff.trans (hsolves hplain σ)⟩
  obtain ⟨home, -, hfind, -⟩ := hreflects.home id u hu
  exact ⟨hfirst hplain home u hfind, hreflects.built (hstart hplain) hu⟩

theorem WellFormed.not_solves_of_reaches {σ : VarId → Ty} (hwf : classes.WellFormed)
    (hfirst : classes.FirstOrder) (ht : t.FirstOrder ∧ t.isVariable = false)
    (hroot : classes.root root = root) (hreaches : classes.Reaches t root) :
    ¬ (classes.Solves σ ∧ Ty.same (σ root) (t.apply σ) = true) := by
  rintro ⟨hsolves, hsame⟩
  have hplain := Facts.plain_univ_iff.mpr (hwf.firstOrder_facts hfirst)
  rw [← hwf.leads_iff hroot] at hreaches
  have hon := Facts.solvesOn_univ_iff.mpr (hwf.solves_facts_iff.mpr hsolves)
  have hlt := hon.size_lt_of_leads hplain ht.1.plain ht.2 hreaches
  rw [Ty.size_eq_of_same hsame] at hlt
  exact lt_irrefl _ hlt

/-- Two types of the class of `root` are about to be made one. The classes are acyclic but for the
first of the two types, and at most one of the two leads to the class. -/
structure Meeting (plain : Prop) (classes : Classes) (root : VarId) (existing t : Ty) : Prop where
  wellFormed : classes.WellFormed
  concrete? : classes.concrete? root = some existing
  acyclic : (classes.withConcrete root none).Acyclic
  not_both : ¬ (classes.Reaches existing root ∧ classes.Reaches t root)
  firstOrder : plain → classes.FirstOrder
  plain_type : plain → t.FirstOrder ∧ t.isVariable = false

variable (hmeeting : Meeting plain classes root existing t)

include hmeeting

theorem Meeting.root_root : classes.root root = root :=
  hmeeting.wellFormed.root_of_concrete? hmeeting.concrete?

theorem Meeting.has_root : classes.has root = true :=
  has_of_concrete hmeeting.concrete?

theorem Meeting.find?_facts : classes.facts.find? root = some existing := by
  rw [hmeeting.wellFormed.find?_facts, fact?, if_pos hmeeting.root_root, hmeeting.concrete?]

theorem Meeting.cleared : Sets classes (classes.withConcrete root none) root none :=
  hmeeting.wellFormed.withConcrete hmeeting.has_root hmeeting.root_root none

theorem Meeting.acyclic_of_apart
    (hexisting : ¬ classes.Reaches existing root) : classes.Acyclic := by
  have hcleared := hmeeting.cleared
  have hrestored := hcleared.symm hmeeting.wellFormed
  rw [hmeeting.concrete?] at hrestored
  refine hrestored.acyclic hcleared.wellFormed ?_ hmeeting.acyclic
    fun hreaches => hexisting (hcleared.reaches_iff.mp hreaches)
  rw [hcleared.root, hmeeting.root_root]

theorem Meeting.extends {S : Set VarId}
    (hgrows : Facts.Grows S classes.facts grown) (unified : Ty) :
    Extends (classes.setConcrete root unified) classes.facts grown (grown.insert root unified) := by
  have hsets := hmeeting.wellFormed.setConcrete hmeeting.has_root hmeeting.root_root unified
  have hfind := hsets.find?_facts hmeeting.wellFormed hmeeting.root_root
  refine ⟨fun v u => ?_, fun v => ?_, fun v hfree => ?_⟩
  · rw [hfind, Facts.find?_insert]
    split
    · exact fun hu => hu
    · exact hgrows.find?_eq_some
  · rw [hfind]
    split
    · rename_i hv
      rw [hv, hmeeting.find?_facts]
      exact ⟨nofun, nofun⟩
    · rfl
  · rw [Facts.find?_insert, if_neg]
    rintro rfl
    rw [hmeeting.find?_facts] at hfree
    cases hfree

theorem Meeting.adds
    (hexisting : ¬ classes.Reaches existing root) (hapart : ¬ classes.Reaches t root)
    (hunify : Facts.unify existing t classes.facts = .ok (unified, grown))
    (hreflects : Reflects (classes.setConcrete root unified) (grown.insert root unified) [] next) :
    Adds plain classes (fun σ => Ty.Agree σ existing t) next := by
  have hwf := hmeeting.wellFormed
  have hacyclic := hwf.acyclic_facts_iff.mpr (hmeeting.acyclic_of_apart hexisting)
  have hfirst := fun hplain => hwf.firstOrder_facts (hmeeting.firstOrder hplain)
  rw [← hwf.leads_iff hmeeting.root_root] at hexisting hapart
  refine hreflects.adds (hacyclic.replace hunify hexisting hapart) ?_ ?_ ?_
  · exact fun hplain => Facts.FirstOrder.replace hunify (hfirst hplain)
      (hfirst hplain root existing hmeeting.find?_facts) (hmeeting.plain_type hplain).1
  · intro hplain id u hu
    rw [(hwf.setConcrete hmeeting.has_root hmeeting.root_root unified).concrete?,
      Function.update_apply] at hu
    split at hu
    · obtain ⟨hplain', hbuilt⟩ := hmeeting.firstOrder hplain root existing hmeeting.concrete?
      obtain ⟨ht, hbuilt'⟩ := hmeeting.plain_type hplain
      rw [← Option.some.inj hu]
      exact Facts.isVariable_of_unify hplain' ht hbuilt hbuilt' hunify
    · exact (hmeeting.firstOrder hplain id u hu).2
  · intro hplain σ
    rw [Facts.solves_replace_iff hunify (hfirst hplain) hmeeting.find?_facts hexisting
      (hmeeting.plain_type hplain).1 hapart, hwf.solves_facts_iff]

theorem Meeting.not_solves_of_failed
    (hplain : plain) {mismatch : Mismatch}
    (hunify : Facts.unify existing t classes.facts = .failed mismatch) (σ : VarId → Ty) :
    ¬ (classes.Solves σ ∧ Ty.Agree σ existing t) := by
  have hfirst := hmeeting.firstOrder hplain
  have hanswers := Facts.unify_answers (σ := σ)
    (Facts.plain_univ_iff.mpr (hmeeting.wellFormed.firstOrder_facts hfirst))
    (hfirst root existing hmeeting.concrete?).1.plain (hmeeting.plain_type hplain).1.plain
  rw [hunify] at hanswers
  rwa [← hmeeting.wellFormed.solves_facts_iff, ← Facts.solvesOn_univ_iff]

/-- **A meeting apart from its class.** If neither of the two types leads to the class, they are
unified, and absorbing what that teaches makes no other types meet. -/
theorem Meeting.enforces_of_apart
    (hexisting : ¬ classes.Reaches existing root) (hapart : ¬ classes.Reaches t root)
    (depth : Nat) :
    Enforces plain halts classes (fun σ => Ty.Agree σ existing t)
      (meetWithin (depth + 1) root existing t classes) := by
  have hwf := hmeeting.wellFormed
  have hacyclic := hwf.acyclic_facts_iff.mpr (hmeeting.acyclic_of_apart hexisting)
  rw [meetWithin]
  cases hunify : Facts.unify existing t classes.facts with
  | failed mismatch => exact ⟨fun hplain => hmeeting.not_solves_of_failed hplain hunify⟩
  | halted cause => exact absurd hunify ((hacyclic.unify_ends existing t).ne_halted cause)
  | ok result =>
    obtain ⟨unified, grown⟩ := result
    have hsets := hwf.setConcrete hmeeting.has_root hmeeting.root_root unified
    have hleads := fun u => (hwf.leads_iff (t := u) hmeeting.root_root).not
    obtain ⟨hgrows, -⟩ := Facts.grows_away_of_unify hunify
      ((hleads existing).mpr hexisting) ((hleads t).mpr hapart)
    obtain ⟨next, habsorb, hreflects⟩ := hsets.wellFormed.absorb (meetWithin depth)
      (hmeeting.extends hgrows unified) hgrows hwf.nodup_keys_facts
      (hacyclic.replace hunify ((hleads existing).mpr hexisting) ((hleads t).mpr hapart))
    change Enforces plain halts classes _
      (absorb (meetWithin depth) grown classes.facts (classes.setConcrete root unified))
    rw [habsorb]
    exact ⟨hmeeting.adds hexisting hapart hunify hreflects⟩

theorem Meeting.contradicts
    (hreaches : classes.Reaches existing root ∨ classes.Reaches t root) :
    Contradicts plain classes fun σ => Ty.Agree σ existing t := by
  rintro hplain σ ⟨hsolves, hagree⟩
  have hfirst := hmeeting.firstOrder hplain
  have hroot := hsolves.concrete? root existing hmeeting.concrete?
  rcases hreaches with hreaches | hreaches
  · exact hmeeting.wellFormed.not_solves_of_reaches hfirst
      (hfirst root existing hmeeting.concrete?) hmeeting.root_root hreaches ⟨hsolves, hroot⟩
  · exact hmeeting.wellFormed.not_solves_of_reaches hfirst (hmeeting.plain_type hplain)
      hmeeting.root_root hreaches ⟨hsolves, Ty.same_trans hroot hagree⟩

theorem Meeting.existing_apart (hplain : plain)
    (hapart : ¬ classes.Reaches t root)
    (hunify : Facts.unify existing t classes.facts = .ok (unified, grown)) :
    ¬ classes.Reaches existing root := by
  intro hreaches
  have hwf := hmeeting.wellFormed
  have hfirst := hmeeting.firstOrder hplain
  have hcleared := hmeeting.cleared
  have hroot : (classes.withConcrete root none).root root = root := by
    rw [hcleared.root, hmeeting.root_root]
  -- only the class's own type closes a cycle, and `t` does not lead to the class
  have hfinite : classes.facts.Finite t := by
    obtain ⟨depth, hwithin⟩ := (hcleared.wellFormed.acyclic_facts_iff.mpr hmeeting.acyclic).finite t
    have hleads : ¬ (classes.withConcrete root none).facts.Leads t root := by
      rwa [hcleared.wellFormed.leads_iff hroot, hcleared.reaches_iff]
    refine ⟨depth, (hwithin.insert_of_not_leads (s := existing) hleads).congr fun v => ?_⟩
    rw [Facts.find?_insert, hcleared.find?_facts hwf hmeeting.root_root]
    split
    · rename_i hv
      rw [hv, hmeeting.find?_facts]
    · rfl
  rw [← hwf.leads_iff hmeeting.root_root] at hreaches
  have hcycle := Facts.transGen_of_leads hmeeting.find?_facts hreaches
  have hboth := Facts.stepFinite_unifyWithin _ (hwf.firstOrder_facts hfirst)
    (hfirst root existing hmeeting.concrete?).1 (hmeeting.plain_type hplain).1 hunify
  exact (hboth.finite_iff.mpr hfinite).not_leads hcycle hreaches

theorem Meeting.type_apart (hplain : plain)
    (hexisting : ¬ classes.Reaches existing root)
    (hunify : Facts.unify existing t classes.facts = .ok (unified, grown)) :
    ¬ classes.Reaches t root := by
  intro hreaches
  have hwf := hmeeting.wellFormed
  have hfirst := hwf.firstOrder_facts (hmeeting.firstOrder hplain)
  have hacyclic := hwf.acyclic_facts_iff.mpr (hmeeting.acyclic_of_apart hexisting)
  have hgrows := hacyclic.unify_ends existing t
  rw [hunify] at hgrows
  have hanswers := Facts.unify_answers (σ := grown.solution) (Facts.plain_univ_iff.mpr hfirst)
    (hfirst root existing hmeeting.find?_facts).plain (hmeeting.plain_type hplain).1.plain
  rw [hunify] at hanswers
  have hsolution := (Facts.Grows.acyclic hgrows hacyclic).solves_solution
    (Facts.plain_univ_iff.mp hanswers.facts_plain)
  obtain ⟨hsolves, hagree⟩ := hanswers.solves_iff.mp (Facts.solvesOn_univ_iff.mpr hsolution)
  rw [Facts.solvesOn_univ_iff, hwf.solves_facts_iff] at hsolves
  exact hmeeting.contradicts (.inr hreaches) hplain _ ⟨hsolves, hagree⟩

/-- **A first-order meeting.** Two first-order types that meet are made equal, unless nothing solves
the classes in which they do. -/
theorem Meeting.enforces (hplain : plain)
    (depth : Nat) :
    Enforces plain True classes (fun σ => Ty.Agree σ existing t)
      (meetWithin (depth + 1) root existing t classes) := by
  by_cases hapart : classes.Reaches existing root ∨ classes.Reaches t root
  · have hcontradicts := hmeeting.contradicts hapart
    rw [meetWithin]
    cases hunify : Facts.unify existing t classes.facts with
    | failed mismatch => exact ⟨hcontradicts⟩
    | halted cause => exact ⟨trivial, hcontradicts⟩
    | ok result =>
      have hexisting : ¬ classes.Reaches existing root := fun hreaches => hmeeting.existing_apart
        hplain (fun hother => hmeeting.not_both ⟨hreaches, hother⟩) hunify hreaches
      exact absurd hapart (not_or.mpr ⟨hexisting, hmeeting.type_apart hplain hexisting hunify⟩)
  · rw [not_or] at hapart
    exact hmeeting.enforces_of_apart hapart.1 hapart.2 depth

end TypeSearch.Classes
