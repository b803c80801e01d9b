import TypeSearch.Proofs.Classes.Checked
import TypeSearch.Proofs.Facts.Proper

/-!
# The forest under all operations

Every operation leaves the classes well formed whatever the types are, also where they run in a
circle. Shorter ways to roots show nowhere.
-/

namespace TypeSearch.Classes

open Outcome

variable {classes next : Classes}

/-- Classes as they come out of the operations, and as they are left by looking at them: a root that
is looked up is remembered, and so are facts. -/
inductive Made : Classes → Prop
  | empty : Made empty
  | unify {classes next : Classes} {a b t : Ty} (hmade : Made classes)
      (hunify : classes.unify a b = .ok (t, next)) : Made next
  | equate {classes next : Classes} {a b : Ty} (hmade : Made classes)
      (hequate : classes.equate a b = .ok next) : Made next
  | build {graphs : List (Option Classes)} {next : Classes}
      (hmade : ∀ graph, some graph ∈ graphs → Made graph) (hbuild : build graphs = .ok next) :
      Made next
  | ofFacts {facts : Facts} {next : Classes} (hnext : ofFacts facts = .ok next) : Made next
  | find {classes : Classes} (hmade : Made classes) (id : VarId) : Made (classes.find id).2
  | refresh {classes : Classes} (hmade : Made classes) : Made classes.refresh

theorem stable_wellFormed : Stable WellFormed (fun classes id => classes.has id = true)
    (fun classes id => classes.has id = true ∧ classes.root id = id) fun _ => True where
  empty := wellFormed_empty
  add _ v hwf := (hwf.addVariable v).wellFormed
  in_add _ id v hwf := ((hwf.addVariable v).has_iff id).mpr
  in_self _ id hsource _ hwf :=
    ((hwf.addVariable _).has_iff id).mpr (.inr (hsource.variableAt_id id).symm)
  find _ id hwf := (hwf.find id).2.1
  in_find _ _ id hwf hin := by rwa [(hwf.find id).2.2.has]
  at_find _ _ id hwf hat := by rwa [(hwf.find id).2.2.has, (hwf.find id).2.2.root]
  at_root _ id hwf hin := by
    obtain ⟨hroot, -, halike⟩ := hwf.find id
    rw [hroot, halike.has, halike.root]
    exact ⟨hwf.has_root_iff.mpr hin, hwf.root_root id⟩
  link _ root child hwf hroot hchild hne hrank := by
    have hjoins := hwf.link hroot.1 hroot.2 hchild.1 hchild.2 hne hrank
    rw [hjoins.has]
    exact ⟨hjoins.wellFormed, hroot.1, hjoins.root_linked⟩
  concrete _ _ _ _ _ := trivial
  set _ _ t hwf hat _ := (hwf.setConcrete hat.1 hat.2 t).wellFormed
  refresh _ hwf := hwf.refresh.1

theorem unifies_wellFormed : Unifies WellFormed fun _ => True := by
  intro classes a b _ _ _
  refine (Facts.unify_meets (P := False) False.elim False.elim False.elim).imp fun found _ => ?_
  exact ⟨trivial, fun _ _ => trivial⟩

theorem Made.wellFormed (hmade : Made classes) : classes.WellFormed := by
  induction hmade with
  | empty => exact wellFormed_empty
  | unify _ hunify ih =>
    exact ((keeps_unify stable_wellFormed unifies_wellFormed ih trivial trivial).ok hunify).2
  | equate _ hequate ih =>
    exact Meets.ok (keeps_equate stable_wellFormed unifies_wellFormed ih trivial trivial) hequate
  | build _ hbuild ih => exact Meets.ok (keeps_build stable_wellFormed unifies_wellFormed ih) hbuild
  | @ofFacts facts _ hnext =>
    obtain ⟨absorbed, habsorb, hlast⟩ := bind_eq_ok hnext
    cases hlast
    have hkeeps : Keeps WellFormed (absorb (meet facts.weight) facts Facts.empty Classes.empty) :=
      keeps_absorb stable_wellFormed (keeps_meetWithin stable_wellFormed unifies_wellFormed _)
        (fun _ _ => trivial) _ wellFormed_empty
    exact (Meets.ok hkeeps habsorb).refresh.1
  | find _ id ih => exact (ih.find id).2.1
  | refresh _ ih => exact ih.refresh.1

/-! ### What a look at classes shows -/

theorem exists_iterate_parent (steps : Nat) (id : VarId) :
    ∃ count ≤ steps, classes.parent^[count] id = classes.rootWithin steps id := by
  induction steps generalizing id with
  | zero => exact ⟨0, le_refl _, rfl⟩
  | succ steps ih =>
    rw [rootWithin]
    split
    · exact ⟨0, Nat.zero_le _, rfl⟩
    · obtain ⟨count, hcount, heq⟩ := ih (classes.parent id)
      exact ⟨count + 1, Nat.succ_le_succ hcount, heq⟩

/-- Classes show the same before and after a change. -/
structure LookSame (classes next : Classes) : Prop where
  root : next.root = classes.root
  toLists : next.toLists = classes.toLists
  sameClass : next.sameClass = classes.sameClass
  representative : next.representative = classes.representative
  facts : next.facts = classes.facts

theorem Alike.lookSame (halike : classes.Alike next) (hwf : classes.WellFormed)
    (hnext : next.WellFormed) : LookSame classes next where
  root := halike.root
  toLists := by
    simp only [toLists, roots, halike.order, halike.root, halike.concrete?, halike.variableAt]
  sameClass := by
    funext a b
    rw [sameClass, sameClass, halike.has, halike.root]
  representative := by
    funext v
    simp only [representative, halike.has, halike.root, halike.concrete?, halike.variableAt]
  facts := by rw [hwf.facts_eq, hnext.facts_eq, halike.factsAfresh]

/-- **Classes are a forest after all operations**, unions of types included. The variables that have
a cell, and a parent among them, are those that joined, each once; ranks rise towards the parents,
so the way to a root ends within as many steps as there are variables; only roots have concrete
types; remembered facts are those that would be computed. To look up a root with its shorter ways
afterwards changes nothing that classes show. -/
theorem made_represents_classes (hmade : Made classes) :
    classes.order.toList.Nodup ∧
    (∀ id, id ∈ classes.order.toList ↔ classes.has id = true) ∧
    (∀ id, classes.has id = true →
      (classes.variableAt id).id = id ∧ classes.has (classes.parent id) = true) ∧
    (∀ id, classes.parent id ≠ id → classes.rank id < classes.rank (classes.parent id)) ∧
    (∀ id, classes.parent (classes.root id) = classes.root id ∧
      ∃ steps ≤ classes.order.size, classes.parent^[steps] id = classes.root id) ∧
    (∀ id t, classes.concrete? id = some t → classes.has id = true ∧ classes.parent id = id) ∧
    (∀ facts, classes.cached = some facts → facts = classes.factsAfresh) ∧
    ∀ id, (classes.find id).1 = classes.root id ∧ LookSame classes (classes.find id).2 := by
  have hwf := hmade.wellFormed
  refine ⟨hwf.nodup, hwf.mem_order_iff, fun id hhas => ?_, hwf.rank_lt, fun id => ?_,
    fun id t hconcrete => ?_, hwf.cached, fun id => ?_⟩
  · exact ⟨hwf.variableAt_id id, hwf.has_parent id hhas⟩
  · exact ⟨hwf.parent_root id, exists_iterate_parent _ id⟩
  · exact ⟨has_of_concrete hconcrete, hwf.root_of_concrete id t hconcrete⟩
  · obtain ⟨hroot, hfound, halike⟩ := hwf.find id
    exact ⟨hroot, halike.lookSame hwf hfound⟩

/-- Two graphs with unions whose classes run in a circle once they are built together. -/
theorem made_represents_classes_of_circle :
    ∃ next, Made next ∧ ¬ next.Acyclic ∧ next.order.toList.Nodup ∧
      ∀ id, LookSame next (next.find id).2 := by
  obtain ⟨first, second, next, hfirst, hsecond, hbuild, hcyclic⟩ := exists_cyclic_build
  have hreachable {graph : Classes} (hgraph : Reachable graph) : Made graph := by
    induction hgraph with
    | empty => exact .empty
    | unify _ hunify ih => exact ih.unify hunify
    | equate _ hequate ih => exact ih.equate hequate
  have hmade : Made next := by
    refine .build (fun graph hgraph => ?_) hbuild
    simp only [List.mem_cons, Option.some.injEq, List.not_mem_nil, or_false] at hgraph
    rcases hgraph with rfl | rfl
    · exact hreachable hfirst
    · exact hreachable hsecond
  obtain ⟨hnodup, -, -, -, -, -, -, hfind⟩ := made_represents_classes hmade
  exact ⟨next, hmade, hcyclic, hnodup, fun id => (hfind id).2⟩

end TypeSearch.Classes
