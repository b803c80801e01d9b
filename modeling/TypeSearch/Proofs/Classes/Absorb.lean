import TypeSearch.Proofs.Classes.Union

/-!
# Absorbing facts into classes

Facts without cycles that extend those of classes can be added to the classes one by one in any
order: no two concrete types ever meet, and no type is found to be infinite. The classes that come
of it describe the facts: variables are in one class when the facts lead from both to one variable,
and its concrete type is the one the facts have there.
-/

namespace TypeSearch

open List

namespace Facts

open Relation

variable {facts : Facts} {v w stop : VarId}

def StepsTo (facts : Facts) (v w : VarId) : Prop :=
  ∃ x : Variable, facts.find? v = some (.var x) ∧ x.id = w

def Linked (facts : Facts) : VarId → VarId → Prop := EqvGen facts.StepsTo

theorem StepsTo.mentions (hsteps : facts.StepsTo v w) : facts.Mentions v w := by
  obtain ⟨x, hfind, rfl⟩ := hsteps
  exact ⟨.var x, hfind, Ty.occurs_var_iff.mpr rfl⟩

def Stops (facts : Facts) (v : VarId) : Prop :=
  ∃ t, facts.find? v = some t ∧ t.isVariable = false

theorem Stops.not_stepsTo (hstops : facts.Stops v) : ¬ facts.StepsTo v w := by
  rintro ⟨x, hvar, -⟩
  obtain ⟨t, hfind, hbuilt⟩ := hstops
  obtain rfl := Option.some.inj (hvar.symm.trans hfind)
  cases hbuilt

theorem Linked.path_iff (hlinked : facts.Linked v w) (hstop : ∀ x, ¬ facts.StepsTo stop x) :
    ReflTransGen facts.StepsTo v stop ↔ ReflTransGen facts.StepsTo w stop := by
  induction hlinked with
  | rel v w hstep =>
    refine ⟨fun hpath => ?_, .head hstep⟩
    rcases ReflTransGen.cases_head hpath with rfl | ⟨x, hstep', hrest⟩
    · exact absurd hstep (hstop w)
    · obtain ⟨y, hy, rfl⟩ := hstep
      obtain ⟨z, hz, rfl⟩ := hstep'
      cases hy.symm.trans hz
      exact hrest
  | refl v => rfl
  | symm v w _ ih => exact ih.symm
  | trans v w x _ _ ihleft ihright => exact ihleft.trans ihright

theorem Linked.stops_iff (hlinked : facts.Linked v w) (hstop : facts.Stops stop) :
    ReflTransGen facts.StepsTo v stop ↔ ReflTransGen facts.StepsTo w stop :=
  hlinked.path_iff fun _ => hstop.not_stepsTo

theorem Linked.reflTransGen (hlinked : facts.Linked v w) (hstop : facts.Stops w) :
    ReflTransGen facts.Mentions v w :=
  ReflTransGen.mono (fun _ _ => StepsTo.mentions) _ _ ((hlinked.stops_iff hstop).mpr .refl)

theorem Linked.eq_of_stops (hlinked : facts.Linked v w) (hv : facts.Stops v) (hw : facts.Stops w) :
    v = w := by
  rcases ReflTransGen.cases_head ((hlinked.stops_iff hw).mpr .refl) with rfl | ⟨x, hstep, -⟩
  · rfl
  · exact absurd hstep hv.not_stepsTo

theorem toList_perm (facts : Facts) : facts.toList.Perm facts.entries := by
  unfold toList
  split
  · exact reverse_perm _
  · exact (mergeSort_perm _ _).trans (reverse_perm _)

end Facts

namespace Classes

open Relation

variable {classes next start : Classes} {target : Facts} {pending rest : List (VarId × Ty)}
  {id : VarId} {t : Ty} {entry : VarId × Ty}

def Holds (classes : Classes) (id : VarId) (t : Ty) : Prop :=
  (∃ w : Variable, t = .var w ∧ classes.root id = classes.root w.id) ∨
    classes.concrete? (classes.root id) = some t

/-- The concrete type of the class of `root` is that of a variable which is among those that were
absorbed, or the class is as it was before anything was. -/
structure HasHome (start : Classes) (target : Facts) (pending : List (VarId × Ty))
    (classes : Classes) (root : VarId) (t : Ty) (home : VarId) : Prop where
  root_eq : classes.root home = root
  find?_eq : target.find? home = some t
  absorbed : (t.isVariable = false ∧ home ∉ pending.map Prod.fst) ∨
    (start.concrete? root = some t ∧ ∀ id, classes.root id = root →
      start.facts.find? id ≠ none ∧ ReflTransGen target.Mentions id home)

/-- Classes that came of `start` say what the facts `target` say of the variables that are not
pending. -/
structure Reflects (start : Classes) (target : Facts) (pending : List (VarId × Ty))
    (classes : Classes) : Prop where
  wellFormed : classes.WellFormed
  linked : ∀ v w, classes.root v = classes.root w → target.Linked v w
  home : ∀ root t, classes.concrete? root = some t →
    ∃ home, HasHome start target pending classes root t home
  covers : ∀ id t, target.find? id = some t → id ∉ pending.map Prod.fst → classes.Holds id t

section Reflects

variable (hreflects : Reflects start target pending classes)
include hreflects

theorem Reflects.congr (hwf : next.WellFormed) (hroot : next.root = classes.root)
    (hconcrete : next.concrete? = classes.concrete?) : Reflects start target pending next := by
  refine ⟨hwf, ?_, ?_, ?_⟩
  · rw [hroot]
    exact hreflects.linked
  · rw [hconcrete]
    intro root t ht
    obtain ⟨home, heq, hfind, habsorbed⟩ := hreflects.home root t ht
    refine ⟨home, ?_, hfind, ?_⟩
    · rw [hroot]
      exact heq
    · rw [hroot]
      exact habsorbed
  · unfold Holds
    rw [hroot, hconcrete]
    exact hreflects.covers

theorem Reflects.admits (hadmits : Admits classes next id) : Reflects start target pending next :=
  hreflects.congr hadmits.wellFormed hadmits.root hadmits.concrete?

theorem Reflects.linked_root (v : VarId) : target.Linked v (classes.root v) :=
  hreflects.linked v _ (hreflects.wellFormed.root_root v).symm

end Reflects

section Acyclic

variable {root home other there : VarId} {u : Ty}

variable (hreflects : Reflects start target pending classes)
include hreflects

theorem HasHome.reaches (hhome : HasHome start target pending classes root t home)
    (hmember : classes.root id = root) : ReflTransGen target.Mentions id home := by
  rcases hhome.absorbed with ⟨hbuilt, -⟩ | ⟨-, hold⟩
  · have hlinked := hreflects.linked id home (hmember.trans hhome.root_eq.symm)
    exact hlinked.reflTransGen ⟨t, hhome.find?_eq, hbuilt⟩
  · exact (hold id hmember).2

theorem Reflects.transGen_of_refers (hhome : HasHome start target pending classes root t home)
    (hthere : HasHome start target pending classes other u there)
    (hconcrete : classes.concrete? root = some t) (hrefers : classes.Refers root other) :
    TransGen target.Mentions home there := by
  obtain ⟨t', w, ht', hw, hroot⟩ := hrefers
  obtain rfl := Option.some.inj (ht'.symm.trans hconcrete)
  exact TransGen.head' ⟨t', hhome.find?_eq, hw⟩ (hthere.reaches hreflects hroot)

theorem Reflects.transGen_of_path (hhome : HasHome start target pending classes root t home)
    (hthere : HasHome start target pending classes other u there)
    (hconcrete : classes.concrete? root = some t) (hpath : TransGen classes.Refers root other) :
    TransGen target.Mentions home there := by
  induction hpath generalizing u there with
  | single hrefers => exact hreflects.transGen_of_refers hhome hthere hconcrete hrefers
  | tail _ hrefers ih =>
    have hsource := hrefers
    obtain ⟨s, -, hs, -⟩ := hsource
    obtain ⟨between, hbetween⟩ := hreflects.home _ s hs
    exact (ih hbetween).trans (hreflects.transGen_of_refers hbetween hthere hs hrefers)

theorem Reflects.acyclic (hacyclic : target.Acyclic) : classes.Acyclic := by
  intro root hpath
  obtain ⟨other, ⟨t, -, ht, -⟩, -⟩ := TransGen.head'_iff.mp hpath
  obtain ⟨home, hhome⟩ := hreflects.home root t ht
  exact hacyclic home (hreflects.transGen_of_path hhome hhome ht hpath)

end Acyclic

section Step

variable {root child : VarId} {k : VarId} {w : Variable}

theorem HasHome.absorbed_of_fresh {home : VarId}
    (hhome : HasHome start target pending classes root t home) (hmember : classes.root id = root)
    (hfresh : start.facts.find? id = none) :
    t.isVariable = false ∧ home ∉ pending.map Prod.fst := by
  rcases hhome.absorbed with hnew | ⟨-, hold⟩
  · exact hnew
  · exact absurd hfresh (hold id hmember).1

structure NextVariable (start : Classes) (target : Facts) (k : VarId) (w : Variable) : Prop where
  find?_eq : target.find? k = some (.var w)
  fresh_left : start.facts.find? k = none
  fresh_right : start.facts.find? w.id = none

theorem Reflects.not_both (hreflects : Reflects start target pending classes)
    (hnext : NextVariable start target k w) (hne : classes.root k ≠ classes.root w.id) {u : Ty}
    (ht : classes.concrete? (classes.root k) = some t)
    (hu : classes.concrete? (classes.root w.id) = some u) : False := by
  obtain ⟨home, hhome⟩ := hreflects.home _ t ht
  obtain ⟨there, hthere⟩ := hreflects.home _ u hu
  have hbuilt := (hhome.absorbed_of_fresh rfl hnext.fresh_left).1
  have hbuilt' := (hthere.absorbed_of_fresh rfl hnext.fresh_right).1
  have hlinked : target.Linked home there :=
    ((hreflects.linked home k hhome.root_eq).trans _ _ _
      (.rel _ _ ⟨w, hnext.find?_eq, rfl⟩)).trans _ _ _
      (hreflects.linked w.id there hthere.root_eq.symm)
  have heq := hlinked.eq_of_stops ⟨t, hhome.find?_eq, hbuilt⟩ ⟨u, hthere.find?_eq, hbuilt'⟩
  rw [← hhome.root_eq, ← hthere.root_eq, heq] at hne
  exact hne rfl

/-- Classes after two of them became one, which has the concrete type that one of the two had. -/
structure Fuses (classes next : Classes) (root child : VarId) : Prop where
  wellFormed : next.WellFormed
  root_ne : root ≠ child
  root_eq : ∀ id, next.root id = if classes.root id = child then root else classes.root id
  concrete?_eq : ∀ id, next.concrete? id =
    if id = root then (classes.concrete? root).or (classes.concrete? child)
    else if id = child then none else classes.concrete? id

theorem Fuses.root_of_either (hfuses : Fuses classes next root child)
    (hid : classes.root id = root ∨ classes.root id = child) : next.root id = root := by
  rw [hfuses.root_eq]
  split
  · rfl
  · rename_i hother
    exact hid.resolve_right hother

theorem Fuses.root_eq_iff (hfuses : Fuses classes next root child) {other : VarId}
    (hroot : other ≠ root) (hchild : other ≠ child) :
    next.root id = other ↔ classes.root id = other := by
  rw [hfuses.root_eq]
  split
  · rename_i heq
    rw [heq]
    exact ⟨fun h => absurd h.symm hroot, fun h => absurd h.symm hchild⟩
  · rfl

theorem Fuses.holds (hfuses : Fuses classes next root child)
    (hboth : ∀ t u, classes.concrete? root = some t → classes.concrete? child = some u → False)
    (hholds : classes.Holds id t) : next.Holds id t := by
  rcases hholds with ⟨w, rfl, hroot⟩ | hconcrete
  · exact .inl ⟨w, rfl, by rw [hfuses.root_eq, hfuses.root_eq, hroot]⟩
  · right
    by_cases hchild : classes.root id = child
    · have hnone : classes.concrete? root = none := by
        rw [hchild] at hconcrete
        cases hroot : classes.concrete? root with
        | none => rfl
        | some u => exact (hboth u t hroot hconcrete).elim
      rw [hfuses.root_of_either (.inr hchild), hfuses.concrete?_eq, if_pos rfl, hnone,
        Option.none_or, ← hchild, hconcrete]
    · rw [hfuses.root_eq, if_neg hchild, hfuses.concrete?_eq]
      split
      · rename_i heq
        rw [← heq, hconcrete, Option.some_or]
      · exact hconcrete

section Fused

variable (hreflects : Reflects start target pending classes)
include hreflects

theorem Reflects.not_both_fused
    (hnext : NextVariable start target k w)
    (hroots : (root = classes.root k ∧ child = classes.root w.id) ∨
      (root = classes.root w.id ∧ child = classes.root k)) (hne : root ≠ child) (t u : Ty)
    (ht : classes.concrete? root = some t) (hu : classes.concrete? child = some u) : False := by
  rcases hroots with ⟨rfl, rfl⟩ | ⟨rfl, rfl⟩
  · exact hreflects.not_both hnext hne ht hu
  · exact hreflects.not_both hnext hne.symm hu ht

theorem Fuses.linked (hfuses : Fuses classes next root child) (hlinked : target.Linked child root)
    {v v' : VarId} (heq : next.root v = next.root v') : target.Linked v v' := by
  have hroot : ∀ v, target.Linked v (next.root v) := by
    intro v
    have hlink := hreflects.linked_root v
    rw [hfuses.root_eq]
    split
    · rename_i hchild
      rw [hchild] at hlink
      exact hlink.trans _ _ _ hlinked
    · exact hlink
  have hlink := hroot v
  rw [heq] at hlink
  exact hlink.trans _ _ _ ((hroot v').symm _ _)

theorem Fuses.home (hfuses : Fuses classes next root child)
    (hfresh : ∀ id, (id = root ∨ id = child) →
      ∃ v, classes.root v = id ∧ start.facts.find? v = none)
    {u : Ty} (hconcrete : next.concrete? id = some u) :
    ∃ home, HasHome start target pending next id u home := by
  rw [hfuses.concrete?_eq] at hconcrete
  split at hconcrete
  · rename_i hid
    subst hid
    obtain ⟨part, hpart, hconcrete⟩ :
        ∃ part, (part = id ∨ part = child) ∧ classes.concrete? part = some u := by
      rcases Option.or_eq_some_iff.mp hconcrete with hsome | ⟨-, hsome⟩
      exacts [⟨id, .inl rfl, hsome⟩, ⟨child, .inr rfl, hsome⟩]
    obtain ⟨home, hhome⟩ := hreflects.home part u hconcrete
    obtain ⟨v, hv, hfree⟩ := hfresh part hpart
    refine ⟨home, hfuses.root_of_either ?_, hhome.find?_eq, .inl (hhome.absorbed_of_fresh hv hfree)⟩
    rw [hhome.root_eq]
    exact hpart
  · rename_i hroot
    split at hconcrete
    · cases hconcrete
    · rename_i hchild
      obtain ⟨home, heq, hfind, habsorbed⟩ := hreflects.home id u hconcrete
      refine ⟨home, (hfuses.root_eq_iff hroot hchild).mpr heq, hfind, ?_⟩
      rcases habsorbed with hnew | ⟨hstart, hold⟩
      · exact .inl hnew
      · exact .inr ⟨hstart, fun v hv => hold v ((hfuses.root_eq_iff hroot hchild).mp hv)⟩

theorem Reflects.fuses
    (hnext : NextVariable start target k w)
    (hroots : (root = classes.root k ∧ child = classes.root w.id) ∨
      (root = classes.root w.id ∧ child = classes.root k))
    (hfuses : Fuses classes next root child) :
    Reflects start target pending next ∧ next.root k = next.root w.id := by
  refine ⟨⟨hfuses.wellFormed, fun v v' => ?_, fun root' u => ?_, fun v u hfind hv => ?_⟩, ?_⟩
  · have hstep : target.Linked (classes.root k) (classes.root w.id) :=
      (((hreflects.linked_root k).symm _ _).trans _ _ _
        (.rel _ _ ⟨w, hnext.find?_eq, rfl⟩)).trans _ _ _ (hreflects.linked_root w.id)
    apply hfuses.linked hreflects
    rcases hroots with ⟨rfl, rfl⟩ | ⟨rfl, rfl⟩
    exacts [hstep.symm _ _, hstep]
  · apply hfuses.home hreflects
    rcases hroots with ⟨rfl, rfl⟩ | ⟨rfl, rfl⟩
    · rintro id (rfl | rfl)
      exacts [⟨k, rfl, hnext.fresh_left⟩, ⟨w.id, rfl, hnext.fresh_right⟩]
    · rintro id (rfl | rfl)
      exacts [⟨w.id, rfl, hnext.fresh_right⟩, ⟨k, rfl, hnext.fresh_left⟩]
  · exact hfuses.holds (hreflects.not_both_fused hnext hroots hfuses.root_ne)
      (hreflects.covers v u hfind hv)
  · rcases hroots with ⟨rfl, rfl⟩ | ⟨rfl, rfl⟩
    · rw [hfuses.root_of_either (.inl rfl), hfuses.root_of_either (.inr rfl)]
    · rw [hfuses.root_of_either (.inr rfl), hfuses.root_of_either (.inl rfl)]

end Fused

theorem Reflects.settle (hreflects : Reflects start target ((k, t) :: rest) classes)
    (hfind : target.find? k = some t) (hholds : classes.Holds k t) :
    Reflects start target rest classes := by
  refine ⟨hreflects.wellFormed, hreflects.linked, ?_, ?_⟩
  · intro root u hconcrete
    obtain ⟨home, hroot, hhome, habsorbed⟩ := hreflects.home root u hconcrete
    exact ⟨home, hroot, hhome, habsorbed.imp_left fun hnew =>
      ⟨hnew.1, fun hmem => hnew.2 (.tail _ hmem)⟩⟩
  · intro v u hv hmem
    by_cases hk : v = k
    · subst hk
      obtain rfl := Option.some.inj (hfind.symm.trans hv)
      exact hholds
    · exact hreflects.covers v u hv fun hin => (mem_cons.mp hin).elim hk hmem

theorem Joins.fuses_of_sets {linked : Classes} {concrete : Option Ty}
    (hjoins : Joins classes linked root child)
    (hsets : Sets linked next root concrete)
    (hconcrete : concrete = (classes.concrete? root).or (classes.concrete? child)) :
    Fuses classes next root child := by
  refine ⟨hsets.wellFormed, hjoins.ne, fun id => ?_, fun id => ?_⟩
  · rw [hsets.root, hjoins.root]
  · rw [hsets.concrete?, hjoins.concrete?, Function.update_apply, Function.update_apply, hconcrete]

theorem Joins.fuses_of_none {linked : Classes} (hjoins : Joins classes linked root child)
    (hroot : classes.concrete? root = none) (hchild : classes.concrete? child = none) :
    Fuses classes linked root child := by
  refine ⟨hjoins.wellFormed, hjoins.ne, hjoins.root, fun id => ?_⟩
  rw [hjoins.concrete?, Function.update_apply]
  by_cases hid : id = root
  · rw [if_pos hid, hid, if_neg hjoins.ne, hroot, hchild, Option.none_or]
  · rw [if_neg hid]

theorem Reflects.meetConcrete {linked : Classes} (hreflects : Reflects start target pending classes)
    (meet : Meet) (hacyclic : target.Acyclic) (hnext : NextVariable start target k w)
    (hroots : (root = classes.root k ∧ child = classes.root w.id) ∨
      (root = classes.root w.id ∧ child = classes.root k))
    (hjoins : Joins classes linked root child) :
    ∃ next, Classes.meetConcrete meet linked root (classes.concrete? root)
        (classes.concrete? child) = .ok next ∧ Fuses classes next root child := by
  have hhas : linked.has root = true := by
    rw [hjoins.has]
    exact hjoins.has_root
  -- whichever of the two classes had the concrete type, the joined class can have it
  have hassign : ∀ t, (classes.concrete? root).or (classes.concrete? child) = some t →
      linked.assignConcrete root t = .ok (linked.setConcrete root t) ∧
        Fuses classes (linked.setConcrete root t) root child := by
    intro t ht
    have hfuses := hjoins.fuses_of_sets
      (hjoins.wellFormed.setConcrete hhas hjoins.root_linked t) ht.symm
    exact ⟨hjoins.wellFormed.assignConcrete_eq_ok hhas hjoins.root_linked
      ((hreflects.fuses hnext hroots hfuses).1.acyclic hacyclic), hfuses⟩
  cases hroot : classes.concrete? root with
  | none =>
    cases hchild : classes.concrete? child with
    | none => exact ⟨linked, rfl, hjoins.fuses_of_none hroot hchild⟩
    | some u => exact ⟨_, hassign u (by rw [hroot, hchild, Option.none_or])⟩
  | some t =>
    cases hchild : classes.concrete? child with
    | none => exact ⟨_, hassign t (by rw [hroot, Option.some_or])⟩
    | some u => exact (hreflects.not_both_fused hnext hroots hjoins.ne t u hroot hchild).elim

theorem Reflects.union (hreflects : Reflects start target ((k, .var w) :: rest) classes)
    (meet : Meet) (hacyclic : target.Acyclic) (hhas : classes.has k = true)
    (hnext : NextVariable start target k w) :
    ∃ next, classes.union meet k w = .ok next ∧ Reflects start target rest next := by
  obtain ⟨prepared, hadmits, ⟨hsame, hok⟩ | ⟨root, child, hmerges⟩⟩ :=
    hreflects.wellFormed.union_cases meet hhas w
  · refine ⟨prepared, hok, (hreflects.admits hadmits).settle hnext.find?_eq (.inl ⟨w, rfl, ?_⟩)⟩
    rw [hadmits.root, hsame]
  · have hroots := hmerges.roots
    have hprepared := hreflects.admits hadmits
    rw [← hadmits.root] at hroots
    obtain ⟨next, hok, hfuses⟩ := hprepared.meetConcrete meet hacyclic hnext hroots hmerges.joins
    rw [hadmits.concrete?] at hok
    obtain ⟨hnext', hsame⟩ := hprepared.fuses hnext hroots hfuses
    exact ⟨next, hmerges.eq.trans hok, hnext'.settle hnext.find?_eq (.inl ⟨w, rfl, hsame⟩)⟩

theorem Reflects.concrete?_eq_none (hreflects : Reflects start target ((k, t) :: rest) classes)
    (hfind : target.find? k = some t) (hbuilt : t.isVariable = false)
    (hfresh : start.facts.find? k = none) : classes.concrete? (classes.root k) = none := by
  cases hconcrete : classes.concrete? (classes.root k) with
  | none => rfl
  | some u =>
    obtain ⟨home, hhome⟩ := hreflects.home _ u hconcrete
    obtain ⟨hbuilt', habsorbed⟩ := hhome.absorbed_of_fresh rfl hfresh
    have heq := (hreflects.linked home k hhome.root_eq).eq_of_stops
      ⟨u, hhome.find?_eq, hbuilt'⟩ ⟨t, hfind, hbuilt⟩
    rw [heq] at habsorbed
    exact absurd (.head _) habsorbed

theorem Reflects.sets (hreflects : Reflects start target ((k, t) :: rest) classes)
    (hfind : target.find? k = some t) (hbuilt : t.isVariable = false) (hk : k ∉ rest.map Prod.fst)
    (hnone : classes.concrete? (classes.root k) = none)
    (hsets : Sets classes next (classes.root k) (some t)) : Reflects start target rest next := by
  refine ⟨hsets.wellFormed, ?_, ?_, ?_⟩
  · rw [hsets.root]
    exact hreflects.linked
  · intro root u hconcrete
    rw [hsets.concrete?, Function.update_apply] at hconcrete
    split at hconcrete
    · rename_i hroot
      obtain rfl := Option.some.inj hconcrete
      exact ⟨k, by rw [hsets.root, hroot], hfind, .inl ⟨hbuilt, hk⟩⟩
    · obtain ⟨home, hroot, hhome, habsorbed⟩ := hreflects.home root u hconcrete
      refine ⟨home, by rw [hsets.root, hroot], hhome, ?_⟩
      rw [hsets.root]
      exact habsorbed.imp_left fun hnew => ⟨hnew.1, fun hmem => hnew.2 (.tail _ hmem)⟩
  · intro v u hv hmem
    unfold Holds
    rw [hsets.root, hsets.concrete?, Function.update_apply]
    by_cases hk' : v = k
    · subst hk'
      rw [if_pos rfl, ← hfind, hv]
      exact .inr rfl
    · rcases hreflects.covers v u hv fun hin => (mem_cons.mp hin).elim hk' hmem with
        hvar | hconcrete
      · exact .inl hvar
      · right
        split
        · rename_i hroot
          rw [hroot, hnone] at hconcrete
          cases hconcrete
        · exact hconcrete

/-- Facts still to be absorbed: each is one of `target` for a variable without a fact in `start`,
and a variable is recorded as another one only if that has none either. -/
structure Awaits (start : Classes) (target : Facts) (pending : List (VarId × Ty)) : Prop where
  nodup : (pending.map Prod.fst).Nodup
  find?_eq : ∀ entry ∈ pending, target.find? entry.1 = some entry.2
  fresh : ∀ entry ∈ pending, start.facts.find? entry.1 = none
  settled : ∀ entry ∈ pending, ∀ w : Variable, entry.2 = .var w → start.facts.find? w.id = none

theorem Awaits.tail (hawaits : Awaits start target (entry :: rest)) : Awaits start target rest := by
  have hmem : ∀ {other}, other ∈ rest → other ∈ entry :: rest := mem_cons_of_mem entry
  exact ⟨(nodup_cons.mp hawaits.nodup).2, fun other ho => hawaits.find?_eq other (hmem ho),
    fun other ho => hawaits.fresh other (hmem ho), fun other ho => hawaits.settled other (hmem ho)⟩

/-- Replaying one pending fact succeeds and leaves the rest pending. -/
theorem Reflects.assign (hreflects : Reflects start target ((k, t) :: rest) classes) (meet : Meet)
    (hacyclic : target.Acyclic) (hawaits : Awaits start target ((k, t) :: rest)) :
    ∃ next, classes.assign meet k t = .ok next ∧ Reflects start target rest next := by
  have hfind := hawaits.find?_eq _ (.head _)
  have hfresh := hawaits.fresh _ (.head _)
  by_cases hvariable : t.isVariable = true
  · obtain ⟨w, rfl⟩ := Ty.isVariable_iff.mp hvariable
    obtain ⟨prepared, hadmits, hassign⟩ := hreflects.wellFormed.assign_var meet k w
    rw [hassign]
    exact (hreflects.admits hadmits).union meet hacyclic ((hadmits.has_iff k).mpr (.inr rfl))
      ⟨hfind, hfresh, hawaits.settled _ (.head _) w rfl⟩
  · have hbuilt := Bool.eq_false_of_not_eq_true hvariable
    obtain ⟨prepared, hadmits, hassign⟩ := hreflects.wellFormed.assign_built meet k hbuilt
    have hprepared := hreflects.admits hadmits
    have hnone := hprepared.concrete?_eq_none hfind hbuilt hfresh
    have hhas : prepared.has (prepared.root k) = true :=
      hadmits.wellFormed.has_root_iff.mpr ((hadmits.has_iff k).mpr (.inr rfl))
    have hnext := hprepared.sets hfind hbuilt (nodup_cons.mp hawaits.nodup).1 hnone
      (hadmits.wellFormed.setConcrete hhas (hadmits.wellFormed.root_root k) t)
    refine ⟨_, ?_, hnext⟩
    rw [hassign, ← hadmits.concrete?, ← hadmits.root, hnone]
    exact hadmits.wellFormed.assignConcrete_eq_ok hhas (hadmits.wellFormed.root_root k)
      (hnext.acyclic hacyclic)

/-- Replaying every pending fact succeeds and leaves none pending. -/
theorem Reflects.assignAll (hreflects : Reflects start target pending classes) (meet : Meet)
    (hacyclic : target.Acyclic) (hawaits : Awaits start target pending) :
    ∃ next, Classes.assignAll meet pending classes = .ok next ∧ Reflects start target [] next := by
  induction pending generalizing classes with
  | nil => exact ⟨classes, rfl, hreflects⟩
  | cons entry rest ih =>
    obtain ⟨next, hassign, hnext⟩ := hreflects.assign meet hacyclic hawaits
    obtain ⟨last, hrest, hlast⟩ := ih hnext hawaits.tail
    refine ⟨last, ?_, hlast⟩
    rw [Classes.assignAll, hassign]
    exact hrest

end Step

section Start

variable {seed grown : Facts} {S : Set VarId}

def newFacts (grown seed : Facts) : List (VarId × Ty) :=
  grown.toList.filter fun entry => !seed.has entry.1

theorem mem_newFacts_iff :
    entry ∈ newFacts grown seed ↔ entry ∈ grown.entries ∧ seed.find? entry.1 = none := by
  simp [newFacts, grown.toList_perm.mem_iff, Facts.has]

/-- The facts `target` are those of the classes and what `grown` has beyond `seed`. -/
structure Extends (classes : Classes) (seed grown target : Facts) : Prop where
  keeps : ∀ v t, classes.facts.find? v = some t → target.find? v = some t
  seed_iff : ∀ v, seed.find? v = none ↔ classes.facts.find? v = none
  adds : ∀ v, seed.find? v = none → target.find? v = grown.find? v

theorem Extends.awaits (hextends : Extends classes seed grown target)
    (hgrows : Facts.Grows S seed grown) (hnodup : seed.keys.Nodup) :
    Awaits classes target (newFacts grown seed) := by
  have hkeys := hgrows.nodup_keys hnodup
  have hgrown : ∀ entry ∈ newFacts grown seed, grown.find? entry.1 = some entry.2 :=
    fun entry hentry => Facts.find?_of_mem_entries hkeys (mem_newFacts_iff.mp hentry).1
  refine ⟨?_, fun entry hentry => ?_, fun entry hentry => ?_, fun entry hentry w hw => ?_⟩
  · have hperm : (grown.toList.map Prod.fst).Perm grown.keys := grown.toList_perm.map Prod.fst
    exact Nodup.sublist (filter_sublist.map Prod.fst) (hperm.nodup_iff.mpr hkeys)
  · rw [hextends.adds _ (mem_newFacts_iff.mp hentry).2]
    exact hgrown entry hentry
  · exact (hextends.seed_iff _).mp (mem_newFacts_iff.mp hentry).2
  · have hfind := hgrown entry hentry
    rw [hw] at hfind
    exact (hextends.seed_iff _).mp (hgrows.settled hfind (mem_newFacts_iff.mp hentry).2)

theorem Extends.reflects (hextends : Extends classes seed grown target)
    (hwf : classes.WellFormed) : Reflects classes target (newFacts grown seed) classes := by
  have hstep : ∀ v, classes.root v ≠ v → target.StepsTo v (classes.root v) := by
    intro v hv
    refine ⟨classes.variableAt (classes.root v), hextends.keeps _ _ ?_, hwf.variableAt_id _⟩
    rw [hwf.find?_facts, fact?, if_neg hv]
  have hlinked : ∀ v, target.Linked v (classes.root v) := by
    intro v
    by_cases hv : classes.root v = v
    · rw [hv]
      exact .refl v
    · exact .rel _ _ (hstep v hv)
  refine ⟨hwf, ?_, ?_, ?_⟩
  · intro v w heq
    have hlink := hlinked v
    rw [heq] at hlink
    exact hlink.trans _ _ _ ((hlinked w).symm _ _)
  · intro root t hconcrete
    have hroot := hwf.root_of_concrete? hconcrete
    have hfact : classes.facts.find? root = some t := by
      rw [hwf.find?_facts, fact?, if_pos hroot, hconcrete]
    refine ⟨root, hroot, hextends.keeps _ _ hfact, .inr ⟨hconcrete, fun id hid => ?_⟩⟩
    rw [hwf.find?_facts, fact?]
    by_cases heq : classes.root id = id
    · obtain rfl := heq.symm.trans hid
      rw [if_pos heq, hconcrete]
      exact ⟨Option.some_ne_none t, .refl⟩
    · rw [if_neg heq, ← hid]
      exact ⟨Option.some_ne_none _, .single (hstep id heq).mentions⟩
  · intro v t hfind hpending
    cases hfact : classes.facts.find? v with
    | none =>
      have hfree := (hextends.seed_iff v).mpr hfact
      rw [hextends.adds v hfree] at hfind
      exact absurd (mem_map_of_mem (f := Prod.fst)
        (mem_newFacts_iff.mpr ⟨Facts.mem_entries_of_find? hfind, hfree⟩)) hpending
    | some u =>
      obtain rfl := Option.some.inj (hfind.symm.trans (hextends.keeps v u hfact))
      rw [hwf.find?_facts, fact?] at hfact
      split at hfact
      · rename_i hroot
        exact .inr (by rw [hroot, hfact])
      · refine .inl ⟨_, (Option.some.inj hfact).symm, ?_⟩
        rw [hwf.variableAt_id, hwf.root_root]

theorem newFacts_self (facts : Facts) : newFacts facts facts = [] := by
  refine eq_nil_iff_forall_not_mem.mpr fun entry hentry => ?_
  obtain ⟨hmem, hfree⟩ := mem_newFacts_iff.mp hentry
  obtain ⟨t, hfind⟩ := Facts.mem_keys_iff.mp (mem_map_of_mem (f := Prod.fst) hmem)
  rw [hfree] at hfind
  cases hfind

theorem WellFormed.reflects_facts (hwf : classes.WellFormed) :
    Reflects classes classes.facts [] classes := by
  have hextends : Extends classes classes.facts classes.facts classes.facts :=
    ⟨fun _ _ hfind => hfind, fun _ => Iff.rfl, fun _ _ => rfl⟩
  have hreflects := hextends.reflects hwf
  rwa [newFacts_self] at hreflects

/-- **Absorbing never fails.** New facts are added to classes without two concrete types meeting,
in whatever order they come, provided that they leave no cycle. -/
theorem WellFormed.absorb (hwf : classes.WellFormed) (meet : Meet)
    (hextends : Extends classes seed grown target) (hgrows : Facts.Grows S seed grown)
    (hnodup : seed.keys.Nodup) (hacyclic : target.Acyclic) :
    ∃ next, Classes.absorb meet grown seed classes = .ok next ∧ Reflects classes target [] next :=
  (hextends.reflects hwf).assignAll meet hacyclic (hextends.awaits hgrows hnodup)

end Start

end Classes

end TypeSearch
