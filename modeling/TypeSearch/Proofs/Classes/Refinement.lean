import TypeSearch.Proofs.Classes.Checked
import TypeSearch.Proofs.Type.Renaming

/-!
# Classes refine facts

Classes that absorbed facts reduce every type as the facts do, up to the names of the variables that
are left: where facts end in a variable of which nothing is known, classes end in the root of its
class. Two such variables are never in one class, so the renaming loses nothing, and unions, in
which equal members count once, come out the same.
-/

namespace TypeSearch

open List Relation

variable {t : Ty}

theorem exists_forall₂_and {α β γ : Type} {P : α → γ → Prop} {Q : β → γ → Prop} {xs : List α}
    {ys : List β} (hall : Forall₂ (fun x y => ∃ z, P x z ∧ Q y z) xs ys) :
    ∃ zs, Forall₂ P xs zs ∧ Forall₂ Q ys zs := by
  induction hall with
  | nil => exact ⟨[], .nil, .nil⟩
  | cons hhead _ ih =>
    obtain ⟨z, hp, hq⟩ := hhead
    obtain ⟨zs, hps, hqs⟩ := ih
    exact ⟨z :: zs, .cons hp hps, .cons hq hqs⟩

namespace Facts

variable {ε : Type} {facts : Facts} {v w : VarId}

theorem Linked.eq_of_free (hlinked : facts.Linked v w) (hv : facts.find? v = none)
    (hw : facts.find? w = none) : v = w := by
  have hends : ∀ {u}, facts.find? u = none → ∀ x, ¬ facts.StepsTo u x := by
    rintro u hfree x ⟨y, hy, -⟩
    cases hfree.symm.trans hy
  have hpath := (hlinked.path_iff (hends hv)).mp .refl
  rcases ReflTransGen.cases_head hpath with heq | ⟨x, hstep, -⟩
  · exact heq.symm
  · exact absurd hstep (hends hw x)

theorem Acyclic.reduce_of_resolves (hacyclic : facts.Acyclic) {v : Variable} {r : Ty}
    (hresolves : facts.Resolves v t) (hreduce : facts.reduce t = (.ok r : Outcome ε Ty)) :
    facts.reduce (.var v) = (.ok r : Outcome ε Ty) := by
  have hback : ∀ s, facts.reduce (.var v) = (.ok s : Outcome ε Ty) →
      facts.reduce t = (.ok s : Outcome ε Ty) := by
    clear hreduce
    induction hresolves with
    | free hfree => exact fun s hs => hs
    | follow hfind _ ih => exact fun s hs => ih s (hacyclic.reduce_of_find? hfind hs)
    | stop hfind _ => exact fun s hs => hacyclic.reduce_of_find? hfind hs
  obtain ⟨s, hs⟩ := hacyclic.exists_reduce (ε := ε) (.var v)
  cases hreduce.symm.trans (hback s hs)
  exact hs

section Components

variable {ts rs : List Ty}

theorem reduce_build (head : Ty.Head)
    (hall : Forall₂ (fun t r => facts.reduce t = (.ok r : Outcome ε Ty)) ts rs) :
    facts.reduce (head.build ts) = (.ok (head.rebuild rs) : Outcome ε Ty) := by
  have hexpand : Forall₂ (fun t r => t.expand (fun v =>
      (facts.reduceWithin facts.size (.var v) : Outcome ε Ty)) = .ok r) ts rs :=
    hall.imp fun t r hreduce => by rwa [← reduceWithin_eq_expand]
  rw [reduce, reduceWithin_eq_expand, Ty.expand_build, Outcome.mapM_of_forall₂ hexpand]
  rfl

end Components

/-- Every history of requests only adds to the empty classes. -/
theorem grows_history (requests : List Request) : Grows Set.univ empty (history requests) := by
  induction requests using reverseRecOn with
  | nil => exact .refl
  | append_singleton requests request ih =>
    rw [history_concat]
    exact ih.trans ((acyclic_history requests).grows_after request)

end Facts

namespace Classes

variable {classes start next : Classes} {target : Facts} {pending order : List (VarId × Ty)}
  {v : Variable}

/-- The classes reduce every type as the facts do, up to a renaming that keeps apart the variables
of which the facts know nothing. -/
def ReducesAs (facts : Facts) (classes : Classes) : Prop :=
  ∃ ρ : VarId → VarId, Set.InjOn ρ {v | facts.find? v = none} ∧
    ∀ t, ∃ r s, facts.reduce t = (.ok r : Outcome Mismatch Ty) ∧
      classes.reduce t = (.ok s : Outcome Mismatch Ty) ∧ Ty.same s (r.rename ρ) = true

def Built (classes : Classes) : Prop :=
  ∀ id t, classes.concrete? id = some t → t.isVariable = false

theorem built_empty : empty.Built := fun id t ht => by cases (concrete?_empty id).symm.trans ht

/-! ### Resolving in classes -/

theorem WellFormed.resolves_of_concrete? (hwf : classes.WellFormed)
    (hconcrete : classes.concrete? (classes.root v.id) = some t) (ht : t.isVariable = false) :
    classes.facts.Resolves v t := by
  by_cases hroot : classes.root v.id = v.id
  · refine .stop ?_ ht
    rw [hwf.find?_facts, fact?, if_pos hroot, ← hconcrete, hroot]
  · refine .follow (w := classes.variableAt (classes.root v.id)) ?_ (.stop ?_ ht)
    · rw [hwf.find?_facts, fact?, if_neg hroot]
    · rw [hwf.variableAt_id, hwf.find?_facts, fact?, if_pos (hwf.root_root v.id), hconcrete]

theorem WellFormed.resolves_of_none (hwf : classes.WellFormed)
    (hnone : classes.concrete? (classes.root v.id) = none) :
    ∃ w : Variable, w.id = classes.root v.id ∧ classes.facts.Resolves v (.var w) := by
  by_cases hroot : classes.root v.id = v.id
  · refine ⟨v, hroot.symm, .free ?_⟩
    rw [hwf.find?_facts, fact?, if_pos hroot, ← hnone, hroot]
  · refine ⟨_, hwf.variableAt_id _,
      .follow (w := classes.variableAt (classes.root v.id)) ?_ (.free ?_)⟩
    · rw [hwf.find?_facts, fact?, if_neg hroot]
    · rw [hwf.variableAt_id, hwf.find?_facts, fact?, if_pos (hwf.root_root v.id), hnone]

section Reflects

variable (hreflects : Reflects start target [] classes) (hbuilt : classes.Built) {id : VarId}
  {w : Variable}

include hreflects

theorem Reflects.concrete?_of_find? (hfind : target.find? id = some t) (ht : t.isVariable = false) :
    classes.concrete? (classes.root id) = some t := by
  rcases hreflects.covers id t hfind not_mem_nil with ⟨w, rfl, -⟩ | hconcrete
  · cases ht
  · exact hconcrete

theorem Reflects.concrete?_of_free (hfree : target.find? id = none) :
    classes.concrete? (classes.root id) = none := by
  rw [Option.eq_none_iff_forall_ne_some]
  intro t ht
  obtain ⟨home, hhome⟩ := hreflects.home _ t ht
  have hreach := hhome.reaches hreflects rfl
  obtain rfl := Facts.eq_of_reflTransGen_of_free hfree hreach
  cases hfree.symm.trans hhome.find?_eq

theorem Reflects.injOn_root : Set.InjOn classes.root {v | target.find? v = none} :=
  fun v hv w hw heq => (hreflects.linked v w heq).eq_of_free hv hw

include hbuilt

theorem Reflects.root_of_find? (hfind : target.find? v.id = some (.var w)) :
    classes.root v.id = classes.root w.id := by
  rcases hreflects.covers v.id _ hfind not_mem_nil with ⟨x, hx, heq⟩ | hconcrete
  · cases hx
    exact heq
  · cases hbuilt _ _ hconcrete

theorem Reflects.concrete?_of_resolves (hresolves : target.Resolves v t)
    (ht : t.isVariable = false) : classes.concrete? (classes.root v.id) = some t := by
  induction hresolves with
  | free hfree => cases ht
  | follow hfind _ ih =>
    rw [hreflects.root_of_find? hbuilt hfind]
    exact ih ht
  | stop hfind _ => exact hreflects.concrete?_of_find? hfind ht

theorem Reflects.root_of_resolves (hresolves : target.Resolves v t) (ht : t = .var w) :
    classes.root v.id = classes.root w.id := by
  induction hresolves with
  | free hfree => rw [Ty.var.inj ht]
  | follow hfind _ ih => exact (hreflects.root_of_find? hbuilt hfind).trans (ih ht)
  | stop hfind hstop =>
    subst ht
    cases hstop

theorem Reflects.renamed_of_reduce (hacyclic : target.Acyclic) {r : Ty}
    (hreduce : target.reduce t = (.ok r : Outcome Mismatch Ty)) :
    ∃ s, classes.reduce t = (.ok s : Outcome Mismatch Ty) ∧
      Ty.Renamed classes.root {v | target.find? v = none} r s := by
  have hwf := hreflects.wellFormed
  have hfacts : classes.facts.Acyclic :=
    hwf.acyclic_facts_iff.mpr (hreflects.acyclic hacyclic)
  refine Facts.reduceWithin_induct
    (R := fun t r => ∃ s, classes.reduce t = (.ok s : Outcome Mismatch Ty) ∧
      Ty.Renamed classes.root {v | target.find? v = none} r s) ?_ ?_ ?_ hreduce
  · intro v w hresolves
    have hfree : target.find? w.id = none := hresolves.find?_eq_none rfl
    have hroot := hreflects.root_of_resolves hbuilt hresolves rfl
    obtain ⟨x, hx, hend⟩ := hwf.resolves_of_none (v := v)
      (by rw [hroot]; exact hreflects.concrete?_of_free hfree)
    refine ⟨.var x, hfacts.reduce_of_resolves hend
      (Facts.reduce_var_of_free (hend.find?_eq_none rfl)), Ty.renamed_var hfree (hx.trans hroot)⟩
  · rintro v t r hresolves ht ⟨s, hs, hrenamed⟩
    have hend := hwf.resolves_of_concrete? (hreflects.concrete?_of_resolves hbuilt hresolves ht) ht
    exact ⟨s, hfacts.reduce_of_resolves hend hs, hrenamed⟩
  · intro head ts rs hall
    obtain ⟨ss, hreduces, hrenamed⟩ := exists_forall₂_and hall
    exact ⟨_, Facts.reduce_build head hreduces,
      Ty.renamed_rebuild hreflects.injOn_root head hrenamed⟩

theorem Reflects.reducesAs (hacyclic : target.Acyclic) : ReducesAs target classes := by
  refine ⟨classes.root, hreflects.injOn_root, fun t => ?_⟩
  obtain ⟨r, hr⟩ := hacyclic.exists_reduce (ε := Mismatch) t
  obtain ⟨s, hs, hrenamed⟩ := hreflects.renamed_of_reduce hbuilt hacyclic hr
  exact ⟨r, s, hr, hs, hrenamed.same⟩

end Reflects

/-! ### Any order of facts -/

theorem Awaits.perm (hawaits : Awaits start target pending) (hperm : order.Perm pending) :
    Awaits start target order where
  nodup := (hperm.map Prod.fst).nodup_iff.mpr hawaits.nodup
  find?_eq := fun entry hentry => hawaits.find?_eq entry (hperm.mem_iff.mp hentry)
  fresh := fun entry hentry => hawaits.fresh entry (hperm.mem_iff.mp hentry)
  settled := fun entry hentry => hawaits.settled entry (hperm.mem_iff.mp hentry)

theorem Reflects.perm (hreflects : Reflects start target pending classes)
    (hperm : order.Perm pending) : Reflects start target order classes := by
  have hmem : ∀ {id}, id ∈ order.map Prod.fst ↔ id ∈ pending.map Prod.fst :=
    (hperm.map Prod.fst).mem_iff
  refine ⟨hreflects.wellFormed, hreflects.linked, fun root t ht => ?_, fun id t hfind hid => ?_⟩
  · obtain ⟨home, hroot, hfind, habsorbed⟩ := hreflects.home root t ht
    refine ⟨home, hroot, hfind, habsorbed.imp_left fun ⟨hbuilt, hhome⟩ => ⟨hbuilt, ?_⟩⟩
    rwa [hmem]
  · exact hreflects.covers id t hfind (by rwa [← hmem])

theorem WellFormed.absorb_any_order (hwf : classes.WellFormed) (hbuilt : classes.Built)
    {S : Set VarId} {grown : Facts} (hgrows : Facts.Grows S classes.facts grown)
    (hacyclic : grown.Acyclic) (hperm : order.Perm (newFacts grown classes.facts)) (meet : Meet) :
    ∃ next, assignAll meet order classes = .ok next ∧ ReducesAs grown next := by
  have hextends : Extends classes classes.facts grown grown :=
    ⟨fun _ _ => hgrows.find?_eq_some, fun _ => Iff.rfl, fun _ _ => rfl⟩
  obtain ⟨next, hassign, hreflects⟩ := ((hextends.reflects hwf).perm hperm).assignAll meet hacyclic
    ((hextends.awaits hgrows hwf.nodup_keys_facts).perm hperm)
  exact ⟨next, hassign, hreflects.reducesAs (fun _ _ => hreflects.built hbuilt) hacyclic⟩

theorem newFacts_empty_perm (facts : Facts) : (newFacts facts Facts.empty).Perm facts.entries := by
  have hall : newFacts facts Facts.empty = facts.toList := filter_eq_self.mpr fun _ _ => rfl
  rw [hall]
  exact facts.toList_perm

/-! ### Graphs made by unification -/

theorem built_of_unify (hgraph : Reachable classes) (hbuilt : classes.Built) {a b : Ty}
    (hunify : classes.unify a b = .ok (t, next)) : next.Built := by
  rcases hgraph.sound.wellFormed.unify_cases hgraph.sound.acyclic a b with
    ⟨mismatch, -, hfailed⟩ | ⟨unified, grown, last, -, -, hok, hreflects⟩
  · cases hunify.symm.trans hfailed
  · cases hunify.symm.trans hok
    exact fun _ _ => hreflects.built hbuilt

theorem Reachable.built (hgraph : Reachable classes) : classes.Built := by
  induction hgraph with
  | empty => exact built_empty
  | unify hgraph hunify ih => exact built_of_unify hgraph ih hunify
  | equate hgraph hequate ih =>
    obtain ⟨t, hunify⟩ := unify_of_equate hequate
    exact built_of_unify hgraph ih hunify

theorem ofFacts_history (requests : List Facts.Request) :
    ∃ next, ofFacts (Facts.history requests) = .ok next ∧
      ReducesAs (Facts.history requests) next := by
  obtain ⟨next, habsorb, hreduces⟩ := wellFormed_empty.absorb_any_order built_empty
    (Facts.grows_history requests) (Facts.acyclic_history requests) (.refl _)
    (meet (Facts.history requests).weight)
  refine ⟨next.refresh, ?_, hreduces⟩
  change assignAll _ (newFacts _ _) _ >>= _ = _
  rw [show Facts.empty = empty.facts from rfl, habsorb]
  rfl

/-- **Classes refine facts.** In a graph made by unification, unifying two types fails exactly when
it fails for the facts of the graph, with the same mismatch. Otherwise the new facts are absorbed
whatever their order is and however concrete types would meet, and the graph then reduces every type
as the facts do, up to an injective renaming of the variables left. A graph of the facts after any
history of requests is made without failure too, and reduces every type as they do. -/
theorem unify_refines_facts (hgraph : Reachable classes) (a b : Ty) :
    (∀ mismatch, classes.unify a b = .failed mismatch ↔
        Facts.unify a b classes.facts = .failed mismatch) ∧
      (∀ cause, classes.unify a b ≠ .halted cause ∧ Facts.unify a b classes.facts ≠ .halted cause) ∧
      (∀ unified grown, Facts.unify a b classes.facts = .ok (unified, grown) →
        (∃ next, classes.unify a b = .ok (unified, next) ∧ ReducesAs grown next) ∧
        ∀ meet order, order.Perm (newFacts grown classes.facts) →
          ∃ next, assignAll meet order classes = .ok next ∧ ReducesAs grown next) ∧
      ∀ requests,
        (∃ next, ofFacts (Facts.history requests) = .ok next ∧
          ReducesAs (Facts.history requests) next) ∧
        ∀ meet order, order.Perm (Facts.history requests).entries →
          ∃ next, assignAll meet order empty = .ok next ∧
            ReducesAs (Facts.history requests) next := by
  have hwf := hgraph.sound.wellFormed
  have hcases := hwf.unify_cases hgraph.sound.acyclic a b
  refine ⟨fun mismatch => ?_, fun cause => ?_, fun unified grown hunify => ⟨?_, ?_⟩,
    fun requests => ⟨ofFacts_history requests, fun meet order hperm => ?_⟩⟩
  · rcases hcases with ⟨other, hfacts, hfailed⟩ | ⟨unified, grown, next, hfacts, -, hok, -⟩
    · rw [hfacts, hfailed, Outcome.failed.injEq, Outcome.failed.injEq]
    · rw [hfacts, hok]
      exact iff_of_false nofun nofun
  · rcases hcases with ⟨other, hfacts, hfailed⟩ | ⟨unified, grown, next, hfacts, -, hok, -⟩
    · rw [hfacts, hfailed]
      exact ⟨nofun, nofun⟩
    · rw [hfacts, hok]
      exact ⟨nofun, nofun⟩
  · rcases hcases with ⟨other, hfacts, -⟩ |
      ⟨unified', grown', next, hfacts, hacyclic, hok, hreflects⟩
    · cases hunify.symm.trans hfacts
    · cases hunify.symm.trans hfacts
      exact ⟨next, hok, hreflects.reducesAs (fun _ _ => hreflects.built hgraph.built) hacyclic⟩
  · intro meet order hperm
    have hacyclic := hwf.acyclic_facts_iff.mpr hgraph.sound.acyclic
    have hends := hacyclic.unify_ends a b
    rw [hunify] at hends
    have hgrows : Facts.Grows Set.univ classes.facts grown := hends
    exact hwf.absorb_any_order hgraph.built hgrows (hgrows.acyclic hacyclic) hperm meet
  · exact wellFormed_empty.absorb_any_order built_empty (Facts.grows_history requests)
      (Facts.acyclic_history requests) (hperm.trans (newFacts_empty_perm _).symm) meet

theorem unify_refines_facts_of_unions :
    ∃ first next : Classes,
      empty.unify (.curried [.var ⟨1, "a"⟩, .var ⟨1, "a"⟩])
          (.curried [.var ⟨2, "b"⟩, .union [.number, .string]]) =
        .ok (.curried [.var ⟨2, "b"⟩, .union [.number, .string]], first) ∧
      ReducesAs ⟨[(2, .union [.number, .string]), (1, .var ⟨2, "b"⟩)]⟩ first ∧
      first.unify (.union [.number, .string]) (.union [.list .number, .number]) =
        .ok (.union [.number, .string, .list .number], next) ∧
      ReducesAs first.facts next ∧
      first.unify (.list .number) (.list .string) =
        .failed { expected := .number, actual := .string,
                  trace := [(.list .number, .list .string)] } := by
  have hjoin : Facts.unify (.curried [.var ⟨1, "a"⟩, .var ⟨1, "a"⟩])
      (.curried [.var ⟨2, "b"⟩, .union [.number, .string]]) empty.facts =
        .ok (.curried [.var ⟨2, "b"⟩, .union [.number, .string]],
          ⟨[(2, .union [.number, .string]), (1, .var ⟨2, "b"⟩)]⟩) :=
    Facts.unify_eq_of_unifyWithin fun depth => rfl
  obtain ⟨⟨first, hfirst, hreduces⟩, -⟩ := (unify_refines_facts .empty _ _).2.2.1 _ _ hjoin
  have hreachable : Reachable first := .unify .empty hfirst
  have hwiden : ∀ facts, Facts.unify (.union [.number, .string]) (.union [.list .number, .number])
      facts = .ok (.union [.number, .string, .list .number], facts) := fun facts =>
    Facts.unify_eq_of_unifyWithin fun depth => rfl
  obtain ⟨⟨next, hnext, hreduces'⟩, -⟩ :=
    (unify_refines_facts hreachable _ _).2.2.1 _ _ (hwiden first.facts)
  refine ⟨first, next, hfirst, hreduces, hnext, hreduces', ?_⟩
  have hrefused : ∀ facts, Facts.unify (.list .number) (.list .string) facts =
      .failed { expected := .number, actual := .string,
                trace := [(.list .number, .list .string)] } :=
    fun facts => Facts.unify_eq_of_unifyWithin fun depth => rfl
  exact ((unify_refines_facts hreachable _ _).1 _).mpr (hrefused first.facts)

end Classes

end TypeSearch
