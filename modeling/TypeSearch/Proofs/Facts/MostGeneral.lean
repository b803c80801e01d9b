import TypeSearch.Proofs.Facts.History
import TypeSearch.Proofs.Facts.Solution

/-!
# Most general unifiers

Facts without cycles on types without unions and `Void` always have a solution: the one that gives
every variable its reduced type, and under it every type is its own reduction. With it, what
unification does to the solutions of facts says what reducing gives afterwards.
-/

namespace TypeSearch.Facts

variable {ε : Type} {facts next : Facts} {t r s : Ty} {v : Variable}

/-! ### Reducing at any depth -/

theorem expand_congr {replace replace' : Variable → Outcome ε Ty}
    (hreplace : ∀ v r, replace v = .ok r → replace' v = .ok r)
    (hexpand : t.expand replace = .ok r) : t.expand replace' = .ok r := by
  refine expand_induct (R := fun t r => t.expand replace' = .ok r) ?_
    (fun head ts rs hall => ?_) hexpand
  · intro v r hr
    rw [Ty.expand, hreplace v r hr]
  · rw [Ty.expand_build, Outcome.mapM_of_forall₂ hall]
    rfl

theorem expandVariable_congr {step step' : Ty → Outcome ε Ty}
    (hstep : ∀ t r, step t = .ok r → step' t = .ok r)
    (hexpand : facts.expandVariable step v = .ok r) : facts.expandVariable step' v = .ok r := by
  obtain ⟨t, ht, hr⟩ := Outcome.bind_eq_ok hexpand
  rw [expandVariable, ht, Outcome.bind_ok]
  cases t with
  | var w => exact hr
  | _ => exact hstep _ r hr

theorem reduceWithin_mono {depth more : Nat} (hle : depth ≤ more)
    (hreduce : facts.reduceWithin depth t = (.ok r : Outcome ε Ty)) :
    facts.reduceWithin more t = (.ok r : Outcome ε Ty) := by
  induction depth generalizing more t r with
  | zero =>
    cases more with
    | zero => exact hreduce
    | succ more =>
      exact expand_congr (fun v r => expandVariable_congr fun t r ht => by cases ht) hreduce
  | succ depth ih =>
    obtain ⟨less, rfl⟩ := Nat.exists_eq_add_of_le' hle
    exact expand_congr
      (fun v r => expandVariable_congr fun t r => ih (Nat.le_add_left depth less)) hreduce

theorem reduceWithin_eq_expand (facts : Facts) (depth : Nat) (t : Ty) :
    facts.reduceWithin depth t =
      t.expand fun v => (facts.reduceWithin depth (.var v) : Outcome ε Ty) := by
  cases depth <;> simp [reduceWithin, Ty.expand]

theorem Resolves.unique (hs : facts.Resolves v s) (ht : facts.Resolves v t) : s = t := by
  induction hs with
  | free hfree =>
    cases ht with
    | free _ => rfl
    | follow hfind _ | stop hfind _ => simp [hfree] at hfind
  | follow hfind _ ih =>
    cases ht with
    | free hfree => simp [hfree] at hfind
    | follow hfind' hrest' =>
      obtain rfl := Ty.var.inj (Option.some.inj (hfind.symm.trans hfind'))
      exact ih hrest'
    | stop hfind' hbuilt =>
      obtain rfl := Option.some.inj (hfind.symm.trans hfind')
      cases hbuilt
  | stop hfind hbuilt =>
    cases ht with
    | free hfree => simp [hfree] at hfind
    | follow hfind' _ =>
      obtain rfl := Option.some.inj (hfind.symm.trans hfind')
      cases hbuilt
    | stop hfind' _ => exact Option.some.inj (hfind.symm.trans hfind')

theorem Resolves.resolvesTop_of_find? (hresolves : facts.Resolves v s)
    (hfind : facts.find? v.id = some t) : facts.ResolvesTop t s := by
  cases hresolves with
  | free hfree => simp [hfree] at hfind
  | @follow _ w _ hfind' hrest =>
    obtain rfl := Option.some.inj (hfind.symm.trans hfind')
    exact .inr ⟨w, rfl, hrest⟩
  | stop hfind' hbuilt =>
    obtain rfl := Option.some.inj (hfind.symm.trans hfind')
    exact .inl ⟨hbuilt, rfl⟩

theorem Acyclic.resolve_eq (hacyclic : facts.Acyclic) (hresolves : facts.Resolves v s) :
    facts.resolve v = (.ok s : Outcome ε Ty) := by
  obtain ⟨t, ht⟩ := hacyclic.exists_resolve (ε := ε) v
  rw [ht, (resolves_of_resolve ht).unique hresolves]

theorem Acyclic.reduce_of_find? (hacyclic : facts.Acyclic) (hfind : facts.find? v.id = some t)
    (hreduce : facts.reduce (.var v) = (.ok r : Outcome ε Ty)) :
    facts.reduce t = (.ok r : Outcome ε Ty) := by
  unfold reduce at hreduce ⊢
  have hpos : facts.size ≠ 0 := by
    have := hacyclic.rank_lt_size (mem_keys_iff.mpr ⟨t, hfind⟩)
    omega
  obtain ⟨less, hless⟩ := Nat.exists_eq_succ_of_ne_zero hpos
  rw [hless, reduceWithin, Ty.expand] at hreduce
  obtain ⟨s, hresolves, hs⟩ := expandVariable_eq_ok hreduce
  rcases hresolves.resolvesTop_of_find? hfind with ⟨hbuilt, rfl⟩ | ⟨w, rfl, hw⟩
  · rcases hs with ⟨w, rfl, -⟩ | ⟨-, hr⟩
    · cases hbuilt
    · exact reduceWithin_mono (by omega) hr
  · rw [hless, reduceWithin, Ty.expand, expandVariable, hacyclic.resolve_eq hw, Outcome.bind_ok]
    rcases hs with ⟨x, rfl, rfl⟩ | ⟨hbuilt, hr⟩
    · rfl
    · cases s with
      | var x => cases hbuilt
      | _ => exact hr

/-! ### The solution that reducing gives -/

def FirstOrder (facts : Facts) : Prop := ∀ v t, facts.find? v = some t → t.FirstOrder

theorem plain_univ_iff : facts.Plain Set.univ ↔ facts.FirstOrder :=
  ⟨fun hplain v t hfind => (hplain v (Set.mem_univ v) t hfind).firstOrder,
    fun hfirst v _ t hfind => ⟨hfirst v t hfind, fun _ _ => Set.mem_univ _⟩⟩

def solution (facts : Facts) (v : VarId) : Ty :=
  match (facts.reduce (.var ⟨v, ""⟩) : Outcome Mismatch Ty) with
  | .ok r => r
  | _ => .var ⟨v, ""⟩

theorem Acyclic.same_solution (hacyclic : facts.Acyclic)
    (hreduce : facts.reduce (.var v) = (.ok r : Outcome Mismatch Ty)) :
    Ty.same (facts.solution v.id) r = true := by
  obtain ⟨s, hs⟩ := hacyclic.exists_reduce (ε := Mismatch) (.var ⟨v.id, ""⟩)
  have hsolution : facts.solution v.id = s := by rw [solution, hs]
  rw [hsolution]
  cases hfind : facts.find? v.id with
  | none =>
    rw [reduce_var_of_free hfind] at hreduce
    rw [reduce_var_of_free (w := ⟨v.id, ""⟩) hfind] at hs
    cases hreduce
    cases hs
    simp [Ty.same]
  | some t =>
    have hr := hacyclic.reduce_of_find? hfind hreduce
    have hs' := hacyclic.reduce_of_find? (v := ⟨v.id, ""⟩) hfind hs
    rw [hr] at hs'
    cases hs'
    exact Ty.same_refl _

theorem Acyclic.same_apply_solution (hacyclic : facts.Acyclic) (ht : t.FirstOrder)
    (hreduce : facts.reduce t = (.ok r : Outcome Mismatch Ty)) :
    Ty.same (t.apply facts.solution) r = true := by
  rw [reduce, reduceWithin_eq_expand] at hreduce
  refine expand_induct
    (R := fun t r => t.FirstOrder → Ty.same (t.apply facts.solution) r = true)
    ?_ (fun head ts rs hall hfirst => ?_) hreduce ht
  · intro v r hr _
    exact hacyclic.same_solution hr
  · rw [hfirst.apply_build, hfirst.rebuild_eq, Ty.same_build_iff]
    exact ⟨rs, rfl, List.forall₂_map_left_iff.mpr (forall₂_of_mem hall hfirst.of_build)⟩

theorem Acyclic.solves_solution (hacyclic : facts.Acyclic) (hfirst : facts.FirstOrder) :
    facts.Solves facts.solution := by
  intro v t hfind
  obtain ⟨r, hr⟩ := hacyclic.exists_reduce (ε := Mismatch) (.var ⟨v, ""⟩)
  have hv := hacyclic.same_solution hr
  have ht := hacyclic.same_apply_solution (hfirst v t hfind)
    (hacyclic.reduce_of_find? (v := ⟨v, ""⟩) hfind hr)
  exact Ty.same_trans hv (Ty.same_symm ht)

theorem Acyclic.same_of_agree (hacyclic : facts.Acyclic) {u x y : Ty} (ht : t.FirstOrder)
    (hu : u.FirstOrder) (hagree : Ty.Agree facts.solution t u)
    (hx : facts.reduce t = (.ok x : Outcome Mismatch Ty))
    (hy : facts.reduce u = (.ok y : Outcome Mismatch Ty)) : Ty.same x y = true :=
  Ty.same_trans (Ty.same_symm (hacyclic.same_apply_solution ht hx))
    (Ty.same_trans hagree (hacyclic.same_apply_solution hu hy))

/-! ### Unification is most general -/

/-- Unification succeeds with a type and facts under which all three types reduce alike, solved
exactly by the solutions that make the two types equal; or it fails and there is no such
solution. -/
def MostGeneral (facts : Facts) (left right : Ty) : Outcome Mismatch (Ty × Facts) → Prop
  | .ok (t, next) =>
    (∃ x y z, next.reduce left = (.ok x : Outcome Mismatch Ty) ∧
      next.reduce right = (.ok y : Outcome Mismatch Ty) ∧
      next.reduce t = (.ok z : Outcome Mismatch Ty) ∧
      Ty.same x y = true ∧ Ty.same x z = true ∧ Ty.same y z = true) ∧
    ∀ σ, next.Solves σ ↔ facts.Solves σ ∧ Ty.Agree σ left right
  | .failed _ => ∀ σ, ¬ (facts.Solves σ ∧ Ty.Agree σ left right)
  | .halted _ => False

theorem Acyclic.mostGeneral_of_ok (hacyclic : facts.Acyclic) (hfirst : facts.FirstOrder)
    {left right : Ty} (hleft : left.FirstOrder) (hright : right.FirstOrder)
    (hunify : unify left right facts = .ok (t, next)) :
    MostGeneral facts left right (.ok (t, next)) := by
  have hanswer (σ : VarId → Ty) : PairSolves Set.univ σ facts left right (t, next) := by
    have hanswers := unify_answers (σ := σ) (plain_univ_iff.mpr hfirst) hleft.plain hright.plain
    rwa [hunify] at hanswers
  have hends := hacyclic.unify_ends left right
  rw [hunify] at hends
  have hnext : next.Acyclic := hends.acyclic hacyclic
  have hplain := (hanswer next.solution).facts_plain
  have hsolves : next.SolvesOn Set.univ next.solution :=
    solvesOn_univ_iff.mpr (hnext.solves_solution (plain_univ_iff.mp hplain))
  have hagree := ((hanswer next.solution).solves_iff.mp hsolves).2
  have hunified := (hanswer next.solution).agree hsolves
  have ht := (hanswer next.solution).type_plain.firstOrder
  obtain ⟨x, hx⟩ := hnext.exists_reduce (ε := Mismatch) left
  obtain ⟨y, hy⟩ := hnext.exists_reduce (ε := Mismatch) right
  obtain ⟨z, hz⟩ := hnext.exists_reduce (ε := Mismatch) t
  refine ⟨⟨x, y, z, hx, hy, hz, hnext.same_of_agree hleft hright hagree hx hy,
    hnext.same_of_agree hleft ht hunified.symm hx hz,
    hnext.same_of_agree hright ht (hagree.symm.trans hunified.symm) hy hz⟩, fun σ => ?_⟩
  rw [← solvesOn_univ_iff, ← solvesOn_univ_iff]
  exact (hanswer σ).solves_iff

/-- **Unification is most general.** After any history of requests, if all facts and the two types
have no unions and no `Void`, unification gives a most general unifier, and fails only when there is
none. -/
theorem unify_mostGeneral (requests : List Request) (hfirst : (history requests).FirstOrder)
    {left right : Ty} (hleft : left.FirstOrder) (hright : right.FirstOrder) :
    MostGeneral (history requests) left right (unify left right (history requests)) := by
  have hacyclic := acyclic_history requests
  cases hunify : unify left right (history requests) with
  | ok result => exact hacyclic.mostGeneral_of_ok hfirst hleft hright hunify
  | failed mismatch =>
    intro σ
    have hanswers := unify_answers (σ := σ) (plain_univ_iff.mpr hfirst) hleft.plain hright.plain
    rw [hunify] at hanswers
    rwa [← solvesOn_univ_iff]
  | halted cause => exact (hacyclic.unify_ends left right).ne_halted cause hunify

theorem unify_mostGeneral_of_list :
    unify (.curried [.var ⟨1, "a"⟩, .var ⟨3, "c"⟩]) (.curried [.list .number, .var ⟨2, "b"⟩])
        (history [.add ⟨1, "a"⟩ (.list (.var ⟨2, "b"⟩))]) =
      .ok (.curried [.list .number, .number],
        ⟨[(3, .number), (2, .number), (1, .list (.var ⟨2, "b"⟩))]⟩) ∧
    MostGeneral (history [.add ⟨1, "a"⟩ (.list (.var ⟨2, "b"⟩))])
      (.curried [.var ⟨1, "a"⟩, .var ⟨3, "c"⟩]) (.curried [.list .number, .var ⟨2, "b"⟩])
      (unify (.curried [.var ⟨1, "a"⟩, .var ⟨3, "c"⟩]) (.curried [.list .number, .var ⟨2, "b"⟩])
        (history [.add ⟨1, "a"⟩ (.list (.var ⟨2, "b"⟩))])) := by
  have hlist : ∀ {t : Ty}, t.FirstOrder → (Ty.list t).FirstOrder := fun ht =>
    .parametric (by decide) (by simpa using ht)
  have hnumber : Ty.number.FirstOrder := .parametric (by decide) (by simp)
  refine ⟨rfl, unify_mostGeneral _ ?_ (.curried ?_) (.curried ?_)⟩
  · intro v t hfind
    have hmem : (v, t) ∈ [((1 : VarId), Ty.list (.var ⟨2, "b"⟩))] := mem_entries_of_find? hfind
    obtain ⟨-, rfl⟩ := Prod.mk.inj (List.mem_singleton.mp hmem)
    exact hlist (.var _)
  · simp [Ty.FirstOrder.var]
  · simp [Ty.FirstOrder.var, hlist hnumber]

end TypeSearch.Facts
