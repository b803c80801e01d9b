import TypeSearch.Proofs.Facts.Equal
import TypeSearch.Proofs.Type.Clash

/-!
# Unifying a type with a renamed copy

A type unifies with a copy of it in which the variables were renamed, and then both are reduced to
equal types, if in every union of the type no two members can be unified. Otherwise a member of the
copy may be unified with another member than the one that it is a copy of: the first one that agrees
is taken.
-/

namespace TypeSearch

open List

namespace Ty

/-- No function in the type begins with `Void` twice. -/
inductive VoidOnce : Ty → Prop
  | var (v : Variable) : VoidOnce (.var v)
  | parametric {name : String} {params : List Ty} (hparams : ∀ t ∈ params, VoidOnce t) :
      VoidOnce (.parametric name params)
  | curried {params : List Ty} (honce : dropVoid (dropVoid params) = dropVoid params)
      (hparams : ∀ t ∈ params, VoidOnce t) : VoidOnce (.curried params)
  | union {members : List Ty} (hmembers : ∀ t ∈ members, VoidOnce t) : VoidOnce (.union members)

/-- In every union of the type, members clash with each other, and no function in them begins with
`Void` twice. -/
inductive Separated : Ty → Prop
  | var (v : Variable) : Separated (.var v)
  | parametric {name : String} {params : List Ty} (hparams : ∀ t ∈ params, Separated t) :
      Separated (.parametric name params)
  | curried {params : List Ty} (hparams : ∀ t ∈ params, Separated t) : Separated (.curried params)
  | union {members : List Ty} (hclash : members.Pairwise Clash)
      (honce : ∀ t ∈ members, VoidOnce t) (hmembers : ∀ t ∈ members, Separated t) :
      Separated (.union members)

theorem rename_id (t : Ty) : t.rename id = t := by
  induction t using inductBuild with
  | var v => rfl
  | build head ts ih => rw [rename_build, map_congr_left ih, map_id']

theorem dropVoid_map_rename (ρ : VarId → VarId) (params : List Ty) :
    dropVoid (params.map (rename ρ)) = (dropVoid params).map (rename ρ) := by
  have hall : Forall₂ (fun t u => t.rename ρ = u) params (params.map (rename ρ)) :=
    forall₂_map_right_iff.mpr (forall₂_same.mpr fun _ _ => rfl)
  have hdropped : Forall₂ (fun t u => t.rename ρ = u) (dropVoid params)
      (dropVoid (params.map (rename ρ))) := by
    refine forall₂_dropVoid ?_ hall
    rintro t _ rfl
    exact (resembles_rename ρ t).void_iff
  rw [← forall₂_map_left_iff, forall₂_eq_eq_eq] at hdropped
  exact hdropped.symm

theorem mem_dropVoid_or_eq_void {params : List Ty} {t : Ty} (ht : t ∈ params) :
    t ∈ dropVoid params ∨ t = void := by
  unfold dropVoid
  split
  · split
    · rename_i hsame
      rcases mem_cons.mp ht with rfl | hmem
      · exact .inr (same_void_iff.mp hsame)
      · exact .inl hmem
    · exact .inl ht
  · exact .inl ht

end Ty

namespace Facts

variable {facts next last : Facts} {left right t u l r : Ty}

/-! ### Types that clash -/

theorem Acyclic.of_unify (hacyclic : facts.Acyclic)
    (hunify : unify left right facts = .ok (t, next)) : next.Acyclic ∧ next.Extends facts := by
  have hends := hacyclic.unify_ends left right
  rw [hunify] at hends
  exact ⟨hends.acyclic hacyclic, fun v t hfind => hends.find?_eq_some hfind⟩

theorem unifyPairwise_failed {ps qs : List Ty} {p q : Ty} (hpair : (p, q) ∈ ps.zip qs)
    (hfails : ∀ facts : Facts, facts.Acyclic → ∃ mismatch, unify p q facts = .failed mismatch)
    (hacyclic : facts.Acyclic) :
    ∃ mismatch, unifyPairwise unify ps qs facts = .failed mismatch := by
  induction ps generalizing qs facts with
  | nil => cases hpair
  | cons first ps ih =>
    cases qs with
    | nil => cases hpair
    | cons first' qs =>
      rcases mem_cons.mp hpair with heq | hmem
      · obtain ⟨rfl, rfl⟩ := Prod.mk.inj heq
        obtain ⟨mismatch, hfailed⟩ := hfails facts hacyclic
        exact ⟨mismatch, unifyPairwise_cons_failed hfailed⟩
      · cases hunify : unify first first' facts with
        | ok found =>
          obtain ⟨t, next⟩ := found
          obtain ⟨mismatch, hfailed⟩ := ih hmem (hacyclic.of_unify hunify).1
          exact ⟨mismatch, unifyPairwise_cons_failed_later hunify hfailed⟩
        | failed mismatch => exact ⟨mismatch, unifyPairwise_cons_failed hunify⟩
        | halted cause =>
          exact absurd hunify ((hacyclic.unify_ends first first').ne_halted cause)

theorem unifyParams_failed {ps qs : List Ty} {p q : Ty} (build : List Ty → Ty)
    (hpair : (p, q) ∈ ps.zip qs)
    (hfails : ∀ facts : Facts, facts.Acyclic → ∃ mismatch, unify p q facts = .failed mismatch)
    (hacyclic : facts.Acyclic) :
    ∃ mismatch, unifyParams unify left right build ps qs facts = .failed mismatch := by
  rw [unifyParams]
  split
  · exact ⟨_, rfl⟩
  · obtain ⟨mismatch, hfailed⟩ := unifyPairwise_failed hpair hfails hacyclic
    rw [hfailed]
    exact ⟨_, rfl⟩

theorem unifyFirst_failed {attempt : Ty → Outcome Mismatch (Ty × Facts)} {otherwise : Mismatch}
    {members : List Ty} (hall : ∀ t ∈ members, ∃ mismatch, attempt t = .failed mismatch) :
    unifyFirst attempt otherwise members = .failed otherwise := by
  induction members with
  | nil => rfl
  | cons member members ih =>
    rw [forall_mem_cons] at hall
    obtain ⟨mismatch, hfailed⟩ := hall.1
    rw [unifyFirst, hfailed]
    exact ih hall.2

theorem unify_of_clash (hclash : Ty.Clash t u) (hacyclic : facts.Acyclic) :
    ∃ mismatch, unify t u facts = .failed mismatch := by
  induction hclash generalizing facts with
  | parametric hhead =>
    rw [hacyclic.unify_built rfl rfl, unifyResolved]
    split
    · exact ⟨_, rfl⟩
    · rename_i hname
      rw [unifyParams, if_pos (hhead.resolve_left hname)]
      exact ⟨_, rfl⟩
  | parameter hpair _ ih =>
    rw [hacyclic.unify_built rfl rfl, unifyResolved]
    split
    · exact ⟨_, rfl⟩
    · exact unifyParams_failed _ hpair (fun _ => ih) hacyclic
  | arity hlength =>
    rw [hacyclic.unify_built rfl rfl, unifyResolved, unifyParams, if_pos hlength]
    exact ⟨_, rfl⟩
  | argument hpair _ ih =>
    rw [hacyclic.unify_built rfl rfl, unifyResolved]
    exact unifyParams_failed _ hpair (fun _ => ih) hacyclic
  | ofFunction | function =>
    rw [hacyclic.unify_built rfl rfl]
    exact ⟨_, rfl⟩
  | members hbuilt hunion _ ih =>
    rw [hacyclic.unify_built rfl hbuilt,
      unifyResolved_memberOfLeft unify (by rintro w rfl; cases hbuilt)
        (by rintro us rfl; cases hunion)]
    exact ⟨_, unifyFirst_failed fun t ht => ih t ht hacyclic⟩
  | ofMembers hbuilt hunion _ ih =>
    rw [hacyclic.unify_built hbuilt rfl,
      unifyResolved_memberOfRight unify (by rintro w rfl; cases hbuilt)
        (by rintro us rfl; cases hunion)]
    exact ⟨_, unifyFirst_failed fun u hu => ih u hu hacyclic⟩

/-! ### Renamed copies -/

def VariablesOnly (facts : Facts) : Prop := ∀ v t, facts.find? v = some t → t.isVariable = true

theorem VariablesOnly.resolves (honly : facts.VariablesOnly) {v : Variable}
    (hresolves : facts.Resolves v t) : ∃ w, t = .var w := by
  induction hresolves with
  | free _ => exact ⟨_, rfl⟩
  | follow _ _ ih => exact ih
  | stop hfind _ => exact Ty.isVariable_iff.mp (honly _ _ hfind)

/-- Unifying two copies of `t` gives a third one, and makes variables equal such that the two copies
have equal images. -/
structure Unites (facts next : Facts) (t left right u : Ty) : Prop where
  unify : Facts.unify left right facts = .ok (u, next)
  resembles : t.VoidOnce → Ty.Resembles t u
  variablesOnly : next.VariablesOnly
  same : Ty.same (left.subst next.image) (right.subst next.image) = true

theorem Acyclic.exists_unites_var (hacyclic : facts.Acyclic) (honly : facts.VariablesOnly)
    (v x y : Variable) : ∃ u next, Unites facts next (.var v) (.var x) (.var y) u := by
  obtain ⟨s, hs⟩ := hacyclic.exists_resolve (ε := Mismatch) x
  obtain ⟨s', hs'⟩ := hacyclic.exists_resolve (ε := Mismatch) y
  have hx := resolves_of_resolve hs
  have hy := resolves_of_resolve hs'
  obtain ⟨x', rfl⟩ := honly.resolves hx
  obtain ⟨y', rfl⟩ := honly.resolves hy
  have hfree := hx.find?_eq_none rfl
  have hfree' := hy.find?_eq_none rfl
  have hunify := hacyclic.unify_eq (.inr ⟨x, rfl, hx⟩) (.inr ⟨y, rfl, hy⟩)
  rw [unifyResolved] at hunify
  by_cases hid : y'.id = x'.id
  · rw [if_pos hid] at hunify
    refine ⟨_, _, hunify, fun _ => .var v x', honly, ?_⟩
    rw [Ty.subst, Ty.subst, hacyclic.image_of_resolves (fun _ _ hfind => hfind) hx,
      hacyclic.image_of_resolves (fun _ _ hfind => hfind) hy]
    exact hacyclic.stable_image.same _ _ hid.symm
  · have hbind : facts.bind x' (.var y') = .ok (facts.insert x'.id (.var y')) := by
      have hresolve : facts.resolveTop (.var y') = (.ok (.var y') : Outcome Mismatch Ty) :=
        hacyclic.resolve_eq (.free hfree')
      simp [bind, has, hfree, hresolve, hid, pure]
    rw [if_neg hid, hbind, Outcome.bind_ok] at hunify
    obtain ⟨hnext, hextends⟩ := hacyclic.of_unify hunify
    refine ⟨_, _, hunify, fun _ => .var v y', fun w t hfind => ?_, ?_⟩
    · rw [find?_insert] at hfind
      split at hfind
      · obtain rfl := Option.some.inj hfind
        rfl
      · exact honly w t hfind
    · have hknown : (facts.insert x'.id (.var y')).find? x'.id = some (.var y') := by
        rw [find?_insert, if_pos rfl]
      rw [Ty.subst, Ty.subst, hnext.image_of_resolves hextends hx,
        hnext.image_of_resolves hextends hy, Ty.subst, hnext.image_of_find? hknown]
      exact Ty.same_refl _

section Copies

variable {ρ ρ' : VarId → VarId} {ts us : List Ty}

def Copied (ρ ρ' : VarId → VarId) (t : Ty) : Prop :=
  ∀ facts : Facts, facts.Acyclic → facts.VariablesOnly →
    ∃ u next, Unites facts next t (t.rename ρ) (t.rename ρ') u

structure UnitesAll (ρ ρ' : VarId → VarId) (facts next : Facts) (ts us : List Ty) : Prop where
  resembles : (∀ t ∈ ts, t.VoidOnce) → List.Forall₂ Ty.Resembles ts us
  acyclic : next.Acyclic
  grown : next.Extends facts
  variablesOnly : next.VariablesOnly
  same : ∀ t ∈ ts, Ty.same ((t.rename ρ).subst next.image) ((t.rename ρ').subst next.image) = true

theorem UnitesAll.nil (hacyclic : facts.Acyclic) (honly : facts.VariablesOnly) :
    UnitesAll ρ ρ' facts facts [] [] :=
  ⟨fun _ => .nil, hacyclic, fun _ _ hfind => hfind, honly, nofun⟩

theorem UnitesAll.cons (hacyclic : facts.Acyclic)
    (hfirst : Unites facts next t (t.rename ρ) (t.rename ρ') u)
    (hrest : UnitesAll ρ ρ' next last ts us) : UnitesAll ρ ρ' facts last (t :: ts) (u :: us) := by
  obtain ⟨hnext, hextends⟩ := hacyclic.of_unify hfirst.unify
  refine ⟨fun honce => ?_, hrest.acyclic, fun v t hfind => hrest.grown v t (hextends v t hfind),
    hrest.variablesOnly, ?_⟩
  · rw [forall_mem_cons] at honce
    exact .cons (hfirst.resembles honce.1) (hrest.resembles honce.2)
  · rw [forall_mem_cons]
    refine ⟨?_, hrest.same⟩
    rw [← hrest.acyclic.subst_of_reduce hrest.grown (hnext.reduce_eq_subst _),
      ← hrest.acyclic.subst_of_reduce hrest.grown (hnext.reduce_eq_subst (t.rename ρ'))]
    exact hrest.acyclic.stable_image.same_subst hfirst.same

theorem same_subst_rename {replace : Variable → Ty} (head : Ty.Head) (hall : ∀ t ∈ ts,
      Ty.same ((t.rename ρ).subst replace) ((t.rename ρ').subst replace) = true) :
    Ty.same (((head.build ts).rename ρ).subst replace)
      (((head.build ts).rename ρ').subst replace) = true := by
  rw [Ty.rename_build, Ty.rename_build, Ty.subst_build, Ty.subst_build]
  refine Ty.same_rebuild head ?_
  rwa [map_map, map_map, forall₂_map_left_iff, forall₂_map_right_iff,
    forall₂_same]

theorem Acyclic.exists_unifyPairwise (hacyclic : facts.Acyclic) (honly : facts.VariablesOnly)
    (hts : ∀ t ∈ ts, Copied ρ ρ' t) :
    ∃ us next, unifyPairwise unify (ts.map (Ty.rename ρ)) (ts.map (Ty.rename ρ')) facts =
      .ok (us, next) ∧ UnitesAll ρ ρ' facts next ts us := by
  induction ts generalizing facts with
  | nil => exact ⟨[], facts, rfl, .nil hacyclic honly⟩
  | cons t ts ih =>
    rw [forall_mem_cons] at hts
    obtain ⟨u, next, hunites⟩ := hts.1 facts hacyclic honly
    obtain ⟨us, last, hrest, hall⟩ :=
      ih (hacyclic.of_unify hunites.unify).1 hunites.variablesOnly hts.2
    exact ⟨u :: us, last, unifyPairwise_cons_ok hunites.unify hrest, hall.cons hacyclic hunites⟩

theorem unifyInto_of_failed {step : Step} {rest : List Ty}
    (hus : ∀ u ∈ us, ∃ mismatch, step u r facts = .failed mismatch)
    (hok : step l r facts = .ok (t, next)) :
    unifyInto step r facts (us ++ l :: rest) = .ok (us ++ t :: rest, next) := by
  induction us with
  | nil => rw [nil_append, nil_append, unifyInto, hok]
  | cons u us ih =>
    rw [forall_mem_cons] at hus
    obtain ⟨mismatch, hfailed⟩ := hus.1
    rw [cons_append, unifyInto, hfailed, ih hus.2]
    rfl

theorem Acyclic.exists_unifyMembers {ds : List Ty} (hacyclic : facts.Acyclic)
    (honly : facts.VariablesOnly) (hds : Forall₂ Ty.Resembles ds us)
    (hclash : (ds ++ ts).Pairwise Ty.Clash) (honce : ∀ t ∈ ts, t.VoidOnce)
    (hts : ∀ t ∈ ts, Copied ρ ρ' t) :
    ∃ us' next,
      unifyMembers unify (us ++ ts.map (Ty.rename ρ)) (ts.map (Ty.rename ρ')) facts =
        .ok (us ++ us', next) ∧ UnitesAll ρ ρ' facts next ts us' := by
  induction ts generalizing ds us facts with
  | nil =>
    refine ⟨[], facts, ?_, .nil hacyclic honly⟩
    rw [map_nil, map_nil, unifyMembers]
  | cons t ts ih =>
    rw [forall_mem_cons] at hts honce
    obtain ⟨u, next, hunites⟩ := hts.1 facts hacyclic honly
    have hpassed : ∀ x ∈ us, ∃ mismatch, unify x (t.rename ρ') facts = .failed mismatch := by
      intro x hx
      obtain ⟨d, hd, hresembles⟩ := exists_left_of_forall₂ hds hx
      have hmember := (pairwise_append.mp hclash).2.2 d hd t (.head _)
      exact unify_of_clash (hmember.resembles hresembles (Ty.resembles_rename ρ' t)) hacyclic
    have hds' : Forall₂ Ty.Resembles (ds ++ [t]) (us ++ [u]) :=
      rel_append hds (.cons (hunites.resembles honce.1) .nil)
    rw [append_cons] at hclash
    obtain ⟨us', last, hrest, hall⟩ :=
      ih (hacyclic.of_unify hunites.unify).1 hunites.variablesOnly hds' hclash honce.2 hts.2
    refine ⟨u :: us', last, ?_, hall.cons hacyclic hunites⟩
    rw [map_cons, map_cons, unifyMembers, unifyInto_of_failed hpassed hunites.unify,
      Outcome.bind_ok]
    rw [append_assoc, append_assoc] at hrest
    exact hrest

theorem copied_parametric (name : String) (hts : ∀ t ∈ ts, Copied ρ ρ' t) :
    Copied ρ ρ' (.parametric name ts) := by
  intro facts hacyclic honly
  obtain ⟨us, next, hpairwise, hall⟩ := hacyclic.exists_unifyPairwise honly hts
  refine ⟨.parametric name us, next, ?_, fun honce => ?_, hall.variablesOnly,
    same_subst_rename (.parametric name) hall.same⟩
  · rw [Ty.rename_parametric, Ty.rename_parametric, hacyclic.unify_built rfl rfl,
      unifyResolved_parametric, unifyParams, if_neg (by simp), hpairwise]
  · cases honce with
    | parametric hparams => exact Ty.resembles_parametric name (hall.resembles hparams)

theorem copied_curried (hts : ∀ t ∈ ts, Copied ρ ρ' t) : Copied ρ ρ' (.curried ts) := by
  intro facts hacyclic honly
  obtain ⟨us, next, hpairwise, hall⟩ := hacyclic.exists_unifyPairwise honly
    fun t ht => hts t (Ty.mem_of_mem_dropVoid ht)
  refine ⟨.curried us, next, ?_, fun honce => ?_, hall.variablesOnly,
    same_subst_rename .curried fun t ht => ?_⟩
  · rw [Ty.rename_curried, Ty.rename_curried, hacyclic.unify_built rfl rfl, unifyResolved,
      Ty.dropVoid_map_rename, Ty.dropVoid_map_rename, unifyParams, if_neg (by simp), hpairwise]
  · cases honce with
    | curried honce hparams =>
      have hdropped := Ty.forall₂_dropVoid (fun _ _ => Ty.Resembles.void_iff)
        (hall.resembles fun t ht => hparams t (Ty.mem_of_mem_dropVoid ht))
      -- no second `Void` is dropped
      rw [honce] at hdropped
      exact Ty.resembles_curried hdropped
  · rcases Ty.mem_dropVoid_or_eq_void ht with hkept | rfl
    · exact hall.same t hkept
    · exact Ty.same_refl Ty.void

theorem copied_union (hnormal : (Ty.union ts).Normal) (hclash : ts.Pairwise Ty.Clash)
    (honce : ∀ t ∈ ts, t.VoidOnce) (hts : ∀ t ∈ ts, Copied ρ ρ' t) : Copied ρ ρ' (.union ts) := by
  intro facts hacyclic honly
  obtain ⟨us, next, hmembers, hall⟩ := hacyclic.exists_unifyMembers honly .nil hclash honce hts
  rw [nil_append, nil_append] at hmembers
  have hresembles := hall.resembles honce
  have hunion : Ty.unionOf us = .union us := by
    cases hnormal with
    | union _ hflat _ hseveral =>
      refine Ty.unionOf_eq_union (fun u hu => ?_) ?_ (hresembles.length_eq ▸ hseveral)
      · obtain ⟨t, ht, hmember⟩ := exists_left_of_forall₂ hresembles hu
        have hunion := hmember.isUnion_eq.trans (Ty.isUnion_eq_false_of_alternatives (hflat t ht))
        cases u with
        | union members => cases hunion
        | _ => rfl
      · exact pairwise_of_forall₂ hresembles
          (fun _ _ _ _ ht ht' hclash => (hclash.resembles ht ht').same_eq_false) hclash
  refine ⟨.union us, next, ?_, fun _ => Ty.resembles_union hresembles, hall.variablesOnly,
    same_subst_rename .union hall.same⟩
  rw [Ty.rename_union, Ty.rename_union, hacyclic.unify_built rfl rfl, unifyResolved, hmembers,
    Outcome.bind_ok, ← hunion]
  rfl

theorem copied (ρ ρ' : VarId → VarId) (hnormal : t.Normal) (hseparated : t.Separated) :
    Copied ρ ρ' t := by
  induction hseparated with
  | var v => exact fun facts hacyclic honly => hacyclic.exists_unites_var honly v _ _
  | parametric _ ih =>
    cases hnormal with
    | parametric hparams => exact copied_parametric _ fun t ht => ih t ht (hparams t ht)
  | curried _ ih =>
    cases hnormal with
    | curried hparams => exact copied_curried fun t ht => ih t ht (hparams t ht)
  | union hclash honce _ ih =>
    refine copied_union hnormal hclash honce fun t ht => ih t ht ?_
    cases hnormal with
    | union hmembers _ _ _ => exact hmembers t ht

end Copies

/-- **A type unifies with its renamed copies, if the members of its unions are separated.** If in
every union of a normal type any two members clash, and no function in a member begins with `Void`
twice, then the type unifies with the type that any renaming makes of it, and under the facts that
come of it both are reduced to equal types. -/
theorem unify_renamed (hnormal : t.Normal) (hseparated : t.Separated) (ρ : VarId → VarId) :
    ∃ u next x y, unify t (t.rename ρ) empty = .ok (u, next) ∧
      next.reduce t = (.ok x : Outcome Mismatch Ty) ∧
      next.reduce (t.rename ρ) = (.ok y : Outcome Mismatch Ty) ∧ Ty.same x y = true := by
  obtain ⟨u, next, hunites⟩ := copied id ρ hnormal hseparated empty acyclic_empty nofun
  rw [Ty.rename_id] at hunites
  obtain ⟨hnext, -⟩ := acyclic_empty.of_unify hunites.unify
  exact ⟨u, next, _, _, hunites.unify, hnext.reduce_eq_subst t,
    hnext.reduce_eq_subst (t.rename ρ), hunites.same⟩

def separatedMembers : List Ty :=
  [.list (.var ⟨1, "a"⟩), .map (.var ⟨1, "a"⟩) (.var ⟨2, "b"⟩), .curried [.void, .var ⟨2, "b"⟩]]

def separatedFunction : Ty := .curried [.union separatedMembers, .var ⟨1, "a"⟩]

theorem pairwise_clash_separatedMembers : separatedMembers.Pairwise Ty.Clash := by
  simp [separatedMembers, Ty.list, Ty.map, Ty.Clash.ofFunction, Ty.Clash.parametric]

theorem normal_separatedFunction : separatedFunction.Normal := by
  have hlist : (Ty.list (.var ⟨1, "a"⟩)).Normal := .parametric (by simp [Ty.Normal.var])
  have hmap : (Ty.map (.var ⟨1, "a"⟩) (.var ⟨2, "b"⟩)).Normal :=
    .parametric (by simp [Ty.Normal.var])
  have hvoid : Ty.void.Normal := .parametric nofun
  have hfunction : (Ty.curried [.void, .var ⟨2, "b"⟩]).Normal :=
    .curried (by simp [hvoid, Ty.Normal.var])
  refine .curried (forall_mem_cons.mpr ⟨.union ?_ ?_ ?_ ?_, by simp [Ty.Normal.var]⟩)
  · simp [separatedMembers, hlist, hmap, hfunction]
  · simp [separatedMembers, Ty.list, Ty.map, Ty.alternatives]
  · exact pairwise_clash_separatedMembers.imp Ty.Clash.same_eq_false
  · decide

theorem separated_separatedFunction : separatedFunction.Separated := by
  have honce : ∀ t ∈ separatedMembers, t.VoidOnce := by
    have hvoid : Ty.void.VoidOnce := .parametric nofun
    simp only [separatedMembers, forall_mem_cons]
    exact ⟨.parametric (by simp [Ty.VoidOnce.var]), .parametric (by simp [Ty.VoidOnce.var]),
      .curried rfl (by simp [hvoid, Ty.VoidOnce.var]), nofun⟩
  have hmembers : ∀ t ∈ separatedMembers, t.Separated := by
    have hvoid : Ty.void.Separated := .parametric nofun
    simp only [separatedMembers, forall_mem_cons]
    exact ⟨.parametric (by simp [Ty.Separated.var]), .parametric (by simp [Ty.Separated.var]),
      .curried (by simp [hvoid, Ty.Separated.var]), nofun⟩
  have hunion := Ty.Separated.union pairwise_clash_separatedMembers honce hmembers
  exact .curried (forall_mem_cons.mpr ⟨hunion, by simp [Ty.Separated.var]⟩)

/-- The renaming may even take the two variables for each other. -/
theorem unify_renamed_of_swap :
    separatedFunction.Normal ∧ separatedFunction.Separated ∧
    ∃ u next x y, unify separatedFunction (separatedFunction.rename (Equiv.swap 1 2)) empty =
        .ok (u, next) ∧
      next.reduce separatedFunction = (.ok x : Outcome Mismatch Ty) ∧
      next.reduce (separatedFunction.rename (Equiv.swap 1 2)) = (.ok y : Outcome Mismatch Ty) ∧
      Ty.same x y = true :=
  ⟨normal_separatedFunction, separated_separatedFunction,
    unify_renamed normal_separatedFunction separated_separatedFunction _⟩

end Facts

end TypeSearch
