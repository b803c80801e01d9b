import TypeSearch.Proofs.Facts.Calls
import TypeSearch.Proofs.Facts.Reduction

/-!
# Unifying equal types

Types without unions that are reduced to equal types should unify, and there is nothing to learn
from it. Unification looks at facts only where it meets a variable, so it sees that a function takes
no argument only if its first parameter is written as `Void`. It compares the parameters of two
equal functions wrongly if one begins with `Void` and the other with a variable that stands for it,
and this is the only way in which unifying equal types can fail.
-/

namespace TypeSearch

open List

namespace Ty

inductive UnionFree : Ty → Prop
  | var (v : Variable) : UnionFree (.var v)
  | parametric {name : String} {params : List Ty} (hparams : ∀ t ∈ params, UnionFree t) :
      UnionFree (.parametric name params)
  | curried {params : List Ty} (hparams : ∀ t ∈ params, UnionFree t) : UnionFree (.curried params)

variable {t : Ty} {params : List Ty}

theorem UnionFree.component (hfree : t.UnionFree) {component : Ty}
    (hcomponent : component ∈ t.components) : component.UnionFree := by
  cases hfree with
  | var v => cases hcomponent
  | parametric hparams | curried hparams => exact hparams component hcomponent

/-- The function takes no argument: its first parameter is `Void`, and it has another one. -/
def BeginsWithVoid (params : List Ty) : Prop := ∃ second rest, params = void :: second :: rest

theorem dropVoid_of_begins {second : Ty} {rest : List Ty} :
    dropVoid (void :: second :: rest) = second :: rest := by
  rw [dropVoid, if_pos (same_refl void)]

theorem dropVoid_of_not_begins (hbegins : ¬ BeginsWithVoid params) : dropVoid params = params := by
  unfold dropVoid
  split
  · rename_i first second rest
    refine if_neg fun hsame => hbegins ⟨second, rest, ?_⟩
    rw [same_void_iff.mp hsame]
  · rfl

theorem subst_mem_components {replace : Variable → Ty} (hunion : t.isUnion = false) {component : Ty}
    (hcomponent : component ∈ t.components) :
    component.subst replace ∈ (t.subst replace).components := by
  cases t with
  | var v => cases hcomponent
  | parametric name params | curried params =>
    rw [subst, substAll_eq_map]
    exact mem_map_of_mem hcomponent
  | union members => cases hunion

theorem UnionFree.isUnion_eq_false (hfree : t.UnionFree) : t.isUnion = false := by
  cases hfree <;> rfl

end Ty

namespace Facts

variable {facts next : Facts} {left right l r t s x y : Ty} {ps qs : List Ty}

/-! ### One level of unification -/

theorem ResolvesTop.unique {s' : Ty} (hs : facts.ResolvesTop t s) (hs' : facts.ResolvesTop t s') :
    s = s' := by
  rcases hs with ⟨hbuilt, rfl⟩ | ⟨v, rfl, hv⟩
  · rcases hs' with ⟨-, rfl⟩ | ⟨v, rfl, -⟩
    · rfl
    · cases hbuilt
  · rcases hs' with ⟨hbuilt, -⟩ | ⟨w, hw, hv'⟩
    · cases hbuilt
    · cases hw
      exact hv.unique hv'

theorem Acyclic.exists_resolvesTop (hacyclic : facts.Acyclic) (t : Ty) :
    ∃ s, facts.ResolvesTop t s := by
  obtain ⟨s, hs⟩ := hacyclic.exists_resolveTop (ε := Mismatch) t
  exact ⟨s, resolvesTop_of_resolveTop hs⟩

theorem Acyclic.resolveTop_eq (hacyclic : facts.Acyclic) (hresolves : facts.ResolvesTop t s) :
    facts.resolveTop t = (.ok s : Outcome Mismatch Ty) := by
  obtain ⟨s', hs'⟩ := hacyclic.exists_resolveTop (ε := Mismatch) t
  rw [hs', hresolves.unique (resolvesTop_of_resolveTop hs')]

theorem Acyclic.unify_eq (hacyclic : facts.Acyclic) (hleft : facts.ResolvesTop left l)
    (hright : facts.ResolvesTop right r) :
    unify left right facts = unifyResolved unify l r facts := by
  have honce : (⟨left, right, facts⟩ : Call).outcome unify =
      (⟨left, right, facts⟩ : Call).outcome (unifyOnce unify) := unify_eq_unifyOnce hacyclic
  refine honce.trans ?_
  rw [Call.outcome, unifyOnce, hacyclic.resolveTop_eq hleft, Outcome.bind_ok,
    hacyclic.resolveTop_eq hright, Outcome.bind_ok]

theorem Acyclic.subst_of_resolvesTop (hnext : next.Acyclic) (hextends : next.Extends facts)
    (hleft : facts.ResolvesTop left l) : l.subst next.image = left.subst next.image := by
  rcases hleft with ⟨-, rfl⟩ | ⟨v, rfl, hv⟩
  · rfl
  · exact (hnext.image_of_resolves hextends hv).symm

theorem Acyclic.image_of_free (hacyclic : facts.Acyclic) {v : Variable}
    (hfree : facts.find? v.id = none) : facts.image v = .var v := by
  have hreduce := hacyclic.reduce_var v
  rw [reduce_var_of_free hfree] at hreduce
  exact (Outcome.ok.inj hreduce).symm

/-! ### What is compared -/

def UnionFree (facts : Facts) : Prop := ∀ v t, facts.find? v = some t → t.UnionFree

theorem UnionFree.resolvesTop (hfacts : facts.UnionFree) (hleft : left.UnionFree)
    (hresolves : facts.ResolvesTop left l) : l.UnionFree := by
  rcases hresolves with ⟨-, rfl⟩ | ⟨v, rfl, hv⟩
  · exact hleft
  · clear hleft
    induction hv with
    | free _ => exact .var _
    | follow _ _ ih => exact ih
    | stop hfind _ => exact hfacts _ _ hfind

/-- If unifying `left` and `right` gets that far, it compares the two other types. -/
inductive Compares (facts : Facts) : Ty → Ty → Ty → Ty → Prop
  | here {left right l r : Ty} (hleft : facts.ResolvesTop left l)
      (hright : facts.ResolvesTop right r) : Compares facts left right l r
  | inside {left right l r p q x y : Ty} (hleft : facts.ResolvesTop left l)
      (hright : facts.ResolvesTop right r) (hpair : (p, q) ∈ l.components.zip r.components)
      (hcompares : Compares facts p q x y) : Compares facts left right x y

/-- The function has more than one parameter, and the first one is a variable that stands for
`Void`. -/
def HidesVoid (facts : Facts) (params : List Ty) : Prop :=
  ∃ v second rest, params = .var v :: second :: rest ∧ facts.Resolves v .void

/-- Of the two functions, one begins with `Void` and the other with a variable that stands for
it. -/
def VoidApart (facts : Facts) (x y : Ty) : Prop :=
  ∃ params params', x = .curried params ∧ y = .curried params' ∧
    (Ty.BeginsWithVoid params ∧ facts.HidesVoid params' ∨
      facts.HidesVoid params ∧ Ty.BeginsWithVoid params')

/-- Nothing is learnt, and there is nothing of which unification could complain; or it complains of
two functions that it should not have told apart. -/
def Agrees (facts : Facts) (left right : Ty) : Prop :=
  (∃ t, unify left right facts = .ok (t, facts)) ∧
      (∀ x y, facts.Compares left right x y → ¬ facts.VoidApart x y) ∨
    ∃ mismatch, unify left right facts = .failed mismatch ∧
      facts.Compares left right mismatch.expected mismatch.actual ∧
      facts.VoidApart mismatch.expected mismatch.actual

theorem Compares.cases_resolved (hcompares : facts.Compares left right x y)
    (hleft : facts.ResolvesTop left l) (hright : facts.ResolvesTop right r) :
    (x = l ∧ y = r) ∨
      ∃ pair ∈ l.components.zip r.components, facts.Compares pair.1 pair.2 x y := by
  cases hcompares with
  | here hleft' hright' => exact .inl ⟨hleft'.unique hleft, hright'.unique hright⟩
  | inside hleft' hright' hpair hcompares =>
    rw [hleft'.unique hleft, hright'.unique hright] at hpair
    exact .inr ⟨_, hpair, hcompares⟩

section Pairwise

variable {step : Step} {p q t : Ty} {ps qs ts : List Ty} {last : Facts} {mismatch : Mismatch}

theorem unifyPairwise_cons_ok (hfirst : step p q facts = .ok (t, next))
    (hrest : unifyPairwise step ps qs next = .ok (ts, last)) :
    unifyPairwise step (p :: ps) (q :: qs) facts = .ok (t :: ts, last) := by
  simp only [unifyPairwise, hfirst, Outcome.bind_ok, hrest]
  rfl

theorem unifyPairwise_cons_failed (hfirst : step p q facts = .failed mismatch) :
    unifyPairwise step (p :: ps) (q :: qs) facts = .failed mismatch := by
  simp only [unifyPairwise, hfirst, Outcome.bind_failed]

theorem unifyPairwise_cons_failed_later (hfirst : step p q facts = .ok (t, next))
    (hrest : unifyPairwise step ps qs next = .failed mismatch) :
    unifyPairwise step (p :: ps) (q :: qs) facts = .failed mismatch := by
  simp only [unifyPairwise, hfirst, Outcome.bind_ok, hrest, Outcome.bind_failed]

end Pairwise

theorem unifyPairwise_agrees (hall : ∀ pair ∈ ps.zip qs, facts.Agrees pair.1 pair.2) :
    (∃ ts, unifyPairwise unify ps qs facts = .ok (ts, facts)) ∧
        (∀ pair ∈ ps.zip qs, ∀ x y, facts.Compares pair.1 pair.2 x y → ¬ facts.VoidApart x y) ∨
      ∃ pair ∈ ps.zip qs, ∃ mismatch,
        unifyPairwise unify ps qs facts = .failed mismatch ∧
        facts.Compares pair.1 pair.2 mismatch.expected mismatch.actual ∧
        facts.VoidApart mismatch.expected mismatch.actual := by
  induction ps generalizing qs with
  | nil => exact .inl ⟨⟨[], rfl⟩, nofun⟩
  | cons p ps ih =>
    cases qs with
    | nil => exact .inl ⟨⟨[], rfl⟩, nofun⟩
    | cons q qs =>
      rw [zip_cons_cons, forall_mem_cons] at hall
      obtain ⟨⟨t, ht⟩, hnone⟩ | ⟨mismatch, hfailed, hcompares, hapart⟩ := hall.1
      · obtain ⟨⟨ts, hts⟩, hnones⟩ | ⟨pair, hpair, mismatch, hfailed, hcompares, hapart⟩ :=
          ih hall.2
        · refine .inl ⟨⟨t :: ts, unifyPairwise_cons_ok ht hts⟩, ?_⟩
          rw [zip_cons_cons, forall_mem_cons]
          exact ⟨hnone, hnones⟩
        · exact .inr ⟨pair, .tail _ hpair, mismatch,
            unifyPairwise_cons_failed_later ht hfailed, hcompares, hapart⟩
      · exact .inr ⟨(p, q), .head _, mismatch, unifyPairwise_cons_failed hfailed, hcompares, hapart⟩

theorem Acyclic.agrees_of_params (hacyclic : facts.Acyclic) (hleft : facts.ResolvesTop left l)
    (hright : facts.ResolvesTop right r) (build : List Ty → Ty)
    (hunify : unifyResolved unify l r facts = unifyParams unify l r build ps qs facts)
    (hlength : ps.length = qs.length) (hpairs : ps.zip qs ⊆ l.components.zip r.components)
    (hall : ∀ pair ∈ ps.zip qs, facts.Agrees pair.1 pair.2) (hself : ¬ facts.VoidApart l r)
    (hrest : ∀ pair ∈ l.components.zip r.components, pair ∈ ps.zip qs ∨
      ∀ x y, facts.Compares pair.1 pair.2 x y → ¬ facts.VoidApart x y) :
    facts.Agrees left right := by
  rw [unifyParams, if_neg (not_not.mpr hlength)] at hunify
  rw [Agrees, hacyclic.unify_eq hleft hright, hunify]
  obtain ⟨⟨ts, hts⟩, hnone⟩ | ⟨pair, hpair, mismatch, hfailed, hcompares, hapart⟩ :=
    unifyPairwise_agrees hall
  · rw [hts]
    refine .inl ⟨⟨_, rfl⟩, fun x y hcompares => ?_⟩
    obtain ⟨rfl, rfl⟩ | ⟨pair, hpair, hinside⟩ := hcompares.cases_resolved hleft hright
    · exact hself
    · rcases hrest pair hpair with hmem | hother
      · exact hnone pair hmem x y hinside
      · exact hother x y hinside
  · rw [hfailed]
    exact .inr ⟨_, rfl, .inside hleft hright (hpairs hpair) hcompares, hapart⟩

/-! ### Functions -/

theorem resolvesTop_self (hbuilt : t.isVariable = false) : facts.ResolvesTop t t :=
  .inl ⟨hbuilt, rfl⟩

theorem Acyclic.unify_built (hacyclic : facts.Acyclic) (hleft : left.isVariable = false)
    (hright : right.isVariable = false) :
    unify left right facts = unifyResolved unify left right facts :=
  hacyclic.unify_eq (resolvesTop_self hleft) (resolvesTop_self hright)

theorem not_voidApart_of_compares_void (hcompares : facts.Compares .void .void x y) :
    ¬ facts.VoidApart x y := by
  obtain ⟨rfl, rfl⟩ | ⟨pair, hpair, -⟩ :=
    hcompares.cases_resolved (resolvesTop_self rfl) (resolvesTop_self rfl)
  · rintro ⟨params, params', ⟨⟩, -⟩
  · cases hpair

theorem Acyclic.void_of_subst (hacyclic : facts.Acyclic) (hfacts : facts.UnionFree)
    (ht : t.UnionFree) (hvoid : t.subst facts.image = .void) :
    t = .void ∨ ∃ v, t = .var v ∧ facts.Resolves v .void := by
  obtain ⟨s, hs⟩ := hacyclic.exists_resolvesTop t
  have hsvoid : s = .void := by
    rw [← hacyclic.subst_of_resolvesTop (fun _ _ hfind => hfind) hs] at hvoid
    cases s with
    | var w =>
      rw [Ty.subst, hacyclic.image_of_free hs.find?_eq_none] at hvoid
      cases hvoid
    | parametric name params =>
      rw [Ty.subst, Ty.substAll_eq_map] at hvoid
      obtain ⟨rfl, hparams⟩ := Ty.parametric.inj hvoid
      rw [map_eq_nil_iff.mp hparams]
      rfl
    | curried params => cases hvoid
    | union members => cases hfacts.resolvesTop ht hs
  subst hsvoid
  rcases hs with ⟨-, rfl⟩ | ⟨v, rfl, hv⟩
  · exact .inl rfl
  · exact .inr ⟨v, rfl, hv⟩

section Curried

variable {ps qs : List Ty}

def SameImages (facts : Facts) (ps qs : List Ty) : Prop :=
  List.Forall₂ (fun p q => Ty.same (p.subst facts.image) (q.subst facts.image) = true) ps qs

theorem SameImages.symm (halike : facts.SameImages ps qs) : facts.SameImages qs ps :=
  halike.flip.imp fun _ _ => Ty.same_symm

theorem Acyclic.hidesVoid_of_sameImages (hacyclic : facts.Acyclic) (hfacts : facts.UnionFree)
    (hqs : ∀ q ∈ qs, q.UnionFree) (halike : facts.SameImages ps qs) (hps : Ty.BeginsWithVoid ps)
    (hnot : ¬ Ty.BeginsWithVoid qs) : facts.HidesVoid qs := by
  obtain ⟨second, rest, rfl⟩ := hps
  cases halike with
  | @cons _ q _ _ hfirst htail =>
    cases htail with
    | @cons _ q' _ qs _ _ =>
      have hvoid : q.subst facts.image = .void := Ty.same_void_iff.mp (Ty.same_symm hfirst)
      obtain rfl | ⟨v, rfl, hv⟩ := hacyclic.void_of_subst hfacts (hqs q (.head _)) hvoid
      · exact absurd ⟨q', qs, rfl⟩ hnot
      · exact ⟨v, q', qs, rfl, hv⟩

theorem length_dropVoid_ne (hlength : ps.length = qs.length) (hps : Ty.BeginsWithVoid ps)
    (hnot : ¬ Ty.BeginsWithVoid qs) : (Ty.dropVoid ps).length ≠ (Ty.dropVoid qs).length := by
  obtain ⟨second, rest, rfl⟩ := hps
  rw [Ty.dropVoid_of_begins, Ty.dropVoid_of_not_begins hnot, ← hlength]
  exact (Nat.lt_succ_self _).ne

theorem Acyclic.agrees_of_voidApart (hacyclic : facts.Acyclic)
    (hleft : facts.ResolvesTop left (.curried ps)) (hright : facts.ResolvesTop right (.curried qs))
    (hlength : (Ty.dropVoid ps).length ≠ (Ty.dropVoid qs).length)
    (hapart : facts.VoidApart (.curried ps) (.curried qs)) : facts.Agrees left right := by
  refine .inr ⟨{ expected := .curried ps, actual := .curried qs }, ?_, .here hleft hright, hapart⟩
  rw [hacyclic.unify_eq hleft hright, unifyResolved, unifyParams, if_pos hlength]

theorem Acyclic.agrees_curried (hacyclic : facts.Acyclic) (hfacts : facts.UnionFree)
    (hleft : facts.ResolvesTop left (.curried ps)) (hright : facts.ResolvesTop right (.curried qs))
    (hps : ∀ p ∈ ps, p.UnionFree) (hqs : ∀ q ∈ qs, q.UnionFree) (halike : facts.SameImages ps qs)
    (hall : ∀ pair ∈ ps.zip qs, facts.Agrees pair.1 pair.2) : facts.Agrees left right := by
  by_cases hvoid : Ty.BeginsWithVoid ps
  · by_cases hvoid' : Ty.BeginsWithVoid qs
    · -- the same first parameter is dropped on both sides
      obtain ⟨second, rest, rfl⟩ := hvoid
      obtain ⟨second', rest', rfl⟩ := hvoid'
      rw [zip_cons_cons, forall_mem_cons] at hall
      refine hacyclic.agrees_of_params hleft hright Ty.curried ?_ ?_ ?_ hall.2 ?_ ?_
      · rw [unifyResolved, Ty.dropVoid_of_begins, Ty.dropVoid_of_begins]
      · exact Nat.succ.inj halike.length_eq
      · exact subset_cons_self _ _
      · rintro ⟨params, params', ⟨⟩, ⟨⟩, ⟨-, v, _, _, hhides, -⟩ | ⟨⟨v, _, _, hhides, -⟩, -⟩⟩ <;>
          cases hhides
      · intro pair hpair
        rcases mem_cons.mp hpair with rfl | hmem
        · exact .inr fun x y => not_voidApart_of_compares_void
        · exact .inl hmem
    · have hhides := hacyclic.hidesVoid_of_sameImages hfacts hqs halike hvoid hvoid'
      exact hacyclic.agrees_of_voidApart hleft hright
        (length_dropVoid_ne halike.length_eq hvoid hvoid')
        ⟨ps, qs, rfl, rfl, .inl ⟨hvoid, hhides⟩⟩
  · by_cases hvoid' : Ty.BeginsWithVoid qs
    · have hhides := hacyclic.hidesVoid_of_sameImages hfacts hps halike.symm hvoid' hvoid
      exact hacyclic.agrees_of_voidApart hleft hright
        (length_dropVoid_ne halike.length_eq.symm hvoid' hvoid).symm
        ⟨ps, qs, rfl, rfl, .inr ⟨hhides, hvoid'⟩⟩
    · refine hacyclic.agrees_of_params hleft hright Ty.curried ?_ halike.length_eq
        (Subset.refl _) hall ?_ fun pair hpair => .inl hpair
      · rw [unifyResolved, Ty.dropVoid_of_not_begins hvoid, Ty.dropVoid_of_not_begins hvoid']
      · rintro ⟨params, params', ⟨⟩, ⟨⟩, ⟨hbegins, -⟩ | ⟨-, hbegins⟩⟩
        · exact hvoid hbegins
        · exact hvoid' hbegins

end Curried

/-! ### Equal types -/

theorem Acyclic.agrees (hacyclic : facts.Acyclic) (hfacts : facts.UnionFree)
    (hleft : left.UnionFree) (hright : right.UnionFree)
    (hsame : Ty.same (left.subst facts.image) (right.subst facts.image) = true) :
    facts.Agrees left right := by
  -- the image of a component is smaller than that of the type, whatever was resolved on the way
  induction hsize : (left.subst facts.image).size using Nat.strong_induction_on
    generalizing left right with
  | _ size ih =>
    obtain ⟨l, hl⟩ := hacyclic.exists_resolvesTop left
    obtain ⟨r, hr⟩ := hacyclic.exists_resolvesTop right
    have hlfree := hfacts.resolvesTop hleft hl
    have hrfree := hfacts.resolvesTop hright hr
    rw [← hacyclic.subst_of_resolvesTop (fun _ _ hfind => hfind) hl] at hsame hsize
    rw [← hacyclic.subst_of_resolvesTop (fun _ _ hfind => hfind) hr] at hsame
    have hcomponents (halike : facts.SameImages l.components r.components) :
        ∀ pair ∈ l.components.zip r.components, facts.Agrees pair.1 pair.2 := by
      rintro ⟨p, q⟩ hpair
      obtain ⟨hp, hq⟩ := of_mem_zip hpair
      refine ih _ ?_ (hlfree.component hp) (hrfree.component hq)
        ((forall₂_iff_zip.mp halike).2 hpair) rfl
      rw [← hsize]
      exact Ty.size_component_lt (Ty.subst_mem_components hlfree.isUnion_eq_false hp)
    cases l with
    | var v =>
      rw [Ty.subst, hacyclic.image_of_free hl.find?_eq_none] at hsame
      obtain ⟨w, hw, hid⟩ := Ty.same_var_iff.mp hsame
      cases r with
      | var w' =>
        rw [Ty.subst, hacyclic.image_of_free hr.find?_eq_none] at hw
        cases hw
        refine .inl ⟨⟨.var v, ?_⟩, fun x y hcompares => ?_⟩
        · rw [hacyclic.unify_eq hl hr, unifyResolved, if_pos hid.symm]
        · obtain ⟨rfl, rfl⟩ | ⟨pair, hpair, -⟩ := hcompares.cases_resolved hl hr
          · rintro ⟨params, params', ⟨⟩, -⟩
          · cases hpair
      | union members => cases hrfree
      | _ => cases hw
    | parametric name ps =>
      rw [Ty.subst, Ty.substAll_eq_map] at hsame
      obtain ⟨ys, hys, hall⟩ := Ty.same_parametric_iff.mp hsame
      cases r with
      | var w =>
        rw [Ty.subst, hacyclic.image_of_free hr.find?_eq_none] at hys
        cases hys
      | parametric name' qs =>
        rw [Ty.subst, Ty.substAll_eq_map] at hys
        obtain ⟨rfl, rfl⟩ := Ty.parametric.inj hys
        rw [forall₂_map_left_iff, forall₂_map_right_iff] at hall
        refine hacyclic.agrees_of_params hl hr _ (unifyResolved_parametric unify name')
          hall.length_eq (Subset.refl _) (hcomponents hall) ?_ fun _ hpair => .inl hpair
        rintro ⟨params, params', ⟨⟩, -⟩
      | union members => cases hrfree
      | curried qs => cases hys
    | curried ps =>
      rw [Ty.subst, Ty.substAll_eq_map] at hsame
      obtain ⟨ys, hys, hall⟩ := Ty.same_curried_iff.mp hsame
      cases r with
      | var w =>
        rw [Ty.subst, hacyclic.image_of_free hr.find?_eq_none] at hys
        cases hys
      | curried qs =>
        rw [Ty.subst, Ty.substAll_eq_map] at hys
        obtain rfl := Ty.curried.inj hys
        rw [forall₂_map_left_iff, forall₂_map_right_iff] at hall
        exact hacyclic.agrees_curried hfacts hl hr (fun p hp => hlfree.component hp)
          (fun q hq => hrfree.component hq) hall (hcomponents hall)
      | union members => cases hrfree
      | parametric name qs => cases hys
    | union members => cases hlfree

def Known (facts : Facts) (t u : Ty) : Prop :=
  Ty.PartOf u t ∨ ∃ v s, facts.find? v = some s ∧ Ty.PartOf u s

theorem ResolvesTop.known {u : Ty} (hresolves : facts.ResolvesTop t s)
    (hbuilt : s.isVariable = false) (hpart : Ty.PartOf u s) : facts.Known t u := by
  rcases hresolves with ⟨-, rfl⟩ | ⟨v, rfl, hv⟩
  · exact .inl hpart
  · refine .inr ?_
    induction hv with
    | free _ => cases hbuilt
    | follow _ _ ih => exact ih hbuilt hpart
    | stop hfind _ => exact ⟨_, _, hfind, hpart⟩

theorem Known.of_component {component u : Ty} (hresolves : facts.ResolvesTop t s)
    (hcomponent : component ∈ s.components) (hknown : facts.Known component u) :
    facts.Known t u := by
  rcases hknown with hpart | hfact
  · exact hresolves.known (Ty.isVariable_eq_false_of_mem hcomponent) (.inside hcomponent hpart)
  · exact .inr hfact

theorem Compares.known (hcompares : facts.Compares left right x y) (hx : x.isVariable = false)
    (hy : y.isVariable = false) : facts.Known left x ∧ facts.Known right y := by
  induction hcompares with
  | here hleft hright => exact ⟨hleft.known hx .self, hright.known hy .self⟩
  | inside hleft hright hpair _ ih =>
    obtain ⟨hp, hq⟩ := of_mem_zip hpair
    obtain ⟨hleft', hright'⟩ := ih hx hy
    exact ⟨hleft'.of_component hleft hp, hright'.of_component hright hq⟩

/-- **Equal types unify, if no function hides that it takes no argument.** On facts without cycles
and without unions, two types without unions that are reduced to equal types are unified without
learning anything, unless two functions are compared of which one begins with `Void` and the other
with a variable that stands for it; then the mismatch is about two such functions. So equal types
unify if no function in them and in the facts begins with a variable that stands for `Void`. -/
theorem unify_of_equal_reductions (hacyclic : facts.Acyclic) (hfacts : facts.UnionFree)
    (hleft : left.UnionFree) (hright : right.UnionFree) {x y : Ty}
    (hx : facts.reduce left = (.ok x : Outcome Mismatch Ty))
    (hy : facts.reduce right = (.ok y : Outcome Mismatch Ty)) (hsame : Ty.same x y = true) :
    ((∃ t, unify left right facts = .ok (t, facts)) ∧
        (∀ l r, facts.Compares left right l r → ¬ facts.VoidApart l r) ∨
      ∃ mismatch, unify left right facts = .failed mismatch ∧
        facts.Compares left right mismatch.expected mismatch.actual ∧
        facts.VoidApart mismatch.expected mismatch.actual) ∧
    ((∀ params, facts.Known left (.curried params) ∨ facts.Known right (.curried params) →
        ¬ facts.HidesVoid params) →
      ∃ t, unify left right facts = .ok (t, facts)) := by
  rw [hacyclic.reduce_eq_subst] at hx hy
  rw [← Outcome.ok.inj hx, ← Outcome.ok.inj hy] at hsame
  have hagrees := hacyclic.agrees hfacts hleft hright hsame
  refine ⟨hagrees, fun hshown => ?_⟩
  obtain ⟨hok, -⟩ | ⟨mismatch, -, hcompares, params, params', hl, hr, hvoid⟩ := hagrees
  · exact hok
  · rw [hl, hr] at hcompares
    obtain ⟨hknown, hknown'⟩ := hcompares.known rfl rfl
    rcases hvoid with ⟨-, hhides⟩ | ⟨hhides, -⟩
    · exact absurd hhides (hshown params' (.inr hknown'))
    · exact absurd hhides (hshown params (.inl hknown))

/-- What is known after `a` was recorded to be `Void`, and `f` to be a function without arguments
that returns `b`. -/
def voidFacts : Facts :=
  history [.add ⟨1, "a"⟩ .void, .add ⟨3, "f"⟩ (.curried [.void, .var ⟨2, "b"⟩])]

theorem find?_voidFacts {v : VarId} (hfind : voidFacts.find? v = some t) :
    t = .void ∨ t = .curried [.void, .var ⟨2, "b"⟩] := by
  have hentries : voidFacts.entries =
      [(3, .curried [.void, .var ⟨2, "b"⟩]), (1, .void)] := rfl
  have hmem := mem_entries_of_find? hfind
  rw [hentries, mem_cons, mem_singleton] at hmem
  rcases hmem with heq | heq
  · exact .inr (Prod.mk.inj heq).2
  · exact .inl (Prod.mk.inj heq).2

theorem known_voidFacts (ht : t = .var ⟨3, "f"⟩ ∨ t = .curried [.void, .var ⟨2, "b"⟩])
    {params : List Ty} (hknown : voidFacts.Known t (.curried params)) :
    params = [.void, .var ⟨2, "b"⟩] := by
  have hleaf {u : Ty} (hcomponents : u.components = []) (hpart : Ty.PartOf (.curried params) u) :
      u = .curried params := by
    cases hpart with
    | self => rfl
    | inside hcomponent _ =>
      rw [hcomponents] at hcomponent
      cases hcomponent
  have hfunction (hpart : Ty.PartOf (.curried params) (.curried [.void, .var ⟨2, "b"⟩])) :
      params = [.void, .var ⟨2, "b"⟩] := by
    cases hpart with
    | self => rfl
    | inside hcomponent hpart =>
      rcases mem_pair.mp hcomponent with rfl | rfl
      · cases hleaf rfl hpart
      · cases hleaf rfl hpart
  rcases hknown with hpart | ⟨v, s, hfind, hpart⟩
  · rcases ht with rfl | rfl
    · cases hleaf rfl hpart
    · exact hfunction hpart
  · rcases find?_voidFacts hfind with rfl | rfl
    · cases hleaf rfl hpart
    · exact hfunction hpart

/-- The function without arguments unifies with what `f` stands for, but not with a function whose
parameter is `a`. -/
theorem unify_of_equal_reductions_of_void :
    voidFacts.Acyclic ∧ voidFacts.UnionFree ∧
    (∃ t, unify (.var ⟨3, "f"⟩) (.curried [.void, .var ⟨2, "b"⟩]) voidFacts =
      .ok (t, voidFacts)) ∧
    ∃ mismatch, unify (.curried [.var ⟨1, "a"⟩, .var ⟨2, "b"⟩]) (.var ⟨3, "f"⟩) voidFacts =
      .failed mismatch ∧ voidFacts.VoidApart mismatch.expected mismatch.actual := by
  have hacyclic : voidFacts.Acyclic := acyclic_history _
  have hvoid : Ty.void.UnionFree := .parametric nofun
  have hfunction : (Ty.curried [.void, .var ⟨2, "b"⟩]).UnionFree :=
    .curried (by simp [hvoid, Ty.UnionFree.var])
  have hfacts : voidFacts.UnionFree := by
    intro v t hfind
    rcases find?_voidFacts hfind with rfl | rfl
    · exact hvoid
    · exact hfunction
  have hreduce : voidFacts.reduce (.var ⟨3, "f"⟩) =
      (.ok (.curried [.void, .var ⟨2, "b"⟩]) : Outcome Mismatch Ty) := rfl
  refine ⟨hacyclic, hfacts, ?_, ?_⟩
  · refine (unify_of_equal_reductions hacyclic hfacts (.var _) hfunction hreduce rfl
      (Ty.same_refl _)).2 fun params hknown => ?_
    rintro ⟨v, second, rest, rfl, -⟩
    rcases hknown with hknown | hknown
    · cases known_voidFacts (.inl rfl) hknown
    · cases known_voidFacts (.inr rfl) hknown
  · have hfailed : unify (.curried [.var ⟨1, "a"⟩, .var ⟨2, "b"⟩]) (.var ⟨3, "f"⟩) voidFacts =
        .failed { expected := .curried [.var ⟨1, "a"⟩, .var ⟨2, "b"⟩],
                  actual := .curried [.void, .var ⟨2, "b"⟩] } :=
      unify_eq_of_unifyWithin fun depth => rfl
    have hleft : (Ty.curried [.var ⟨1, "a"⟩, .var ⟨2, "b"⟩]).UnionFree :=
      .curried (by simp [Ty.UnionFree.var])
    obtain ⟨⟨⟨t, hok⟩, -⟩ | ⟨mismatch, hunify, -, hapart⟩, -⟩ :=
      unify_of_equal_reductions hacyclic hfacts hleft (.var _) rfl hreduce (Ty.same_refl _)
    · cases hfailed.symm.trans hok
    · exact ⟨mismatch, hunify, hapart⟩

end Facts

end TypeSearch
