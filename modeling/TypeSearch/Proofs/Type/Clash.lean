import TypeSearch.Proofs.Type.Renaming

/-!
# Types that clash

Two types clash if they are built in different ways, or if two types in corresponding places are,
so that nothing that could be known of their variables makes them equal. A clash stays when other
variables are put in the place of those of the types, and when functions lose the `Void` with which
they begin.
-/

namespace TypeSearch

open List

section Lists

variable {α β : Type} {R : α → β → Prop} {P : α → α → Prop} {Q : β → β → Prop}

theorem exists_mem_zip_of_forall₂ {xs xs' : List α} {ys ys' : List β}
    (hall : Forall₂ R xs ys) (hall' : Forall₂ R xs' ys') {x x' : α}
    (hpair : (x, x') ∈ xs.zip xs') : ∃ y y', (y, y') ∈ ys.zip ys' ∧ R x y ∧ R x' y' := by
  induction hall generalizing xs' ys' with
  | nil => cases hpair
  | cons hhead _ ih =>
    cases hall' with
    | nil => cases hpair
    | cons hhead' htail' =>
      rcases mem_cons.mp hpair with heq | hmem
      · obtain ⟨rfl, rfl⟩ := Prod.mk.inj heq
        exact ⟨_, _, .head _, hhead, hhead'⟩
      · obtain ⟨y, y', hmem', hy, hy'⟩ := ih htail' hmem
        exact ⟨y, y', .tail _ hmem', hy, hy'⟩

theorem pairwise_of_forall₂ {xs : List α} {ys : List β} (hall : Forall₂ R xs ys)
    (hPQ : ∀ x x' y y', R x y → R x' y' → P x x' → Q y y') (hxs : xs.Pairwise P) :
    ys.Pairwise Q := by
  induction hall with
  | nil => exact .nil
  | cons hhead htail ih =>
    rw [pairwise_cons] at hxs ⊢
    refine ⟨fun y hy => ?_, ih hxs.2⟩
    obtain ⟨x, hx, hxy⟩ := exists_left_of_forall₂ htail hy
    exact hPQ _ _ _ _ hhead hxy (hxs.1 x hx)

end Lists

namespace Ty

inductive Clash : Ty → Ty → Prop
  | parametric {name name' : String} {ps qs : List Ty}
      (hhead : name ≠ name' ∨ ps.length ≠ qs.length) :
      Clash (.parametric name ps) (.parametric name' qs)
  | parameter {name name' : String} {ps qs : List Ty} {p q : Ty} (hpair : (p, q) ∈ ps.zip qs)
      (hclash : Clash p q) : Clash (.parametric name ps) (.parametric name' qs)
  | arity {ps qs : List Ty} (hlength : (dropVoid ps).length ≠ (dropVoid qs).length) :
      Clash (.curried ps) (.curried qs)
  | argument {ps qs : List Ty} {p q : Ty} (hpair : (p, q) ∈ (dropVoid ps).zip (dropVoid qs))
      (hclash : Clash p q) : Clash (.curried ps) (.curried qs)
  | ofFunction {name : String} {ps qs : List Ty} : Clash (.parametric name ps) (.curried qs)
  | function {name : String} {ps qs : List Ty} : Clash (.curried ps) (.parametric name qs)
  | members {ts : List Ty} {u : Ty} (hbuilt : u.isVariable = false) (hunion : u.isUnion = false)
      (hall : ∀ t ∈ ts, Clash t u) : Clash (.union ts) u
  | ofMembers {t : Ty} {us : List Ty} (hbuilt : t.isVariable = false) (hunion : t.isUnion = false)
      (hall : ∀ u ∈ us, Clash t u) : Clash t (.union us)

/-- The second type is the first one with variables in the place of its variables, up to a `Void`
with which functions begin. -/
inductive Resembles : Ty → Ty → Prop
  | var (v w : Variable) : Resembles (.var v) (.var w)
  | parametric {name : String} {ts us : List Ty} (hlength : ts.length = us.length)
      (hall : ∀ t u, (t, u) ∈ ts.zip us → Resembles t u) :
      Resembles (.parametric name ts) (.parametric name us)
  | curried {ts us : List Ty} (hlength : (dropVoid ts).length = (dropVoid us).length)
      (hall : ∀ t u, (t, u) ∈ (dropVoid ts).zip (dropVoid us) → Resembles t u) :
      Resembles (.curried ts) (.curried us)
  | union {ts us : List Ty} (hlength : ts.length = us.length)
      (hall : ∀ t u, (t, u) ∈ ts.zip us → Resembles t u) : Resembles (.union ts) (.union us)

variable {t t' u u' : Ty} {ts us : List Ty}

theorem resembles_parametric (name : String) (hall : Forall₂ Resembles ts us) :
    Resembles (.parametric name ts) (.parametric name us) :=
  .parametric hall.length_eq fun _ _ => (forall₂_iff_zip.mp hall).2

theorem resembles_curried (hall : Forall₂ Resembles (dropVoid ts) (dropVoid us)) :
    Resembles (.curried ts) (.curried us) :=
  .curried hall.length_eq fun _ _ => (forall₂_iff_zip.mp hall).2

theorem resembles_union (hall : Forall₂ Resembles ts us) : Resembles (.union ts) (.union us) :=
  .union hall.length_eq fun _ _ => (forall₂_iff_zip.mp hall).2

theorem Resembles.of_parametric {name : String} (hresembles : Resembles (.parametric name ts) u) :
    ∃ us, u = .parametric name us ∧ Forall₂ Resembles ts us := by
  cases hresembles with
  | parametric hlength hall => exact ⟨_, rfl, forall₂_iff_zip.mpr ⟨hlength, hall _ _⟩⟩

theorem Resembles.of_curried (hresembles : Resembles (.curried ts) u) :
    ∃ us, u = .curried us ∧ Forall₂ Resembles (dropVoid ts) (dropVoid us) := by
  cases hresembles with
  | curried hlength hall => exact ⟨_, rfl, forall₂_iff_zip.mpr ⟨hlength, hall _ _⟩⟩

theorem Resembles.of_union (hresembles : Resembles (.union ts) u) :
    ∃ us, u = .union us ∧ Forall₂ Resembles ts us := by
  cases hresembles with
  | union hlength hall => exact ⟨_, rfl, forall₂_iff_zip.mpr ⟨hlength, hall _ _⟩⟩

theorem forall₂_dropVoid {R : Ty → Ty → Prop} (hvoid : ∀ t u, R t u → (t = void ↔ u = void))
    (hall : Forall₂ R ts us) : Forall₂ R (dropVoid ts) (dropVoid us) := by
  cases hall with
  | nil => exact .nil
  | @cons t u _ _ hfirst htail =>
    cases htail with
    | nil => exact .cons hfirst .nil
    | cons hsecond hrest =>
      have hsame : same t void = same u void := by
        rw [Bool.eq_iff_iff, same_void_iff, same_void_iff]
        exact hvoid t u hfirst
      rw [dropVoid, dropVoid, hsame]
      split
      · exact .cons hsecond hrest
      · exact .cons hfirst (.cons hsecond hrest)

theorem Resembles.void_iff (hresembles : Resembles t u) : t = void ↔ u = void := by
  constructor
  · rintro rfl
    cases hresembles with
    | parametric hlength _ => rw [length_eq_zero_iff.mp hlength.symm]; rfl
  · rintro rfl
    cases hresembles with
    | parametric hlength _ => rw [length_eq_zero_iff.mp hlength]; rfl

theorem void_iff_of_same (hsame : same t u = true) : t = void ↔ u = void := by
  rw [← same_void_iff, ← same_void_iff]
  exact same_congr hsame (same_refl void)

theorem resembles_rename (ρ : VarId → VarId) (t : Ty) : Resembles t (t.rename ρ) := by
  have hall : ∀ ts : List Ty, (∀ t ∈ ts, Resembles t (t.rename ρ)) →
      Forall₂ Resembles ts (ts.map (rename ρ)) := fun ts hts =>
    forall₂_map_right_iff.mpr (forall₂_same.mpr hts)
  induction t with
  | var v => exact .var _ _
  | parametric name params ih =>
    rw [rename_parametric]
    exact resembles_parametric name (hall params ih)
  | curried params ih =>
    rw [rename_curried]
    exact resembles_curried (forall₂_dropVoid (fun _ _ => Resembles.void_iff) (hall params ih))
  | union members ih =>
    rw [rename_union]
    exact resembles_union (hall members ih)

theorem Resembles.isVariable_eq (hresembles : Resembles t u) : u.isVariable = t.isVariable := by
  cases hresembles <;> rfl

theorem Resembles.isUnion_eq (hresembles : Resembles t u) : u.isUnion = t.isUnion := by
  cases hresembles <;> rfl

theorem Clash.resembles (hclash : Clash t u) (ht : Resembles t t') (hu : Resembles u u') :
    Clash t' u' := by
  induction hclash generalizing t' u' with
  | parametric hhead =>
    obtain ⟨ps, rfl, hps⟩ := ht.of_parametric
    obtain ⟨qs, rfl, hqs⟩ := hu.of_parametric
    exact .parametric (by rwa [← hps.length_eq, ← hqs.length_eq])
  | parameter hpair _ ih =>
    obtain ⟨ps, rfl, hps⟩ := ht.of_parametric
    obtain ⟨qs, rfl, hqs⟩ := hu.of_parametric
    obtain ⟨p, q, hmem, hp, hq⟩ := exists_mem_zip_of_forall₂ hps hqs hpair
    exact .parameter hmem (ih hp hq)
  | arity hlength =>
    obtain ⟨ps, rfl, hps⟩ := ht.of_curried
    obtain ⟨qs, rfl, hqs⟩ := hu.of_curried
    exact .arity (by rwa [← hps.length_eq, ← hqs.length_eq])
  | argument hpair _ ih =>
    obtain ⟨ps, rfl, hps⟩ := ht.of_curried
    obtain ⟨qs, rfl, hqs⟩ := hu.of_curried
    obtain ⟨p, q, hmem, hp, hq⟩ := exists_mem_zip_of_forall₂ hps hqs hpair
    exact .argument hmem (ih hp hq)
  | ofFunction =>
    cases ht
    cases hu
    exact .ofFunction
  | function =>
    cases ht
    cases hu
    exact .function
  | members hbuilt hunion _ ih =>
    obtain ⟨us, rfl, hus⟩ := ht.of_union
    refine .members (hu.isVariable_eq.trans hbuilt) (hu.isUnion_eq.trans hunion) fun m hm => ?_
    obtain ⟨t, ht, hresembles⟩ := exists_left_of_forall₂ hus hm
    exact ih t ht hresembles hu
  | ofMembers hbuilt hunion _ ih =>
    obtain ⟨us, rfl, hus⟩ := hu.of_union
    refine .ofMembers (ht.isVariable_eq.trans hbuilt) (ht.isUnion_eq.trans hunion) fun m hm => ?_
    obtain ⟨u, hu, hresembles⟩ := exists_left_of_forall₂ hus hm
    exact ih u hu ht hresembles

theorem Clash.same_eq_false (hclash : Clash t u) : same t u = false := by
  rw [Bool.eq_false_iff]
  induction hclash with
  | parametric hhead =>
    intro hsame
    obtain ⟨params, heq, hall⟩ := same_parametric_iff.mp hsame
    obtain ⟨rfl, rfl⟩ := parametric.inj heq
    exact hhead.elim (fun hne => hne rfl) fun hne => hne hall.length_eq
  | parameter hpair _ ih =>
    intro hsame
    obtain ⟨params, heq, hall⟩ := same_parametric_iff.mp hsame
    obtain ⟨rfl, rfl⟩ := parametric.inj heq
    exact ih ((forall₂_iff_zip.mp hall).2 hpair)
  | arity hlength =>
    intro hsame
    obtain ⟨params, heq, hall⟩ := same_curried_iff.mp hsame
    obtain rfl := curried.inj heq
    exact hlength (forall₂_dropVoid (fun _ _ => void_iff_of_same) hall).length_eq
  | argument hpair _ ih =>
    intro hsame
    obtain ⟨params, heq, hall⟩ := same_curried_iff.mp hsame
    obtain rfl := curried.inj heq
    have hdropped := forall₂_dropVoid (fun _ _ => void_iff_of_same) hall
    exact ih ((forall₂_iff_zip.mp hdropped).2 hpair)
  | ofFunction | function => exact Bool.false_ne_true
  | members _ hunion _ _ =>
    intro hsame
    obtain ⟨us, rfl, -⟩ := same_union_iff.mp hsame
    cases hunion
  | ofMembers _ hunion _ _ =>
    intro hsame
    obtain ⟨ts, rfl, -⟩ := same_union_iff.mp (same_symm hsame)
    cases hunion

end Ty

end TypeSearch
