import TypeSearch.Facts.Unify
import TypeSearch.Proofs.Facts.Acyclic

/-!
# How facts grow

Unification changes facts in one way only: it records that a variable without a fact stands for a
type that does not lead back to it. `Grows S` is a run of such records in which all variables are
from `S`; it is what a successful unification of types over `S` does, whatever the types are, and
also when members of unions are tried and given up. Facts that grow keep what they know and stay
free of cycles.
-/

namespace TypeSearch

variable {t : Ty}

def Ty.Over (S : Set VarId) (t : Ty) : Prop := ∀ w, t.occurs w = true → w ∈ S

namespace Ty

variable {S : Set VarId}

theorem over_iff_components (hbuilt : t.isVariable = false) :
    t.Over S ↔ ∀ component ∈ t.components, component.Over S := by
  constructor
  · intro ht component hmem w hw
    exact ht w ((occurs_iff_components hbuilt).mpr ⟨component, hmem, hw⟩)
  · intro hcomponents w hw
    obtain ⟨component, hmem, hin⟩ := (occurs_iff_components hbuilt).mp hw
    exact hcomponents component hmem w hin

theorem over_build_iff {head : Head} {ts : List Ty} :
    (head.build ts).Over S ↔ ∀ t ∈ ts, t.Over S := by
  rw [over_iff_components (isVariable_build head ts), components_build]

theorem over_unionOf {members : List Ty} (hmembers : ∀ t ∈ members, t.Over S) :
    (unionOf members).Over S := by
  intro w hw
  obtain ⟨member, hmember, hin⟩ := occurs_unionOf_iff.mp hw
  exact hmembers member hmember w hin

theorem same_void_iff : same t void = true ↔ t = void := by
  refine ⟨fun hsame => ?_, fun heq => heq ▸ same_refl t⟩
  obtain ⟨params, rfl, hparams⟩ := same_parametric_iff.mp (same_symm hsame)
  cases hparams
  rfl

theorem mem_of_mem_dropVoid {params : List Ty} (ht : t ∈ dropVoid params) : t ∈ params := by
  unfold dropVoid at ht
  split at ht
  · split at ht
    · exact .tail _ ht
    · exact ht
  · exact ht

end Ty

namespace Facts

open Relation

variable {ε : Type} {facts next : Facts} {S : Set VarId} {v x y : VarId} {w : Variable}

/-! ### One record -/

/-- That `v` stands for `t` can be recorded: nothing is known of `v`, and `t` is a variable of which
nothing is known or no variable, and is reduced without meeting `v`. -/
structure Records (facts : Facts) (v : VarId) (t : Ty) : Prop where
  fresh : facts.find? v = none
  settled : ∀ w : Variable, t = .var w → facts.find? w.id = none
  reduced : ∃ r, facts.reduce t = (.ok r : Outcome Mismatch Ty) ∧ r.occurs v = false

theorem Records.apart (hrecords : facts.Records v t) : ¬ facts.Leads t v := by
  obtain ⟨r, hreduce, hoccurs⟩ := hrecords.reduced
  intro hleads
  have hmention := (occurs_reduceWithin_iff hreduce v).mpr ⟨hrecords.fresh, hleads⟩
  rw [hoccurs] at hmention
  cases hmention

def ResolvesTop (facts : Facts) (t s : Ty) : Prop :=
  (t.isVariable = false ∧ s = t) ∨ ∃ v, t = .var v ∧ facts.Resolves v s

theorem resolvesTop_of_resolveTop {s : Ty}
    (hresolve : facts.resolveTop t = (.ok s : Outcome ε Ty)) : facts.ResolvesTop t s := by
  cases t with
  | var v => exact .inr ⟨v, rfl, resolves_of_resolve hresolve⟩
  | _ =>
    cases hresolve
    exact .inl ⟨rfl, rfl⟩

theorem ResolvesTop.find?_eq_none (hresolves : facts.ResolvesTop t (.var w)) :
    facts.find? w.id = none := by
  rcases hresolves with ⟨hbuilt, rfl⟩ | ⟨v, rfl, hv⟩
  · cases hbuilt
  · exact hv.find?_eq_none rfl

theorem reduce_var_of_free (hfree : facts.find? w.id = none) :
    facts.reduce (.var w) = (.ok (.var w) : Outcome ε Ty) := by
  have hresolve : facts.resolve w = (.ok (.var w) : Outcome ε Ty) := by
    simp [resolve, resolveWithin, hfree]
  unfold reduce
  cases facts.size <;> simp [reduceWithin, Ty.expand, expandVariable, hresolve, pure]

theorem bind_eq_ok {v : Variable} (hbind : facts.bind v t = .ok next) :
    ∃ s, facts.ResolvesTop t s ∧
      ((∃ w, s = .var w ∧ w.id = v.id ∧ next = facts) ∨
        (facts.Records v.id s ∧ next = facts.insert v.id s)) := by
  unfold bind at hbind
  split at hbind
  · cases hbind
  · rename_i hhas
    have hfresh : facts.find? v.id = none := by simpa [has] using hhas
    obtain ⟨s, hs, hbind⟩ := Outcome.bind_eq_ok hbind
    have hresolves := resolvesTop_of_resolveTop hs
    refine ⟨s, hresolves, ?_⟩
    split at hbind
    · rename_i w
      split at hbind
      · rename_i hid
        cases hbind
        exact .inl ⟨w, rfl, hid, rfl⟩
      · rename_i hid
        cases hbind
        have hfree := hresolves.find?_eq_none
        refine .inr ⟨⟨hfresh, ?_, .var w, reduce_var_of_free hfree, by simpa [Ty.occurs] using hid⟩,
          rfl⟩
        rintro w' hw'
        cases hw'
        exact hfree
    · rename_i hvariable
      obtain ⟨r, hr, hbind⟩ := Outcome.bind_eq_ok hbind
      split at hbind
      · cases hbind
      · rename_i hoccurs
        cases hbind
        exact .inr ⟨⟨hfresh, fun w hw => absurd hw (hvariable w), r, hr, by simpa using hoccurs⟩,
          rfl⟩

theorem bind_eq_failed {v : Variable} {mismatch : Mismatch}
    (hbind : facts.bind v t = .failed mismatch) :
    ∃ s, facts.ResolvesTop t s ∧ s.isVariable = false ∧ facts.Leads s v.id ∧
      mismatch = .infinite v s := by
  unfold bind at hbind
  split at hbind
  · cases hbind
  · rcases Outcome.bind_eq_failed hbind with hresolve | ⟨s, hs, hbind⟩
    · exact absurd hresolve (resolveTop_ne_failed t mismatch)
    · split at hbind
      · split at hbind <;> cases hbind
      · rename_i hvariable
        refine ⟨s, resolvesTop_of_resolveTop hs, Ty.isVariable_eq_false hvariable, ?_⟩
        rcases Outcome.bind_eq_failed hbind with hreduce | ⟨r, hr, hbind⟩
        · exact absurd hreduce (reduceWithin_ne_failed _ s mismatch)
        · split at hbind
          · rename_i hoccurs
            cases hbind
            exact ⟨((occurs_reduceWithin_iff hr v.id).mp hoccurs).2, rfl⟩
          · cases hbind

theorem Acyclic.bind_ends (hacyclic : facts.Acyclic) {v : Variable}
    (hfree : facts.find? v.id = none) (t : Ty) : (facts.bind v t).Ends fun _ => True := by
  obtain ⟨s, hs⟩ := hacyclic.exists_resolveTop (ε := Mismatch) t
  obtain ⟨r, hr⟩ := hacyclic.exists_reduce (ε := Mismatch) s
  simp only [bind, has, hfree, Option.isSome_none, Bool.false_eq_true, if_false, hs,
    Outcome.bind_ok]
  split
  · split <;> trivial
  · rw [hr, Outcome.bind_ok]
    split <;> trivial

theorem mentions_insert (hmention : (facts.insert v t).Mentions x y) :
    facts.Mentions x y ∨ (x = v ∧ t.occurs y = true) := by
  obtain ⟨s, hfind, hoccurs⟩ := hmention
  rw [find?_insert] at hfind
  split at hfind
  · rename_i heq
    obtain rfl := Option.some.inj hfind
    exact .inr ⟨heq, hoccurs⟩
  · exact .inl ⟨s, hfind, hoccurs⟩

theorem transGen_insert (hreach : TransGen (facts.insert v t).Mentions x y) :
    TransGen facts.Mentions x y ∨
      (ReflTransGen facts.Mentions x v ∧ facts.Leads t y) := by
  induction hreach with
  | single hstep =>
    rcases mentions_insert hstep with hold | ⟨rfl, hoccurs⟩
    · exact .inl (.single hold)
    · exact .inr ⟨.refl, _, hoccurs, .refl⟩
  | tail _ hstep ih =>
    rcases mentions_insert hstep with hold | ⟨rfl, hoccurs⟩
    · rcases ih with hdirect | ⟨hto, z, hz, hfrom⟩
      · exact .inl (hdirect.tail hold)
      · exact .inr ⟨hto, z, hz, hfrom.tail hold⟩
    · rcases ih with hdirect | ⟨hto, -⟩
      · exact .inr ⟨hdirect.to_reflTransGen, _, hoccurs, .refl⟩
      · exact .inr ⟨hto, _, hoccurs, .refl⟩

theorem Acyclic.insert (hacyclic : facts.Acyclic) (hapart : ¬ facts.Leads t v) :
    (facts.insert v t).Acyclic := by
  intro x hcycle
  rcases transGen_insert hcycle with hold | ⟨hto, y, hy, hfrom⟩
  · exact hacyclic x hold
  · exact hapart ⟨y, hy, hfrom.trans hto⟩

/-! ### Runs of records -/

def Closed (S : Set VarId) (facts : Facts) : Prop :=
  ∀ v ∈ S, ∀ t, facts.find? v = some t → t.Over S

inductive Grows (S : Set VarId) (first : Facts) : Facts → Prop
  | refl : Grows S first first
  | record {facts : Facts} {v : VarId} {t : Ty} (hgrows : Grows S first facts)
      (hrecords : facts.Records v t) (hv : v ∈ S) (ht : t.Over S) :
      Grows S first (facts.insert v t)

theorem Grows.trans {last : Facts} (hleft : Grows S facts next) (hright : Grows S next last) :
    Grows S facts last := by
  induction hright with
  | refl => exact hleft
  | record _ hrecords hv ht ih => exact .record ih hrecords hv ht

theorem Grows.acyclic (hgrows : Grows S facts next) (hacyclic : facts.Acyclic) : next.Acyclic := by
  induction hgrows with
  | refl => exact hacyclic
  | record _ hrecords _ _ ih => exact ih.insert hrecords.apart

theorem Grows.find?_eq_some (hgrows : Grows S facts next) (hfind : facts.find? v = some t) :
    next.find? v = some t := by
  induction hgrows with
  | refl => exact hfind
  | record _ hrecords _ _ ih =>
    rw [find?_insert, if_neg, ih]
    rintro rfl
    rw [hrecords.fresh] at ih
    cases ih

theorem find?_of_mem_entries (hnodup : facts.keys.Nodup) (hmem : (v, t) ∈ facts.entries) :
    facts.find? v = some t := by
  obtain ⟨u, hfind⟩ := mem_keys_iff.mp (List.mem_map_of_mem (f := Prod.fst) hmem)
  have hsame := List.inj_on_of_nodup_map hnodup (mem_entries_of_find? hfind) hmem rfl
  rw [hfind, (Prod.mk.inj hsame).2]

section Grows

variable (hgrows : Grows S facts next)

include hgrows

theorem Grows.nodup_keys (hnodup : facts.keys.Nodup) : next.keys.Nodup := by
  induction hgrows with
  | refl => exact hnodup
  | record _ hrecords _ _ ih =>
    refine List.nodup_cons.mpr ⟨fun hmem => ?_, ih⟩
    obtain ⟨u, hfind⟩ := mem_keys_iff.mp hmem
    rw [hrecords.fresh] at hfind
    cases hfind

theorem Grows.find?_eq_none (hfree : next.find? v = none) : facts.find? v = none := by
  cases hfind : facts.find? v with
  | none => rfl
  | some t =>
    rw [hgrows.find?_eq_some hfind] at hfree
    cases hfree

theorem Grows.settled (hfind : next.find? v = some (.var w))
    (hfresh : facts.find? v = none) : facts.find? w.id = none := by
  induction hgrows with
  | refl =>
    rw [hfresh] at hfind
    cases hfind
  | record hgrows hrecords _ _ ih =>
    rw [find?_insert] at hfind
    split at hfind
    · exact hgrows.find?_eq_none (hrecords.settled w (Option.some.inj hfind))
    · exact ih hfind

theorem Grows.size_le : facts.size ≤ next.size := by
  induction hgrows with
  | refl => exact Nat.le_refl _
  | record _ _ _ _ ih => exact Nat.le_succ_of_le ih

theorem Grows.eq_of_size_eq (hsize : next.size = facts.size) : next = facts := by
  cases hgrows with
  | refl => rfl
  | record hgrows _ _ _ =>
    have := hgrows.size_le
    simp only [size, Facts.insert, List.length_cons] at hsize this
    omega

theorem Grows.find?_of_notMem (hv : v ∉ S) : next.find? v = facts.find? v := by
  induction hgrows with
  | refl => rfl
  | record _ _ hmem _ ih =>
    rw [find?_insert, if_neg, ih]
    rintro rfl
    exact hv hmem

theorem Grows.closed (hclosed : facts.Closed S) : next.Closed S := by
  induction hgrows with
  | refl => exact hclosed
  | record _ _ _ ht ih =>
    intro w hw s hfind
    rw [find?_insert] at hfind
    split at hfind
    · obtain rfl := Option.some.inj hfind
      exact ht
    · exact ih w hw s hfind

end Grows

theorem Closed.mem_of_reflTransGen (hclosed : facts.Closed S) {w : VarId} (hv : v ∈ S)
    (hreach : ReflTransGen facts.Mentions v w) : w ∈ S := by
  induction hreach with
  | refl => exact hv
  | tail _ hstep ih =>
    obtain ⟨t, hfind, hoccurs⟩ := hstep
    exact hclosed _ ih t hfind _ hoccurs

theorem ResolvesTop.isOver (hclosed : facts.Closed S) {s : Ty} (ht : t.Over S)
    (hresolves : facts.ResolvesTop t s) : s.Over S := by
  rcases hresolves with ⟨-, rfl⟩ | ⟨v, rfl, hv⟩
  · exact ht
  · intro w hw
    exact hclosed.mem_of_reflTransGen (ht v.id (by simp)) (hv.reflTransGen hw)

theorem grows_of_bind (hclosed : facts.Closed S) {v : Variable} (hv : v.id ∈ S) (ht : t.Over S)
    (hbind : facts.bind v t = .ok next) : Grows S facts next := by
  obtain ⟨s, hresolves, ⟨-, -, -, rfl⟩ | ⟨hrecords, rfl⟩⟩ := bind_eq_ok hbind
  · exact .refl
  · exact .record .refl hrecords hv (hresolves.isOver hclosed ht)

end Facts

end TypeSearch
