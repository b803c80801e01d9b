import Mathlib.Algebra.Group.Nat.Defs
import TypeSearch.Proofs.Facts.Solution

/-!
# New variables

The numbers of the variables that a source gives out next, and what an instance of a type becomes
under a substitution: the type with the values of the new variables in the place of those that are
quantified.
-/

namespace TypeSearch

open List

/-! ### Sources -/

namespace Fresher

def upcoming : Fresher → Nat → List VarId
  | _, 0 => []
  | fresher, count + 1 => (fresher.last + 1) :: upcoming ⟨fresher.last + 1⟩ count

def skip : Fresher → Nat → Fresher
  | fresher, 0 => fresher
  | fresher, count + 1 => skip ⟨fresher.last + 1⟩ count

variable {fresher : Fresher} {count : Nat} {id : VarId}

theorem skip_add (fresher : Fresher) (first second : Nat) :
    fresher.skip (first + second) = (fresher.skip first).skip second := by
  induction first generalizing fresher with
  | zero => rw [Nat.zero_add, skip]
  | succ first ih => rw [Nat.succ_add, skip, skip, ih]

theorem upcoming_add (fresher : Fresher) (first second : Nat) :
    fresher.upcoming (first + second) =
      fresher.upcoming first ++ (fresher.skip first).upcoming second := by
  induction first generalizing fresher with
  | zero => rw [Nat.zero_add, skip, upcoming, nil_append]
  | succ first ih => rw [Nat.succ_add, upcoming, upcoming, skip, ih, cons_append]

@[simp]
theorem length_upcoming (fresher : Fresher) (count : Nat) :
    (fresher.upcoming count).length = count := by
  induction count generalizing fresher with
  | zero => rfl
  | succ count ih => rw [upcoming, length_cons, ih]

theorem freshAll_eq (fresher : Fresher) (hints : List String) :
    (fresher.freshAll hints).1.map (·.id) = fresher.upcoming hints.length ∧
      (fresher.freshAll hints).2 = fresher.skip hints.length := by
  induction hints generalizing fresher with
  | nil => exact ⟨rfl, rfl⟩
  | cons hint hints ih =>
    obtain ⟨hids, hlast⟩ := ih ⟨fresher.last + 1⟩
    exact ⟨congrArg ((fresher.last + 1) :: ·) hids, hlast⟩

theorem toNat_last_add_one (hroom : fresher.last.toNat + 1 < 2 ^ 64) :
    (fresher.last + 1).toNat = fresher.last.toNat + 1 := by
  rw [UInt64.toNat_add, UInt64.toNat_one]
  exact Nat.mod_eq_of_lt hroom

theorem toNat_skip (hroom : fresher.last.toNat + count < 2 ^ 64) :
    (fresher.skip count).last.toNat = fresher.last.toNat + count := by
  induction count generalizing fresher with
  | zero => rfl
  | succ count ih =>
    have hnext : (fresher.last + 1).toNat = fresher.last.toNat + 1 := toNat_last_add_one (by omega)
    rw [skip, ih (by rw [hnext]; omega), hnext]
    omega

theorem mem_upcoming (hroom : fresher.last.toNat + count < 2 ^ 64)
    (hid : id ∈ fresher.upcoming count) :
    fresher.last.toNat < id.toNat ∧ id.toNat ≤ fresher.last.toNat + count := by
  induction count generalizing fresher with
  | zero => cases hid
  | succ count ih =>
    have hnext : (fresher.last + 1).toNat = fresher.last.toNat + 1 := toNat_last_add_one (by omega)
    rcases mem_cons.mp hid with rfl | hmem
    · omega
    · have hlater := ih (by rw [hnext]; omega) hmem
      rw [hnext] at hlater
      omega

theorem nodup_upcoming (hroom : fresher.last.toNat + count < 2 ^ 64) :
    (fresher.upcoming count).Nodup := by
  induction count generalizing fresher with
  | zero => exact nodup_nil
  | succ count ih =>
    have hnext : (fresher.last + 1).toNat = fresher.last.toNat + 1 := toNat_last_add_one (by omega)
    have hrest : (⟨fresher.last + 1⟩ : Fresher).last.toNat + count < 2 ^ 64 := by
      rw [hnext]
      omega
    refine nodup_cons.mpr ⟨fun hmem => ?_, ih hrest⟩
    exact absurd (mem_upcoming hrest hmem).1 (Nat.lt_irrefl _)

end Fresher

/-! ### Other values for some variables -/

section Override

variable {α : Type} {ids : List VarId} {values : List α} {rest : VarId → α} {id : VarId}

/-- The function with other values for some variables, of which the last for a variable counts. -/
def override : List VarId → List α → (VarId → α) → VarId → α
  | id :: ids, value :: values, rest => override ids values (Function.update rest id value)
  | _, _, rest => rest

theorem override_of_not_mem (hid : id ∉ ids) : override ids values rest id = rest id := by
  induction ids generalizing values rest with
  | nil => cases values <;> rfl
  | cons first ids ih =>
    rw [mem_cons, not_or] at hid
    cases values with
    | nil => rfl
    | cons value values => rw [override, ih hid.2, Function.update_of_ne hid.1]

theorem override_of_mem (hid : id ∈ ids) (hlength : ids.length = values.length)
    (rest other : VarId → α) : override ids values rest id = override ids values other id := by
  induction ids generalizing values rest other with
  | nil => cases hid
  | cons first ids ih =>
    cases values with
    | nil => cases hlength
    | cons value values =>
      rw [override, override]
      by_cases hmem : id ∈ ids
      · exact ih hmem (Nat.succ.inj hlength) _ _
      · obtain rfl := (mem_cons.mp hid).resolve_right hmem
        rw [override_of_not_mem hmem, override_of_not_mem hmem, Function.update_self,
          Function.update_self]

theorem map_override (hnodup : ids.Nodup) (hlength : ids.length = values.length) :
    ids.map (override ids values rest) = values := by
  induction ids generalizing values rest with
  | nil => exact (length_eq_zero_iff.mp hlength.symm).symm
  | cons first ids ih =>
    rw [nodup_cons] at hnodup
    cases values with
    | nil => cases hlength
    | cons value values =>
      rw [map_cons, override, override_of_not_mem hnodup.1, Function.update_self,
        ih hnodup.2 (Nat.succ.inj hlength)]

theorem override_map {β : Type} (f : α → β) (ids : List VarId) (values : List α) (rest : VarId → α)
    (id : VarId) :
    override ids (values.map f) (fun id => f (rest id)) id = f (override ids values rest id) := by
  induction ids generalizing values rest with
  | nil => rfl
  | cons first ids ih =>
    cases values with
    | nil => rfl
    | cons value values =>
      rw [map_cons, override, override, ← ih]
      congr 1
      funext other
      by_cases heq : other = first
      · rw [heq, Function.update_self, Function.update_self]
      · rw [Function.update_of_ne heq, Function.update_of_ne heq]

theorem override_eq_lookup (ids : List VarId) (values : List α) (rest : VarId → α) (id : VarId) :
    override ids values rest id = (((ids.zip values).reverse.lookup id).getD (rest id)) := by
  induction ids generalizing values rest with
  | nil => rfl
  | cons first ids ih =>
    cases values with
    | nil => rfl
    | cons value values =>
      rw [override, ih, zip_cons_cons, reverse_cons, lookup_append]
      cases (ids.zip values).reverse.lookup id with
      | some found => rfl
      | none =>
        by_cases heq : id = first
        · simp [heq]
        · simp [Function.update_of_ne heq, lookup_cons, beq_eq_false_iff_ne.mpr heq]

end Override

/-! ### Instances -/

namespace Ty

variable {t : Ty} {σ χ : VarId → Ty}

theorem subst_congr {replace other : Variable → Ty}
    (heq : ∀ v, t.occurs v.id = true → replace v = other v) :
    t.subst replace = t.subst other := by
  induction t using inductBuild with
  | var v => exact heq v (occurs_var_iff.mpr rfl)
  | build head ts ih =>
    rw [subst_build, subst_build, map_congr_left fun t ht =>
      ih t ht fun v hv => heq v (occurs_build_iff.mpr ⟨t, ht, hv⟩)]

theorem apply_congr (heq : ∀ id, t.occurs id = true → σ id = χ id) : t.apply σ = t.apply χ :=
  subst_congr fun v hv => heq v.id hv

theorem FirstOrder.apply_subst (ht : t.FirstOrder) (replace : Variable → Ty) :
    (t.subst replace).apply σ = t.subst fun v => (replace v).apply σ := by
  induction t using inductBuild with
  | var v => rfl
  | build head ts ih =>
    rw [subst_build, ht.rebuild_eq, apply, subst_build, ht.rebuild_eq, subst_build, ht.rebuild_eq,
      map_map]
    exact congrArg _ (map_congr_left fun t hmem => ih t hmem (ht.of_build t hmem))

theorem exists_instantiate (t : Ty) {quantified : List VarId} (hsome : quantified ≠ [])
    (fresher : Fresher) :
    ∃ f : Variable → Variable,
      (∀ v, v.id ∉ quantified → f v = v) ∧
      (∀ v w, v.id = w.id → v.id ∈ quantified → f v = f w) ∧
      (∀ v, (f v).id = override quantified (fresher.upcoming quantified.length) id v.id) ∧
      (t.instantiate quantified fresher).1 = t.subst fun v => .var (f v) := by
  rw [instantiate, if_neg (by simpa using hsome)]
  dsimp only
  generalize hhints : quantified.map _ = hints
  have hlength : hints.length = quantified.length := by rw [← hhints, length_map]
  obtain ⟨hids, -⟩ := fresher.freshAll_eq hints
  generalize (fresher.freshAll hints).1 = vs at hids
  have hvs : quantified.length = vs.length := by
    rw [← length_map (fun v : Variable => v.id), hids, Fresher.length_upcoming, hlength]
  refine ⟨fun v => override quantified vs (fun _ => v) v.id, fun v hv => override_of_not_mem hv,
    fun v w hid hv => ?_, fun v => ?_, ?_⟩
  · dsimp only
    rw [← hid]
    exact override_of_mem hv hvs _ _
  · rw [← override_map (fun v : Variable => v.id), hids, hlength, override_eq_lookup,
      override_eq_lookup]
    rfl
  · have hne : (quantified.zip (vs.map Ty.var)).isEmpty = false := by
      cases quantified with
      | nil => exact absurd rfl hsome
      | cons first others =>
        cases vs with
        | nil => cases hvs
        | cons v vs => rfl
    rw [substitute, hne, if_neg Bool.false_ne_true]
    congr 1
    funext v
    rw [← override_map Ty.var, override_eq_lookup]

theorem FirstOrder.apply_instantiate (ht : t.FirstOrder) (quantified : List VarId)
    (fresher : Fresher) (σ : VarId → Ty) :
    (t.instantiate quantified fresher).1.apply σ =
      t.apply (override quantified ((fresher.upcoming quantified.length).map σ) σ) := by
  cases quantified with
  | nil => rfl
  | cons first others =>
    obtain ⟨f, -, -, hids, hsubst⟩ := t.exists_instantiate (cons_ne_nil first others) fresher
    rw [hsubst, ht.apply_subst, apply]
    congr 1
    funext v
    change σ (f v).id = _
    rw [hids v]
    exact (override_map σ _ _ _ _).symm

theorem instantiate_snd (t : Ty) (quantified : List VarId) (fresher : Fresher) :
    (t.instantiate quantified fresher).2 = fresher.skip quantified.length := by
  cases quantified with
  | nil => rfl
  | cons first others =>
    rw [instantiate, if_neg (by simp)]
    exact (fresher.freshAll_eq _).2.trans (congrArg fresher.skip (length_map _))

end Ty

end TypeSearch
