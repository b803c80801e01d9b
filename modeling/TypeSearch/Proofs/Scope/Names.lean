import Mathlib.Data.List.Nodup
import TypeSearch.Scope.Basic

/-!
# The names of a scope

A scope lists its bindings in the order of their declaration, and an index can tell the position of
each name. Adding a binding goes by the index: it takes the position of its name, or a new one at
the end. So no name is ever listed twice.
-/

namespace TypeSearch.Scope

open List

variable {scope next : Scope} {binding : Binding} {name : String}

def names (scope : Scope) : List String := scope.bindings.map (·.name)

def index (scope : Scope) (name : String) : Option Nat :=
  scope.bindings.findIdx? (·.name == name)

theorem index_eq (scope : Scope) (name : String) :
    scope.index name = scope.names.findIdx? (· == name) := by
  rw [names, findIdx?_map]
  rfl

theorem index_eq_none_iff : scope.index name = none ↔ name ∉ scope.names := by
  rw [index_eq, findIdx?_eq_none_iff]
  refine ⟨fun hall hmem => by simpa using hall name hmem, fun hnot other hother => ?_⟩
  have hother : other ≠ name := fun heq => hnot (heq ▸ hother)
  simpa using hother

theorem isSome_binding? (scope : Scope) (name : String) :
    (scope.binding? name).isSome = true ↔ name ∈ scope.names := by
  rw [binding?, find?_isSome, names, mem_map]
  simp only [beq_iff_eq]

theorem index_eq_some_iff (hnames : scope.names.Nodup) {position : Nat} :
    scope.index name = some position ↔ scope.names[position]? = some name := by
  rw [index_eq, findIdx?_eq_some_iff_getElem, List.getElem?_eq_some_iff]
  refine ⟨fun ⟨hlt, hfound, _⟩ => ⟨hlt, by simpa using hfound⟩, ?_⟩
  rintro ⟨hlt, rfl⟩
  refine ⟨hlt, by simp, fun earlier hearlier heq => ?_⟩
  exact Nat.ne_of_lt hearlier (hnames.getElem_inj_iff.mp (by simpa using heq))

/-! ### Adding a binding -/

theorem names_add (scope : Scope) (binding : Binding) :
    (scope.add binding).names =
      if binding.name ∈ scope.names then scope.names else scope.names ++ [binding.name] := by
  by_cases hknown : binding.name ∈ scope.names
  · have hsome := (isSome_binding? scope binding.name).mpr hknown
    rw [if_pos hknown, names, names, add]
    dsimp only
    rw [if_pos hsome, map_map]
    refine map_congr_left fun old _ => ?_
    by_cases hname : old.name = binding.name <;> simp [hname]
  · have hnone : ¬ (scope.binding? binding.name).isSome = true :=
      mt (isSome_binding? scope binding.name).mp hknown
    rw [if_neg hknown, names, names, add]
    dsimp only
    rw [if_neg hnone, map_append]
    rfl

theorem nodup_names_add (hnames : scope.names.Nodup) (binding : Binding) :
    (scope.add binding).names.Nodup := by
  rw [names_add]
  by_cases hknown : binding.name ∈ scope.names
  · rwa [if_pos hknown]
  · rw [if_neg hknown]
    rw [← concat_eq_append]
    exact hnames.concat hknown

theorem index_add (scope : Scope) (binding : Binding) :
    (scope.add binding).index =
      if (scope.index binding.name).isSome then scope.index
      else Function.update scope.index binding.name (some scope.bindings.length) := by
  funext name
  rw [index_eq, names_add]
  by_cases hknown : binding.name ∈ scope.names
  · have hsome : (scope.index binding.name).isSome = true := by
      rwa [Option.isSome_iff_ne_none, Ne, index_eq_none_iff, not_not]
    rw [if_pos hknown, if_pos hsome, index_eq]
  · have hnone := index_eq_none_iff.mpr hknown
    rw [if_neg hknown, hnone, Option.isSome_none, if_neg Bool.false_ne_true, findIdx?_append,
      ← index_eq, Function.update_apply]
    by_cases hname : name = binding.name
    · subst hname
      simp [hnone, names]
    · simp [hname, Ne.symm hname]

theorem bindings_add (hnames : scope.names.Nodup) (binding : Binding) :
    (scope.add binding).bindings =
      (scope.index binding.name).elim (scope.bindings ++ [{ binding with scope := some scope.id }])
        fun position => scope.bindings.set position { binding with scope := some scope.id } := by
  rw [add]
  dsimp only
  cases hindex : scope.index binding.name with
  | none =>
    have hnone : ¬ (scope.binding? binding.name).isSome = true :=
      mt (isSome_binding? scope binding.name).mp (index_eq_none_iff.mp hindex)
    rw [if_neg hnone, Option.elim_none]
  | some position =>
    have hposition := (index_eq_some_iff hnames).mp hindex
    have hknown : binding.name ∈ scope.names := mem_of_getElem? hposition
    rw [if_pos ((isSome_binding? scope binding.name).mpr hknown), Option.elim_some]
    refine ext_getElem? fun other => ?_
    rw [getElem?_map, getElem?_set]
    have hname (old : Binding) (hold : scope.bindings[other]? = some old) :
        old.name = binding.name ↔ position = other := by
      have hother : scope.names[other]? = some old.name := by
        rw [names, getElem?_map, hold, Option.map_some]
      refine ⟨fun heq => ?_, ?_⟩
      · rw [heq, ← index_eq_some_iff hnames, hindex] at hother
        exact Option.some.inj hother
      · rintro rfl
        exact Option.some.inj (hother.symm.trans hposition)
    by_cases heq : position = other
    · subst heq
      have hlt : position < scope.bindings.length := by
        simpa [names] using (List.getElem?_eq_some_iff.mp hposition).1
      have hold := getElem?_eq_getElem hlt
      have hsame := (hname _ hold).mpr rfl
      rw [if_pos rfl, if_pos hlt, hold, Option.map_some]
      simp [hsame]
    · rw [if_neg heq]
      cases hold : scope.bindings[other]? with
      | none => rfl
      | some old =>
        have hdiffers := mt (hname old hold).mp heq
        simp [hdiffers]

/-- Names are listed once, names are found by the index, and the index follows what is added. -/
structure Indexed (scope : Scope) : Prop where
  nodup : scope.names.Nodup
  index_eq_some_iff : ∀ name position,
    scope.index name = some position ↔ scope.names[position]? = some name
  binding?_eq : ∀ name, scope.binding? name = (scope.index name).bind (scope.bindings[·]?)
  bindings_add : ∀ binding, (scope.add binding).bindings =
    (scope.index binding.name).elim (scope.bindings ++ [{ binding with scope := some scope.id }])
      fun position => scope.bindings.set position { binding with scope := some scope.id }
  index_add : ∀ binding, (scope.add binding).index =
    if (scope.index binding.name).isSome then scope.index
    else Function.update scope.index binding.name (some scope.bindings.length)

theorem indexed (hnames : scope.names.Nodup) : scope.Indexed :=
  ⟨hnames, fun _ _ => index_eq_some_iff hnames, fun _ => find?_eq_bind_findIdx?_getElem?,
    bindings_add hnames,
    index_add scope⟩

end TypeSearch.Scope
