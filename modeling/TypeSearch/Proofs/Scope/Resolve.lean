import Mathlib.Data.List.Basic
import TypeSearch.Proofs.Scope.Path

/-!
# Looking up names

A name is looked up in the current scope, then in those around it. So a change that keeps the open
scopes keeps what every name stands for, and a scope that was just entered, which has no names yet,
changes nothing either.
-/

namespace TypeSearch.Table

open List

variable {table next : Table} {declares : Prop} {name : String}

def outside (table : Table) (name : String) : Option Binding :=
  (table.enclosing.findSome? fun id => (table.scopeAt id).lookup? name).or
    ((table.prelude.reverse.find? (·.name == name)).or (builtIn? name))

theorem WellFormed.resolve_eq (hwf : table.WellFormed) (name : String) :
    table.resolve name = (table.currentScope.lookup? name).or (table.outside name) := by
  have hall : table.outward.take table.size = table.path.map table.scopeAt := by
    rw [hwf.outward_eq, take_of_length_le]
    rw [length_map]
    exact hwf.length_path_le
  have hpath : table.resolveAmong table.size name =
      (table.currentScope.lookup? name).or
        (table.enclosing.findSome? fun id => (table.scopeAt id).lookup? name) := by
    rw [resolveAmong, hall, findSome?_map, path, findSome?_cons, currentScope]
    cases hown : (table.scopeAt table.current).lookup? name <;> simp [hown, Function.comp_def]
  rw [resolve, hpath, Option.or_assoc, outside]

theorem WellFormed.resolveAmong_one (hwf : table.WellFormed) (name : String) :
    table.resolveAmong 1 name = table.currentScope.lookup? name := by
  rw [resolveAmong, hwf.outward_eq, path, map_cons, take_succ_cons, take_zero,
    findSome?_singleton, currentScope]

/-! ### Changes that keep names -/

theorem Frame.outside_eq (hframe : Frame declares table next) (name : String) :
    next.outside name = table.outside name := by
  have hscopes : (table.enclosing.findSome? fun id => (next.scopeAt id).lookup? name) =
      table.enclosing.findSome? fun id => (table.scopeAt id).lookup? name := by
    rw [← head?_filterMap, ← head?_filterMap]
    refine congrArg head? (filterMap_congr fun id hid => ?_)
    rw [hframe.outer id hid]
  rw [outside, outside, hframe.prelude, hframe.enclosing, hscopes]

theorem Frame.resolve_eq (hframe : Frame False table next) (hwf : table.WellFormed)
    (name : String) : next.resolve name = table.resolve name := by
  have hstays : table.currentScope.Stays next.currentScope := hframe.own.resolve_left id
  rw [hframe.wellFormed.resolve_eq, hwf.resolve_eq, hstays.lookup?, hframe.outside_eq]

theorem Frame.findSome?_path {β : Type} {view : Scope → Option β} (hframe : Frame False table next)
    (hview : ∀ {scope next : Scope}, scope.Stays next → view next = view scope) (count : Nat) :
    (next.path.take count).findSome? (fun id => view (next.scopeAt id)) =
      (table.path.take count).findSome? fun id => view (table.scopeAt id) := by
  rw [hframe.path_eq, ← head?_filterMap, ← head?_filterMap]
  refine congrArg head? (filterMap_congr fun id hid => ?_)
  exact hview (hframe.scopeAt_stays (mem_of_mem_take hid))

theorem WellFormed.resolveAmong_eq (hwf : table.WellFormed) (count : Nat) (name : String) :
    table.resolveAmong count name =
      (table.path.take count).findSome? fun id => (table.scopeAt id).lookup? name := by
  rw [resolveAmong, hwf.outward_eq, ← map_take, findSome?_map]
  rfl

theorem Frame.resolveAmong_eq (hframe : Frame False table next) (hwf : table.WellFormed)
    (count : Nat) (name : String) :
    next.resolveAmong count name = table.resolveAmong count name := by
  rw [hframe.wellFormed.resolveAmong_eq, hwf.resolveAmong_eq]
  exact hframe.findSome?_path (fun hstays => hstays.lookup? name) count

/-! ### Entered scopes -/

theorem WellFormed.outside_enter (hwf : table.WellFormed) (kind : Scope.Kind)
    (node : Option Tree.Locus) (name : String) :
    (table.enter kind node).outside name = table.resolve name := by
  have hnames : ∀ id ∈ table.path, ((table.enter kind node).scopeAt id).lookup? name =
      (table.scopeAt id).lookup? name := fun id hid =>
    (hwf.scopeAt_enter_stays kind node hid).lookup? name
  have hscopes : ((table.enter kind node).enclosing.findSome? fun id =>
      ((table.enter kind node).scopeAt id).lookup? name) =
        table.path.findSome? fun id => (table.scopeAt id).lookup? name := by
    rw [← head?_filterMap, ← head?_filterMap]
    exact congrArg head? (filterMap_congr hnames)
  have hprelude : (table.enter kind node).prelude = table.prelude := rfl
  rw [outside, hscopes, hprelude, hwf.resolve_eq, path, findSome?_cons, outside, currentScope]
  cases (table.scopeAt table.current).lookup? name <;> rfl

theorem WellFormed.resolve_enter (hwf : table.WellFormed) (kind : Scope.Kind)
    (node : Option Tree.Locus) (name : String) :
    (table.enter kind node).resolve name = table.resolve name := by
  have hown : (table.enter kind node).currentScope.lookup? name = none := by
    rw [currentScope_enter]
    rfl
  rw [(hwf.enter kind node).resolve_eq, hown, Option.none_or, hwf.outside_enter]

theorem WellFormed.resolveAmong_enter (hwf : table.WellFormed) (kind : Scope.Kind)
    (node : Option Tree.Locus) (count : Nat) (name : String) :
    (table.enter kind node).resolveAmong (count + 1) name = table.resolveAmong count name := by
  have hown : ((table.enter kind node).scopeAt table.size).lookup? name = none := by
    rw [scopeAt_enter_size]
    rfl
  have hpath : (table.enter kind node).path = table.size :: table.path := rfl
  rw [(hwf.enter kind node).resolveAmong_eq, hwf.resolveAmong_eq, hpath, take_succ_cons,
    findSome?_cons, hown, ← head?_filterMap, ← head?_filterMap]
  refine congrArg head? (filterMap_congr fun id hid => ?_)
  exact (hwf.scopeAt_enter_stays kind node (mem_of_mem_take hid)).lookup? name

end TypeSearch.Table
