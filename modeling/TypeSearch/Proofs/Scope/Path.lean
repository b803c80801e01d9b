import Mathlib.Order.Nat
import TypeSearch.Scope.Table

/-!
# The open scopes

The open scopes of a table lie on a path from the current scope to that of the file. Whatever is
done inside a nested scope leaves, once that is closed, the scopes on the path as they were: a scope
is nested only in older ones, and merging a closed body into its function moves only newer ones.
-/

namespace TypeSearch

open List

variable {scope next : Scope}

def Scope.Stays (scope next : Scope) : Prop := next = { scope with children := next.children }

theorem Scope.Stays.refl (scope : Scope) : scope.Stays scope := rfl

theorem Scope.Stays.trans {last : Scope} (hleft : scope.Stays next) (hright : next.Stays last) :
    scope.Stays last := by
  rw [Scope.Stays] at hleft hright ⊢
  rw [hright, hleft]

theorem Scope.Stays.lookup? (hstays : scope.Stays next) (name : String) :
    next.lookup? name = scope.lookup? name := by
  rw [hstays]
  rfl

namespace Table

variable {table next last : Table} {id other : Scope.Id} {f : Scope → Scope} {declares : Prop}
  {β : Type} {ids : List Scope.Id} {kinds : List Scope.Kind}

/-! ### Looking at one scope after a change -/

theorem scopeAt_eq (table : Table) (id : Scope.Id) :
    table.scopeAt id = (table.scopes[id]?).getD default := by
  rw [scopeAt, Array.getD_eq_getD_getElem?]

@[simp]
theorem size_modifyScope (table : Table) (id : Scope.Id) (f : Scope → Scope) :
    (table.modifyScope id f).size = table.size := by
  simp [modifyScope, size]

theorem scopeAt_modifyScope (hid : id < table.size) :
    (table.modifyScope id f).scopeAt id = f (table.scopeAt id) := by
  have hsome : table.scopes[id]? = some table.scopes[id] := Array.getElem?_eq_getElem hid
  rw [scopeAt_eq, scopeAt_eq, modifyScope, Array.getElem?_modify, if_pos rfl, hsome]
  rfl

theorem scopeAt_modifyScope_of_ne (hne : other ≠ id) :
    (table.modifyScope id f).scopeAt other = table.scopeAt other := by
  rw [scopeAt_eq, scopeAt_eq, modifyScope, Array.getElem?_modify, if_neg (Ne.symm hne)]

theorem scopeAt_of_size_le (hid : table.size ≤ id) : table.scopeAt id = default := by
  rw [scopeAt_eq, Array.getElem?_eq_none hid]
  rfl

theorem modifyScope_keeps (view : Scope → β) (hview : ∀ scope, view (f scope) = view scope)
    (table : Table) (id other : Scope.Id) :
    view ((table.modifyScope id f).scopeAt other) = view (table.scopeAt other) := by
  by_cases heq : other = id
  · subst heq
    by_cases hid : other < table.size
    · rw [scopeAt_modifyScope hid, hview]
    · rw [scopeAt_of_size_le (by simpa using hid), scopeAt_of_size_le (by simpa using hid)]
  · rw [scopeAt_modifyScope_of_ne heq]

theorem view_modifyScope (view : Scope → β) (hid : id < table.size) :
    view ((table.modifyScope id f).scopeAt other) =
      if other = id then view (f (table.scopeAt id)) else view (table.scopeAt other) := by
  by_cases heq : other = id
  · rw [if_pos heq, heq, scopeAt_modifyScope hid]
  · rw [if_neg heq, scopeAt_modifyScope_of_ne heq]

/-! ### The path -/

def path (table : Table) : List Scope.Id := table.current :: table.enclosing

/-- Every scope of the list is nested right inside the next one, which is older, and the last one is
nested in none. -/
inductive Nested (table : Table) : List Scope.Id → Prop
  | root {id : Scope.Id} (hparent : (table.scopeAt id).parent = none) : Nested table [id]
  | inside {id outer : Scope.Id} {rest : List Scope.Id}
      (hparent : (table.scopeAt id).parent = some outer) (hlt : outer < id)
      (hrest : Nested table (outer :: rest)) : Nested table (id :: outer :: rest)

theorem Nested.congr (hnested : table.Nested ids)
    (hparent : ∀ id ∈ ids, (next.scopeAt id).parent = (table.scopeAt id).parent) :
    next.Nested ids := by
  induction hnested with
  | root hroot => exact .root (by rw [hparent _ (by simp), hroot])
  | inside hinside hlt _ ih =>
    refine .inside (by rw [hparent _ (by simp), hinside]) hlt (ih fun id hid => ?_)
    exact hparent id (.tail _ hid)

theorem Nested.lt_of_mem (hnested : table.Nested (id :: ids)) (hother : other ∈ ids) :
    other < id := by
  induction ids generalizing id with
  | nil => cases hother
  | cons outer rest ih =>
    cases hnested with
    | inside _ hlt hrest =>
      rcases mem_cons.mp hother with rfl | hmem
      · exact hlt
      · exact (ih hrest hmem).trans hlt

theorem Nested.length_le (hnested : table.Nested (id :: ids)) : ids.length ≤ id := by
  induction ids generalizing id with
  | nil => exact Nat.zero_le id
  | cons outer rest ih =>
    cases hnested with
    | inside _ hlt hrest => exact Nat.succ_le_of_lt ((ih hrest).trans_lt hlt)

theorem Nested.outwardFrom (hnested : table.Nested (id :: ids)) {steps : Nat}
    (hsteps : ids.length < steps) :
    table.outwardFrom steps (some id) = (id :: ids).map table.scopeAt := by
  induction ids generalizing id steps with
  | nil =>
    obtain ⟨steps, rfl⟩ := Nat.exists_eq_add_of_lt hsteps
    cases hnested with
    | root hparent =>
      rw [Table.outwardFrom, hparent]
      cases steps <;> rfl
  | cons outer rest ih =>
    rw [length_cons] at hsteps
    obtain ⟨less, rfl⟩ := Nat.exists_eq_succ_of_ne_zero (Nat.ne_zero_of_lt hsteps)
    cases hnested with
    | inside hparent _ hrest =>
      rw [Table.outwardFrom, hparent, ih hrest (by omega)]
      rfl

/-- The open scopes lie one inside the other and are no merged bodies, and a scope is nested only in
older ones. -/
structure WellFormed (table : Table) : Prop where
  current_lt : table.current < table.size
  nested : table.Nested table.path
  unmerged : ∀ id ∈ table.path, (table.scopeAt id).mergedInto = none
  children : ∀ id, ∀ child ∈ (table.scopeAt id).children, id < child ∧ child < table.size

theorem wellFormed_ofFile (file : String) (node : Option Tree.Locus) (prelude : List Binding) :
    (ofFile file node prelude).WellFormed := by
  refine ⟨by simp [ofFile, size], .root rfl, ?_, fun id child hchild => ?_⟩
  · intro id hid
    obtain rfl : id = 0 := by simpa [path, ofFile] using hid
    rfl
  · have hnone : ((ofFile file node prelude).scopeAt id).children = [] := by
      cases id <;> rfl
    rw [hnone] at hchild
    cases hchild

theorem WellFormed.le_current (hwf : table.WellFormed) (hid : id ∈ table.path) :
    id ≤ table.current := by
  rcases mem_cons.mp hid with rfl | hmem
  · exact le_rfl
  · exact (hwf.nested.lt_of_mem hmem).le

theorem WellFormed.lt_size (hwf : table.WellFormed) (hid : id ∈ table.path) : id < table.size :=
  (hwf.le_current hid).trans_lt hwf.current_lt

theorem WellFormed.outward_eq (hwf : table.WellFormed) :
    table.outward = table.path.map table.scopeAt := by
  refine hwf.nested.outwardFrom ?_
  exact hwf.nested.length_le.trans_lt hwf.current_lt

theorem WellFormed.length_path_le (hwf : table.WellFormed) : table.path.length ≤ table.size :=
  Nat.succ_le_of_lt (hwf.nested.length_le.trans_lt hwf.current_lt)

/-! ### What stays when scopes change -/

/-- The same scopes are open, those around the current one are unchanged, and so is the current one,
apart from scopes nested in it, unless something may be declared. -/
structure Frame (declares : Prop) (table next : Table) : Prop where
  wellFormed : next.WellFormed
  current : next.current = table.current
  enclosing : next.enclosing = table.enclosing
  prelude : next.prelude = table.prelude
  file : next.file = table.file
  size_le : table.size ≤ next.size
  outer : ∀ id ∈ table.enclosing, next.scopeAt id = table.scopeAt id
  own : declares ∨ table.currentScope.Stays next.currentScope

theorem Frame.path_eq (hframe : Frame declares table next) : next.path = table.path := by
  rw [path, path, hframe.current, hframe.enclosing]

theorem WellFormed.frame_refl (hwf : table.WellFormed) (declares : Prop) :
    Frame declares table table :=
  ⟨hwf, rfl, rfl, rfl, rfl, le_rfl, fun _ _ => rfl, .inr (.refl _)⟩

theorem Frame.trans (hleft : Frame declares table next) (hright : Frame declares next last) :
    Frame declares table last where
  wellFormed := hright.wellFormed
  current := hright.current.trans hleft.current
  enclosing := hright.enclosing.trans hleft.enclosing
  prelude := hright.prelude.trans hleft.prelude
  file := hright.file.trans hleft.file
  size_le := hleft.size_le.trans hright.size_le
  outer id hid := by
    rw [hright.outer id (by rwa [hleft.enclosing]), hleft.outer id hid]
  own := by
    rcases hleft.own with hdeclares | hstays
    · exact .inl hdeclares
    · exact hright.own.imp_right hstays.trans

theorem Frame.mono {more : Prop} (hframe : Frame declares table next) (himp : declares → more) :
    Frame more table next :=
  { hframe with own := hframe.own.imp_left himp }

theorem Frame.scopeAt_stays (hframe : Frame False table next) (hid : id ∈ table.path) :
    (table.scopeAt id).Stays (next.scopeAt id) := by
  rcases mem_cons.mp hid with rfl | hmem
  · have hown := hframe.own.resolve_left id
    rwa [currentScope, currentScope, hframe.current] at hown
  · rw [hframe.outer id hmem]
    exact .refl _

theorem WellFormed.currentScope_modifyCurrent (hwf : table.WellFormed) (f : Scope → Scope) :
    (table.modifyCurrent f).currentScope = f table.currentScope :=
  scopeAt_modifyScope hwf.current_lt

theorem WellFormed.frame_marked (hwf : table.WellFormed) (flags : Flags)
    (declared : List (String × Declaration)) :
    Frame declares table { table with next := flags, declared } :=
  ⟨⟨hwf.current_lt, hwf.nested.congr fun _ _ => rfl, hwf.unmerged, hwf.children⟩, rfl, rfl, rfl,
    rfl, le_rfl, fun _ _ => rfl, .inr (.refl _)⟩

/-! ### Nested scopes -/

section Enter

variable (table) (kind : Scope.Kind) (node : Option Tree.Locus)

@[simp]
theorem size_enter : (table.enter kind node).size = table.size + 1 := by
  simp [enter, modifyCurrent, modifyScope, size]

theorem scopeAt_enter_of_lt (hid : id < table.size) :
    (table.enter kind node).scopeAt id =
      (table.modifyCurrent fun scope =>
        { scope with children := scope.children ++ [table.size] }).scopeAt id := by
  have hlt : id < (table.modifyCurrent fun scope =>
      { scope with children := scope.children ++ [table.size] }).scopes.size := by
    simpa [modifyCurrent, modifyScope, size] using hid
  rw [scopeAt_eq, scopeAt_eq, enter, Array.getElem?_push_lt hlt, Array.getElem?_eq_getElem hlt]

theorem scopeAt_enter_size :
    (table.enter kind node).scopeAt table.size =
      { id := table.size, kind, parent := some table.current, node } := by
  have hsize : (table.modifyCurrent fun scope =>
      { scope with children := scope.children ++ [table.size] }).scopes.size = table.size :=
    size_modifyScope table _ _
  rw [scopeAt_eq, enter]
  dsimp only
  rw [Array.getElem?_push, if_pos hsize.symm]
  rfl

theorem currentScope_enter :
    (table.enter kind node).currentScope =
      { id := table.size, kind, parent := some table.current, node } :=
  scopeAt_enter_size table kind node

end Enter

theorem WellFormed.scopeAt_enter (hwf : table.WellFormed) (kind : Scope.Kind)
    (node : Option Tree.Locus) (hid : id ∈ table.enclosing) :
    (table.enter kind node).scopeAt id = table.scopeAt id := by
  rw [scopeAt_enter_of_lt table kind node (hwf.lt_size (.tail _ hid))]
  exact scopeAt_modifyScope_of_ne (hwf.nested.lt_of_mem hid).ne

theorem WellFormed.scopeAt_enter_current (hwf : table.WellFormed) (kind : Scope.Kind)
    (node : Option Tree.Locus) :
    (table.enter kind node).scopeAt table.current =
      { table.currentScope with children := table.currentScope.children ++ [table.size] } := by
  rw [scopeAt_enter_of_lt table kind node hwf.current_lt]
  exact scopeAt_modifyScope hwf.current_lt

theorem WellFormed.scopeAt_enter_stays (hwf : table.WellFormed) (kind : Scope.Kind)
    (node : Option Tree.Locus) (hid : id ∈ table.path) :
    (table.scopeAt id).Stays ((table.enter kind node).scopeAt id) := by
  rcases mem_cons.mp hid with rfl | hmem
  · rw [hwf.scopeAt_enter_current]
    rfl
  · rw [hwf.scopeAt_enter kind node hmem]
    exact .refl _

theorem WellFormed.enter (hwf : table.WellFormed) (kind : Scope.Kind) (node : Option Tree.Locus) :
    (table.enter kind node).WellFormed := by
  have hstays : ∀ {id}, id ∈ table.path →
      (table.scopeAt id).Stays ((table.enter kind node).scopeAt id) :=
    hwf.scopeAt_enter_stays kind node
  refine ⟨?_, .inside ?_ hwf.current_lt (hwf.nested.congr fun id hid => ?_), fun id hid => ?_,
    fun id child hchild => ?_⟩
  · rw [size_enter]
    exact Nat.lt_succ_self table.size
  · exact congrArg Scope.parent (scopeAt_enter_size table kind node)
  · rw [hstays hid]
  · rcases mem_cons.mp hid with rfl | hmem
    · exact congrArg Scope.mergedInto (scopeAt_enter_size table kind node)
    · rw [hstays hmem]
      exact hwf.unmerged id hmem
  · rw [size_enter]
    have hold : child ∈ (table.scopeAt id).children → id < child ∧ child < table.size + 1 :=
      fun hmem => (hwf.children id child hmem).imp_right Nat.lt_succ_of_lt
    rcases Nat.lt_trichotomy id table.size with hlt | rfl | hgt
    · by_cases hcurrent : id = table.current
      · subst hcurrent
        rw [hwf.scopeAt_enter_current] at hchild
        rcases mem_append.mp hchild with hmem | hnew
        · exact hold hmem
        · rw [mem_singleton.mp hnew]
          exact ⟨hlt, Nat.lt_succ_self _⟩
      · rw [scopeAt_enter_of_lt table kind node hlt, Table.modifyCurrent,
          scopeAt_modifyScope_of_ne hcurrent] at hchild
        exact hold hchild
    · rw [scopeAt_enter_size] at hchild
      cases hchild
    · rw [scopeAt_of_size_le ((size_enter table kind node).trans_le hgt)] at hchild
      cases hchild

theorem leave_eq_ok (hleave : table.leave kinds = .ok next) :
    ∃ outer rest, table.enclosing = outer :: rest ∧
      next = { table with current := outer, enclosing := rest } := by
  simp only [leave] at hleave
  split at hleave
  · cases hleave
  split at hleave
  · cases hleave
  split at hleave
  · cases hleave
  · rename_i outer rest henclosing
    cases hleave
    exact ⟨outer, rest, henclosing, rfl⟩

theorem WellFormed.leave (hwf : table.WellFormed) (hleave : table.leave kinds = .ok next) :
    next.WellFormed ∧ next.current < table.current := by
  obtain ⟨outer, rest, henclosing, rfl⟩ := leave_eq_ok hleave
  have hnested := hwf.nested
  rw [path, henclosing] at hnested
  cases hnested with
  | inside _ hlt hrest =>
    refine ⟨⟨hlt.trans hwf.current_lt, hrest.congr fun _ _ => rfl, fun id hid => ?_,
      hwf.children⟩, hlt⟩
    refine hwf.unmerged id (.tail _ ?_)
    rwa [henclosing]

/-- The scope of the file is the last one that is open, so there is always a current one. -/
theorem WellFormed.leave_ne_noCurrentScope (hwf : table.WellFormed) (kinds : List Scope.Kind) :
    table.leave kinds ≠ .error .noCurrentScope := by
  intro hleave
  simp only [Table.leave] at hleave
  split at hleave
  · cases hleave
  split at hleave
  · cases hleave
  rename_i hparent
  split at hleave
  · rename_i henclosing
    have hnested := hwf.nested
    rw [path, henclosing] at hnested
    cases hnested with
    | root hroot => exact hparent (by rw [currentScope, hroot]; rfl)
  · cases hleave

theorem WellFormed.frame_leave (hwf : table.WellFormed) {kind : Scope.Kind}
    {node : Option Tree.Locus} (hframe : Frame declares (table.enter kind node) next)
    (hleave : next.leave kinds = .ok last) : Frame False table last := by
  obtain ⟨outer, rest, henclosing, rfl⟩ := leave_eq_ok hleave
  have hsplit : table.current = outer ∧ table.enclosing = rest := by
    have heq : table.current :: table.enclosing = outer :: rest :=
      hframe.enclosing.symm.trans henclosing
    exact ⟨(List.cons.inj heq).1, (List.cons.inj heq).2⟩
  obtain ⟨rfl, rfl⟩ := hsplit
  have hinner := hframe.wellFormed
  have hat : ∀ id ∈ table.path, next.scopeAt id = (table.enter kind node).scopeAt id := hframe.outer
  have hsize : table.size ≤ next.size :=
    (Nat.le_succ _).trans ((size_enter table kind node).ge.trans hframe.size_le)
  refine ⟨⟨?_, ?_, ?_, hinner.children⟩, rfl, rfl, hframe.prelude, hframe.file, hsize,
    fun id hid => ?_, .inr ?_⟩
  · exact hwf.current_lt.trans_le hsize
  · have hnested := hinner.nested
    rw [path, henclosing] at hnested
    cases hnested with
    | inside _ _ hrest => exact hrest.congr fun _ _ => rfl
  · intro id hid
    refine hinner.unmerged id (.tail _ ?_)
    rwa [henclosing]
  · exact (hat id (.tail _ hid)).trans (hwf.scopeAt_enter kind node hid)
  · have hmem : table.current ∈ table.path := (.head _)
    have hstays := hwf.scopeAt_enter_stays kind node hmem
    rw [← hat table.current hmem] at hstays
    exact hstays

/-! ### Merging a body into its function -/

section Merge

variable {inner : Scope.Id}

theorem size_foldl_modifyScope (ids : List Scope.Id) (table : Table) :
    (ids.foldl (fun table id => table.modifyScope id f) table).size = table.size :=
  foldlRecOn (motive := fun next : Table => next.size = table.size) _ _ rfl
    fun _ hsize _ _ => (size_modifyScope ..).trans hsize

theorem foldl_modifyScope_keeps (view : Scope → β) (hview : ∀ scope, view (f scope) = view scope)
    (ids : List Scope.Id) (table : Table) (other : Scope.Id) :
    view ((ids.foldl (fun table id => table.modifyScope id f) table).scopeAt other) =
      view (table.scopeAt other) := by
  induction ids generalizing table with
  | nil => rfl
  | cons id ids ih => rw [foldl_cons, ih, modifyScope_keeps view hview]

theorem scopeAt_foldl_modifyScope (hother : other ∉ ids) (table : Table) :
    (ids.foldl (fun table id => table.modifyScope id f) table).scopeAt other =
      table.scopeAt other := by
  induction ids generalizing table with
  | nil => rfl
  | cons id ids ih =>
    rw [mem_cons, not_or] at hother
    rw [foldl_cons, ih hother.2, scopeAt_modifyScope_of_ne hother.1]

theorem scopeAt_map (hdefault : f default = default) (table : Table) (id : Scope.Id) :
    { table with scopes := table.scopes.map f }.scopeAt id = f (table.scopeAt id) := by
  rw [scopeAt_eq, scopeAt_eq, Array.getElem?_map]
  cases table.scopes[id]? with
  | none => exact hdefault.symm
  | some scope => rfl

/-- The first part of merging: the function takes in its body, and the scopes nested in the body
become nested in the function. -/
def adopted (table : Table) (id inner : Scope.Id) : Table :=
  (table.scopeAt inner).children.foldl
    (fun table child => table.modifyScope child fun scope => { scope with parent := some id })
    (table.modifyScope id (·.absorb (table.scopeAt inner)))

theorem size_adopted (table : Table) (id inner : Scope.Id) :
    (table.adopted id inner).size = table.size := by
  rw [adopted, size_foldl_modifyScope, size_modifyScope]

def closed (table : Table) (id inner : Scope.Id) : Table :=
  (table.adopted id inner).modifyScope inner fun scope =>
    { scope with children := [], mergedInto := some id }

def handedOver (id inner : Scope.Id) (scope : Scope) : Scope :=
  if scope.mergedInto.isSome then scope.handOver inner id else scope

theorem mergeInto_eq (table : Table) (id inner : Scope.Id) :
    table.mergeInto id inner =
      { table.closed id inner with
        scopes := (table.closed id inner).scopes.map (handedOver id inner) } := rfl

theorem scopeAt_mergeInto (table : Table) (id inner other : Scope.Id) :
    (table.mergeInto id inner).scopeAt other =
      handedOver id inner ((table.closed id inner).scopeAt other) := by
  rw [mergeInto_eq]
  exact scopeAt_map rfl _ _

@[simp]
theorem size_mergeInto (table : Table) (id inner : Scope.Id) :
    (table.mergeInto id inner).size = table.size := by
  have hmap : (table.mergeInto id inner).size = (table.closed id inner).size := by
    rw [mergeInto_eq, size, size, Array.size_map]
  rw [hmap, closed, size_modifyScope, size_adopted]

theorem adopted_keeps (view : Scope → β)
    (hview : ∀ scope, view { scope with parent := some id } = view scope) :
    view ((table.adopted id inner).scopeAt other) =
      view ((table.modifyScope id (·.absorb (table.scopeAt inner))).scopeAt other) :=
  foldl_modifyScope_keeps view hview _ _ _

theorem closed_keeps (view : Scope → β) (hview : ∀ scope,
      view { scope with children := [], mergedInto := some id } = view scope) :
    view ((table.closed id inner).scopeAt other) =
      view ((table.adopted id inner).scopeAt other) :=
  modifyScope_keeps view hview _ _ _

theorem mergeInto_keeps (view : Scope → β)
    (hview : ∀ scope, view (scope.handOver inner id) = view scope) :
    view ((table.mergeInto id inner).scopeAt other) =
      view ((table.closed id inner).scopeAt other) := by
  rw [scopeAt_mergeInto, handedOver]
  split
  · exact hview _
  · rfl

theorem path_mergeInto (table : Table) (id inner : Scope.Id) :
    (table.mergeInto id inner).current = table.current ∧
      (table.mergeInto id inner).enclosing = table.enclosing ∧
      (table.mergeInto id inner).prelude = table.prelude ∧
      (table.mergeInto id inner).file = table.file :=
  foldlRecOn (motive := fun next : Table => next.current = table.current ∧
      next.enclosing = table.enclosing ∧ next.prelude = table.prelude ∧ next.file = table.file)
    (table.scopeAt inner).children _ ⟨rfl, rfl, rfl, rfl⟩ fun _ hfixed _ _ => hfixed

theorem scopeAt_mergeInto_of_apart (hid : other ≠ id) (hinner : other ≠ inner)
    (hchild : other ∉ (table.scopeAt inner).children)
    (hunmerged : (table.scopeAt other).mergedInto = none) :
    (table.mergeInto id inner).scopeAt other = table.scopeAt other := by
  have hclosed : (table.closed id inner).scopeAt other = table.scopeAt other := by
    rw [closed, scopeAt_modifyScope_of_ne hinner, adopted, scopeAt_foldl_modifyScope hchild,
      scopeAt_modifyScope_of_ne hid]
  rw [scopeAt_mergeInto, hclosed, handedOver, hunmerged]
  rfl

theorem children_mergeInto (hid : id < table.size) (hinner : inner < table.size) :
    ((table.mergeInto id inner).scopeAt other).children =
      if other = inner then [] else
        if other = id then (table.scopeAt inner).children else (table.scopeAt other).children := by
  rw [mergeInto_keeps Scope.children fun _ => rfl, closed,
    view_modifyScope Scope.children (by rwa [size_adopted]),
    adopted_keeps Scope.children fun _ => rfl, view_modifyScope Scope.children hid]
  rfl

theorem mergeBody_eq_ok (hmerge : table.mergeBody id = .ok next) :
    ∃ body ∈ (table.scopeAt id).children, next = table.mergeInto id body := by
  simp only [mergeBody] at hmerge
  split at hmerge
  · rename_i body hbody
    cases hmerge
    refine ⟨body, ?_, rfl⟩
    exact (mem_filter.mp (hbody ▸ mem_singleton_self body)).1
  · cases hmerge

theorem Frame.mergeBody (hframe : Frame declares table next) (hid : table.current < id)
    (hmerge : next.mergeBody id = .ok last) : Frame declares table last := by
  obtain ⟨body, hbody, rfl⟩ := mergeBody_eq_ok hmerge
  have hwf := hframe.wellFormed
  obtain ⟨hcurrent, henclosing, hprelude, hfile⟩ := path_mergeInto next id body
  have hpath : (next.mergeInto id body).path = next.path := by rw [path, path, hcurrent, henclosing]
  obtain ⟨hlt, hsize⟩ := hwf.children id body hbody
  have hopen : ∀ other ∈ next.path,
      (next.mergeInto id body).scopeAt other = next.scopeAt other := by
    -- an open scope is older than the function, and what the merge changes is newer
    intro other hother
    have hold : other < id := by
      have hle := hwf.le_current hother
      rw [hframe.current] at hle
      exact hle.trans_lt hid
    refine scopeAt_mergeInto_of_apart hold.ne (hold.trans hlt).ne (fun hchild => ?_)
      (hwf.unmerged other hother)
    exact (hold.trans hlt).not_gt (hwf.children body other hchild).1
  refine ⟨⟨?_, ?_, fun other hother => ?_, fun other child hchild => ?_⟩,
    hcurrent.trans hframe.current, henclosing.trans hframe.enclosing,
    hprelude.trans hframe.prelude, hfile.trans hframe.file, ?_, fun other hother => ?_, ?_⟩
  · rw [hcurrent, size_mergeInto]
    exact hwf.current_lt
  · rw [hpath]
    exact hwf.nested.congr fun other hother => by rw [hopen other hother]
  · rw [hpath] at hother
    rw [hopen other hother]
    exact hwf.unmerged other hother
  · rw [size_mergeInto]
    rw [children_mergeInto (hlt.trans hsize) hsize] at hchild
    split at hchild
    · cases hchild
    split at hchild
    · rename_i heq
      exact heq ▸ (hwf.children body child hchild).imp_left hlt.trans
    · exact hwf.children other child hchild
  · rw [size_mergeInto]
    exact hframe.size_le
  · rw [hopen other (.tail _ (by rwa [hframe.enclosing])), hframe.outer other hother]
  · rw [currentScope, currentScope, hcurrent, hopen next.current (.head _)]
    exact hframe.own

end Merge

end Table

end TypeSearch
