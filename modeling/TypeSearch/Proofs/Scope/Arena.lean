import Mathlib.Data.List.Count
import TypeSearch.Proofs.Scope.Operation

/-!
# The arena of scopes

The scopes of a table form a tree with the file's scope as its root, apart from the bodies that were
merged into their functions. The open scopes are a branch of this tree, so what goes outwards from
the current scope comes to an end, and it meets the open scopes.
-/

namespace TypeSearch

open List

variable {β : Type}

namespace Scope

variable {scope inner : Scope}

theorem nodup_names_absorb (hnames : scope.names.Nodup) : (scope.absorb inner).names.Nodup := by
  obtain ⟨next, hgrows, habsorb⟩ := exists_grows_absorb scope inner
  rw [habsorb]
  exact hgrows.nodup_names hnames

theorem names_handOver (old new : Scope.Id) : (scope.handOver old new).names = scope.names := by
  rw [names, names, handOver, map_map]
  refine map_congr_left fun binding _ => ?_
  by_cases hold : binding.scope = some old <;> simp [hold]

end Scope

namespace Table

variable {table next last : Table} {id inner other : Scope.Id} {ids : List Scope.Id}

/-! ### One scope after a merge -/

theorem parent_foldl_adopt (hids : ∀ child ∈ ids, child < table.size) :
    ((ids.foldl (fun table child => table.modifyScope child fun scope =>
      { scope with parent := some id }) table).scopeAt other).parent =
        if other ∈ ids then some id else (table.scopeAt other).parent := by
  induction ids generalizing table with
  | nil => rfl
  | cons child ids ih =>
    obtain ⟨hchild, hrest⟩ := forall_mem_cons.mp hids
    rw [foldl_cons, ih (by simpa using hrest), view_modifyScope Scope.parent hchild]
    by_cases hother : other = child <;> by_cases hmem : other ∈ ids <;> simp [hother, hmem]

section Merge

theorem id_mergeInto :
    ((table.mergeInto id inner).scopeAt other).id = (table.scopeAt other).id := by
  rw [mergeInto_keeps Scope.id fun _ => rfl, closed_keeps Scope.id fun _ => rfl,
    adopted_keeps Scope.id fun _ => rfl]
  exact absorbed_keeps Scope.id (·.samePlace.id) fun _ _ _ => rfl

theorem mergedInto_mergeInto (hinner : inner < table.size) :
    ((table.mergeInto id inner).scopeAt other).mergedInto =
      if other = inner then some id else (table.scopeAt other).mergedInto := by
  rw [mergeInto_keeps Scope.mergedInto fun _ => rfl, closed,
    view_modifyScope Scope.mergedInto (by rwa [size_adopted]),
    adopted_keeps Scope.mergedInto fun _ => rfl]
  refine if_congr Iff.rfl rfl ?_
  exact absorbed_keeps Scope.mergedInto (·.samePlace.mergedInto) fun _ _ _ => rfl

theorem parent_mergeInto
    (hchildren : ∀ child ∈ (table.scopeAt inner).children, child < table.size) :
    ((table.mergeInto id inner).scopeAt other).parent =
      if other ∈ (table.scopeAt inner).children then some id else (table.scopeAt other).parent := by
  rw [mergeInto_keeps Scope.parent fun _ => rfl, closed_keeps Scope.parent fun _ => rfl, adopted,
    parent_foldl_adopt (by simpa using hchildren)]
  refine if_congr Iff.rfl rfl ?_
  exact absorbed_keeps Scope.parent (·.samePlace.parent) fun _ _ _ => rfl

theorem nodup_names_mergeInto (hnames : ∀ other, (table.scopeAt other).names.Nodup)
    (hid : id < table.size) : ((table.mergeInto id inner).scopeAt other).names.Nodup := by
  rw [mergeInto_keeps Scope.names fun _ => Scope.names_handOver _ _,
    closed_keeps Scope.names fun _ => rfl, adopted_keeps Scope.names fun _ => rfl,
    view_modifyScope Scope.names hid]
  split
  · exact Scope.nodup_names_absorb (hnames id)
  · exact hnames other

end Merge

/-! ### The invariant -/

/-- Scopes are known by their position; every scope but the first is nested in an older one, and
lists of nested scopes hold the unmerged ones; merged scopes have none. -/
structure Arena (table : Table) : Prop where
  wellFormed : table.WellFormed
  id : ∀ id < table.size, (table.scopeAt id).id = id
  root : (table.scopeAt 0).parent = none
  parent : ∀ id, 0 < id → id < table.size → ∃ outer < id, (table.scopeAt id).parent = some outer
  nodup : ∀ id, (table.scopeAt id).children.Nodup
  mem_children : ∀ id child, child ∈ (table.scopeAt id).children ↔ child < table.size ∧
    (table.scopeAt child).parent = some id ∧ (table.scopeAt child).mergedInto = none
  merged : ∀ id, (table.scopeAt id).mergedInto ≠ none → (table.scopeAt id).children = []
  names : ∀ id, (table.scopeAt id).names.Nodup

theorem scopeAt_ofFile (file : String) (node : Option Tree.Locus) (prelude : List Binding) :
    (ofFile file node prelude).scopeAt id =
      if id = 0 then { id := 0, kind := .file, node } else default := by
  cases id <;> rfl

theorem arena_ofFile (file : String) (node : Option Tree.Locus) (prelude : List Binding) :
    (ofFile file node prelude).Arena := by
  have hsize : (ofFile file node prelude).size = 1 := rfl
  have hchildren (id : Scope.Id) : ((ofFile file node prelude).scopeAt id).children = [] := by
    rw [scopeAt_ofFile]
    split <;> rfl
  refine ⟨wellFormed_ofFile file node prelude, fun id hid => ?_, rfl, fun id hpos hid => ?_,
    fun id => ?_, fun id child => ?_, fun id _ => hchildren id, fun id => ?_⟩
  · obtain rfl : id = 0 := by omega
    rfl
  · omega
  · rw [hchildren]
    exact nodup_nil
  · rw [hchildren, scopeAt_ofFile]
    split <;> simp_all
  · rw [scopeAt_ofFile]
    split <;> exact nodup_nil

section Enter

variable {kind : Scope.Kind} {node : Option Tree.Locus}

theorem view_enter (view : Scope → β)
    (hview : ∀ scope children, view { scope with children } = view scope) (hid : id < table.size) :
    view ((table.enter kind node).scopeAt id) = view (table.scopeAt id) := by
  rw [scopeAt_enter_of_lt table kind node hid]
  exact modifyScope_keeps view (fun scope => hview scope _) table table.current id

theorem children_enter (hcurrent : table.current < table.size) (id : Scope.Id) :
    ((table.enter kind node).scopeAt id).children =
      if id = table.current then (table.scopeAt id).children ++ [table.size]
      else (table.scopeAt id).children := by
  rcases Nat.lt_trichotomy id table.size with hlt | rfl | hgt
  · rw [scopeAt_enter_of_lt table kind node hlt, modifyCurrent,
      view_modifyScope Scope.children hcurrent]
    by_cases hid : id = table.current <;> simp [hid]
  · rw [scopeAt_enter_size, if_neg hcurrent.ne', scopeAt_of_size_le (Nat.le_refl _)]
    rfl
  · rw [scopeAt_of_size_le ((size_enter table kind node).trans_le hgt),
      if_neg (hcurrent.trans hgt).ne', scopeAt_of_size_le hgt.le]

end Enter

section Step

variable (harena : table.Arena)
include harena

theorem Arena.lt_of_parent (hother : other < table.size)
    (hparent : (table.scopeAt other).parent = some id) : id < other := by
  rcases Nat.eq_zero_or_pos other with rfl | hpos
  · rw [harena.root] at hparent
    cases hparent
  · obtain ⟨outer, hlt, houter⟩ := harena.parent other hpos hother
    rw [houter] at hparent
    cases hparent
    exact hlt

theorem Arena.declares (hdeclares : Declares table next) : next.Arena := by
  have hplace := hdeclares.samePlace
  have hsize := hdeclares.size
  refine ⟨(hdeclares.frame harena.wellFormed).wellFormed, fun id hid => ?_, ?_,
    fun id hpos hid => ?_, fun id => ?_, fun id child => ?_, fun id hmerged => ?_, fun id => ?_⟩
  · rw [(hplace id).id]
    exact harena.id id (hsize ▸ hid)
  · rw [(hplace 0).parent, harena.root]
  · rw [(hplace id).parent]
    exact harena.parent id hpos (hsize ▸ hid)
  · rw [(hplace id).children]
    exact harena.nodup id
  · rw [(hplace id).children, hsize, (hplace child).parent, (hplace child).mergedInto]
    exact harena.mem_children id child
  · rw [(hplace id).mergedInto] at hmerged
    rw [(hplace id).children]
    exact harena.merged id hmerged
  · by_cases hid : id = table.current
    · exact hid ▸ hdeclares.own.nodup_names (harena.names table.current)
    · rw [hdeclares.others id hid]
      exact harena.names id

theorem Arena.leave {kinds : List Scope.Kind} (hleave : table.leave kinds = .ok next) :
    next.Arena := by
  have hwf := (harena.wellFormed.leave hleave).1
  obtain ⟨outer, rest, -, rfl⟩ := leave_eq_ok hleave
  exact { harena with wellFormed := hwf }

theorem Arena.size_notMem_children (id : Scope.Id) : table.size ∉ (table.scopeAt id).children :=
  fun hmem => Nat.lt_irrefl _ ((harena.mem_children id _).mp hmem).1

theorem Arena.mem_children_enter (kind : Scope.Kind) (node : Option Tree.Locus)
    (id child : Scope.Id) :
    child ∈ ((table.enter kind node).scopeAt id).children ↔ child < (table.enter kind node).size ∧
      ((table.enter kind node).scopeAt child).parent = some id ∧
      ((table.enter kind node).scopeAt child).mergedInto = none := by
  rw [children_enter harena.wellFormed.current_lt, size_enter]
  rcases Nat.lt_trichotomy child table.size with hlt | rfl | hgt
  · have hold : child ∈ (if id = table.current then (table.scopeAt id).children ++ [table.size]
        else (table.scopeAt id).children) ↔ child ∈ (table.scopeAt id).children := by
      split <;> simp [hlt.ne]
    rw [hold, harena.mem_children, view_enter Scope.parent (fun _ _ => rfl) hlt,
      view_enter Scope.mergedInto (fun _ _ => rfl) hlt]
    simp [hlt, Nat.lt_succ_of_lt hlt]
  · rw [scopeAt_enter_size]
    by_cases hid : id = table.current
    · simp [hid]
    · simp [hid, Ne.symm hid, harena.size_notMem_children]
  · refine iff_of_false (fun hmem => ?_) fun hmem => Nat.not_lt.mpr hgt hmem.1
    have hold : child ∉ (table.scopeAt id).children :=
      fun hmem => Nat.lt_asymm hgt ((harena.mem_children id child).mp hmem).1
    split at hmem
    · exact (mem_append.mp hmem).elim hold fun hnew => hgt.ne' (mem_singleton.mp hnew)
    · exact hold hmem

theorem Arena.enter (kind : Scope.Kind) (node : Option Tree.Locus) :
    (table.enter kind node).Arena := by
  have hwf := harena.wellFormed
  have hnew := scopeAt_enter_size table kind node
  refine ⟨hwf.enter kind node, fun id hid => ?_, ?_, fun id hpos hid => ?_, fun id => ?_,
    harena.mem_children_enter kind node, fun id hmerged => ?_, fun id => ?_⟩
  · rw [size_enter, Nat.lt_succ_iff_lt_or_eq] at hid
    obtain hid | rfl := hid
    · rw [view_enter Scope.id (fun _ _ => rfl) hid]
      exact harena.id id hid
    · rw [hnew]
  · rw [view_enter Scope.parent (fun _ _ => rfl) (Nat.zero_lt_of_lt hwf.current_lt)]
    exact harena.root
  · rw [size_enter, Nat.lt_succ_iff_lt_or_eq] at hid
    obtain hid | rfl := hid
    · rw [view_enter Scope.parent (fun _ _ => rfl) hid]
      exact harena.parent id hpos hid
    · rw [hnew]
      exact ⟨table.current, hwf.current_lt, rfl⟩
  · rw [children_enter hwf.current_lt]
    split
    · rw [← concat_eq_append]
      exact (harena.nodup id).concat (harena.size_notMem_children id)
    · exact harena.nodup id
  · rcases Nat.lt_trichotomy id table.size with hlt | rfl | hgt
    · rw [view_enter Scope.mergedInto (fun _ _ => rfl) hlt] at hmerged
      have hclosed : id ≠ table.current := by
        rintro rfl
        exact hmerged (hwf.unmerged table.current (.head _))
      rw [children_enter hwf.current_lt, if_neg hclosed]
      exact harena.merged id hmerged
    · rw [hnew]
    · rw [scopeAt_of_size_le ((size_enter table kind node).trans_le hgt)]
      rfl
  · rcases Nat.lt_trichotomy id table.size with hlt | rfl | hgt
    · rw [view_enter Scope.names (fun _ _ => rfl) hlt]
      exact harena.names id
    · rw [hnew]
      exact nodup_nil
    · rw [scopeAt_of_size_le ((size_enter table kind node).trans_le hgt)]
      exact nodup_nil

theorem Arena.mergeBody_eq_ok (hmerge : table.mergeBody id = .ok next) :
    ∃ body, (table.scopeAt id).children = [body] ∧ next = table.mergeInto id body := by
  have hunmerged : ∀ child ∈ (table.scopeAt id).children,
      (table.scopeAt child).mergedInto.isNone = true := by
    intro child hchild
    rw [((harena.mem_children id child).mp hchild).2.2]
    rfl
  simp only [mergeBody] at hmerge
  rw [filter_eq_self.mpr hunmerged] at hmerge
  split at hmerge
  · rename_i body hbody
    cases hmerge
    exact ⟨body, hbody, rfl⟩
  · cases hmerge

theorem Arena.mem_children_mergeInto {body : Scope.Id}
    (hbody : (table.scopeAt id).children = [body]) (other child : Scope.Id) :
    child ∈ ((table.mergeInto id body).scopeAt other).children ↔
      child < (table.mergeInto id body).size ∧
      ((table.mergeInto id body).scopeAt child).parent = some other ∧
      ((table.mergeInto id body).scopeAt child).mergedInto = none := by
  have hmem (id child : Scope.Id) := harena.mem_children id child
  obtain ⟨hlt, hparent, hunmerged⟩ := (hmem id body).mp (by simp [hbody])
  have hid := harena.lt_of_parent hlt hparent
  have hnested (child : Scope.Id) (hchild : child ∈ (table.scopeAt body).children) :
      child < table.size := ((hmem body child).mp hchild).1
  rw [children_mergeInto (hid.trans hlt) hlt, size_mergeInto, parent_mergeInto hnested,
    mergedInto_mergeInto hlt]
  by_cases hchild : child ∈ (table.scopeAt body).children
  · -- a scope of the body is now nested in the function
    obtain ⟨hsize, hinside, hfree⟩ := (hmem body child).mp hchild
    have hne : child ≠ body := (harena.lt_of_parent hsize hinside).ne'
    rw [if_pos hchild, if_neg hne]
    by_cases hfirst : other = body
    · simp [hfirst, hid.ne]
    · rw [if_neg hfirst]
      by_cases hsecond : other = id
      · simp [hsecond, hchild, hsize, hfree]
      · simp [hsecond, Ne.symm hsecond, hmem, hinside, Ne.symm hfirst]
  · -- for other scopes only the body itself makes a difference
    rw [if_neg hchild]
    by_cases hsame : child = body
    · subst hsame
      have hnot : child ∉ (if other = child then [] else if other = id then
          (table.scopeAt child).children else (table.scopeAt other).children) := by
        split
        · simp
        · split
          · exact hchild
          · rename_i hne
            rw [hmem, hparent]
            exact fun hand => hne (Option.some.inj hand.2.1).symm
      simp [hnot]
    · rw [if_neg hsame, ← hmem]
      by_cases hfirst : other = body
      · simp [hfirst, hchild]
      · rw [if_neg hfirst]
        by_cases hsecond : other = id
        · simp [hsecond, hchild, hbody, hsame]
        · rw [if_neg hsecond]

theorem Arena.mergeBody (hid : table.current < id) (hmerge : table.mergeBody id = .ok next) :
    next.Arena := by
  have hwf := harena.wellFormed
  have hlast := ((hwf.frame_refl True).mergeBody hid hmerge).wellFormed
  obtain ⟨body, hbody, rfl⟩ := harena.mergeBody_eq_ok hmerge
  obtain ⟨hlt, hparent, -⟩ := (harena.mem_children id body).mp (by simp [hbody])
  have hidlt := harena.lt_of_parent hlt hparent
  have hnested (child : Scope.Id) (hchild : child ∈ (table.scopeAt body).children) :
      body < child ∧ child < table.size := hwf.children body child hchild
  refine ⟨hlast, fun other hother => ?_, ?_, fun other hpos hother => ?_, fun other => ?_,
    harena.mem_children_mergeInto hbody, fun other hmerged => ?_, fun other => ?_⟩
  · rw [id_mergeInto]
    exact harena.id other (by simpa using hother)
  · rw [parent_mergeInto fun child hchild => (hnested child hchild).2, if_neg fun hmem => ?_]
    · exact harena.root
    · exact absurd (hnested 0 hmem).1 (Nat.not_lt_zero body)
  · rw [parent_mergeInto fun child hchild => (hnested child hchild).2]
    by_cases hmem : other ∈ (table.scopeAt body).children
    · rw [if_pos hmem]
      exact ⟨id, hidlt.trans (hnested other hmem).1, rfl⟩
    · rw [if_neg hmem]
      exact harena.parent other hpos (by simpa using hother)
  · rw [children_mergeInto (hidlt.trans hlt) hlt]
    split
    · exact nodup_nil
    · split
      · exact harena.nodup body
      · exact harena.nodup other
  · rw [mergedInto_mergeInto hlt] at hmerged
    rw [children_mergeInto (hidlt.trans hlt) hlt]
    by_cases heq : other = body
    · rw [if_pos heq]
    · rw [if_neg heq] at hmerged ⊢
      have hchildless := harena.merged other hmerged
      rw [if_neg, hchildless]
      rintro rfl
      rw [hbody] at hchildless
      cases hchildless
  · exact nodup_names_mergeInto harena.names (hidlt.trans hlt)

theorem Arena.leaveAbstraction (hleave : table.leaveAbstraction = .ok next) : next.Arena := by
  obtain ⟨left, hleft, hmerge⟩ := leaveAbstraction_eq_ok hleave
  refine (harena.leave hleft).mergeBody ?_ hmerge
  obtain ⟨outer, rest, henclosing, rfl⟩ := leave_eq_ok hleft
  exact harena.wellFormed.nested.lt_of_mem (henclosing ▸ mem_cons_self)

/-- One operation keeps parents and children of the arena in step. -/
theorem Arena.apply {operation : Operation} (happly : operation.apply table = .ok next) :
    next.Arena := by
  obtain ⟨-, kind, node, rfl⟩ | ⟨-, ⟨kinds, hleave⟩ | hleave⟩ | ⟨-, hdeclares⟩ :=
    Operation.apply_cases happly
  · exact harena.enter kind node
  · exact harena.leave hleave
  · exact harena.leaveAbstraction hleave
  · exact harena.declares hdeclares

/-- A run of operations keeps parents and children of the arena in step. -/
theorem Arena.run {operations : List Operation} (hrun : table.run operations = .ok next) :
    next.Arena := by
  induction operations generalizing table with
  | nil =>
    cases hrun
    exact harena
  | cons operation operations ih =>
    obtain ⟨middle, happly, hrest⟩ := run_cons_eq_ok hrun
    exact ih (harena.apply happly) hrest

/-! ### What follows -/

theorem Arena.listed (hpos : 0 < id) (hid : id < table.size) : ∃ outer < id,
    (table.scopeAt id).parent = some outer ∧ ((table.scopeAt id).mergedInto = none →
      (table.scopeAt outer).children.count id = 1 ∧
        ∀ other ≠ outer, id ∉ (table.scopeAt other).children) := by
  obtain ⟨outer, hlt, hparent⟩ := harena.parent id hpos hid
  refine ⟨outer, hlt, hparent, fun hunmerged => ⟨?_, fun other hother hmem => ?_⟩⟩
  · exact count_eq_one_of_mem (harena.nodup outer)
      ((harena.mem_children outer id).mpr ⟨hid, hparent, hunmerged⟩)
  · have hsame := ((harena.mem_children other id).mp hmem).2.1
    rw [hparent] at hsame
    exact hother (Option.some.inj hsame).symm

theorem Arena.unlisted (hmerged : (table.scopeAt id).mergedInto ≠ none) :
    (∀ other, id ∉ (table.scopeAt other).children) ∧ (table.scopeAt id).children = [] ∧
      id ∉ table.path :=
  ⟨fun other hmem => hmerged ((harena.mem_children other id).mp hmem).2.2, harena.merged id hmerged,
    fun hmem => hmerged (harena.wellFormed.unmerged id hmem)⟩

theorem Arena.getLast?_path : table.path.getLast? = some 0 := by
  have hlast {ids : List Scope.Id} (hnested : table.Nested ids)
      (hids : ∀ id ∈ ids, id < table.size) : ids.getLast? = some 0 := by
    induction hnested with
    | @root id hparent =>
      rcases Nat.eq_zero_or_pos id with rfl | hpos
      · rfl
      · obtain ⟨outer, -, houter⟩ := harena.parent id hpos (hids id (.head _))
        rw [hparent] at houter
        cases houter
    | inside _ _ _ ih =>
      rw [getLast?_cons_cons]
      exact ih fun id hid => hids id (.tail _ hid)
  exact hlast harena.wellFormed.nested fun id hid => harena.wellFormed.lt_size hid

end Step

theorem Nested.isChain (hnested : table.Nested ids) :
    ids.IsChain fun inner outer => (table.scopeAt inner).parent = some outer := by
  induction hnested with
  | root => exact .singleton _
  | inside hparent _ _ ih => exact isChain_cons_cons.mpr ⟨hparent, ih⟩

/-- **Operations keep the arena in order.** After any operations that do not halt, scopes are known
by their position, all but the file's are nested in an older one, which lists them once unless they
were merged, the open scopes lead from the current one to the file's, and no name is listed twice in
a scope. What goes outwards meets the open scopes, the innermost first, and ends. -/
theorem run_arena {file : String} {node : Option Tree.Locus} {prelude : List Binding}
    {operations : List Operation} (hrun : (ofFile file node prelude).run operations = .ok table) :
    (∀ id < table.size, (table.scopeAt id).id = id) ∧
    (∀ id, 0 < id → id < table.size → ∃ outer < id,
      (table.scopeAt id).parent = some outer ∧ ((table.scopeAt id).mergedInto = none →
        (table.scopeAt outer).children.count id = 1 ∧
          ∀ other ≠ outer, id ∉ (table.scopeAt other).children)) ∧
    (∀ id, (table.scopeAt id).mergedInto ≠ none →
      (∀ other, id ∉ (table.scopeAt other).children) ∧ (table.scopeAt id).children = [] ∧
        id ∉ table.path) ∧
    (table.path.getLast? = some 0 ∧
      table.path.IsChain fun inner outer => (table.scopeAt inner).parent = some outer) ∧
    (∀ id, (table.scopeAt id).Indexed) ∧
    (∀ steps, table.path.length ≤ steps →
      table.outwardFrom steps (some table.current) = table.path.map table.scopeAt) ∧
    (∀ count name, table.resolveAmong count name =
      (table.path.take count).findSome? fun id => (table.scopeAt id).lookup? name) ∧
    (∀ name, table.resolveType name =
      (table.path.findSome? fun id => (table.scopeAt id).type? name).or
        (table.declared.lookup name)) ∧
    table.visible = table.path.flatMap fun id => (table.scopeAt id).bindings := by
  have harena := (arena_ofFile file node prelude).run hrun
  have hwf := harena.wellFormed
  refine ⟨harena.id, fun id => harena.listed, fun id => harena.unlisted,
    ⟨harena.getLast?_path, hwf.nested.isChain⟩, fun id => Scope.indexed (harena.names id),
    fun steps hsteps => hwf.nested.outwardFrom hsteps, fun count name => ?_, fun name => ?_, ?_⟩
  · rw [resolveAmong, hwf.outward_eq, ← List.map_take, List.findSome?_map]
    rfl
  · rw [resolveType, hwf.outward_eq, List.findSome?_map]
    rfl
  · rw [visible, hwf.outward_eq, List.flatMap_map]

def functionThenModule : List Operation :=
  [.enterAbstraction none, .declare { name := "x", type := .number }, .enterBlock none,
    .declare { name := "y", type := .string }, .enterBlock none, .leaveBlock, .leaveBlock,
    .leaveAbstraction, .enterModule none]

theorem run_arena_of_function : ∃ table,
    (ofFile "file" none []).run functionThenModule = .ok table ∧
    (table.scopeAt 2).mergedInto = some 1 ∧ (table.scopeAt 1).names = ["x", "y"] ∧
    (∀ other, 2 ∉ (table.scopeAt other).children) ∧ (table.scopeAt 1).children.count 3 = 1 ∧
    table.outward = [table.scopeAt 4, table.scopeAt 0] := by
  have hcheck : ((ofFile "file" none []).run functionThenModule).toOption.any (fun table =>
      (table.scopeAt 2).mergedInto = some 1 ∧ (table.scopeAt 1).names = ["x", "y"] ∧
      (table.scopeAt 3).parent = some 1 ∧ (table.scopeAt 3).mergedInto = none ∧
      table.path = [4, 0] ∧ table.size = 5) = true := by decide +kernel
  obtain ⟨table, hrun, htest⟩ := exists_of_any hcheck
  obtain ⟨hmerged, hnames, hparent, hunmerged, hpath, hsize⟩ := of_decide_eq_true htest
  obtain ⟨-, hlisted, hunlisted, -, -, houtward, -⟩ := run_arena hrun
  obtain ⟨outer, -, houter, hcount⟩ := hlisted 3 (by decide) (by rw [hsize]; decide)
  rw [hparent] at houter
  cases houter
  refine ⟨table, hrun, hmerged, hnames, (hunlisted 2 (by simp [hmerged])).1,
    (hcount hunmerged).1, ?_⟩
  rw [outward, houtward table.size (by simp [hpath, hsize]), hpath]
  rfl

end Table

end TypeSearch
