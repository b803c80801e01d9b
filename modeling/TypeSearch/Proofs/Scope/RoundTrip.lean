import Mathlib.Algebra.Ring.Int.Defs
import TypeSearch.Proofs.Scope.Arena
import TypeSearch.Proofs.Scope.Resolve

/-!
# What was entered and left again

Operations that enter a scope, stay inside of it and at last leave it do not leak names. All that
time the scopes around it are as they were when it was entered: what is declared goes to a scope
inside, and a function that is left takes in its body, which is newer than every open scope.
-/

namespace TypeSearch

open List

theorem Scope.Stays.type? {scope next : Scope} (hstays : scope.Stays next) (name : String) :
    next.type? name = scope.type? name := by
  rw [hstays]
  rfl

namespace Table

variable {table next last base : Table} {operation : Operation} {operations : List Operation}
  {inner : List Scope.Id} {depth : Int} {kinds : List Scope.Kind} {id : Scope.Id}

/-! ### Operations that come back -/

def climb (operations : List Operation) : Int := (operations.map Operation.rise).sum

@[simp]
theorem climb_cons (operation : Operation) (operations : List Operation) :
    climb (operation :: operations) = operation.rise + climb operations := by
  rw [climb, map_cons, sum_cons, climb]

/-- Operations that start `depth` scopes inside of a scope and come back to this scope with the last
of them, not before. -/
structure Returns (depth : Int) (operations : List Operation) : Prop where
  inside : ∀ count < operations.length, 0 < depth + climb (operations.take count)
  back : depth + climb operations = 0

/-- Operations that enter a scope, stay inside of it, and leave it with the last of them. -/
def RoundTrip (operations : List Operation) : Prop :=
  ∃ first rest, operations = first :: rest ∧ first.rise = 1 ∧ Returns 1 rest

theorem Returns.tail (hreturns : Returns depth (operation :: operations)) :
    Returns (depth + operation.rise) operations := by
  refine ⟨fun count hcount => ?_, ?_⟩
  · have hinside := hreturns.inside (count + 1) (Nat.succ_lt_succ hcount)
    rw [take_succ_cons, climb_cons] at hinside
    omega
  · have hback := hreturns.back
    rw [climb_cons] at hback
    omega

theorem Returns.pos (hreturns : Returns depth (operation :: operations)) : 0 < depth := by
  have hinside := hreturns.inside 0 (Nat.zero_lt_succ _)
  simpa [climb] using hinside

theorem Returns.eq_nil (hreturns : Returns 0 operations) : operations = [] := by
  cases operations with
  | nil => rfl
  | cons operation operations => exact absurd hreturns.pos (Int.lt_irrefl 0)

/-! ### What no operation changes -/

theorem leave_fixed (hleave : table.leave kinds = .ok next) :
    (next.enclosing.length : Int) = table.enclosing.length + -1 ∧ next.prelude = table.prelude ∧
      next.file = table.file := by
  obtain ⟨outer, rest, henclosing, rfl⟩ := leave_eq_ok hleave
  refine ⟨?_, rfl, rfl⟩
  rw [henclosing, length_cons]
  dsimp only
  omega

theorem Operation.apply_fixed (happly : operation.apply table = .ok next) :
    (next.enclosing.length : Int) = table.enclosing.length + operation.rise ∧
      next.prelude = table.prelude ∧ next.file = table.file := by
  obtain ⟨hrise, kind, node, rfl⟩ | ⟨hrise, ⟨kinds, hleave⟩ | hleave⟩ | ⟨hrise, hdeclares⟩ :=
    apply_cases happly <;> rw [hrise]
  · exact ⟨rfl, rfl, rfl⟩
  · exact leave_fixed hleave
  · obtain ⟨left, hleft, hmerge⟩ := leaveAbstraction_eq_ok hleave
    obtain ⟨body, -, rfl⟩ := mergeBody_eq_ok hmerge
    obtain ⟨-, henclosing, hprelude, hfile⟩ := path_mergeInto left table.current body
    rw [henclosing, hprelude, hfile]
    exact leave_fixed hleft
  · rw [(List.cons.inj hdeclares.path).2]
    exact ⟨(Int.add_zero _).symm, hdeclares.prelude, hdeclares.file⟩

/-! ### Inside of a scope -/

/-- The scopes `inner` are open inside of the scope in which the table `base` was, and those around
this scope are as they were. -/
structure Inside (base : Table) (inner : List Scope.Id) (table : Table) : Prop where
  arena : table.Arena
  path : table.path = inner ++ base.path
  prelude : table.prelude = base.prelude
  file : table.file = base.file
  size_le : base.size ≤ table.size
  outer : ∀ id ∈ base.enclosing, table.scopeAt id = base.scopeAt id

theorem Inside.refl (harena : base.Arena) : Inside base [] base :=
  ⟨harena, rfl, rfl, rfl, le_rfl, fun _ _ => rfl⟩

section Step

variable (hinside : Inside base inner table)
include hinside

theorem Inside.length_enclosing :
    table.enclosing.length = inner.length + base.enclosing.length := by
  have hlength := congrArg List.length hinside.path
  rw [length_append, Table.path, Table.path, length_cons, length_cons] at hlength
  omega

theorem Inside.mem_enclosing (hid : id ∈ base.enclosing) : id ∈ table.enclosing := by
  cases inner with
  | nil =>
    have hpath := hinside.path
    rw [nil_append, Table.path, Table.path] at hpath
    rwa [(List.cons.inj hpath).2]
  | cons first inner =>
    have hpath := hinside.path
    rw [cons_append, Table.path] at hpath
    rw [(List.cons.inj hpath).2]
    exact mem_append_right inner (.tail _ hid)

theorem Inside.lt_current (hid : id ∈ base.enclosing) : id < table.current :=
  hinside.arena.wellFormed.nested.lt_of_mem (hinside.mem_enclosing hid)

theorem Inside.frame (hinner : inner = []) : Frame True base table := by
  subst hinner
  have hpath := hinside.path
  rw [nil_append, Table.path, Table.path] at hpath
  obtain ⟨hcurrent, henclosing⟩ := List.cons.inj hpath
  exact ⟨hinside.arena.wellFormed, hcurrent, henclosing, hinside.prelude, hinside.file,
    hinside.size_le, hinside.outer, .inl trivial⟩

theorem Inside.enter (kind : Scope.Kind) (node : Option Tree.Locus) :
    Inside base (table.size :: inner) (table.enter kind node) := by
  have hwf := hinside.arena.wellFormed
  refine ⟨hinside.arena.enter kind node, ?_, hinside.prelude, hinside.file, ?_, fun id hid => ?_⟩
  · rw [cons_append, ← hinside.path]
    rfl
  · rw [size_enter]
    exact hinside.size_le.trans (Nat.le_succ _)
  · rw [hwf.scopeAt_enter kind node (hinside.mem_enclosing hid), hinside.outer id hid]

theorem Inside.declares (hdeclares : Declares table next) : Inside base inner next := by
  refine ⟨hinside.arena.declares hdeclares, hdeclares.path.trans hinside.path,
    hdeclares.prelude.trans hinside.prelude, hdeclares.file.trans hinside.file, ?_,
    fun id hid => ?_⟩
  · rw [hdeclares.size]
    exact hinside.size_le
  · rw [hdeclares.others id (hinside.lt_current hid).ne, hinside.outer id hid]

end Step

theorem Inside.leave (hinside : Inside base (id :: inner) table)
    (hleave : table.leave kinds = .ok next) : Inside base inner next := by
  have harena := hinside.arena.leave hleave
  obtain ⟨outer, rest, henclosing, rfl⟩ := leave_eq_ok hleave
  have hpath := hinside.path
  rw [cons_append, Table.path, henclosing] at hpath
  exact ⟨harena, (List.cons.inj hpath).2, hinside.prelude, hinside.file, hinside.size_le,
    hinside.outer⟩

theorem Inside.leaveAbstraction (hinside : Inside base (id :: inner) table)
    (hleave : table.leaveAbstraction = .ok next) : Inside base inner next := by
  have harena := hinside.arena.leaveAbstraction hleave
  obtain ⟨left, hleft, hmerge⟩ := leaveAbstraction_eq_ok hleave
  have hinner := hinside.leave hleft
  have hlt : left.current < table.current := by
    obtain ⟨outer, rest, henclosing, rfl⟩ := leave_eq_ok hleft
    exact hinside.arena.wellFormed.nested.lt_of_mem (henclosing ▸ mem_cons_self)
  have hframe := (hinner.arena.wellFormed.frame_refl False).mergeBody hlt hmerge
  refine ⟨harena, hframe.path_eq.trans hinner.path, hframe.prelude.trans hinner.prelude,
    hframe.file.trans hinner.file, hinner.size_le.trans hframe.size_le, fun id hid => ?_⟩
  rw [hframe.outer id (hinner.mem_enclosing hid), hinner.outer id hid]

theorem Inside.apply (hinside : Inside base inner table)
    (happly : operation.apply table = .ok next) (hstays : inner ≠ [] ∨ 0 ≤ operation.rise) :
    ∃ inner', Inside base inner' next ∧ (inner'.length : Int) = inner.length + operation.rise := by
  have hlength := (Operation.apply_fixed happly).1
  suffices hexists : ∃ inner', Inside base inner' next by
    obtain ⟨inner', hnext⟩ := hexists
    refine ⟨inner', hnext, ?_⟩
    rw [hnext.length_enclosing, hinside.length_enclosing] at hlength
    push_cast at hlength
    omega
  -- whoever leaves is inside of the scope
  have hleaves : next.enclosing.length < table.enclosing.length →
      ∃ id rest, inner = id :: rest := by
    intro hless
    refine exists_cons_of_ne_nil (hstays.resolve_right fun hrise => ?_)
    omega
  obtain ⟨-, kind, node, rfl⟩ | ⟨-, ⟨kinds, hleave⟩ | hleave⟩ | ⟨-, hdeclares⟩ :=
    Operation.apply_cases happly
  · exact ⟨_, hinside.enter kind node⟩
  · have hless := (leave_fixed hleave).1
    obtain ⟨id, rest, rfl⟩ := hleaves (by omega)
    exact ⟨rest, hinside.leave hleave⟩
  · obtain ⟨left, hleft, hmerge⟩ := leaveAbstraction_eq_ok hleave
    have hless := (leave_fixed hleft).1
    obtain ⟨body, -, rfl⟩ := mergeBody_eq_ok hmerge
    have hsame := (path_mergeInto left table.current body).2.1
    obtain ⟨id, rest, rfl⟩ := hleaves (by rw [hsame]; omega)
    exact ⟨rest, hinside.leaveAbstraction hleave⟩
  · exact ⟨inner, hinside.declares hdeclares⟩

/-! ### Round trips -/

/-- A run that leaves `base` does so with its last operation, from a frame of `base`. -/
theorem Inside.run (hinside : Inside base inner table)
    (hreturns : Returns (inner.length + 1) operations) (hrun : table.run operations = .ok last) :
    ∃ (before : Table) (operation : Operation), Frame True base before ∧
      operation.apply before = .ok last ∧ operation.rise = -1 := by
  induction operations generalizing table inner with
  | nil =>
    have hback := hreturns.back
    simp only [climb, map_nil, sum_nil] at hback
    omega
  | cons operation operations ih =>
    obtain ⟨next, happly, hrest⟩ := run_cons_eq_ok hrun
    by_cases hstays : inner ≠ [] ∨ 0 ≤ operation.rise
    · obtain ⟨inner', hnext, hlength⟩ := hinside.apply happly hstays
      refine ih hnext ?_ hrest
      have htail := hreturns.tail
      rwa [hlength, Int.add_right_comm]
    · rw [not_or, not_not, Int.not_le] at hstays
      obtain ⟨hinner, hrise⟩ := hstays
      have hdown : operation.rise = -1 := by
        cases operation <;> simp_all [Operation.rise]
      have htail := hreturns.tail
      rw [hinner, hdown] at htail
      obtain rfl := Returns.eq_nil htail
      obtain rfl : next = last := Except.ok.inj hrest
      exact ⟨table, operation, hinside.frame hinner, happly, hdown⟩

theorem WellFormed.frame_apply (hwf : table.WellFormed) {kind : Scope.Kind}
    {node : Option Tree.Locus} (hframe : Frame True (table.enter kind node) next)
    (happly : operation.apply next = .ok last) (hrise : operation.rise = -1) :
    Frame False table last := by
  cases operation with
  | leaveBlock | leaveModule => exact hwf.frame_leave hframe happly
  | leaveAbstraction =>
    obtain ⟨left, hleft, hmerge⟩ := leaveAbstraction_eq_ok happly
    refine (hwf.frame_leave hframe hleft).mergeBody ?_ hmerge
    rw [hframe.current]
    exact hwf.current_lt
  | enterBlock _ | enterAbstraction _ | enterModule _ | markNext _ | templates _ _ | bind _ _ _
  | declare _ | declareType _ => cases hrise

theorem Operation.enters (hrise : operation.rise = 1) (happly : operation.apply table = .ok next) :
    ∃ kind node, next = table.enter kind node := by
  cases operation with
  | enterBlock node | enterAbstraction node | enterModule node =>
    cases happly
    exact ⟨_, node, rfl⟩
  | leaveBlock | leaveAbstraction | leaveModule | markNext _ | templates _ _ | bind _ _ _
  | declare _ | declareType _ => cases hrise

theorem Arena.frame_roundTrip (harena : table.Arena) (htrip : RoundTrip operations)
    (hrun : table.run operations = .ok next) : Frame False table next := by
  obtain ⟨first, rest, rfl, hrise, hreturns⟩ := htrip
  obtain ⟨entered, hfirst, hrest⟩ := run_cons_eq_ok hrun
  obtain ⟨kind, node, rfl⟩ := Operation.enters hrise hfirst
  have hreturns' : Returns (([] : List Scope.Id).length + 1) rest := hreturns
  obtain ⟨before, operation, hframe, happly, hdown⟩ :=
    (Inside.refl (harena.enter kind node)).run hreturns' hrest
  exact harena.wellFormed.frame_apply hframe happly hdown

/-! ### Names and types -/

def openType? (table : Table) (name : String) : Option Declaration :=
  table.path.findSome? fun id => (table.scopeAt id).type? name

theorem WellFormed.resolveType_of_open (hwf : table.WellFormed) {name : String}
    {declaration : Declaration} (hopen : table.openType? name = some declaration) :
    table.resolveType name = some declaration := by
  have hfound : table.outward.findSome? (·.type? name) = some declaration := by
    rw [hwf.outward_eq, findSome?_map]
    exact hopen
  rw [resolveType, hfound, Option.some_or]

theorem Frame.openType?_eq (hframe : Frame False table next) (name : String) :
    next.openType? name = table.openType? name := by
  have hall := hframe.findSome?_path (fun hstays => hstays.type? name) table.path.length
  rw [hframe.path_eq, take_length] at hall
  rw [openType?, openType?, hframe.path_eq, hall]

/-- **Inner scopes leak no names.** Let operations that do not halt enter a scope, in a table that
any operations have led to, stay inside of it and leave it at last. Then the same scopes are open as
before, every name stands for what it stood for, in any number of the innermost scopes and
altogether, and so does every name of a type that an open scope has. -/
theorem round_trip_keeps_names {file : String} {node : Option Tree.Locus} {prelude : List Binding}
    {before : List Operation} (hbefore : (ofFile file node prelude).run before = .ok table)
    (htrip : RoundTrip operations) (hrun : table.run operations = .ok next) :
    next.current = table.current ∧ next.path = table.path ∧
    (∀ name, next.resolve name = table.resolve name) ∧
    (∀ count name, next.resolveAmong count name = table.resolveAmong count name) ∧
    ∀ name declaration, table.openType? name = some declaration →
      table.resolveType name = some declaration ∧ next.resolveType name = some declaration := by
  have harena := (arena_ofFile file node prelude).run hbefore
  have hframe := harena.frame_roundTrip htrip hrun
  refine ⟨hframe.current, hframe.path_eq, hframe.resolve_eq harena.wellFormed,
    hframe.resolveAmong_eq harena.wellFormed, fun name declaration hopen => ⟨?_, ?_⟩⟩
  · exact harena.wellFormed.resolveType_of_open hopen
  · refine hframe.wellFormed.resolveType_of_open ?_
    rw [hframe.openType?_eq, hopen]

def moduleWithNames : List Operation :=
  [.enterModule none, .declare { name := "x", type := .number }, .declareType { name := "T" }]

def functionWithSameNames : List Operation :=
  [.enterAbstraction none, .templates (.identifier ⟨⟨1, Span.zero⟩, "p", none⟩) {},
    .enterBlock none, .declare { name := "x", type := .string },
    .declareType { name := "T", params := [⟨7, "a"⟩] }, .enterBlock none,
    .declare { name := "p", type := .string }, .leaveBlock, .leaveBlock, .leaveAbstraction]

theorem round_trip_keeps_names_of_function : ∃ table next,
    (ofFile "file" none []).run moduleWithNames = .ok table ∧ RoundTrip functionWithSameNames ∧
    table.run functionWithSameNames = .ok next ∧
    (next.scopeAt 2).names = ["x"] ∧ ((next.scopeAt 2).type? "T").isSome = true ∧
    next.current = 1 ∧ (∀ name, next.resolve name = table.resolve name) ∧
    (next.resolve "x").bind (·.scope) = some 1 ∧
    (next.resolveType "T").map (·.params.length) = some 0 := by
  have htrip : RoundTrip functionWithSameNames := ⟨_, _, rfl, rfl, ⟨by decide, by decide⟩⟩
  have hcheck : ((ofFile "file" none []).run moduleWithNames).toOption.any (fun table =>
      (table.resolve "x").bind (·.scope) = some 1 ∧ table.current = 1 ∧
      (table.openType? "T").map (·.params.length) = some 0 ∧
      (table.run functionWithSameNames).toOption.any (fun next =>
        (next.scopeAt 2).names = ["x"] ∧ ((next.scopeAt 2).type? "T").isSome = true)) = true := by
    decide +kernel
  obtain ⟨table, hbefore, htest⟩ := exists_of_any hcheck
  obtain ⟨hscope, hcurrent, htype, hafter⟩ := of_decide_eq_true htest
  obtain ⟨next, hrun, htest⟩ := exists_of_any hafter
  obtain ⟨hnames, hown⟩ := of_decide_eq_true htest
  obtain ⟨hsame, -, hresolve, -, hopen⟩ := round_trip_keeps_names hbefore htrip hrun
  obtain ⟨declaration, hdeclared, hparams⟩ := Option.map_eq_some_iff.mp htype
  refine ⟨table, next, hbefore, htrip, hrun, hnames, hown, hsame.trans hcurrent, hresolve, ?_, ?_⟩
  · rw [hresolve, hscope]
  · rw [(hopen _ _ hdeclared).2, Option.map_some, hparams]

end Table

end TypeSearch
