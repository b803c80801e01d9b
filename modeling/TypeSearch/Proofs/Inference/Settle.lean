import TypeSearch.Proofs.Inference.Reach
import TypeSearch.Proofs.Type.Normal

/-!
# How the names of a unit are settled

A binding of a scope that a unit has opened gets, for each opened scope that lists it, the union of
what its type is in all answers. Once is enough if no answer knows anything about a variable that is
left over in another one; otherwise the second union may replace a variable that one answer leaves
open by what it stands for in another answer.
-/

namespace TypeSearch

open Inference List
open TypeSearch.Tree (Node Program Site)

/-- How many of the scopes from `first` on list a binding. -/
def Table.listings (table : Table) (first : Scope.Id) (binding : Binding) : Nat :=
  (table.scopes.toList.drop first).countP fun scope => scope.bindings.any fun other =>
    other.name == binding.name && other.scope == binding.scope

theorem Table.listings_pos {table : Table} {first id : Scope.Id} (hid : first ≤ id)
    {binding : Binding} (hbinding : binding ∈ (table.scopeAt id).bindings) :
    0 < table.listings first binding := by
  obtain ⟨k, rfl⟩ := Nat.exists_eq_add_of_le hid
  rw [scopeAt_eq, ← Array.getElem?_toList, ← getElem?_drop] at hbinding
  cases hscope : (table.scopes.toList.drop first)[k]? with
  | none =>
    rw [hscope] at hbinding
    cases hbinding
  | some scope =>
    rw [hscope] at hbinding
    refine countP_pos_iff.mpr ⟨scope, mem_of_getElem? hscope, ?_⟩
    exact any_eq_true.mpr ⟨binding, hbinding, by simp⟩

/-- The scopes from `first` on stay as they are, if the current scope is an older one. -/
def Table.StaysFrom (first : Scope.Id) (table next : Table) : Prop :=
  next.current = table.current ∧ next.size = table.size ∧
    (table.current < first → next.scopes.toList.drop first = table.scopes.toList.drop first)

instance (first : Scope.Id) : Composes (Table.StaysFrom first) where
  refl _ := ⟨rfl, rfl, fun _ => rfl⟩
  trans hleft hright := ⟨hright.1.trans hleft.1, hright.2.1.trans hleft.2.1, fun hlt =>
    (hright.2.2 (hleft.1 ▸ hlt)).trans (hleft.2.2 hlt)⟩

section StaysFrom

variable {first id : Scope.Id} {table next : Table} (hstays : table.StaysFrom first next)
  (hcurrent : table.current < first)
include hstays hcurrent

theorem Table.StaysFrom.scopeAt_eq (hid : first ≤ id) : next.scopeAt id = table.scopeAt id := by
  obtain ⟨k, rfl⟩ := Nat.exists_eq_add_of_le hid
  rw [Table.scopeAt_eq, Table.scopeAt_eq, ← Array.getElem?_toList, ← Array.getElem?_toList,
    ← getElem?_drop, ← getElem?_drop, hstays.2.2 hcurrent]

theorem Table.StaysFrom.listings_eq : next.listings first = table.listings first := by
  funext binding
  rw [listings, listings, hstays.2.2 hcurrent]

end StaysFrom

theorem Table.staysFrom_modifyCurrent (first : Scope.Id) (table : Table) (f : Scope → Scope) :
    table.StaysFrom first (table.modifyCurrent f) := by
  refine ⟨rfl, size_modifyScope _ _ _, fun hlt => ?_⟩
  rw [modifyCurrent, modifyScope, Array.toList_modify, drop_modify_of_lt _ _ _ _ hlt]

/-- Each binding has got the type that `f` gives it after as many turns as it is listed. -/
def Scope.Settles {ε : Type} (f : Ty → Outcome ε Ty) (listings : Binding → Nat)
    (scope next : Scope) : Prop :=
  ∃ bindings, next = { scope with bindings } ∧
    List.Forall₂ (fun before now => ∃ type, now = { before with type } ∧
      Infer.repeatedly f (listings before) before.type = .ok type) scope.bindings bindings

namespace Infer

variable {ε : Type} {first : Scope.Id} {table next : Table} {context : Context}
  {state after last : State} {site : Site} {result : Statement}

theorem settles_of_settleScopes {f : Ty → Outcome ε Ty}
    (hsettle : settleScopes table first f = .ok next) (hfirst : first ≤ table.size) :
    next.size = table.size ∧ ∀ id, first ≤ id →
      (table.scopeAt id).Settles f (table.listings first) (next.scopeAt id) := by
  obtain ⟨settled, hsettled, hlast⟩ := Outcome.bind_eq_ok hsettle
  cases hlast
  have hall : Forall₂ (Scope.Settles f (table.listings first))
      (table.scopes.toList.drop first) settled := by
    refine (Outcome.forall₂_of_mapM hsettled).imp fun scope now hscope => ?_
    obtain ⟨bindings, hbindings, hlast⟩ := Outcome.bind_eq_ok hscope
    cases hlast
    refine ⟨bindings, rfl, (Outcome.forall₂_of_mapM hbindings).imp fun before now hnow => ?_⟩
    obtain ⟨type, htype, hlast⟩ := Outcome.bind_eq_ok hnow
    cases hlast
    exact ⟨type, rfl, htype⟩
  have htake : (table.scopes.toList.take first).length = first := length_take_of_le hfirst
  refine ⟨?_, fun id hid => ?_⟩
  · have hlength := hall.length_eq
    rw [length_drop, Array.length_toList] at hlength
    rw [Table.size, Table.size, size_toArray, length_append, htake, ← hlength]
    exact Nat.add_sub_cancel' hfirst
  · obtain ⟨k, rfl⟩ := Nat.exists_eq_add_of_le hid
    rw [Table.scopeAt_eq, Table.scopeAt_eq, getElem?_toArray, ← Array.getElem?_toList,
      ← getElem?_drop, getElem?_append_right (by omega), htake, Nat.add_sub_cancel_left]
    exact getD_of_forall₂ ⟨[], rfl, .nil⟩ hall k

theorem settleRecorded_eq_ok {answers : Answers} (hrun : (do
      answers.answers.forM recordAnswer
      settleFrom first answers) context after = (.ok (), last)) :
    ∃ middle : Table, after.table.StaysFrom first middle ∧
      settleScopes middle first (unionOver answers) = (.ok last.table : Outcome Failure Table) := by
  obtain ⟨_, recorded, hrecorded, hrun⟩ := bind_eq_ok hrun
  obtain ⟨_, _, htable, hrun⟩ := bind_eq_ok hrun
  cases htable
  obtain ⟨settled, _, hsettled, hlast⟩ := bind_eq_ok hrun
  obtain ⟨hsettled, rfl⟩ := liftM_eq_ok hsettled
  cases hlast
  exact ⟨_, (keeps_forM keeps_recordAnswer).run hrecorded, hsettled⟩

theorem settleUnit_eq_ok (hrun : settleUnit site first result context after = (.ok (), last)) :
    ∃ middle : Table, after.table.StaysFrom first middle ∧
      settleScopes middle first (unionOver result.answers) =
        (.ok last.table : Outcome Failure Table) := by
  have htemplates (generalizes : Bool) (template : Template) :
      Keeps (Table.StaysFrom first) (settleTemplate result.answers generalizes template) :=
    keeps_liftM.bind fun _ => keeps_modifyTable fun table => table.staysFrom_modifyCurrent first _
  obtain ⟨_, named, hnamed, hrun⟩ := bind_eq_ok hrun
  obtain ⟨_, _, htable, hrun⟩ := bind_eq_ok hrun
  cases htable
  obtain ⟨_, bound, hbound, hrun⟩ := bind_eq_ok hrun
  have hstays : after.table.StaysFrom first bound.table :=
    Composes.trans ((keeps_forM (htemplates _)).run hnamed)
      ((keeps_forM (htemplates _)).run hbound)
  dsimp only at hrun
  split at hrun
  · obtain ⟨_, checked, hchecked, hrun⟩ := bind_eq_ok hrun
    obtain ⟨middle, hmiddle, hsettle⟩ := settleRecorded_eq_ok hrun
    have hdeterminate : bound.table.StaysFrom first checked.table :=
      keeps_checkDeterminate.run hchecked
    exact ⟨middle, Composes.trans hstays (Composes.trans hdeterminate hmiddle), hsettle⟩
  · obtain ⟨middle, hmiddle, hsettle⟩ := settleRecorded_eq_ok hrun
    exact ⟨middle, Composes.trans hstays hmiddle, hsettle⟩

theorem settleUnit_of_unit {statement : Infer Statement}
    (hstatement : statement context state = (.ok result, after))
    (hrun : unit site statement context state = (.ok (), last)) :
    settleUnit site state.table.size result context after = (.ok (), last) := by
  obtain ⟨_, _, htable, hrun⟩ := bind_eq_ok hrun
  cases htable
  obtain ⟨found, middle, hfound, hrun⟩ := bind_eq_ok hrun
  rw [attempt, hstatement] at hfound
  cases hfound
  exact hrun

/-! ### Unions over answers -/

section Answers

variable {answers : Answers} {before now : Ty}

/-- The union of what a type reduces to in each answer. -/
def IsUnionOver (answers : Answers) (before now : Ty) : Prop :=
  ∃ reduced, List.Forall₂ (fun a r => a.classes.reduce before = (.ok r : Outcome Failure Ty))
    answers.answers reduced ∧ now = Ty.unionOf reduced

/-- No answer knows anything about a variable that is left over in what the type reduces to in an
answer. -/
def LeavesUnknown (answers : Answers) (type : Ty) : Prop :=
  ∀ a ∈ answers.answers, ∀ r, a.classes.reduce type = (.ok r : Outcome Failure Ty) →
    ∀ v, r.occurs v = true → ∀ b ∈ answers.answers, b.classes.facts.find? v = none

theorem unionOver_eq_ok (hsome : answers.answers ≠ []) :
    unionOver answers before = (.ok now : Outcome Failure Ty) ↔ IsUnionOver answers before now := by
  have hne {reduced : List Ty} (hall : Forall₂ (fun a r => a.classes.reduce before =
      (.ok r : Outcome Failure Ty)) answers.answers reduced) : reduced ≠ [] := by
    rintro rfl
    exact hsome (forall₂_nil_right_iff.mp hall)
  rw [unionOver, if_neg (by simpa using hsome)]
  constructor
  · intro hunion
    obtain ⟨reduced, hreduced, hlast⟩ := Outcome.bind_eq_ok hunion
    have hall := Outcome.forall₂_of_mapM hreduced
    rw [Ty.anyOf_of_ne_nil (hne hall)] at hlast
    cases hlast
    exact ⟨reduced, hall, rfl⟩
  · rintro ⟨reduced, hall, rfl⟩
    rw [Outcome.mapM_of_forall₂ hall]
    exact Ty.anyOf_of_ne_nil (hne hall)

theorem leavesUnknown_of_single {a : Answer Typed} (hsingle : answers.answers = [a]) (type : Ty) :
    LeavesUnknown answers type := by
  intro b hb r hreduce v hoccurs c hc
  rw [hsingle, mem_singleton] at hb hc
  rw [hc, ← hb]
  exact ((Facts.occurs_reduceWithin_iff hreduce v).mp hoccurs).1

theorem IsUnionOver.again (hunion : IsUnionOver answers before now)
    (hunknown : LeavesUnknown answers before) (hsome : answers.answers ≠ []) :
    IsUnionOver answers now now := by
  obtain ⟨reduced, hall, rfl⟩ := hunion
  have hnormal : (Ty.unionOf reduced).Normal := Ty.normal_unionOf fun r hr => by
    obtain ⟨a, -, hreduce⟩ := exists_left_of_forall₂ hall hr
    exact Facts.normal_of_reduce hreduce
  have hself : ∀ a ∈ answers.answers, a.classes.reduce (Ty.unionOf reduced) =
      (.ok (Ty.unionOf reduced) : Outcome Failure Ty) := by
    intro a ha
    refine Facts.reduce_eq_self hnormal fun v hv => ?_
    obtain ⟨r, hr, hoccurs⟩ := Ty.occurs_unionOf_iff.mp hv
    obtain ⟨b, hb, hreduce⟩ := exists_left_of_forall₂ hall hr
    exact hunknown b hb r hreduce v hoccurs a ha
  refine ⟨answers.answers.map fun _ => Ty.unionOf reduced, ?_, ?_⟩
  · rw [forall₂_map_right_iff]
    exact forall₂_same.mpr hself
  · refine (hnormal.unionOf_copies (by simpa using hsome) fun u hu => ?_).symm
    obtain ⟨a, -, rfl⟩ := mem_map.mp hu
    rfl

theorem isUnionOver_of_repeatedly (hsome : answers.answers ≠ []) {count : Nat} (hcount : 0 < count)
    (hrepeat : repeatedly (unionOver answers) count before = (.ok now : Outcome Failure Ty))
    (honce : count = 1 ∨ LeavesUnknown answers before) : IsUnionOver answers before now := by
  obtain ⟨more, rfl⟩ := Nat.exists_eq_add_of_lt hcount
  rw [Nat.zero_add] at hrepeat honce
  obtain ⟨middle, hmiddle, hrest⟩ := Outcome.bind_eq_ok hrepeat
  have hunion := (unionOver_eq_ok hsome).mp hmiddle
  rcases honce with hsingle | hunknown
  · obtain rfl : more = 0 := Nat.succ.inj hsingle
    cases hrest
    exact hunion
  · have hself := (unionOver_eq_ok hsome).mpr (hunion.again hunknown hsome)
    have hstays : ∀ count, repeatedly (unionOver answers) count middle =
        (.ok middle : Outcome Failure Ty) := by
      intro count
      induction count with
      | zero => rfl
      | succ count ih =>
        rw [repeatedly, hself]
        exact ih
    rw [hstays] at hrest
    cases hrest
    exact hunion

end Answers

/-! ### The scopes of a unit -/

/-- What has become of a binding when a unit is settled that has opened the scopes from `first` on.
The union is taken once for each of these scopes that lists the binding; this is the union over the
answers if there is one such scope, or one answer, or nothing known about what is left over. -/
def SettledAs (answers : Answers) (table : Table) (first : Scope.Id) (before now : Binding) :
    Prop :=
  0 < table.listings first before ∧ ∃ type, now = { before with type } ∧
    repeatedly (unionOver answers) (table.listings first before) before.type =
      (.ok type : Outcome Failure Ty) ∧
    (table.listings first before = 1 ∨ answers.answers.length = 1 ∨
      LeavesUnknown answers before.type → IsUnionOver answers before.type type)

theorem settledAs {answers : Answers} (hsome : answers.answers ≠ []) {id : Scope.Id}
    (hid : first ≤ id) {before now : Binding} (hbefore : before ∈ (table.scopeAt id).bindings)
    (hnow : ∃ type, now = { before with type } ∧
      repeatedly (unionOver answers) (table.listings first before) before.type =
        (.ok type : Outcome Failure Ty)) : SettledAs answers table first before now := by
  obtain ⟨type, rfl, hrepeat⟩ := hnow
  have hpos := Table.listings_pos hid hbefore
  refine ⟨hpos, type, rfl, hrepeat, fun honce => isUnionOver_of_repeatedly hsome hpos hrepeat ?_⟩
  refine honce.imp_right fun hanswers => hanswers.elim (fun hsingle => ?_) fun hunknown => hunknown
  obtain ⟨a, ha⟩ := length_eq_one_iff.mp hsingle
  exact leavesUnknown_of_single ha before.type

/-- A unit whose statement has answers settles every binding of the scopes that the statement has
opened, and leaves all else in them as it was. -/
theorem opened_bindings_are_settled {path text : String} {program : Program}
    (hread : Program.ofText path text = .ok program) (hreach : Reachable context state)
    {node : Node} (hnode : node ∈ program.expressions)
    (hrun : statement Classes.empty node context state = (.ok result, after))
    (hunit : unit node.site (statement Classes.empty node) context state = (.ok (), last)) :
    last.table.size = after.table.size ∧ ∀ id, state.table.size ≤ id → ∃ bindings,
      last.table.scopeAt id = { after.table.scopeAt id with bindings } ∧
      List.Forall₂ (SettledAs result.answers after.table state.table.size)
        (after.table.scopeAt id).bindings bindings := by
  have hadmits : node.Admits (state.prospect False).orderly :=
    Tree.admits_of_ofText hread False.elim node hnode
  have hsound := hreach.sound
  have hfulfils : Fulfils (state.prospect False) True (Stated (state.prospect False) False node)
      (statement Classes.empty node) := fulfils_statement False.elim node hadmits
  have hstated := hfulfils context state hreach.sound_context hsound le_rfl fun _ => trivial
  rw [hrun] at hstated
  obtain ⟨hgrows, hfit⟩ := hstated
  have hsome : result.answers.answers ≠ [] := Disjunction.Fit.some hfit
  have hframe := hgrows.table.frame
  have hcurrent : after.table.current < state.table.size :=
    hframe.current ▸ hsound.wellFormed.current_lt
  obtain ⟨middle, hstays, hsettle⟩ := settleUnit_eq_ok (settleUnit_of_unit hrun hunit)
  obtain ⟨hsize, hsettles⟩ := settles_of_settleScopes hsettle (hframe.size_le.trans hstays.2.1.ge)
  refine ⟨hsize.trans hstays.2.1, fun id hid => ?_⟩
  obtain ⟨bindings, hlast, hall⟩ := hsettles id hid
  rw [hstays.scopeAt_eq hcurrent hid] at hlast hall
  rw [hstays.listings_eq hcurrent] at hall
  refine ⟨bindings, hlast, ?_⟩
  have hsettled : List.Forall₂ (fun before now => before ∈ (after.table.scopeAt id).bindings →
      SettledAs result.answers after.table state.table.size before now)
      (after.table.scopeAt id).bindings bindings :=
    hall.imp fun before now hnow hbefore => settledAs hsome hid hbefore hnow
  exact forall₂_of_mem hsettled fun _ hbefore => hbefore

/-- A function whose body holds an enum and gives a name of two types. The constructor of the enum
is a binding of the body, and of the function too once the body was merged into it. -/
def enumText : String := "statements: [{kind: abstraction, params: [1], body: {kind: block,
  statements: [{kind: enum, name: E, variants: [{name: A}]}, {kind: identifier, name: +}]}}]"

def settlesTwice (program : Program) (node : Node) : Bool :=
  match statement Classes.empty node ⟨program, [], []⟩ (.start "m" program {}),
    unit node.site (statement Classes.empty node) ⟨program, [], []⟩ (.start "m" program {}) with
  | (.ok result, _), (.ok (), last) => result.answers.size == 2 &&
    [1, 2].all fun id => (last.table.scopeAt id).bindings.map (·.name) == ["A"]
  | _, _ => false

theorem opened_bindings_are_settled_of_enum : ∃ program node result after last,
    Program.ofText "m" enumText = .ok program ∧ node ∈ program.expressions ∧
      statement Classes.empty node ⟨program, [], []⟩ (.start "m" program {}) = (.ok result, after) ∧
      unit node.site (statement Classes.empty node) ⟨program, [], []⟩ (.start "m" program {}) =
        (.ok (), last) ∧ result.answers.size = 2 ∧
      ∀ id ∈ [1, 2], (last.table.scopeAt id).bindings.map (·.name) = ["A"] ∧
        List.Forall₂ (SettledAs result.answers after.table 1) (after.table.scopeAt id).bindings
          (last.table.scopeAt id).bindings := by
  have heval : ((Program.ofText "m" enumText).toOption.any fun program =>
      program.statements.any (settlesTwice program)) = true := by
    decide +kernel
  obtain ⟨program, hread, htest⟩ := exists_of_any heval
  obtain ⟨node, hnode, htest⟩ := List.any_eq_true.mp htest
  have hmem : node ∈ program.expressions := Program.mem_expressions hnode
  have hreach : Reachable ⟨program, [], []⟩ (.start "m" program {}) := .start .none "m" {}
  unfold settlesTwice at htest
  split at htest
  · rename_i result after last hrun hunit
    obtain ⟨hsize, hnames⟩ := Bool.and_eq_true_iff.mp htest
    refine ⟨program, node, result, after, last, hread, hmem, hrun, hunit, beq_iff_eq.mp hsize,
      fun id hid => ?_⟩
    have hopened : 1 ≤ id := by
      rcases List.mem_pair.mp hid with rfl | rfl <;> decide
    obtain ⟨bindings, hlast, hall⟩ :=
      (opened_bindings_are_settled hread hreach hmem hrun hunit).2 id hopened
    refine ⟨beq_iff_eq.mp (List.all_eq_true.mp hnames id hid), ?_⟩
    rw [hlast]
    exact hall
  · cases htest

end Infer

end TypeSearch
