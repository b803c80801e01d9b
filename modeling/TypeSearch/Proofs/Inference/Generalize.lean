import TypeSearch.Inference.File
import TypeSearch.Proofs.Inference.Nesting
import TypeSearch.Proofs.Type.Union

/-!
# What generalization captures

The type of a function is generalized over its variables that are free in no binding of an open
scope. Names whose type is still open are not looked at: they have a template and no binding yet. So
a variable that such a name stands for can be captured, and this is the only way. A unit of a file,
or of a module that is not inside of an expression, starts when no name is open; if it binds one
name, nothing is captured.
-/

namespace TypeSearch

open Inference List

variable {template : Template} {type : Ty}

def Binding.Frees (binding : Binding) (v : VarId) : Prop :=
  binding.type.occurs v = true ∧ v ∉ binding.quantified

theorem Scope.binding?_add (scope : Scope) (binding : Binding) :
    (scope.add binding).binding? binding.name = some { binding with scope := some scope.id } := by
  unfold binding? add
  dsimp only
  split
  · rename_i hpresent
    obtain ⟨old, hold⟩ := Option.isSome_iff_exists.mp hpresent
    have hname : old.name = binding.name := by simpa using find?_some hold
    have htest : ((·.name == binding.name) ∘ fun old : Binding =>
        if old.name == binding.name then { binding with scope := some scope.id } else old) =
          (·.name == binding.name) := by
      funext other
      by_cases heq : other.name = binding.name <;> simp [heq]
    have hfound : scope.bindings.find? (·.name == binding.name) = some old := hold
    rw [find?_map, htest, hfound]
    simp [hname]
  · rename_i habsent
    rw [Bool.not_eq_true, Option.isSome_eq_false_iff, Option.isNone_iff_eq_none] at habsent
    have hnone : scope.bindings.find? (·.name == binding.name) = none := habsent
    rw [find?_append, hnone]
    simp

theorem Scope.mem_bindings_add {scope : Scope} {binding other : Binding}
    (hother : other ∈ (scope.add binding).bindings) :
    other = { binding with scope := some scope.id } ∨ other ∈ scope.bindings := by
  unfold add at hother
  dsimp only at hother
  split at hother
  · obtain ⟨old, hold, rfl⟩ := mem_map.mp hother
    split
    · exact .inl rfl
    · exact .inr hold
  · rcases mem_append.mp hother with hold | hnew
    · exact .inr hold
    · exact .inl (mem_singleton.mp hnew)

namespace Table

variable {table next last : Table} {v : VarId}

def BindsFree (table : Table) (v : VarId) : Prop :=
  ∃ id ∈ table.path, ∃ binding ∈ (table.scopeAt id).bindings, binding.Frees v

def Awaits (table : Table) (v : VarId) : Prop :=
  ∃ id ∈ table.path, ∃ template ∈ (table.scopeAt id).templates, template.var.id = v

structure Clear (table : Table) : Prop where
  wellFormed : table.WellFormed
  templates : ∀ id ∈ table.path, (table.scopeAt id).templates = []

theorem clear_ofFile (file : String) (node : Option Tree.Locus) (prelude : List Binding) :
    (ofFile file node prelude).Clear := by
  refine ⟨wellFormed_ofFile file node prelude, fun id hid => ?_⟩
  obtain rfl : id = 0 := by simpa [path, ofFile] using hid
  rfl

theorem Clear.not_awaits (hclear : table.Clear) : ¬ table.Awaits v := by
  rintro ⟨id, hid, template, htemplate, -⟩
  rw [hclear.templates id hid] at htemplate
  cases htemplate

theorem Clear.enter (hclear : table.Clear) (kind : Scope.Kind) (node : Option Tree.Locus) :
    (table.enter kind node).Clear := by
  refine ⟨hclear.wellFormed.enter kind node, fun id hid => ?_⟩
  rcases mem_cons.mp hid with rfl | hmem
  · exact congrArg Scope.templates (scopeAt_enter_size table kind node)
  · rw [hclear.wellFormed.scopeAt_enter_stays kind node hmem]
    exact hclear.templates id hmem

theorem Clear.of_frame (hclear : table.Clear) (hframe : Frame True table next)
    (htemplates : next.currentScope.templates = []) : next.Clear := by
  refine ⟨hframe.wellFormed, fun id hid => ?_⟩
  rw [hframe.path_eq] at hid
  rcases mem_cons.mp hid with rfl | hmem
  · rw [← hframe.current]
    exact htemplates
  · rw [hframe.outer id hmem]
    exact hclear.templates id (.tail _ hmem)

theorem WellFormed.currentScope_bind (hwf : table.WellFormed) (template : Template) (type : Ty)
    (quantified : List VarId) :
    (table.bind template type quantified).currentScope =
      table.currentScope.add (template.settled type quantified) :=
  hwf.currentScope_modifyCurrent _

theorem WellFormed.binding?_bind (hwf : table.WellFormed) (template : Template) (type : Ty)
    (quantified : List VarId) :
    (table.bind template type quantified).currentScope.binding? template.name =
      some { template.settled type quantified with scope := some table.currentScope.id } := by
  rw [hwf.currentScope_bind]
  exact Scope.binding?_add _ _

theorem WellFormed.bindsFree_of_bind (hwf : table.WellFormed) {quantified : List VarId}
    (hbinds : (table.bind template type quantified).BindsFree v) (hv : v ∈ quantified) :
    table.BindsFree v := by
  have hframe : Frame True table (table.bind template type quantified) :=
    (table.declares_add _).frame hwf
  obtain ⟨id, hid, other, hother, hoccurs, hfree⟩ := hbinds
  rw [hframe.path_eq] at hid
  refine ⟨id, hid, other, ?_, hoccurs, hfree⟩
  rcases mem_cons.mp hid with rfl | houter
  · have hadded : other ∈ (table.bind template type quantified).currentScope.bindings := hother
    rw [hwf.currentScope_bind] at hadded
    rcases Scope.mem_bindings_add hadded with rfl | hold
    · exact absurd hv hfree
    · exact hold
  · rwa [← hframe.outer id houter]

/-! ### Templates -/

/-- The templates of the current scope are among those before, without those of the given names. -/
def Drops (names : List String) (table next : Table) : Prop :=
  ∀ template ∈ next.currentScope.templates,
    template ∈ table.currentScope.templates ∧ template.name ∉ names

theorem Drops.trans {names more : List String} (hleft : Drops names table next)
    (hright : Drops more next last) : Drops (names ++ more) table last := by
  intro template htemplate
  obtain ⟨hnext, hmore⟩ := hright template htemplate
  obtain ⟨hmem, hnames⟩ := hleft template hnext
  exact ⟨hmem, by simp [hnames, hmore]⟩

instance : Composes (Drops []) where
  refl _ := fun _ hmem => ⟨hmem, not_mem_nil⟩
  trans := Drops.trans

theorem drops_bind (template : Template) (type : Ty) (quantified : List VarId) (table : Table) :
    Drops [template.name] table (table.bind template type quantified) := by
  intro other hother
  by_cases hcurrent : table.current < table.size
  · have hscope : (table.bind template type quantified).currentScope =
        table.currentScope.add (template.settled type quantified) := scopeAt_modifyScope hcurrent
    rw [hscope] at hother
    obtain ⟨hmem, hname⟩ := mem_filter.mp hother
    exact ⟨hmem, fun hsame => of_decide_eq_true hname (mem_singleton.mp hsame)⟩
  · have hscope : (table.bind template type quantified).currentScope = default :=
      scopeAt_of_size_le ((size_modifyScope _ _ _).le.trans (not_lt.mp hcurrent))
    rw [hscope] at hother
    cases hother

theorem Drops.eq_nil (hdrops : Drops (table.currentScope.templates.map (·.name)) table next) :
    next.currentScope.templates = [] := by
  rw [eq_nil_iff_forall_not_mem]
  intro template htemplate
  obtain ⟨hmem, hname⟩ := hdrops template htemplate
  exact hname (mem_map_of_mem hmem)

theorem addTemplate_templates (hwf : table.WellFormed) (marks : Flags) (binder : Tree.Binder)
    (fresher : Fresher) :
    (table.addTemplate marks binder fresher).2.2.1.currentScope.templates =
      table.currentScope.templates ++ (table.addTemplate marks binder fresher).1.toList := by
  simp only [addTemplate]
  split
  · simp
  · rw [hwf.currentScope_modifyCurrent]
    rfl

theorem addTemplates_templates (hwf : table.WellFormed) (marks : Flags)
    (binders : List Tree.Binder) (fresher : Fresher) :
    (table.addTemplates marks binders fresher).2.2.1.currentScope.templates =
        table.currentScope.templates ++ (table.addTemplates marks binders fresher).1 ∧
      (table.addTemplates marks binders fresher).1.length ≤ binders.length := by
  induction binders generalizing table fresher with
  | nil => exact ⟨(append_nil _).symm, le_rfl⟩
  | cons binder binders ih =>
    have hframe := (table.declares_addTemplate marks binder fresher).frame hwf
    obtain ⟨hrest, hlength⟩ := ih hframe.wellFormed (table.addTemplate marks binder fresher).2.2.2
    simp only [addTemplates]
    refine ⟨?_, ?_⟩
    · rw [hrest, addTemplate_templates hwf, append_assoc]
    · have hone : (table.addTemplate marks binder fresher).1.toList.length ≤ 1 := by
        cases (table.addTemplate marks binder fresher).1 <;> simp
      rw [length_append, length_cons, Nat.add_comm]
      exact Nat.add_le_add hlength hone

theorem templates_templates (hwf : table.WellFormed) (p : Tree.Pattern) (fresher : Fresher) :
    (table.templates p fresher).2.2.1.currentScope.templates =
        table.currentScope.templates ++ (table.templates p fresher).1 ∧
      (table.templates p fresher).1.length ≤ p.binders.length :=
  addTemplates_templates ((table.declares_marked _ _).frame hwf).wellFormed table.next p.binders fresher

end Table

namespace Classes

theorem equate_new {v : Variable} {t : Ty} (hvar : t.isVariable = false)
    (hoccurs : t.occurs v.id = false)
    (hunify : Facts.unify (.var v) t Facts.empty = .ok (t, ⟨[(v.id, t)]⟩)) :
    ∃ next, empty.equate (.var v) t = .ok next ∧ next.facts = ⟨[(v.id, t)]⟩ := by
  have hmentioned : (empty.addVariable ⟨v.id, ""⟩).mentioned t = [] := by
    simp only [mentioned, map_eq_nil_iff, filter_eq_nil_iff]
    intro w hw
    have hne : v.id ≠ w.id := by
      intro heq
      have hmem := Ty.mem_freeVariables_iff.mp (mem_map_of_mem (f := (·.id)) hw)
      rw [← heq, hoccurs] at hmem
      cases hmem
    simp [empty, addVariable, has, Std.HashMap.contains_insert, hne]
  have hroot : (empty.addVariable ⟨v.id, ""⟩).root v.id = v.id := by
    simp [root, rootWithin, parent, empty, addVariable, has]
  have hfind : (empty.addVariable ⟨v.id, ""⟩).find v.id = (v.id, empty.addVariable ⟨v.id, ""⟩) := by
    rw [find, hroot]
    simp [empty, addVariable, has, compress]
  have hconcrete : (empty.addVariable ⟨v.id, ""⟩).concrete? v.id = none := by
    simp [concrete?, empty, addVariable, has]
  have hcheck : (empty.addVariable ⟨v.id, ""⟩).occursInClass v.id t = false := by
    rw [occursInClass, hmentioned]
    simp [reaches]
  have habsorb : ∀ meet, absorb meet ⟨[(v.id, t)]⟩ Facts.empty empty =
      .ok ((empty.addVariable ⟨v.id, ""⟩).setConcrete v.id t) := by
    intro meet
    change (empty.assign meet v.id t >>= assignAll meet []) = _
    rw [assign]
    · simp only [hfind, hconcrete, assignConcrete, hcheck]
      rfl
    · rintro w rfl
      cases hvar
  refine ⟨((empty.addVariable ⟨v.id, ""⟩).setConcrete v.id t).refresh, ?_, ?_⟩
  · have hseed : empty.facts = Facts.empty := rfl
    rw [equate, unify, hseed, hunify]
    simp only [Outcome.bind_ok, habsorb]
    rfl
  · change ((empty.addVariable ⟨v.id, ""⟩).setConcrete v.id t).facts = _
    simp [facts, setConcrete, modify, factsAfresh, addVariable, empty, has, root, rootWithin,
      parent, concrete?]
    rfl

end Classes

namespace Infer

open TypeSearch.Tree (Node Pattern Site)

variable {context : Context} {state after last start before : State} {table next : Table}
  {v : VarId} {node value : Node} {result : Statement} {site : Site} {classes : Classes}
  {target : Pattern} {exported : Bool}

/-! ### One commitment -/

theorem mem_freeInScope_iff (hwf : table.WellFormed) :
    v ∈ freeInScope table ↔ table.BindsFree v := by
  simp only [freeInScope, Table.visible, hwf.outward_eq, mem_flatMap, mem_map,
    Table.BindsFree]
  constructor
  · rintro ⟨binding, ⟨_, ⟨id, hid, rfl⟩, hbinding⟩, hfree⟩
    rw [mem_filter, Ty.mem_freeVariables_iff] at hfree
    exact ⟨id, hid, binding, hbinding, hfree.1, by simpa using hfree.2⟩
  · rintro ⟨id, hid, binding, hbinding, hoccurs, hquantified⟩
    refine ⟨binding, ⟨_, ⟨id, hid, rfl⟩, hbinding⟩, ?_⟩
    rw [mem_filter, Ty.mem_freeVariables_iff]
    exact ⟨hoccurs, by simpa using hquantified⟩

theorem mem_generalize_iff (hwf : table.WellFormed) :
    v ∈ type.generalize (freeInScope table) ↔ type.occurs v = true ∧ ¬ table.BindsFree v := by
  rw [Ty.generalize, mem_filter, Ty.mem_freeVariables_iff, ← mem_freeInScope_iff hwf]
  simp

theorem settleTemplate_eq_ok {answers : Answers} {generalizes : Bool}
    (hrun : settleTemplate answers generalizes template context state = (.ok (), after)) :
    ∃ type, after = { state with
      table := state.table.bind template type
        (if generalizes then type.generalize (freeInScope state.table) else []) } := by
  obtain ⟨type, middle, hunion, hbind⟩ := bind_eq_ok hrun
  obtain ⟨-, rfl⟩ := liftM_eq_ok hunion
  cases hbind
  exact ⟨type, rfl⟩

/-! ### Units settle all names -/

theorem keeps_settleTemplates (answers : Answers) (generalizes : Bool)
    (templates : List Template) :
    Keeps (Table.Drops (templates.map (·.name)))
      (templates.forM (settleTemplate answers generalizes)) := by
  induction templates with
  | nil => exact keeps_pure (R := Table.Drops [])
  | cons template templates ih =>
    have hfirst : Keeps (Table.Drops [template.name])
        (settleTemplate answers generalizes template) :=
      (keeps_liftM (R := Table.Drops [])).andThen (sure_liftM (unionOver_ne_failed answers _))
        (fun type => keeps_modifyTable fun table => table.drops_bind template type _)
        fun _ _ _ hleft hright => hleft.trans hright
    exact hfirst.andThen sure_settleTemplate (fun _ => ih)
      fun _ _ _ hleft hright => hleft.trans hright

theorem keeps_dropAll {α : Type} {computation : Table → Infer α}
    (hkeeps : ∀ table, Keeps (Table.Drops (table.currentScope.templates.map (·.name)))
      (computation table)) :
    Keeps (fun _ next => next.currentScope.templates = []) (Infer.table >>= computation) :=
  fun context state hhalts => (hkeeps state.table context state hhalts).eq_nil

theorem drops_settleScopes {ε : Type} {f : Ty → Outcome ε Ty} {first : Scope.Id}
    (hsettle : settleScopes table first f = .ok next) : Table.Drops [] table next := by
  obtain ⟨settled, hsettled, rfl⟩ := settleScopes_eq_ok hsettle
  have hscope := scopeAt_of_forall₂ (forall₂_settled hsettled) table.current
  intro template htemplate
  refine ⟨?_, not_mem_nil⟩
  rw [Table.currentScope, hscope] at htemplate
  exact htemplate

theorem settleUnit_clears (site : Site) (first : Scope.Id) (statement : Statement) :
    Keeps (fun _ next => next.currentScope.templates = []) (settleUnit site first statement) := by
  refine (keeps_settleTemplates _ _ _).andThen (sure_forM (fun _ => sure_settleTemplate) _)
    (fun _ => keeps_dropAll fun table => ?_) fun _ _ _ _ hnil => hnil
  refine (keeps_settleTemplates _ _ _).andThen (sure_forM (fun _ => sure_settleTemplate) _)
    (fun _ => keeps_settleTypes drops_settleScopes)
    fun _ _ _ hleft hright => ?_
  simpa using hleft.trans hright

theorem bindPending_clears :
    Keeps (fun _ next => next.currentScope.templates = []) bindPending := by
  refine keeps_modifyTable fun table => Table.Drops.eq_nil (?_ : Table.Drops _ table _)
  generalize table.currentScope.templates = templates
  induction templates generalizing table with
  | nil => exact Composes.refl (R := Table.Drops []) table
  | cons template templates ih => exact (table.drops_bind template _ _).trans (ih _)

theorem unit_clears (site : Site) (statement : Infer Statement) :
    Keeps (fun _ next => next.currentScope.templates = []) (unit site statement) := by
  have hany : ∀ {α : Type} (computation : Infer α), Keeps (fun _ _ => True) computation :=
    fun _ _ _ _ => trivial
  refine (hany Infer.table).andThen (fun _ _ _ => nofun) (fun _ => ?_) fun _ _ _ _ hnil => hnil
  refine (hany _).andThen sure_attempt (fun result => ?_) fun _ _ _ _ hnil => hnil
  split
  · exact settleUnit_clears _ _ _
  · exact bindPending_clears

/-- The unit `node` starts in the state `start` when the units `nodes` are inferred one after the
other, also if it stands in a module among them. -/
inductive Starts (context : Context) : List Node → State → Node → State → Prop
  | here {node : Node} {nodes : List Node} {state : State} :
      Starts context (node :: nodes) state node state
  | later {earlier node : Node} {nodes : List Node} {state middle start : State}
      (hrun : unit earlier.site (statement Classes.empty earlier) context state = (.ok (), middle))
      (hstarts : Starts context nodes middle node start) :
      Starts context (earlier :: nodes) state node start
  | inside {site : Site} {name : String} {statements nodes : List Node} {exported : Bool}
      {node : Node} {state start : State}
      (hstarts : Starts context statements
        { state with
          table := state.table.enterModule (some ⟨.module, state.table.file, site.span⟩) }
        node start) :
      Starts context (.module site name statements exported :: nodes) state node start

theorem clear_of_starts {nodes : List Node} (hstarts : Starts context nodes state node start)
    (hclear : state.table.Clear) : start.table.Clear := by
  induction hstarts with
  | here => exact hclear
  | later hrun _ ih =>
    have hframes := ((keeps_statement Classes.empty _).unit _).run hrun
    exact ih (hclear.of_frame (hframes hclear.wellFormed) ((unit_clears _ _).run hrun))
  | inside _ ih => exact ih (hclear.enter _ _)

/-! ### Commitments of units -/

def bindsFunction : Node → Bool
  | .assignment _ _ value _ => isFunction value
  | _ => false

def assigned : Node → List Tree.Binder
  | .assignment _ target _ _ => target.binders
  | _ => []

/-- The unit `node`, started in `start`, settles a name that it assigns: before that, inference is
in the state `before`, and after it in the state `last`. -/
def Commits (context : Context) (node : Node) (start : State) (template : Template)
    (before last : State) : Prop :=
  ∃ result after earlier later,
    statement Classes.empty node context start = (.ok result, after) ∧
    result.templates = earlier ++ template :: later ∧
    earlier.forM (settleTemplate result.answers result.generalizes) context after =
      (.ok (), before) ∧
    settleTemplate result.answers result.generalizes template context before = (.ok (), last)

theorem asExpression_eq_ok {computation : Infer Answers}
    (hrun : asExpression computation context state = (.ok result, after)) :
    result.templates = [] := by
  obtain ⟨answers, middle, -, hrun⟩ := bind_eq_ok hrun
  obtain ⟨rfl, -⟩ := pure_eq_ok hrun
  rfl

theorem done_eq_ok {declaration : Infer Unit}
    (hrun : (do declaration; return done site classes : Infer Statement) context state =
      (.ok result, after)) :
    result.templates = [] := by
  obtain ⟨_, middle, -, hrun⟩ := bind_eq_ok hrun
  obtain ⟨rfl, -⟩ := pure_eq_ok hrun
  rfl

theorem statement_templates (hrun : statement classes node context state = (.ok result, after)) :
    result.templates = [] ∨
      ∃ site target value exported, node = .assignment site target value exported := by
  cases node with
  | assignment site target value exported => exact .inr ⟨site, target, value, exported, rfl⟩
  | literal value =>
    rw [statement] at hrun
    obtain ⟨rfl, -⟩ := pure_eq_ok hrun
    exact .inl rfl
  | identifier | list | tuple | map | abstraction | block | when | comprehension | access
  | annotated =>
    rw [statement] at hrun
    exact .inl (asExpression_eq_ok hrun)
  | application site function argument =>
    cases argument <;> rw [statement] at hrun <;> exact .inl (asExpression_eq_ok hrun)
  | conditional site condition yes no =>
    cases no <;> rw [statement] at hrun <;> exact .inl (asExpression_eq_ok hrun)
  | importFile =>
    rw [statement] at hrun
    exact .inl (done_eq_ok hrun)
  | module | classType | enumType =>
    rw [statement] at hrun
    obtain ⟨_, _, -, hrun⟩ := bind_eq_ok hrun
    exact .inl (done_eq_ok hrun)
  | pattern | type =>
    rw [statement] at hrun
    cases hrun

theorem assignmentTemplates_eq_ok {templates : List Template}
    (hrun : assignmentTemplates target exported context state = (.ok templates, after))
    (hwf : state.table.WellFormed) :
    after.table.currentScope.templates = state.table.currentScope.templates ++ templates ∧
      templates.length ≤ target.binders.length := by
  cases exported with
  | false =>
    cases hrun
    exact Table.templates_templates hwf target state.fresher
  | true =>
    cases hrun
    exact Table.templates_templates ((state.table.declares_marked _ _).frame hwf).wellFormed target
      state.fresher

theorem keeps_function (classes : Classes) (hfunction : isFunction value = true) :
    Keeps (Table.Frames False) (answersOf (statement classes value)) := by
  cases value with
  | abstraction site branches =>
    rw [statement]
    exact (keeps_locus.bind fun function =>
      keeps_branchesOnto (fun branch _ => keeps_bodyAnswers branch.2)).asExpression.answersOf
  | _ => cases hfunction

theorem assignment_templates (hfunction : isFunction value = true)
    (hrun : statement classes (.assignment site target value exported) context state =
      (.ok result, after)) (hwf : state.table.WellFormed) :
    after.table.currentScope.templates =
        state.table.currentScope.templates ++ result.templates ∧
      result.templates.length ≤ target.binders.length := by
  rw [statement] at hrun
  obtain ⟨templates, named, hnamed, hrun⟩ := bind_eq_ok hrun
  obtain ⟨values, valued, hvalued, hrun⟩ := bind_eq_ok hrun
  have hdeclared := assignmentTemplates_eq_ok hnamed hwf
  have hresult : result.templates = templates := by
    obtain ⟨answers, _, -, hlast⟩ := bind_eq_ok hrun
    obtain ⟨rfl, -⟩ := pure_eq_ok hlast
    rfl
  have hwf_named := (keeps_assignmentTemplates.run hnamed hwf).wellFormed
  have hframe := (keeps_function classes hfunction).run hvalued hwf_named
  have hlast := (keeps_assignment (R := Table.Frames False)).run hrun
    hframe.wellFormed
  rw [hresult, ← hdeclared.1, (hframe.trans hlast).own.resolve_left id]
  exact ⟨rfl, hdeclared.2⟩

theorem generalizes_eq (hrun : statement classes node context state = (.ok result, after))
    (hne : result.templates ≠ []) : result.generalizes = bindsFunction node := by
  rcases statement_templates hrun with hnil | ⟨site, target, value, exported, rfl⟩
  · exact absurd hnil hne
  · rw [statement] at hrun
    obtain ⟨_, _, -, hrun⟩ := bind_eq_ok hrun
    obtain ⟨_, _, -, hrun⟩ := bind_eq_ok hrun
    obtain ⟨_, _, -, hrun⟩ := bind_eq_ok hrun
    obtain ⟨rfl, -⟩ := pure_eq_ok hrun
    rfl

theorem Commits.binding (hcommits : Commits context node start template before last)
    (hwf : start.table.WellFormed) :
    before.table.WellFormed ∧ ∃ type,
      last.table = before.table.bind template type
        (if bindsFunction node then type.generalize (freeInScope before.table) else []) := by
  obtain ⟨result, after, earlier, later, hstatement, htemplates, hearlier, hsettle⟩ := hcommits
  have hafter := (keeps_statement _ node).run hstatement hwf
  have hbefore := (keeps_forM fun _ => keeps_settleTemplate).run hearlier hafter.wellFormed
  obtain ⟨type, rfl⟩ := settleTemplate_eq_ok hsettle
  refine ⟨hbefore.wellFormed, type, ?_⟩
  rw [← generalizes_eq hstatement (by simp [htemplates])]

theorem Commits.clear (hcommits : Commits context node start template before last)
    (hclear : start.table.Clear) (hfunction : bindsFunction node = true)
    (hone : (assigned node).length ≤ 1) : last.table.Clear := by
  obtain ⟨result, after, earlier, later, hstatement, htemplates, hearlier, hsettle⟩ := hcommits
  obtain hnil | ⟨site, target, value, exported, rfl⟩ := statement_templates hstatement
  · simp [hnil] at htemplates
  obtain ⟨hnames, hlength⟩ := assignment_templates hfunction hstatement hclear.wellFormed
  have hsingle : earlier = [] ∧ later = [] := by
    have hle := hlength.trans hone
    rw [htemplates] at hle
    constructor <;> apply eq_nil_of_length_eq_zero <;> simp at hle <;> omega
  obtain ⟨rfl, rfl⟩ := hsingle
  obtain rfl : before = after := by cases hearlier; rfl
  have hafter := (keeps_statement _ _).run hstatement hclear.wellFormed
  have hlast := keeps_settleTemplate.run hsettle hafter.wellFormed
  refine hclear.of_frame (hafter.trans hlast) ?_
  obtain ⟨type, rfl⟩ := settleTemplate_eq_ok hsettle
  -- the current scope has no other template than the one that is settled
  have hbefore : before.table.currentScope.templates = [template] := by
    rw [hnames, htemplates, Table.currentScope, hclear.templates _ (.head _)]
    rfl
  have hdrops := Table.drops_bind template type
    (if result.generalizes then type.generalize (freeInScope before.table) else []) before.table
  refine Table.Drops.eq_nil (?_ : Table.Drops _ before.table _)
  rwa [hbefore]

theorem commits_assignment {targetSite : Site} {name : String} {named valued : State}
    {node : Typed} {settled : Ty} {next : Classes}
    (hnamed : assignmentTemplates (.identifier ⟨targetSite, name, none⟩) exported context start =
      (.ok [template], named))
    (hvalued : answersOf (statement Classes.empty value) context named =
      (.ok ⟨[⟨node, type, some Classes.empty⟩]⟩, valued))
    (hequate : Classes.empty.equate (.var template.var) type = .ok next)
    (hsettled : unionOver ⟨[answer site .void
      [.mk targetSite.key (.var template.var) [], node] next]⟩ (.var template.var) =
        (.ok settled : Outcome Failure Ty)) :
    Commits context (.assignment site (.identifier ⟨targetSite, name, none⟩) value exported) start
      template valued
      { valued with
        table := valued.table.bind template settled
          (if isFunction value then settled.generalize (freeInScope valued.table) else []) } := by
  have hassign : assign (.identifier ⟨targetSite, name, none⟩) [template]
      ⟨node, type, some Classes.empty⟩ context valued =
        (.ok (.mk targetSite.key (.var template.var) [], next), valued) := by
    exact bind_of_ok (equate_of_ok hequate context valued)
  refine ⟨⟨⟨[answer site .void [.mk targetSite.key (.var template.var) [], node] next]⟩, [template],
    false, isFunction value⟩, valued, [], [], ?_, rfl, rfl, ?_⟩
  · rw [statement, bind_of_ok hnamed, bind_of_ok hvalued, assignment]
    exact bind_of_ok (reportingAt_of_ok (map_of_ok (bind_of_ok hassign)))
  · refine bind_of_ok ?_
    change (unionOver _ _, valued) = _
    rw [hsettled]

/-! ### A captured parameter -/

def insideFunction : State :=
  let function := (Table.ofFile "main" none []).enterAbstraction none
  let (_, _, named, fresher) := function.templates (.identifier ⟨⟨1, Span.zero⟩, "p", none⟩) {}
  { table := (named.enterBlock none).enterModule none, fresher }

theorem wellFormed_insideFunction : insideFunction.table.WellFormed := by
  have hfunction := (Table.wellFormed_ofFile "main" none []).enter .abstraction none
  have hnamed := (Table.declares_templates _ (.identifier ⟨⟨1, Span.zero⟩, "p", none⟩) {}).frame
    hfunction
  exact (hnamed.wellFormed.enter _ none).enter .module none

def namedInside : State :=
  (assignmentTemplates (.identifier ⟨⟨3, Span.zero⟩, "f", none⟩) false emptyContext
    insideFunction).2

def constantFunction : Node :=
  .abstraction ⟨4, Span.zero⟩
    [([.identifier ⟨⟨5, Span.zero⟩, "x", none⟩], .identifier ⟨6, Span.zero⟩ "p")]

def constantType : Ty := .curried [.var ⟨3, "x"⟩, .var ⟨1, "p"⟩]

def constantTyped : Typed :=
  .mk 4 constantType [.mk 5 (.var ⟨3, "x"⟩) [], .mk 6 (.var ⟨1, "p"⟩) []]

theorem constantFunction_run :
    ∃ valued, answersOf (statement Classes.empty constantFunction) emptyContext namedInside =
      (.ok ⟨[⟨constantTyped, constantType, some Classes.empty⟩]⟩, valued) := by
  refine ⟨_, (answersOf_function _ _ _ _ _ _).trans (Prod.ext ?_ rfl)⟩
  rw [bodyAnswers_identifier]
  rfl

/-- What a unit quantifies over is free in no binding of an open scope. Whatever else occurs in the
type is quantified over, also if it stands for a name whose type is open. There is no such name
where a unit that is not inside of an expression assigns a single one. -/
theorem commit_captures_only_awaited {node : Node} {start before : State} {template : Template}
    (hwf : start.table.WellFormed) (hcommits : Commits context node start template before last) :
    ∃ binding, last.table.currentScope.binding? template.name = some binding ∧
      (∀ v, v ∈ binding.quantified ↔ bindsFunction node = true ∧ binding.type.occurs v = true ∧
        ¬ before.table.BindsFree v) ∧
      (∀ v ∈ binding.quantified, ¬ last.table.BindsFree v) ∧
      ∀ nodes file locus prelude fresher,
        Starts context nodes { table := Table.ofFile file locus prelude, fresher } node start →
        (assigned node).length ≤ 1 → ∀ v ∈ binding.quantified, ¬ last.table.Awaits v := by
  obtain ⟨hwf_before, type, hlast⟩ := hcommits.binding hwf
  have hquantified : ∀ v, v ∈ (if bindsFunction node then
      type.generalize (freeInScope before.table) else []) ↔
        bindsFunction node = true ∧ type.occurs v = true ∧ ¬ before.table.BindsFree v := by
    intro v
    cases bindsFunction node with
    | false => simp
    | true => simpa using mem_generalize_iff hwf_before
  generalize (if bindsFunction node then type.generalize (freeInScope before.table) else []) =
    quantified at hlast hquantified
  rw [hlast]
  refine ⟨_, hwf_before.binding?_bind template type quantified, hquantified, ?_, ?_⟩
  · intro v hv hbinds
    exact ((hquantified v).mp hv).2.2 (hwf_before.bindsFree_of_bind hbinds hv)
  · intro nodes file locus prelude fresher hstarts hone v hv
    have hclear := clear_of_starts hstarts (Table.clear_ofFile file locus prelude)
    have hsettled := hcommits.clear hclear ((hquantified v).mp hv).1 hone
    rw [hlast] at hsettled
    exact hsettled.not_awaits

theorem commit_captures_only_awaited_of_parameter :
    ∃ context node template before last binding,
      insideFunction.table.WellFormed ∧
      Commits context node insideFunction template before last ∧
      last.table.currentScope.binding? template.name = some binding ∧
      binding.type = constantType ∧ 1 ∈ binding.quantified ∧ ¬ last.table.BindsFree 1 ∧
      last.table.Awaits 1 := by
  obtain ⟨valued, hvalued⟩ := constantFunction_run
  obtain ⟨next, hequate, hfacts⟩ : ∃ next,
      Classes.empty.equate (.var ⟨2, "f"⟩) constantType = .ok next ∧
        next.facts = ⟨[(2, constantType)]⟩ :=
    Classes.equate_new rfl rfl (Facts.unify_eq_of_unifyWithin fun _ => rfl)
  have hsettled : unionOver ⟨[answer ⟨2, Span.zero⟩ .void
      [.mk 3 (.var ⟨2, "f"⟩) [], constantTyped] next]⟩ (.var ⟨2, "f"⟩) =
        (.ok constantType : Outcome Failure Ty) := by
    have hreduce : next.reduce (.var ⟨2, "f"⟩) = (.ok constantType : Outcome Failure Ty) := by
      rw [Classes.reduce, hfacts]
      rfl
    have hunion : Ty.unionOf [constantType] = constantType := by
      rw [Ty.unionOf_eq_distinct]
      rfl
    simp only [unionOver, answer, Answer.classes, Option.getD_some, List.isEmpty_cons,
      List.mapM_cons, List.mapM_nil, hreduce]
    exact congrArg Outcome.ok hunion
  have hnamed : assignmentTemplates (.identifier ⟨⟨3, Span.zero⟩, "f", none⟩) false emptyContext
      insideFunction =
        (.ok [⟨"f", ⟨2, "f"⟩, {}, some ⟨.identifierPattern, "main", Span.zero⟩⟩], namedInside) :=
    Prod.ext rfl rfl
  have hcommits := commits_assignment hnamed hvalued hequate hsettled
  obtain ⟨binding, hbinding, hquantified, hfree, -⟩ :=
    commit_captures_only_awaited wellFormed_insideFunction hcommits
  have hnamed_frame := keeps_assignmentTemplates.run hnamed wellFormed_insideFunction
  have hframe := (keeps_function Classes.empty rfl).run hvalued hnamed_frame.wellFormed
  have hlast := (valued.table.declares_add (Template.settled
    ⟨"f", ⟨2, "f"⟩, {}, some ⟨.identifierPattern, "main", Span.zero⟩⟩
    constantType (constantType.generalize (freeInScope valued.table)))).frame hframe.wellFormed
  obtain rfl := Option.some.inj (hbinding.symm.trans (hframe.wellFormed.binding?_bind _ _ _))
  have hone : (1 : VarId) ∈ constantType.generalize (freeInScope valued.table) := by
    refine (hquantified 1).mpr ⟨rfl, rfl, ?_⟩
    rintro ⟨id, hid, other, hother, -⟩
    rw [hframe.path_eq] at hid
    rw [hframe.scopeAt_stays hid] at hother
    have hbare : ∀ id ∈ namedInside.table.path,
        (namedInside.table.scopeAt id).bindings.isEmpty = true := by decide
    exact List.ne_nil_of_mem hother (List.isEmpty_iff.mp (hbare id hid))
  refine ⟨emptyContext, _, _, valued, _, _, wellFormed_insideFunction, hcommits, hbinding, rfl,
    hone, hfree 1 hone, 1, ?_,
    ⟨"p", ⟨1, "p"⟩, {}, some ⟨.identifierPattern, "main", Span.zero⟩⟩, ?_, rfl⟩
  · have hpath := hlast.path_eq.trans hframe.path_eq
    exact (congrArg (1 ∈ ·) hpath).mpr (by decide)
  · have hscope := (hlast.outer 1 (by rw [hframe.enclosing]; decide)).trans
      (hframe.outer 1 (by decide))
    exact (congrArg (_ ∈ Scope.templates ·) hscope).mpr (List.mem_singleton_self _)

end Infer

end TypeSearch
