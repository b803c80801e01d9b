import TypeSearch.Proofs.Outcome
import TypeSearch.Proofs.Scope.Names
import TypeSearch.Proofs.Scope.Path

/-!
# Operations on tables

What can be done to a table from outside. Apart from entering and leaving scopes, an operation
changes the current scope only: it adds names and types to it, and its place stays as it is.
-/

namespace TypeSearch

namespace Scope

variable {scope next : Scope}

inductive Grows (scope : Scope) : Scope → Prop
  | refl : Grows scope scope
  | add {next : Scope} (hgrows : Grows scope next) (binding : Binding) :
      Grows scope (next.add binding)
  | addType {next : Scope} (hgrows : Grows scope next) (declaration : Declaration) :
      Grows scope (next.addType declaration)
  | setMembers {next : Scope} (hgrows : Grows scope next) (name : String) (members : List Member) :
      Grows scope (next.setMembers name members)
  | addTemplate {next : Scope} (hgrows : Grows scope next) (template : Template) :
      Grows scope { next with templates := next.templates ++ [template] }

theorem Grows.trans {last : Scope} (hleft : Grows scope next) (hright : Grows next last) :
    Grows scope last := by
  induction hright with
  | refl => exact hleft
  | add _ binding ih => exact ih.add binding
  | addType _ declaration ih => exact ih.addType declaration
  | setMembers _ name members ih => exact ih.setMembers name members
  | addTemplate _ template ih => exact ih.addTemplate template

structure SamePlace (scope next : Scope) : Prop where
  id : next.id = scope.id
  kind : next.kind = scope.kind
  parent : next.parent = scope.parent
  children : next.children = scope.children
  mergedInto : next.mergedInto = scope.mergedInto

theorem SamePlace.refl (scope : Scope) : SamePlace scope scope := ⟨rfl, rfl, rfl, rfl, rfl⟩

theorem Grows.samePlace (hgrows : Grows scope next) : SamePlace scope next := by
  induction hgrows with
  | refl => exact .refl scope
  | add _ _ ih | addType _ _ ih | setMembers _ _ _ ih | addTemplate _ _ ih =>
    exact ⟨ih.id, ih.kind, ih.parent, ih.children, ih.mergedInto⟩

theorem Grows.nodup_names (hgrows : Grows scope next) (hnames : scope.names.Nodup) :
    next.names.Nodup := by
  induction hgrows with
  | refl => exact hnames
  | add _ binding ih => exact nodup_names_add ih binding
  | addType _ _ ih | setMembers _ _ _ ih | addTemplate _ _ ih => exact ih

theorem exists_grows_absorb (scope inner : Scope) : ∃ next, Grows scope next ∧
    scope.absorb inner =
      { next with templates := next.templates ++ inner.templates, children := inner.children } := by
  have hnamed : Grows scope (inner.bindings.foldl add scope) :=
    List.foldlRecOn _ _ .refl fun _ hgrows binding _ => hgrows.add binding
  exact ⟨_, List.foldlRecOn _ addType hnamed fun _ hgrows declaration _ =>
    hgrows.addType declaration, rfl⟩

end Scope

namespace Table

variable {table next last : Table}

inductive Operation where
  | enterBlock (node : Option Tree.Locus)
  | leaveBlock
  | enterAbstraction (node : Option Tree.Locus)
  | leaveAbstraction
  | enterModule (node : Option Tree.Locus)
  | leaveModule
  | markNext (flags : Flags)
  | templates (pattern : Tree.Pattern) (fresher : Fresher)
  | bind (template : Template) (type : Ty) (quantified : List VarId)
  | declare (binding : Binding)
  | declareType (declaration : Declaration)

def Operation.apply : Operation → Table → Except Halt Table
  | enterBlock node, table => .ok (table.enterBlock node)
  | leaveBlock, table => table.leaveBlock
  | enterAbstraction node, table => .ok (table.enterAbstraction node)
  | leaveAbstraction, table => table.leaveAbstraction
  | enterModule node, table => .ok (table.enterModule node)
  | leaveModule, table => table.leaveModule
  | markNext flags, table => .ok (table.markNext flags)
  | templates pattern fresher, table => .ok (table.templates pattern fresher).2.2.1
  | bind template type quantified, table => .ok (table.bind template type quantified)
  | declare binding, table => .ok (table.declare binding).2.2
  | declareType declaration, table => .ok (table.declareType declaration).2.2

/-- Carries out operations one after the other, as long as none of them halts. -/
def run (table : Table) (operations : List Operation) : Except Halt Table :=
  operations.foldlM (fun table operation => operation.apply table) table

theorem run_cons_eq_ok (hrun : table.run (operation :: operations) = .ok last) :
    ∃ next, operation.apply table = .ok next ∧ next.run operations = .ok last := by
  change (do let next ← operation.apply table; next.run operations) = _ at hrun
  cases happly : operation.apply table with
  | error halt =>
    rw [happly] at hrun
    cases hrun
  | ok next =>
    rw [happly] at hrun
    exact ⟨next, rfl, hrun⟩

theorem leaveAbstraction_eq_ok (hleave : table.leaveAbstraction = .ok next) :
    ∃ left, table.leave [.abstraction] = .ok left ∧ left.mergeBody table.current = .ok next := by
  rw [leaveAbstraction] at hleave
  cases hleft : table.leave [.abstraction] with
  | error halt =>
    rw [hleft] at hleave
    cases hleave
  | ok left =>
    rw [hleft] at hleave
    exact ⟨left, rfl, hleave⟩

section Merge

variable {β : Type} {id inner other : Scope.Id}

theorem absorbed_keeps (view : Scope → β)
    (hgrows : ∀ {scope next}, Scope.Grows scope next → view next = view scope)
    (hview : ∀ scope templates children, view { scope with templates, children } = view scope) :
    view ((table.modifyScope id (·.absorb (table.scopeAt inner))).scopeAt other) =
      view (table.scopeAt other) := by
  refine modifyScope_keeps view (fun scope => ?_) _ _ _
  obtain ⟨next, hnext, habsorb⟩ := Scope.exists_grows_absorb scope (table.scopeAt inner)
  rw [habsorb, hview, hgrows hnext]

theorem kind_mergeInto :
    ((table.mergeInto id inner).scopeAt other).kind = (table.scopeAt other).kind := by
  rw [mergeInto_keeps Scope.kind fun _ => rfl, closed_keeps Scope.kind fun _ => rfl,
    adopted_keeps Scope.kind fun _ => rfl]
  exact absorbed_keeps Scope.kind (·.samePlace.kind) fun _ _ _ => rfl

end Merge

/-- Names, types and templates were added to the current scope. -/
structure Declares (table next : Table) : Prop where
  size : next.size = table.size
  path : next.path = table.path
  prelude : next.prelude = table.prelude
  file : next.file = table.file
  own : (table.scopeAt table.current).Grows (next.scopeAt table.current)
  others : ∀ id, id ≠ table.current → next.scopeAt id = table.scopeAt id

theorem Declares.current (hdeclares : Declares table next) : next.current = table.current :=
  (List.cons.inj hdeclares.path).1

theorem Declares.trans (hleft : Declares table next) (hright : Declares next last) :
    Declares table last where
  size := hright.size.trans hleft.size
  path := hright.path.trans hleft.path
  prelude := hright.prelude.trans hleft.prelude
  file := hright.file.trans hleft.file
  own := hleft.own.trans (hleft.current ▸ hright.own)
  others id hid := by
    rw [hright.others id (hleft.current ▸ hid), hleft.others id hid]

theorem Declares.samePlace (hdeclares : Declares table next) (id : Scope.Id) :
    Scope.SamePlace (table.scopeAt id) (next.scopeAt id) := by
  by_cases hid : id = table.current
  · exact hid ▸ hdeclares.own.samePlace
  · rw [hdeclares.others id hid]
    exact .refl _

theorem Declares.frame (hdeclares : Declares table next) (hwf : table.WellFormed) :
    Frame True table next := by
  have hplace := hdeclares.samePlace
  have hpath := hdeclares.path
  have hsize := hdeclares.size
  refine ⟨⟨?_, ?_, fun id hid => ?_, fun id child hchild => ?_⟩, hdeclares.current,
    (List.cons.inj hpath).2, hdeclares.prelude, hdeclares.file, hsize.ge,
    fun id hid => hdeclares.others id (hwf.nested.lt_of_mem hid).ne, .inl trivial⟩
  · rw [hdeclares.current, hsize]
    exact hwf.current_lt
  · rw [hpath]
    exact hwf.nested.congr fun id _ => (hplace id).parent
  · rw [(hplace id).mergedInto]
    exact hwf.unmerged id (hpath ▸ hid)
  · rw [(hplace id).children] at hchild
    rw [hsize]
    exact hwf.children id child hchild

section Change

variable (table)

theorem declares_marked (flags : Flags) (declared : List (String × Declaration)) :
    Declares table { table with next := flags, declared } :=
  ⟨rfl, rfl, rfl, rfl, .refl, fun _ _ => rfl⟩

theorem declares_modifyCurrent {f : Scope → Scope} (hgrows : ∀ scope, Scope.Grows scope (f scope)) :
    Declares table (table.modifyCurrent f) := by
  refine ⟨size_modifyScope table _ f, rfl, rfl, rfl, ?_, fun id => scopeAt_modifyScope_of_ne⟩
  by_cases hcurrent : table.current < table.size
  · rw [modifyCurrent, scopeAt_modifyScope hcurrent]
    exact hgrows _
  · rw [modifyCurrent, scopeAt_of_size_le (by simpa using hcurrent),
      scopeAt_of_size_le (by simpa using hcurrent)]
    exact .refl

theorem declares_add (binding : Binding) : Declares table (table.modifyCurrent (·.add binding)) :=
  declares_modifyCurrent table fun _ => Scope.Grows.refl.add binding

theorem declares_addType (declaration : Declaration) :
    Declares table (table.modifyCurrent (·.addType declaration)) :=
  declares_modifyCurrent table fun _ => Scope.Grows.refl.addType declaration

theorem declares_setMembers (name : String) (members : List Member) (isFirst : Bool) :
    Declares table (table.setMembers name members isFirst) :=
  (declares_modifyCurrent table fun _ => Scope.Grows.refl.setMembers name members).trans
    (declares_marked _ _ _)

theorem declares_addTemplate (marks : Flags) (binder : Tree.Binder) (fresher : Fresher) :
    Declares table (table.addTemplate marks binder fresher).2.2.1 := by
  simp only [addTemplate]
  split
  · exact declares_marked table table.next table.declared
  · exact declares_modifyCurrent table fun scope => Scope.Grows.refl.addTemplate _

theorem declares_addTemplates (marks : Flags) (binders : List Tree.Binder) (fresher : Fresher) :
    Declares table (table.addTemplates marks binders fresher).2.2.1 := by
  induction binders generalizing table fresher with
  | nil => exact declares_marked table table.next table.declared
  | cons binder binders ih => exact (declares_addTemplate table marks binder fresher).trans (ih _ _)

theorem declares_templates (pattern : Tree.Pattern) (fresher : Fresher) :
    Declares table (table.templates pattern fresher).2.2.1 :=
  (declares_marked table {} _).trans (declares_addTemplates _ _ _ _)

theorem declares_declare (binding : Binding) : Declares table (table.declare binding).2.2 := by
  have hreset := declares_marked table {} table.declared
  simp only [declare]
  split
  · exact hreset
  · exact hreset.trans (declares_add _ _)

theorem declares_declareType (declaration : Declaration) :
    Declares table (table.declareType declaration).2.2 := by
  simp only [declareType]
  split
  · exact declares_marked table table.next table.declared
  · split
    · exact declares_addType table _
    · exact (declares_addType table declaration).trans (declares_marked _ _ _)

def boundPending (table : Table) : Table :=
  table.currentScope.templates.foldl
    (fun table template => table.bind template (.var template.var) []) table

theorem declares_boundPending : Declares table table.boundPending :=
  List.foldlRecOn _ _ (declares_marked table table.next table.declared)
    fun next hdeclares _ _ => hdeclares.trans (declares_add next _)

end Change

def Operation.rise : Operation → Int
  | enterBlock _ | enterAbstraction _ | enterModule _ => 1
  | leaveBlock | leaveAbstraction | leaveModule => -1
  | markNext _ | templates _ _ | bind _ _ _ | declare _ | declareType _ => 0

theorem Operation.apply_cases {operation : Operation} (happly : operation.apply table = .ok next) :
    (operation.rise = 1 ∧ ∃ kind node, next = table.enter kind node) ∨
      (operation.rise = -1 ∧ ((∃ kinds, table.leave kinds = .ok next) ∨
        table.leaveAbstraction = .ok next)) ∨
      operation.rise = 0 ∧ Declares table next := by
  cases operation with
  | enterBlock node | enterAbstraction node | enterModule node =>
    cases happly
    exact .inl ⟨rfl, _, node, rfl⟩
  | leaveBlock | leaveModule => exact .inr (.inl ⟨rfl, .inl ⟨_, happly⟩⟩)
  | leaveAbstraction => exact .inr (.inl ⟨rfl, .inr happly⟩)
  | markNext flags =>
    cases happly
    exact .inr (.inr ⟨rfl, declares_marked table _ _⟩)
  | templates pattern fresher =>
    cases happly
    exact .inr (.inr ⟨rfl, declares_templates table _ _⟩)
  | bind template type quantified =>
    cases happly
    exact .inr (.inr ⟨rfl, declares_add table _⟩)
  | declare binding =>
    cases happly
    exact .inr (.inr ⟨rfl, declares_declare table _⟩)
  | declareType declaration =>
    cases happly
    exact .inr (.inr ⟨rfl, declares_declareType table _⟩)

end Table

end TypeSearch
