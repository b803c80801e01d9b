import TypeSearch.Proofs.Scope.Proper

/-!
# Declaring names

Declarations, templates and the settling of templates develop a table: they change only the names
and types of the current scope. Every issue that they find has a code.
-/

namespace TypeSearch.Table

open List

variable {table next : Table} {binding : Binding} {declaration : Declaration}
  {node : Option Tree.Locus}

theorem Develops.wellFormed (hdevelops : table.Develops next) : next.WellFormed :=
  hdevelops.frame.wellFormed

section Declare

variable (hproper : table.Proper)
include hproper

theorem Proper.marked (flags : Flags) {declared : List (String × Declaration)}
    (hdeclared : ∀ entry ∈ declared, entry.2.Proper) :
    { table with next := flags, declared }.Proper :=
  ⟨hproper.scopes, hproper.prelude, hdeclared⟩

theorem Proper.add (htype : binding.type.Proper) : (table.modifyCurrent (·.add binding)).Proper :=
  hproper.modifyScope _ fun _ hscope => hscope.add htype

theorem Proper.addType (hmembers : declaration.Proper) :
    (table.modifyCurrent (·.addType declaration)).Proper :=
  hproper.modifyScope _ fun _ hscope => hscope.addType hmembers

theorem Proper.setMembers (name : String) {members : List Member}
    (hmembers : ∀ member ∈ members, member.type.Proper) (isFirst : Bool) :
    (table.setMembers name members isFirst).Proper := by
  have hchanged : (table.modifyCurrent (·.setMembers name members)).Proper :=
    hproper.modifyScope _ fun _ hscope => hscope.setMembers name hmembers
  refine hchanged.marked _ (forall_mem_map.mpr fun entry hentry => ?_)
  split
  · exact hmembers
  · exact hproper.declared entry hentry

theorem Proper.boundPending : table.boundPending.Proper :=
  foldlRecOn _ _ hproper fun _ hnext template _ => hnext.add (.var template.var)

end Declare

/-! ### Issues of declarations -/

theorem code_duplicate? {name : String} {issue : Issue}
    (hissue : table.duplicate? name node = some issue) : issue.cause.code ≠ 0 := by
  obtain ⟨existing, -, rfl⟩ := Option.map_eq_some_iff.mp hissue
  exact Nat.succ_ne_zero 0

section Outcome

variable (hproper : table.Proper)
include hproper

theorem Proper.declare (htype : binding.type.Proper) : (table.declare binding).2.2.Proper ∧
    ∀ issue ∈ (table.declare binding).1, issue.cause.code ≠ 0 := by
  have hnext := hproper.marked {} hproper.declared
  simp only [Table.declare]
  split
  · rename_i issue hissue
    refine ⟨hnext, ?_⟩
    rintro _ ⟨⟩
    exact code_duplicate? hissue
  · refine ⟨hnext.add htype, fun issue hissue => ?_⟩
    split at hissue
    · cases hissue
      exact Nat.succ_ne_zero 2
    · cases hissue

theorem Proper.declareType (hmembers : declaration.Proper) :
    (table.declareType declaration).2.2.Proper ∧
      ∀ issue ∈ (table.declareType declaration).1, issue.cause.code ≠ 0 := by
  simp only [Table.declareType]
  split
  · refine ⟨hproper, ?_⟩
    rintro _ ⟨⟩
    exact Nat.succ_ne_zero 0
  · split
    · refine ⟨hproper.addType hmembers, ?_⟩
      rintro _ ⟨⟩
      exact Nat.succ_ne_zero 2
    · refine ⟨(hproper.addType hmembers).marked _ ?_,
        fun _ hissue => absurd hissue (Option.not_mem_none _)⟩
      split
      · exact hproper.declared
      · exact forall_mem_append.mpr ⟨hproper.declared, forall_mem_singleton.mpr hmembers⟩

theorem Proper.addTemplate (marks : Flags) (binder : Tree.Binder) (fresher : Fresher) :
    (table.addTemplate marks binder fresher).2.2.1.Proper ∧
      ∀ issue ∈ (table.addTemplate marks binder fresher).2.1, issue.cause.code ≠ 0 := by
  simp only [Table.addTemplate]
  split
  · rename_i issue hissue
    refine ⟨hproper, fun other hother => ?_⟩
    rw [mem_singleton.mp hother]
    exact code_duplicate? hissue
  · refine ⟨hproper.modifyScope _ fun _ hscope => hscope.congr rfl rfl, fun issue hissue => ?_⟩
    split at hissue
    · rw [mem_singleton.mp hissue]
      exact Nat.succ_ne_zero 2
    · cases hissue

theorem Proper.addTemplates (marks : Flags) (binders : List Tree.Binder) (fresher : Fresher) :
    (table.addTemplates marks binders fresher).2.2.1.Proper ∧
      ∀ issue ∈ (table.addTemplates marks binders fresher).2.1, issue.cause.code ≠ 0 := by
  induction binders generalizing table fresher with
  | nil => exact ⟨hproper, nofun⟩
  | cons binder binders ih =>
    have hfirst := hproper.addTemplate marks binder fresher
    have hrest := ih hfirst.1 (table.addTemplate marks binder fresher).2.2.2
    exact ⟨hrest.1, forall_mem_append.mpr ⟨hfirst.2, hrest.2⟩⟩

end Outcome

/-! ### Bodies -/

def Bodiless (table : Table) : Prop := table.WellFormed ∧ table.currentScope.children = []

theorem Bodiless.hasBody_leave (hbodiless : table.Bodiless) {kind : Scope.Kind} {left : Table}
    (hinner : Frame True (table.enter kind node) next) {kinds : List Scope.Kind}
    (hleave : next.leave kinds = .ok left) : left.HasBody := by
  obtain ⟨hwf, hchildren⟩ := hbodiless
  obtain ⟨outer, rest, henclosing, rfl⟩ := leave_eq_ok hleave
  have hpath : table.current :: table.enclosing = outer :: rest :=
    hinner.enclosing.symm.trans henclosing
  obtain ⟨rfl, -⟩ := List.cons.inj hpath
  refine ⟨table.size, ?_, ?_⟩
  · have hcurrent := hinner.outer table.current (.head _)
    change (next.scopeAt table.current).children = _
    rw [hcurrent, hwf.scopeAt_enter_current, hchildren]
    rfl
  · have hcurrent : next.current = table.size := hinner.current
    exact hinner.wellFormed.unmerged table.size (hcurrent ▸ mem_cons_self)

theorem HasBody.declares (hbody : table.HasBody) (hdeclares : Declares table next) :
    next.HasBody := by
  obtain ⟨body, hchildren, hunmerged⟩ := hbody
  refine ⟨body, ?_, (hdeclares.samePlace body).mergedInto.trans hunmerged⟩
  rw [currentScope, hdeclares.current]
  exact (hdeclares.samePlace table.current).children.trans hchildren

theorem Bodiless.declares (hbodiless : table.Bodiless) (hdeclares : Declares table next) :
    next.Bodiless := by
  refine ⟨(hdeclares.frame hbodiless.1).wellFormed, ?_⟩
  rw [currentScope, hdeclares.current]
  exact (hdeclares.samePlace table.current).children.trans hbodiless.2

end TypeSearch.Table
