import TypeSearch.Proofs.Scope.Operation
import TypeSearch.Proofs.Type.Proper

/-!
# Proper tables

A table is proper if all types in it are. `Develops` is what inference may do to a table between
opening a scope and closing it: the open scopes are those that were open, every scope keeps its
kind, and the table stays proper. That is enough to close any scope that was opened: leaving a scope
finds the kind that was entered, and a function finds its body.
-/

namespace TypeSearch

open List

variable {binding : Binding} {declaration : Declaration} {name : String}

def Declaration.Proper (declaration : Declaration) : Prop :=
  ∀ member ∈ declaration.members, member.type.Proper

structure Scope.Proper (scope : Scope) : Prop where
  bindings : ∀ binding ∈ scope.bindings, binding.type.Proper
  members : ∀ declaration ∈ scope.types, declaration.Proper

namespace Scope

variable {scope inner : Scope}

theorem proper_of_nil (hbindings : scope.bindings = []) (htypes : scope.types = []) :
    scope.Proper where
  bindings := by
    rw [hbindings]
    exact fun binding hmem => absurd hmem not_mem_nil
  members := by
    rw [htypes]
    exact fun declaration hmem => absurd hmem not_mem_nil

theorem proper_default : (default : Scope).Proper := proper_of_nil rfl rfl

section Proper

variable (hproper : scope.Proper)
include hproper

theorem Proper.congr {next : Scope} (hbindings : next.bindings = scope.bindings)
    (htypes : next.types = scope.types) : next.Proper :=
  ⟨hbindings ▸ hproper.bindings, htypes ▸ hproper.members⟩

theorem Proper.add (htype : binding.type.Proper) : (scope.add binding).Proper := by
  refine ⟨?_, hproper.members⟩
  unfold Scope.add
  dsimp only
  split
  · intro other hother
    obtain ⟨old, hold, rfl⟩ := mem_map.mp hother
    split
    · exact htype
    · exact hproper.bindings old hold
  · intro other hother
    rcases mem_append.mp hother with hold | hnew
    · exact hproper.bindings other hold
    · rw [mem_singleton.mp hnew]
      exact htype

theorem Proper.addType (hmembers : declaration.Proper) : (scope.addType declaration).Proper := by
  refine ⟨hproper.bindings, ?_⟩
  intro other hother
  rcases mem_append.mp hother with hold | hnew
  · exact hproper.members other (mem_of_mem_filter hold)
  · rw [mem_singleton.mp hnew]
    exact hmembers

theorem Proper.setMembers (name : String) {members : List Member}
    (hmembers : ∀ member ∈ members, member.type.Proper) :
    (scope.setMembers name members).Proper := by
  refine ⟨hproper.bindings, ?_⟩
  intro other hother
  obtain ⟨old, hold, rfl⟩ := mem_map.mp hother
  split
  · exact hmembers
  · exact hproper.members old hold

theorem Proper.absorb (hinner : inner.Proper) : (scope.absorb inner).Proper := by
  have hnamed : (inner.bindings.foldl Scope.add scope).Proper :=
    foldlRecOn _ _ hproper fun _ hscope binding hbinding =>
      hscope.add (hinner.bindings binding hbinding)
  have hall := foldlRecOn inner.types Scope.addType hnamed
    fun _ hscope declaration hdeclaration =>
      hscope.addType (hinner.members declaration hdeclaration)
  exact ⟨hall.bindings, hall.members⟩

end Proper

theorem Proper.handOver (hproper : scope.Proper) (old new : Scope.Id) :
    (scope.handOver old new).Proper := by
  refine ⟨?_, hproper.members⟩
  intro binding hbinding
  obtain ⟨other, hother, rfl⟩ := mem_map.mp hbinding
  have htype := hproper.bindings other hother
  split <;> exact htype

theorem Proper.lookup? (hproper : scope.Proper) (hlookup : scope.lookup? name = some binding) :
    binding.type.Proper := by
  rcases Option.or_eq_some_iff.mp hlookup with hbinding | ⟨-, htemplate⟩
  · exact hproper.bindings binding (mem_of_find?_eq_some hbinding)
  · obtain ⟨template, -, rfl⟩ := Option.map_eq_some_iff.mp htemplate
    exact .var template.var

end Scope

namespace Table

variable {table next last : Table} {id : Scope.Id} {f : Scope → Scope}

structure Proper (table : Table) : Prop where
  scopes : ∀ id, (table.scopeAt id).Proper
  prelude : ∀ binding ∈ table.prelude, binding.type.Proper
  declared : ∀ entry ∈ table.declared, entry.2.Proper

theorem proper_ofFile (file : String) (node : Option Tree.Locus) {prelude : List Binding}
    (hprelude : ∀ binding ∈ prelude, binding.type.Proper) : (ofFile file node prelude).Proper where
  scopes id := by
    cases id with
    | zero | succ id => exact Scope.proper_of_nil rfl rfl
  prelude := by
    intro binding hbinding
    obtain ⟨other, hother, rfl⟩ := mem_map.mp hbinding
    exact hprelude other hother
  declared _ hentry := absurd hentry not_mem_nil

theorem exists_id_of_mem_outwardFrom {scope : Scope} {steps : Nat} {start : Option Scope.Id}
    (hscope : scope ∈ table.outwardFrom steps start) : ∃ id, scope = table.scopeAt id := by
  induction steps generalizing start with
  | zero => cases hscope
  | succ steps ih =>
    cases start with
    | none => cases hscope
    | some id =>
      rcases mem_cons.mp hscope with rfl | hrest
      · exact ⟨id, rfl⟩
      · exact ih hrest

section Proper

variable (hproper : table.Proper)

include hproper

theorem Proper.outward : ∀ scope ∈ table.outward, scope.Proper := by
  intro scope hscope
  obtain ⟨id, rfl⟩ := exists_id_of_mem_outwardFrom hscope
  exact hproper.scopes id

theorem Proper.resolveAmong {count : Nat}
    (hresolve : table.resolveAmong count name = some binding) : binding.type.Proper := by
  obtain ⟨scope, hscope, hlookup⟩ := exists_of_findSome?_eq_some hresolve
  exact (hproper.outward scope (mem_of_mem_take hscope)).lookup? hlookup

theorem Proper.resolve (hresolve : table.resolve name = some binding) : binding.type.Proper := by
  rcases Option.or_eq_some_iff.mp hresolve with hscopes | ⟨-, hrest⟩
  · exact hproper.resolveAmong hscopes
  · rcases Option.or_eq_some_iff.mp hrest with hprelude | ⟨-, hbuiltIn⟩
    · exact hproper.prelude binding (mem_reverse.mp (mem_of_find?_eq_some hprelude))
    · unfold builtIn? at hbuiltIn
      split at hbuiltIn
      · cases hbuiltIn
        simp
      · cases hbuiltIn

theorem Proper.resolveType (hresolve : table.resolveType name = some declaration) :
    declaration.Proper := by
  rcases Option.or_eq_some_iff.mp hresolve with hscopes | ⟨-, hdeclared⟩
  · obtain ⟨scope, hscope, htype⟩ := exists_of_findSome?_eq_some hscopes
    exact (hproper.outward scope hscope).members declaration (mem_of_find?_eq_some htype)
  · obtain ⟨before, after, hsplit, -⟩ := lookup_eq_some_iff.mp hdeclared
    exact hproper.declared (name, declaration) (by simp [hsplit])

theorem Proper.member? {field : String} {args : List Ty} {member : Member}
    (hargs : ∀ t ∈ args, t.Proper)
    (hmember : (table.resolveType name).bind (·.member? field args) = some member) :
    member.type.Proper := by
  obtain ⟨declaration, hresolve, hfound⟩ := Option.bind_eq_some_iff.mp hmember
  obtain ⟨written, hwritten, rfl⟩ := Option.map_eq_some_iff.mp hfound
  have htype := hproper.resolveType hresolve written (mem_of_find?_eq_some hwritten)
  split
  · exact htype.substitute fun pair hpair => hargs pair.2 (of_mem_zip hpair).2
  · exact htype

theorem Proper.modifyScope (id : Scope.Id)
    (hf : ∀ scope, scope.Proper → (f scope).Proper) : (table.modifyScope id f).Proper := by
  refine ⟨fun other => ?_, hproper.prelude, hproper.declared⟩
  by_cases heq : other = id
  · subst heq
    by_cases hid : other < table.size
    · rw [scopeAt_modifyScope hid]
      exact hf _ (hproper.scopes other)
    · rw [scopeAt_of_size_le (by simpa using hid)]
      exact Scope.proper_default
  · rw [scopeAt_modifyScope_of_ne heq]
    exact hproper.scopes other

theorem Proper.enter (kind : Scope.Kind) (node : Option Tree.Locus) :
    (table.enter kind node).Proper := by
  have hnested := hproper.modifyScope table.current
    (f := fun scope => { scope with children := scope.children ++ [table.size] })
    fun scope hscope => hscope.congr rfl rfl
  refine ⟨fun id => ?_, hproper.prelude, hproper.declared⟩
  rcases Nat.lt_trichotomy id table.size with hlt | rfl | hgt
  · rw [scopeAt_enter_of_lt table kind node hlt]
    exact hnested.scopes id
  · rw [scopeAt_enter_size]
    exact Scope.proper_of_nil rfl rfl
  · rw [scopeAt_of_size_le ((size_enter table kind node).trans_le hgt)]
    exact Scope.proper_default

theorem Proper.mergeInto (id inner : Scope.Id) : (table.mergeInto id inner).Proper := by
  have habsorbed := hproper.modifyScope id (f := (·.absorb (table.scopeAt inner)))
    fun scope hscope => hscope.absorb (hproper.scopes inner)
  have hadopted : (table.adopted id inner).Proper :=
    foldlRecOn _ _ habsorbed fun _ htable child _ =>
      htable.modifyScope child fun scope hscope => hscope.congr rfl rfl
  have hclosed : (table.closed id inner).Proper :=
    hadopted.modifyScope inner fun scope hscope => hscope.congr rfl rfl
  refine ⟨fun other => ?_, hclosed.prelude, hclosed.declared⟩
  rw [scopeAt_mergeInto, handedOver]
  split
  · exact (hclosed.scopes other).handOver inner id
  · exact hclosed.scopes other

end Proper

/-! ### Tables that develop -/

def KeepsKinds (table next : Table) : Prop :=
  ∀ id < table.size, (next.scopeAt id).kind = (table.scopeAt id).kind

structure Develops (table next : Table) : Prop where
  frame : Frame True table next
  proper : next.Proper
  kinds : table.KeepsKinds next

theorem WellFormed.develops_refl (hwf : table.WellFormed) (hproper : table.Proper) :
    table.Develops table :=
  ⟨hwf.frame_refl True, hproper, fun _ _ => rfl⟩

theorem Develops.trans (hleft : table.Develops next) (hright : next.Develops last) :
    table.Develops last where
  frame := hleft.frame.trans hright.frame
  proper := hright.proper
  kinds id hid := by
    rw [hright.kinds id (hid.trans_le hleft.frame.size_le), hleft.kinds id hid]

theorem Declares.develops (hdeclares : Declares table next) (hwf : table.WellFormed)
    (hproper : next.Proper) : table.Develops next :=
  ⟨hdeclares.frame hwf, hproper, fun id _ => (hdeclares.samePlace id).kind⟩

/-! ### Leaving what was entered -/

section Leave

variable {kind : Scope.Kind} {node : Option Tree.Locus}

theorem keepsKinds_enter (table : Table) (kind : Scope.Kind) (node : Option Tree.Locus) :
    table.KeepsKinds (table.enter kind node) := by
  intro id hid
  rw [scopeAt_enter_of_lt table kind node hid]
  refine modifyScope_keeps Scope.kind ?_ table table.current id
  exact fun _ => rfl

theorem Develops.current_enter (hinner : (table.enter kind node).Develops next) :
    next.current = table.size ∧ next.enclosing = table.path ∧ next.currentScope.kind = kind := by
  have hcurrent : next.current = table.size := hinner.frame.current
  refine ⟨hcurrent, hinner.frame.enclosing, ?_⟩
  rw [currentScope, hcurrent, hinner.kinds table.size (by simp), scopeAt_enter_size]

theorem WellFormed.exists_leave (hwf : table.WellFormed)
    (hinner : (table.enter kind node).Develops next) {kinds : List Scope.Kind}
    (hkind : kind ∈ kinds) :
    ∃ left, next.leave kinds = .ok left ∧ left.scopes = next.scopes ∧ table.Develops left := by
  obtain ⟨-, henclosing, hcurrentKind⟩ := hinner.current_enter
  have hleave : next.leave kinds =
      .ok { next with current := table.current, enclosing := table.enclosing } := by
    have hnested := hinner.frame.wellFormed.nested
    rw [path, henclosing] at hnested
    cases hnested with
    | inside hparent _ _ =>
      rw [← currentScope] at hparent
      simp [Table.leave, hcurrentKind, hkind, hparent, henclosing, path]
  refine ⟨_, hleave, rfl, (hwf.frame_leave hinner.frame hleave).mono False.elim, ?_, ?_⟩
  · exact ⟨hinner.proper.scopes, hinner.proper.prelude, hinner.proper.declared⟩
  · intro id hid
    have hid' : id < (table.enter kind node).size := by
      rw [size_enter]
      omega
    exact (hinner.kinds id hid').trans (keepsKinds_enter table kind node id hid)

def HasBody (table : Table) : Prop :=
  ∃ body, table.currentScope.children = [body] ∧ (table.scopeAt body).mergedInto = none

theorem WellFormed.exists_leaveFunction (hwf : table.WellFormed)
    (hinner : (table.enter .abstraction node).Develops next) (hbody : next.HasBody) :
    ∃ left merged, next.leave [.abstraction] = .ok left ∧
      left.mergeBody next.current = .ok merged ∧ table.Develops merged := by
  obtain ⟨left, hleave, hscopes, hleft⟩ :=
    hwf.exists_leave hinner (mem_singleton_self Scope.Kind.abstraction)
  have hat : ∀ id, left.scopeAt id = next.scopeAt id := fun id => by rw [scopeAt, scopeAt, hscopes]
  obtain ⟨hcurrent, -, -⟩ := hinner.current_enter
  obtain ⟨body, hchildren, hunmerged⟩ := hbody
  have hmerge : left.mergeBody next.current = .ok (left.mergeInto next.current body) := by
    have hlive : (left.scopeAt next.current).children.filter
        (fun child => (left.scopeAt child).mergedInto.isNone) = [body] := by
      rw [hat, ← currentScope, hchildren, filter_singleton, hat, hunmerged]
      rfl
    simp only [mergeBody, hlive]
  have hlt : table.current < next.current := hcurrent ▸ hwf.current_lt
  refine ⟨left, _, hleave, hmerge, hleft.frame.mergeBody hlt hmerge, hleft.proper.mergeInto _ _, ?_⟩
  intro id hid
  rw [kind_mergeInto, hleft.kinds id hid]

end Leave

end Table

end TypeSearch
