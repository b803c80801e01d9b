import TypeSearch.Proofs.Inference.Guess
import TypeSearch.Proofs.Scope.Operation
import TypeSearch.Proofs.Scope.Resolve
import TypeSearch.Proofs.Type.Fresh

/-!
# What names mean

Under a substitution for variables a name may be used with the types that its binding has for given
guesses. A name whose type is still open means the value of its variable. Inside of a scope that was
opened, its own names mean the values of theirs, and all other names what they mean outside.
-/

namespace TypeSearch

open List
open TypeSearch.Tree (Site)

variable {arity : Nat} {t : Ty}

/-! ### Functions that are seen to be such -/

theorem Ty.Takes.subst (htakes : t.Takes arity) (replace : Variable → Ty) :
    (t.subst replace).Takes arity := by
  induction arity generalizing t with
  | zero => trivial
  | succ arity ih =>
    obtain ⟨param, result, more, rfl, hrest⟩ := htakes
    have happlied : (Ty.applied result more).subst replace =
        Ty.applied (result.subst replace) (more.map (Ty.subst replace)) := by
      cases more with
      | nil => rfl
      | cons t ts =>
        change Ty.curried (Ty.substAll replace (result :: t :: ts)) = _
        rw [Ty.substAll_eq_map]
        rfl
    refine ⟨param.subst replace, result.subst replace, more.map (Ty.subst replace), ?_, ?_⟩
    · rw [Ty.subst, Ty.substAll_eq_map]
      rfl
    · rw [← happlied]
      exact ih hrest

theorem Ty.Takes.instantiate (htakes : t.Takes arity) (quantified : List VarId)
    (fresher : Fresher) : (t.instantiate quantified fresher).1.Takes arity := by
  rw [Ty.instantiate]
  split
  · exact htakes
  · dsimp only
    rw [Ty.substitute]
    split
    · exact htakes
    · exact htakes.subst _

theorem Ty.takes_curried {params : List Ty} (harity : arity ≤ params.length) (result : Ty) :
    (Ty.curried (params ++ [result])).Takes arity := by
  induction arity generalizing params with
  | zero => trivial
  | succ arity ih =>
    cases params with
    | nil => cases harity
    | cons param params =>
      cases params with
      | nil =>
        obtain rfl : arity = 0 := Nat.le_zero.mp (Nat.le_of_succ_le_succ harity)
        exact ⟨param, result, [], rfl, trivial⟩
      | cons second params =>
        refine ⟨param, second, params ++ [result], rfl, ?_⟩
        have happlied : Ty.applied second (params ++ [result]) =
            .curried ((second :: params) ++ [result]) := if_neg (by simp)
        rw [happlied]
        exact ih (Nat.le_of_succ_le_succ harity)

/-! ### Names of a table -/

namespace Table

variable {table next inner : Table} {kind : Scope.Kind} {node : Option Tree.Locus}
  {bound : List String} {ids : List VarId} {name : String} {count : Nat} {template : Template}

/-- What the names of the table may be used with, under a substitution for variables. -/
def meaning (table : Table) (σ : VarId → Ty) : Uses := fun name guesses t =>
  ∃ binding, table.resolve name = some binding ∧ guesses.length = binding.quantified.length ∧
    t = binding.type.apply (override binding.quantified guesses σ)

/-- The names of the table whose types are first-order, with what is seen of them. -/
def names (table : Table) : Names := fun name arity count =>
  ∃ binding, table.resolve name = some binding ∧ binding.type.FirstOrder ∧
    binding.type.Takes arity ∧ binding.quantified.length = count

theorem meaning_congr (hresolve : ∀ name, next.resolve name = table.resolve name) :
    next.meaning = table.meaning := by
  funext σ name guesses t
  rw [meaning, meaning, hresolve]

theorem names_congr (hresolve : ∀ name, next.resolve name = table.resolve name) :
    next.names = table.names := by
  funext name arity count
  rw [Table.names, Table.names, hresolve]

theorem length_of_meaning (hname : table.names name arity count) {σ : VarId → Ty}
    {guesses : List Ty} (hused : table.meaning σ name guesses t) : guesses.length = count := by
  obtain ⟨binding, hresolve, -, -, hcount⟩ := hname
  obtain ⟨other, hother, hlength, -⟩ := hused
  cases hresolve.symm.trans hother
  rw [hlength, hcount]

/-! ### Scopes that were opened -/

/-- The current scope of `inner` was opened in `table`; its names are given with the numbers
of their variables, and their types are open. -/
structure Opens (table inner : Table) (bound : List String) (ids : List VarId) : Prop where
  wellFormed : inner.WellFormed
  outside : ∀ name, inner.outside name = table.resolve name
  bindings : inner.currentScope.bindings = []
  templates : inner.currentScope.templates.map (fun template =>
    (template.name, template.var.id)) = bound.zip ids
  length_eq : bound.length = ids.length
  nodup : bound.Nodup

theorem opens_enter (hwf : table.WellFormed) (kind : Scope.Kind) (node : Option Tree.Locus) :
    table.Opens (table.enter kind node) [] [] where
  wellFormed := hwf.enter kind node
  outside := hwf.outside_enter kind node
  bindings := congrArg Scope.bindings (currentScope_enter table kind node)
  templates := by
    rw [currentScope_enter]
    rfl
  length_eq := rfl
  nodup := nodup_nil

section Opens

variable (hopens : table.Opens inner bound ids)

include hopens

theorem Opens.frame (hframe : Frame False inner next) : table.Opens next bound ids := by
  have hstays : inner.currentScope.Stays next.currentScope := hframe.own.resolve_left id
  refine ⟨hframe.wellFormed, fun name => ?_, ?_, ?_, hopens.length_eq, hopens.nodup⟩
  · rw [hframe.outside_eq, hopens.outside]
  · rw [hstays]
    exact hopens.bindings
  · rw [hstays]
    exact hopens.templates

theorem Opens.lookup? (name : String) :
    inner.currentScope.lookup? name =
      (inner.currentScope.template? name).map (·.pending inner.currentScope.id) := by
  rw [Scope.lookup?, Scope.binding?, hopens.bindings]
  rfl

theorem Opens.mem_of_template?
    (htemplate : inner.currentScope.template? name = some template) :
    (name, template.var.id) ∈ bound.zip ids := by
  have hname : template.name = name := by
    have hfound := find?_some htemplate
    simpa using hfound
  rw [← hopens.templates, ← hname]
  exact mem_map_of_mem (mem_of_find?_eq_some htemplate)

theorem Opens.exists_template (hname : name ∈ bound) :
    ∃ template, inner.currentScope.template? name = some template := by
  rw [← map_fst_zip hopens.length_eq.le, ← hopens.templates, map_map] at hname
  obtain ⟨template, htemplate, rfl⟩ := mem_map.mp hname
  exact Option.isSome_iff_exists.mp
    (find?_isSome.mpr ⟨template, htemplate, beq_self_eq_true _⟩)

theorem Opens.resolve_of_not_mem (hname : name ∉ bound) :
    inner.resolve name = table.resolve name := by
  have hnone : inner.currentScope.template? name = none := by
    rw [Option.eq_none_iff_forall_ne_some]
    intro template htemplate
    exact hname (of_mem_zip (hopens.mem_of_template? htemplate)).1
  rw [hopens.wellFormed.resolve_eq, hopens.lookup?, hnone, Option.map_none, Option.none_or,
    hopens.outside]

theorem Opens.resolve_of_mem
    (htemplate : inner.currentScope.template? name = some template) :
    inner.resolve name = some (template.pending inner.currentScope.id) := by
  rw [hopens.wellFormed.resolve_eq, hopens.lookup?, htemplate]
  rfl

end Opens

theorem eq_of_mem_zip {α : Type} {values : List α} (hnodup : bound.Nodup)
    {a b : α} (ha : (name, a) ∈ bound.zip values) (hb : (name, b) ∈ bound.zip values) : a = b := by
  induction bound generalizing values with
  | nil => cases ha
  | cons first bound ih =>
    rw [nodup_cons] at hnodup
    cases values with
    | nil => cases ha
    | cons value values =>
      rw [zip_cons_cons, mem_cons] at ha hb
      rcases ha with ha | ha <;> rcases hb with hb | hb
      · cases ha
        cases hb
        rfl
      · cases ha
        exact absurd (of_mem_zip hb).1 hnodup.1
      · cases hb
        exact absurd (of_mem_zip ha).1 hnodup.1
      · exact ih hnodup.2 ha hb

theorem Opens.meaning_eq (hopens : table.Opens inner bound ids) (σ : VarId → Ty) :
    inner.meaning σ = (table.meaning σ).bind bound (ids.map σ) := by
  funext name guesses t
  rw [Uses.bind]
  split
  · rename_i hname
    obtain ⟨template, htemplate⟩ := hopens.exists_template hname
    have hmem : (name, σ template.var.id) ∈ bound.zip (ids.map σ) := by
      rw [zip_map_right]
      exact mem_map.mpr ⟨_, hopens.mem_of_template? htemplate, rfl⟩
    rw [meaning, hopens.resolve_of_mem htemplate]
    refine propext ⟨?_, ?_⟩
    · rintro ⟨binding, hbinding, hlength, rfl⟩
      cases hbinding
      exact ⟨length_eq_zero_iff.mp hlength, hmem⟩
    · rintro ⟨rfl, ht⟩
      exact ⟨_, rfl, rfl, eq_of_mem_zip hopens.nodup ht hmem⟩
  · rename_i hname
    rw [meaning, meaning, hopens.resolve_of_not_mem hname]

theorem Opens.names_of_bind (hopens : table.Opens inner bound ids)
    (hname : table.names.bind bound name arity count) : inner.names name arity count := by
  unfold Names.bind at hname
  split at hname
  · rename_i hmem
    obtain ⟨template, htemplate⟩ := hopens.exists_template hmem
    obtain ⟨rfl, rfl⟩ := hname
    exact ⟨_, hopens.resolve_of_mem htemplate, .var template.var, trivial, rfl⟩
  · rename_i hmem
    rwa [Table.names, hopens.resolve_of_not_mem hmem]

/-! ### Adding a name -/

theorem WellFormed.lookup?_of_resolveAmong (hwf : table.WellFormed) (hcount : 0 < count)
    (hnone : table.resolveAmong count name = none) : table.currentScope.lookup? name = none := by
  obtain ⟨less, rfl⟩ := Nat.exists_eq_succ_of_ne_zero hcount.ne'
  rw [resolveAmong, hwf.outward_eq, path, map_cons, take_succ_cons,
    findSome?_eq_none_iff] at hnone
  exact hnone _ (.head _)

def newTemplate (table : Table) (marks : Flags) (binder : Tree.Binder) (fresher : Fresher) :
    Template where
  name := binder.name
  var := ⟨fresher.last + 1, binder.name⟩
  flags := { exported := false, implicit := marks.implicit }
  node := some ⟨.identifierPattern, table.file, binder.site.span⟩

def withTemplate (table : Table) (template : Template) : Table :=
  table.modifyCurrent fun scope => { scope with templates := scope.templates ++ [template] }

theorem addTemplate_of_new {marks : Flags} (binder : Tree.Binder)
    (hnew : table.resolveAmong table.ownScopes binder.name = none) (hmarks : marks.exported = false)
    (fresher : Fresher) :
    table.addTemplate marks binder fresher =
      (some (table.newTemplate marks binder fresher), [],
        table.withTemplate (table.newTemplate marks binder fresher), fresher.skip 1) := by
  simp only [addTemplate, duplicate?, hnew, Option.map_none, hmarks, Bool.false_and]
  rfl

theorem WellFormed.templates_of_new (hwf : table.WellFormed)
    (hnew : table.resolveAmong table.ownScopes name = none)
    (hunmarked : table.next.exported = false) (site : Site) (fresher : Fresher) :
    table.templates (.identifier ⟨site, name, none⟩) fresher =
      ([table.newTemplate table.next ⟨site, name, none⟩ fresher], [],
        { table with next := {} }.withTemplate
          (table.newTemplate table.next ⟨site, name, none⟩ fresher), fresher.skip 1) := by
  have hframe : Frame False table { table with next := {} } :=
    hwf.frame_marked {} _
  have hblank : { table with next := {} }.resolveAmong { table with next := {} }.ownScopes name =
      none := (hframe.resolveAmong_eq hwf table.ownScopes name).trans hnew
  have hadd := addTemplate_of_new ⟨site, name, none⟩ hblank hunmarked fresher
  simp only [Table.templates, Tree.Pattern.binders, Table.addTemplates, hadd]
  rfl

theorem Opens.withTemplate (hopens : table.Opens inner bound ids) (hmem : template.name ∉ bound) :
    table.Opens (inner.withTemplate template) (bound ++ [template.name])
      (ids ++ [template.var.id]) := by
  have hframe : Frame True inner (inner.withTemplate template) :=
    (declares_modifyCurrent inner fun _ => Scope.Grows.refl.addTemplate _).frame hopens.wellFormed
  have hscope : (inner.withTemplate template).currentScope =
      { inner.currentScope with templates := inner.currentScope.templates ++ [template] } :=
    hopens.wellFormed.currentScope_modifyCurrent _
  refine ⟨hframe.wellFormed, fun other => ?_, ?_, ?_, ?_, ?_⟩
  · rw [hframe.outside_eq, hopens.outside]
  · rw [hscope]
    exact hopens.bindings
  · rw [hscope, map_append, hopens.templates, zip_append hopens.length_eq]
    rfl
  · rw [length_append, length_append, hopens.length_eq]
    rfl
  · exact nodup_append.mpr ⟨hopens.nodup, nodup_singleton _, fun a ha b hb heq =>
      hmem (by rwa [← mem_singleton.mp hb, ← heq])⟩

theorem Opens.not_mem_of_new (hopens : table.Opens inner bound ids)
    (hnew : inner.resolveAmong inner.ownScopes name = none) : name ∉ bound := by
  have hown : 0 < inner.ownScopes := by
    rw [ownScopes]
    split <;> decide
  intro hmem
  obtain ⟨template, htemplate⟩ := hopens.exists_template hmem
  have hlookup := hopens.wellFormed.lookup?_of_resolveAmong hown hnew
  rw [hopens.lookup?, htemplate] at hlookup
  cases hlookup

end Table

end TypeSearch
