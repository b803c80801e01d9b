import TypeSearch.Proofs.Inference.Nesting
import TypeSearch.Proofs.Inference.Typing
import TypeSearch.Proofs.Scope.Resolve

/-!
# Names inside of functions

While the body of a function is inferred, the names of its parameters stand for the variables that
their patterns have, and all other names for what they stand for outside. This makes inference see
the environment of the typing rules.
-/

namespace TypeSearch

open Inference List
open TypeSearch.Tree (Node Pattern Site boundNames)

variable {node : Option Tree.Locus}

namespace Table

variable {table next : Table} {names : List String} {name : String}

/-- The current scope has the parameters of a function with the given names, whose types are
open. -/
structure Parameters (names : List String) (table : Table) : Prop where
  wellFormed : table.WellFormed
  kind : table.currentScope.kind = .abstraction
  bindings : table.currentScope.bindings = []
  named : ∀ name, (table.currentScope.template? name).isSome = true ↔ name ∈ names

theorem parameters_enter (hwf : table.WellFormed) (node : Option Tree.Locus) :
    (table.enterAbstraction node).Parameters [] := by
  have hscope := currentScope_enter table .abstraction node
  refine ⟨hwf.enter .abstraction node, ?_, ?_, fun name => ?_⟩
  · exact congrArg Scope.kind hscope
  · exact congrArg Scope.bindings hscope
  · rw [enterAbstraction, hscope]
    simp [Scope.template?]

section Parameters

variable (hparameters : table.Parameters names)

include hparameters

theorem Parameters.lookup? (name : String) :
    table.currentScope.lookup? name =
      (table.currentScope.template? name).map (·.pending table.currentScope.id) := by
  rw [Scope.lookup?, Scope.binding?, hparameters.bindings]
  rfl

/-! ### Adding parameters -/

theorem Parameters.duplicate? (node : Option Tree.Locus) :
    (table.duplicate? name node).isSome = true ↔ name ∈ names := by
  have hown : table.ownScopes = 1 := by
    rw [ownScopes, hparameters.kind]
    rfl
  rw [Table.duplicate?, Option.isSome_map, hown, hparameters.wellFormed.resolveAmong_one,
    hparameters.lookup?, Option.isSome_map, hparameters.named]

theorem Parameters.addTemplate (marks : Flags)
    (binder : Tree.Binder) (fresher : Fresher) :
    (table.addTemplate marks binder fresher).2.2.1.Parameters (names ++ [binder.name]) := by
  have hframe := (table.declares_addTemplate marks binder fresher).frame hparameters.wellFormed
  have hwf := hframe.wellFormed
  have hduplicate : (table.duplicate? binder.name
      (some ⟨.identifierPattern, table.file, binder.site.span⟩)).isSome = true ↔
        binder.name ∈ names := hparameters.duplicate? _
  revert hwf
  simp only [Table.addTemplate]
  split
  · -- a name that is taken is among the names already
    rename_i issue htaken
    rw [htaken] at hduplicate
    have hmem : binder.name ∈ names := hduplicate.mp rfl
    refine fun hwf => ⟨hwf, hparameters.kind, hparameters.bindings, fun name => ?_⟩
    rw [hparameters.named]
    simp only [mem_append, mem_singleton]
    exact ⟨.inl, fun hname => hname.elim id fun heq => heq ▸ hmem⟩
  · refine fun hwf => ⟨hwf, ?_, ?_, fun name => ?_⟩
    all_goals rw [hparameters.wellFormed.currentScope_modifyCurrent]
    · exact hparameters.kind
    · exact hparameters.bindings
    · rw [Scope.template?, find?_append, Option.isSome_or, Bool.or_eq_true]
      refine (or_congr (hparameters.named name) ?_).trans mem_append.symm
      by_cases heq : name = binder.name
      · simp [heq]
      · simp [heq, Ne.symm heq]

theorem Parameters.addTemplates (marks : Flags)
    (binders : List Tree.Binder) (fresher : Fresher) :
    (table.addTemplates marks binders fresher).2.2.1.Parameters
      (names ++ binders.map (·.name)) := by
  induction binders generalizing table names fresher with
  | nil =>
    rw [map_nil, append_nil]
    exact hparameters
  | cons binder binders ih =>
    have hrest := ih (hparameters.addTemplate marks binder fresher)
      (table.addTemplate marks binder fresher).2.2.2
    rwa [append_assoc] at hrest

theorem Parameters.withNext (flags : Flags) : { table with next := flags }.Parameters names :=
  { hparameters with
    wellFormed := ((table.declares_marked _ _).frame hparameters.wellFormed).wellFormed }

/-! ### What names stand for -/

theorem Parameters.resolve_of_mem (hname : name ∈ names) :
    ∃ template, table.currentScope.template? name = some template ∧
      table.resolve name = some (template.pending table.currentScope.id) := by
  obtain ⟨template, htemplate⟩ := Option.isSome_iff_exists.mp ((hparameters.named name).mpr hname)
  refine ⟨template, htemplate, ?_⟩
  rw [hparameters.wellFormed.resolve_eq, hparameters.lookup?, htemplate]
  rfl

end Parameters

theorem Parameters.resolve_of_not_mem (hparameters : next.Parameters names) (hwf : table.WellFormed)
    (hframe : Frame True (table.enterAbstraction node) next) (hname : name ∉ names) :
    next.resolve name = table.resolve name := by
  have hnone : next.currentScope.template? name = none := by
    rwa [← hparameters.named, Option.isSome_iff_ne_none, not_not] at hname
  rw [hparameters.wellFormed.resolve_eq, hparameters.lookup?, hnone, Option.map_none,
    Option.none_or, hframe.outside_eq]
  exact hwf.outside_enter .abstraction node name

end Table

namespace Infer

variable {context : Context} {state after : State} {names : List String} {known : String → Prop}
  {env : Env} {p : Pattern} {params : List Pattern}

theorem implicitTemplates_parameters (hparameters : state.table.Parameters names)
    (hrun : implicitTemplates p context state = (.ok (), after)) :
    after.table.Parameters (names ++ p.names) := by
  cases hrun
  exact ((hparameters.withNext (state.table.next.or { implicit := true })).withNext {}).addTemplates
    _ p.binders state.fresher

theorem templates_parameters (hparameters : state.table.Parameters names)
    (hrun : params.forM implicitTemplates context state = (.ok (), after)) :
    after.table.Parameters (names ++ boundNames params) := by
  induction params generalizing state names with
  | nil =>
    obtain ⟨-, rfl⟩ := pure_eq_ok hrun
    simpa [boundNames] using hparameters
  | cons p rest ih =>
    obtain ⟨_, middle, hfirst, hrest⟩ := bind_eq_ok hrun
    have hall := ih (implicitTemplates_parameters hparameters hfirst) hrest
    rwa [append_assoc] at hall

/-- The pattern of a parameter has a variable as its type, which its name stands for in the
table. -/
structure Leaf (table : Table) (p : Pattern) (leaf : Typed) : Prop where
  shape : ∃ v, leaf = .mk p.site.key (.var v) []
  named : ∀ name ∈ p.names, ∃ template, table.currentScope.template? name = some template ∧
    leaf.type = .var template.var

theorem pattern_leaf (hp : p.IsParameter) (hparameters : state.table.Parameters names)
    (hnames : ∀ name ∈ p.names, name ∈ names) (classes : Classes) (context : Context) :
    ∃ leaf middle, pattern classes p context state = (.ok (leaf, classes), middle) ∧
      middle.table = state.table ∧ Leaf state.table p leaf := by
  cases hp with
  | wildcard site =>
    rw [pattern]
    exact ⟨_, _, rfl, rfl, ⟨_, rfl⟩, nofun⟩
  | identifier site name =>
    obtain ⟨template, htemplate, -⟩ := hparameters.resolve_of_mem (hnames name (by
      simp [Pattern.names, Pattern.binders]))
    have hname : nameType name context state = (.ok (.var template.var), state) := by
      have htable : table context state = (.ok state.table, state) := rfl
      rw [nameType, bind_of_ok htable, htemplate]
      rfl
    rw [pattern, binder, bind_of_ok hname]
    refine ⟨_, _, rfl, rfl, ⟨_, rfl⟩, fun other hother => ?_⟩
    obtain rfl : other = name := by simpa [Pattern.names, Pattern.binders] using hother
    exact ⟨template, htemplate, rfl⟩

theorem params_leaves (hparams : ∀ p ∈ params, p.IsParameter)
    (hparameters : state.table.Parameters names) (hnames : ∀ name ∈ boundNames params, name ∈ names)
    (body : Tree.Locus) (classes : Classes) (context : Context) :
    ∃ leaves middle, Infer.params body params classes context state =
        (.ok (leaves, classes), middle) ∧
      middle.table = state.table ∧ Forall₂ (Leaf state.table) params leaves := by
  induction params generalizing state with
  | nil => exact ⟨[], state, rfl, rfl, .nil⟩
  | cons p rest ih =>
    rw [forall_mem_cons] at hparams
    have hown : ∀ name ∈ p.names, name ∈ names := fun name hname =>
      hnames name (mem_append_left _ hname)
    have hothers : ∀ name ∈ boundNames rest, name ∈ names := fun name hname =>
      hnames name (mem_append_right _ hname)
    obtain ⟨leaf, middle, hfirst, htable, hleaf⟩ :=
      pattern_leaf hparams.1 hparameters hown classes context
    have hmiddle : middle.table.Parameters names := by rwa [htable]
    obtain ⟨leaves, last, hrest, htable', hleaves⟩ := ih hparams.2 hmiddle hothers
    have hattempt : attempt (pattern classes p) context state =
        (.ok (.ok (leaf, classes)), middle) := by
      rw [attempt, hfirst]
    refine ⟨leaf :: leaves, last, ?_, htable'.trans htable, .cons hleaf (by rwa [← htable])⟩
    rw [params, bind_of_ok hattempt]
    exact bind_of_ok hrest

/-! ### The environment of the typing rules -/

/-- Every known name stands for a first-order binding, whose uses have types of the environment. -/
structure Sees (known : String → Prop) (env : Env) (table : Table) : Prop where
  wellFormed : table.WellFormed
  names : ∀ name, known name → ∃ binding, table.resolve name = some binding ∧
    binding.type.FirstOrder ∧ ∀ t, binding.Instance t → env name t

variable {table next : Table}

theorem Sees.frame (hsees : Sees known env table) (hframe : Table.Frame False table next) :
    Sees known env next := by
  refine ⟨hframe.wellFormed, fun name hname => ?_⟩
  rw [hframe.resolve_eq hsees.wellFormed]
  exact hsees.names name hname

theorem Sees.inside {leaves : List Typed} (hsees : Sees known env table)
    (hframe : Table.Frame True (table.enterAbstraction node) next)
    (hparameters : next.Parameters (boundNames params))
    (hleaves : Forall₂ (Leaf next) params leaves) (body : Option Tree.Locus) :
    Sees (fun name => name ∈ boundNames params ∨ known name) (env.bind params leaves)
      (next.enterBlock body) := by
  refine ⟨hparameters.wellFormed.enter _ body, fun name hname => ?_⟩
  rw [Table.enterBlock, hparameters.wellFormed.resolve_enter]
  by_cases hmem : name ∈ boundNames params
  · obtain ⟨template, htemplate, hresolve⟩ := hparameters.resolve_of_mem hmem
    refine ⟨_, hresolve, .var template.var, ?_⟩
    rintro t ⟨replace, hreplace, rfl⟩
    rw [Env.bind, if_pos hmem]
    rintro ⟨p, leaf⟩ hpair hnamed
    obtain ⟨other, hother, htype⟩ := ((forall₂_iff_zip.mp hleaves).2 hpair).named name hnamed
    obtain rfl : template = other := Option.some.inj (htemplate.symm.trans hother)
    rw [htype]
    exact hreplace template.var not_mem_nil
  · obtain ⟨binding, hresolve, hfirst, henv⟩ := hsees.names name (hname.resolve_left hmem)
    rw [hparameters.resolve_of_not_mem hsees.wellFormed hframe hmem]
    refine ⟨binding, hresolve, hfirst, fun t ht => ?_⟩
    rw [Env.bind, if_neg hmem]
    exact henv t ht

end Infer

end TypeSearch
