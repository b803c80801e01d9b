import TypeSearch.Proofs.Inference.Enclosed

/-!
# Declarations go on

Declarations of classes, enums and modules and imports never fail: what is wrong with them is
written down. The types that they bring into a scope are proper, those of another file because that
file is.
-/

namespace TypeSearch.Infer

open Inference List
open TypeSearch.Tree (Site TypeExpr)

variable {α : Type} {prospect : Prospect} {K : Prop} {binding : Binding} {file : TypedFile}

theorem fulfils_replaceTable {f : Table → Option Issue × α × Table}
    (hdeclares : ∀ table, Table.Declares table (f table).2.2) (hf : ∀ table : Table, table.Proper →
      (f table).2.2.Proper ∧ ∀ issue ∈ (f table).1, issue.cause.code ≠ 0) :
    Fulfils prospect K (fun _ _ => True) (do
      let (issue, _, table) := f (← table)
      modifyTable fun _ => table
      issue.forM report) := by
  intro context state hcontext hsound hissues hK
  obtain ⟨hproper, hcode⟩ := hf state.table hsound.proper
  have hgrows := hsound.grows_table
    ((hdeclares state.table).develops hsound.wellFormed hproper) state.fresher
  have hreport : Fulfils prospect K (fun _ _ => True) ((f state.table).1.forM report) := by
    cases hissue : (f state.table).1 with
    | none => exact fulfils_pure fun _ _ => trivial
    | some issue => exact (fulfils_report (hcode issue hissue)).mono fun _ _ _ _ => trivial
  exact (hreport context _ hcontext hgrows.sound hissues hK).trans hgrows

theorem fulfils_declare (htype : binding.type.Proper) :
    Fulfils prospect K (fun _ _ => True) (declare binding) :=
  fulfils_replaceTable (fun table => table.declares_declare _) fun _ hproper =>
    hproper.declare htype

theorem fulfils_declareType {declaration : Declaration}
    (hmembers : declaration.Proper) :
    Fulfils prospect K (fun _ _ => True) (declareType declaration) :=
  fulfils_replaceTable (fun table => table.declares_declareType _) fun _ hproper =>
    hproper.declareType hmembers

/-! ### Classes and enums -/

theorem fulfils_declaredType (name : String) (node : Tree.Locus) (exported : Bool)
    (types : List TypeExpr) :
    Fulfils prospect K (fun _ found => found.1.members = [])
      (declaredType name node exported types) :=
  (fulfils_freshAll _).bind fun _ _ _ _ => fulfils_pure fun _ _ => rfl

theorem fulfils_fieldTypes (names : TypeNames) (types : List TypeExpr) :
    Fulfils prospect K (fun _ found => ∀ t ∈ found, t.Proper) (fieldTypes names types) := by
  induction types generalizing K with
  | nil => exact fulfils_pure fun _ _ => nofun
  | cons written rest ih =>
    have htype : Fulfils prospect K (fun _ found => found.1.Proper)
        (reportingAt written.site (typeExpr names written)) :=
      fulfils_reportingAt written.site fun _ _ => tries_typeExpr names written
    have hrest : ∀ (K : Prop) {type : Ty}, type.Proper → Fulfils prospect K
        (fun _ found => ∀ t ∈ found, t.Proper) (do return type :: (← fieldTypes names rest)) :=
      fun K type htype => (ih (K := K)).bind fun _ found _ hfound =>
        fulfils_pure fun _ _ => forall_mem_cons.mpr ⟨htype, hfound⟩
    refine htype.attempt.bind fun K' found _ hfound => ?_
    cases found with
    | ok found => exact hrest K' hfound
    | error failure => exact (fulfils_fresh _).bind fun K'' v _ _ => hrest K'' (.var v)

theorem proper_declarationType (declaration : Declaration) : declaration.type.Proper := by
  refine .parametric fun t ht => ?_
  obtain ⟨v, -, rfl⟩ := mem_map.mp ht
  exact .var v

theorem constructorType_meets {fields : List Ty} {result : Ty} (hfields : ∀ t ∈ fields, t.Proper)
    (hresult : result.Proper) :
    (constructorType fields result).Meets Ty.Proper fun _ => False := by
  unfold constructorType
  split
  · exact .curried (cons_ne_nil _ _) (by simp [hresult, Ty.proper_void])
  · rw [Ty.function_concat]
    exact .curried (by simp) (forall_mem_append.mpr ⟨hfields, forall_mem_singleton.mpr hresult⟩)

theorem proper_fields {fields : List (String × TypeExpr)} {types : List Ty}
    (htypes : ∀ type ∈ types, type.Proper) :
    ∀ member ∈ (fields.zip types).map fun ((name, _), type) => ({ name, type } : Member),
      member.type.Proper := by
  intro member hmember
  obtain ⟨⟨field, type⟩, hpair, rfl⟩ := mem_map.mp hmember
  exact htypes type (of_mem_zip hpair).2

theorem fulfils_declareClass (name : String) (node : Tree.Locus)
    (fields : List (String × TypeExpr)) (exported : Bool) :
    Fulfils prospect K (fun _ _ => True) (declareClass name node fields exported) := by
  refine (fulfils_declaredType name node exported _).bind fun _ found _ hmembers => ?_
  refine fulfils_table.bind fun _ _ _ _ => ?_
  refine (fulfils_declareType (by rw [Declaration.Proper, hmembers]; nofun)).bind fun _ _ _ _ => ?_
  refine (fulfils_fieldTypes _ _).bind fun _ types _ htypes => ?_
  have hmeets := constructorType_meets htypes (proper_declarationType found.1)
  dsimp only
  split
  · refine (fulfils_modifyTable (fun table => table.declares_setMembers _ _ _) fun table hproper =>
      ?_).bind fun _ _ _ _ => (fulfils_liftM hmeets).bind fun _ _ _ htype => fulfils_declare htype
    exact hproper.setMembers name (proper_fields htypes) _
  · exact (fulfils_liftM hmeets).bind fun _ _ _ htype => fulfils_declare htype

theorem fulfils_declareEnum (name : String) (node : Tree.Locus)
    (variants : List (String × List TypeExpr)) (exported : Bool) :
    Fulfils prospect K (fun _ _ => True) (declareEnum name node variants exported) := by
  refine (fulfils_declaredType name node exported _).bind fun _ found _ hmembers => ?_
  refine (fulfils_declareType (by rw [Declaration.Proper, hmembers]; nofun)).bind fun _ _ _ _ => ?_
  refine fulfils_forM fun variant _ K => ?_
  dsimp only
  split
  · exact fulfils_declare (proper_declarationType _)
  · exact (fulfils_fieldTypes _ _).bind fun _ types _ htypes =>
      (fulfils_liftM (constructorType_meets htypes (proper_declarationType _))).bind
        fun _ _ _ htype => fulfils_declare htype

/-! ### Modules and imports -/

theorem proper_moduleType (name : String) (node : Tree.Locus) (flags : Flags)
    {bindings : List Binding} (hbindings : ∀ binding ∈ bindings, binding.type.Proper) :
    (moduleType name node flags bindings).Proper := by
  intro member hmember
  obtain ⟨binding, hbinding, rfl⟩ := mem_map.mp hmember
  exact hbindings binding hbinding

theorem Fulfils.declareModule {statements : Infer Unit} {post : Prop → Unit → Prop}
    (hfulfils : Fulfils prospect K post statements)
    (hpost : ∀ K K' : Prop, (K' → K) → post K () → post K' ()) (hsure : Sure statements)
    (name : String) (node : Tree.Locus) (exported : Bool) :
    Fulfils prospect K post (declareModule name node exported statements) := by
  intro context state hcontext hsound hissues hK
  have hrun := hfulfils context { state with table := state.table.enterModule node } hcontext
    (hsound.enter _ _) hissues hK
  refine hrun.bindInside hsure fun _ middle hgrows hvalue => ?_
  obtain ⟨left, hleave, -, hdevelops⟩ := hsound.wellFormed.exists_leave hgrows.table
    (mem_singleton_self Scope.Kind.module)
  have hleft := hgrows.withTable hdevelops
  have hdeclare : Fulfils prospect (prospect.Allows middle) post (do
      let exports := ((← table).scopeAt middle.table.current).bindings.filter (·.flags.exported)
      let declaration := moduleType name node { exported } exports
      declareType declaration
      declare { name, type := declaration.type, flags := { exported }, node := some node }) := by
    refine fulfils_table.bind fun _ table hK₁ htable => ?_
    refine (fulfils_declareType (proper_moduleType name node _ fun binding hbinding => ?_)).bind
      fun _ _ hK₂ _ => (fulfils_declare (proper_declarationType _)).mono fun _ _ hK₃ _ => ?_
    · exact (htable.scopes _).bindings binding (mem_of_mem_filter hbinding)
    · exact hpost _ _ (hK₁ ∘ hK₂ ∘ hK₃) hvalue
  have hexit : tryTable (·.leaveModule) context middle = (.ok (), { middle with table := left }) :=
    tryTable_of_ok hleave
  have hlast := hdeclare context { middle with table := left } hcontext hleft.sound
    (hissues.trans hleft.length_le) id
  exact (congrArg (Fulfilled prospect state _) (bind_of_ok hexit)).mpr (hlast.trans hleft)

theorem proper_exports (hproper : file.table.Proper) :
    ∀ binding ∈ file.exports, binding.type.Proper :=
  fun binding hbinding => (hproper.scopes 0).bindings binding (mem_of_mem_filter hbinding)

theorem proper_exportedTypes (hproper : file.table.Proper) :
    ∀ declaration ∈ file.exportedTypes, declaration.Proper := by
  intro declaration hdeclaration
  have hsorted := mem_of_mem_filter hdeclaration
  exact (hproper.scopes 0).members declaration (mem_mergeSort.mp hsorted)

theorem fulfils_importFrom (hproper : file.table.Proper) (site : Site) (node : Tree.Locus)
    (path : String) (names : List String) (moduleName : String) :
    Fulfils prospect K (fun _ _ => True) (importFrom file site node path names moduleName) := by
  have hexports := proper_exports hproper
  refine (fulfils_forM fun declaration hdeclaration K => ?_).bind fun _ _ _ _ => ?_
  · exact fulfils_declareType (proper_exportedTypes hproper declaration hdeclaration)
  split
  · exact (fulfils_declareType (proper_moduleType _ _ _ hexports)).bind fun _ _ _ _ =>
      fulfils_declare (proper_declarationType _)
  · split
    · exact fulfils_forM fun binding hbinding K =>
        fulfils_declare (hexports binding hbinding)
    · refine fulfils_forM fun name _ K => ?_
      split
      · rename_i binding hfound
        exact fulfils_declare (hexports binding (mem_of_find?_eq_some hfound))
      · exact (fulfils_issueAt site _).bind fun _ issue _ hcause =>
          (fulfils_report (hcause ▸ Nat.succ_ne_zero 1)).mono fun _ _ _ _ => trivial

theorem fulfils_dependency (site : Site) :
    Fulfils prospect K (fun _ found => ∀ file ∈ found, file.table.Proper) (dependency? site) := by
  intro context state hcontext hsound _ _
  refine ⟨hsound.grows_refl, fun file hfile => ?_⟩
  obtain ⟨_, -, hfound⟩ := Option.bind_eq_some_iff.mp hfile
  exact hcontext file (mem_of_find?_eq_some hfound)

theorem fulfils_importFile (site : Site) (path : String) (names : List String)
    (moduleName : String) :
    Fulfils prospect K (fun _ _ => True) (importFile site path names moduleName) := by
  refine (fulfils_locus _ _).bind fun _ node _ _ => fulfils_table.bind fun _ table _ _ => ?_
  split
  · rename_i issue hissue
    refine (fulfils_report ?_).mono fun _ _ _ _ => trivial
    unfold Table.checkImport at hissue
    split at hissue
    · cases hissue
    · cases hissue
      exact Nat.succ_ne_zero 3
  · refine (fulfils_dependency site).bind fun _ found _ hfound => ?_
    cases found with
    | some file => exact fulfils_importFrom (hfound file rfl) site node path names moduleName
    | none =>
      exact (fulfils_issueAt site _).bind fun _ issue _ hcause =>
        (fulfils_report (hcause ▸ Nat.succ_ne_zero 8)).mono fun _ _ _ _ => trivial

end TypeSearch.Infer
