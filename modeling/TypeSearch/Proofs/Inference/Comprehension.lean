import TypeSearch.Proofs.Inference.Block

/-!
# Comprehensions over one value

A comprehension with one generator that goes through a list of one value reaches its body by another
way than a block that gives the name the value: the body is inferred before it is known what the
name stands for, and more variables are taken on the way. For bodies that do not look at what is
known this makes no difference: what the comprehension requires is a copy of what the block does.
-/

namespace TypeSearch

open Inference List
open Classes (FirstOrderGraph)
open TypeSearch.Tree (Fragment Node Pattern Site)

theorem hasType_listOne_iff {uses : Uses} {site : Site} {value : Node} {first : List Ty}
    {element t : Ty} : HasType uses (.list site [value]) (first ++ [element]) t ↔
      (∃ u, HasType uses value first u ∧ u.same element = true) ∧
        t.same (.list element) = true := by
  constructor
  · intro htype
    generalize hall : first ++ [element] = all at htype
    cases htype with
    | list helements hsame htype =>
      obtain ⟨rfl, hlast⟩ := append_inj' hall rfl
      cases hlast
      cases helements with
      | cons hvalue hrest =>
        cases hrest
        rw [append_nil]
        exact ⟨⟨_, hvalue, hsame _ (.head _)⟩, htype⟩
  · rintro ⟨⟨u, hvalue, hsame⟩, htype⟩
    have helements : HasTypes uses [value] (first ++ []) [u] := .cons hvalue .nil
    rw [append_nil] at helements
    exact .list helements (forall_mem_singleton.mpr hsame) htype

/-! ### Names that are known at the start -/

namespace Prelude

theorem occurs_binary (id : VarId) (operand result : Ty) :
    (binary operand result).occurs id = (operand.occurs id || result.occurs id) := by
  simp [binary, Ty.occurs, Ty.occursAny]

theorem occurs_monomorphic (id : VarId) :
    ∀ binding ∈ monomorphic, binding.type.occurs id = false := by
  have hnumber : Ty.number.occurs id = false := rfl
  have hstring : Ty.string.occurs id = false := rfl
  have hboolean : Ty.boolean.occurs id = false := rfl
  have hplus : (Ty.unionOf [binary .number .number, binary .string .string]).occurs id = false := by
    rw [Bool.eq_false_iff, Ne, Ty.occurs_unionOf_iff]
    simp [occurs_binary, hnumber, hstring]
  have hnot : (Ty.curried [.boolean, .boolean]).occurs id = false := rfl
  simp [monomorphic, hplus, hnot, occurs_binary, hnumber, hboolean]

theorem occurs_polymorphic {id : VarId} {v : Variable} :
    ∀ scheme ∈ polymorphic, (scheme.2 (.var v)).occurs id = true → v.id = id := by
  simp +contextual [polymorphic, occurs_binary, Ty.occurs, Ty.occursAny, Ty.number, Ty.boolean,
    Ty.void, Ty.list]

theorem quantified_bindings (fresher : Fresher) : ∀ binding ∈ (bindings fresher).1, ∀ id,
    binding.type.occurs id = true → id ∈ binding.quantified := by
  refine forall_mem_append.mpr ⟨fun binding hbinding id hoccurs => ?_,
    fun binding hbinding id hoccurs => ?_⟩
  · rw [occurs_monomorphic id binding hbinding] at hoccurs
    cases hoccurs
  · rw [← map_uncurry_zip_eq_zipWith] at hbinding
    obtain ⟨⟨scheme, v⟩, hpair, rfl⟩ := mem_map.mp hbinding
    exact mem_singleton.mpr (occurs_polymorphic scheme (of_mem_zip hpair).1 hoccurs).symm

end Prelude

namespace Infer

variable {context : Context} {state after middle : State} {classes graph : Classes} {name : String}
  {value body : Node} {guessed more : Nat} {outer : Table} {names : Names}

/-! ### The generator -/

theorem decided_iterables (hgraph : FirstOrderGraph classes) (hready : state.Ready names context)
    (hopens : outer.Opens state.table [] [])
    (hnew : state.table.resolveAmong state.table.ownScopes name = none)
    (hvalue : Plain names value 0 guessed) (named list : Site) :
    Decided (∃ σ t, Fits classes state (.list list [value]) (guessed + 1) σ t)
      (fun found after => ∃ a middle, found = [⟨[a]⟩] ∧ state.Advances (guessed + 1) middle ∧
        Named outer name middle after ∧
        Exactly 0 (Fits classes state (.list list [value]) (guessed + 1)) a)
      ((generatorParts classes [(.identifier ⟨named, name, none⟩, .list list [value])] >>=
        allOrLast) context state) := by
  have hlist : Plain names (.list list [value]) 0 ([guessed].sum + 1) :=
    .list list rfl (forall_mem_singleton.mpr hvalue)
  have hparts : (generatorParts classes
      [(.identifier ⟨named, name, none⟩, .list list [value])] >>= allOrLast) = (do
        let answers ← attempt (answersOf (statement classes (.list list [value])))
        let given ← (do
          implicitTemplates (.identifier ⟨named, name, none⟩)
          pure [])
        allOrLast (answers :: given)) := by
    simp only [generatorParts, bind_assoc, pure_bind]
  rw [hparts]
  refine (exact_plain hlist hgraph hready).allOrLast_cons (fun answers middle hpost => ?_) id
  obtain ⟨hadvances, a, rfl, ha⟩ := hpost
  have hown : middle.table.ownScopes = state.table.ownScopes := by
    have hstays : state.table.currentScope.Stays middle.table.currentScope :=
      hadvances.frame.own.resolve_left id
    rw [Table.ownScopes, hstays]
    rfl
  have hnewLater : middle.table.resolveAmong middle.table.ownScopes name = none := by
    rw [hown, hadvances.frame.resolveAmong_eq hready.sound.wellFormed, hnew]
  obtain ⟨inner, hrun, hinner, -, hmarks⟩ := implicitTemplates_run
    (hopens.frame hadvances.frame) hnewLater hadvances.unmarked named context
  have hsound := hadvances.sound.of_fulfils hready.context
    (fulfils_implicitTemplates (.identifier ⟨named, name, none⟩)) fun cause hhalted => by
      rw [hrun] at hhalted
      cases hhalted
  rw [hrun] at hsound
  rw [bind_assoc, bind_of_ok hrun]
  exact decided_of_ok rfl ⟨a, middle, rfl, hadvances, ⟨hinner, hmarks, hsound, rfl, rfl⟩, ha⟩

theorem decided_bindGenerators {type : Ty} (hnamed : Named outer name middle state)
    (hgraph : FirstOrderGraph graph) (htype : type.FirstOrder) (named : Site) :
    Decided (∃ σ, graph.Solves σ ∧
        (Ty.list (σ (state.fresher.last + 1))).same (type.apply σ) = true ∧
        (σ (state.fresher.last + 1)).same (σ (middle.fresher.last + 1)) = true)
      (fun result after => after = { state with fresher := state.fresher.skip 1 } ∧
        FirstOrderGraph result.2 ∧ ∀ σ, result.2.Solves σ ↔ graph.Solves σ ∧
          (Ty.list (σ (state.fresher.last + 1))).same (type.apply σ) = true ∧
          (σ (state.fresher.last + 1)).same (σ (middle.fresher.last + 1)) = true)
      (bindGenerators [.identifier ⟨named, name, none⟩] [type] graph context state) := by
  let later : State := { state with fresher := state.fresher.skip 1 }
  have hfresh : fresh "e" context state = (.ok ⟨state.fresher.last + 1, "e"⟩, later) := rfl
  obtain ⟨template, htemplate⟩ := hnamed.opens.exists_template (.head _)
  have hid : template.var.id = middle.fresher.last + 1 := by
    have hmem := hnamed.opens.mem_of_template? htemplate
    exact (Prod.mk.inj (mem_singleton.mp hmem)).2
  have hlater : later.table.currentScope.template? name = some template := htemplate
  have hequal : ∀ σ, (Ty.Agree σ (.list (.var ⟨state.fresher.last + 1, "e"⟩)) type ∧
      Ty.Agree σ (.var ⟨state.fresher.last + 1, "e"⟩) (.var template.var)) ↔
        (Ty.list (σ (state.fresher.last + 1))).same (type.apply σ) = true ∧
          (σ (state.fresher.last + 1)).same (σ (middle.fresher.last + 1)) = true := by
    intro σ
    rw [← hid]
    rfl
  simp only [← hequal, ← and_assoc]
  rw [bindGenerators, bind_of_ok hfresh]
  refine (decided_equate hgraph (Ty.firstOrder_list (.var _)) htype).bind
    (fun first after hpost => ?_) (Exists.imp fun _ => And.left)
  obtain ⟨rfl, hfirst, hfirstSolves⟩ := hpost
  rw [bind_of_ok (pattern_name_run hlater named first context)]
  simp only [← hfirstSolves]
  refine (decided_equate hfirst (.var _) (.var _)).bind (fun second after hpost => ?_) id
  obtain ⟨rfl, hsecond, hsecondSolves⟩ := hpost
  exact decided_of_ok rfl ⟨⟨rfl, hsecond⟩, hsecondSolves⟩

theorem decided_generators {a : Answer Typed} {fits : (VarId → Ty) → Ty → Prop}
    (hnamed : Named outer name middle state) (hgraph : FirstOrderGraph classes)
    (ha : Exactly 0 fits a) (hnarrows : ∀ σ t, fits σ t → classes.Solves σ) (site named : Site) :
    Decided (∃ σ, fits σ (.list (σ (state.fresher.last + 1))) ∧
        (σ (state.fresher.last + 1)).same (σ (middle.fresher.last + 1)) = true)
      (fun answers after => after = { state with fresher := state.fresher.skip 1 } ∧
        Knows (fun σ => fits σ (.list (σ (state.fresher.last + 1))) ∧
          (σ (state.fresher.last + 1)).same (σ (middle.fresher.last + 1)) = true) answers)
      (combine site [⟨[a]⟩] classes (fun combination => do
        let (children, classes) ← bindGenerators [.identifier ⟨named, name, none⟩]
          combination.types combination.classes
        return answer site .void children classes) context state) := by
  have hsingles : Singles classes (fun σ ts => ∃ t, ts = [t] ∧ fits σ t) [⟨[a]⟩] := by
    have hnarrow : ∀ σ, a.classes.Solves σ → classes.Solves σ := fun σ hsolves =>
      hnarrows σ _ ((ha.fits_iff σ _).mpr ⟨hsolves, Ty.same_refl _⟩)
    refine ⟨[a], rfl, ?_, ?_, ?_, ?_, fun σ ts => ?_⟩
    · exact forall_mem_singleton.mpr ha.graph_eq
    · exact forall_mem_singleton.mpr ha.firstOrderGraph
    · exact forall_mem_singleton.mpr ha.firstOrder
    · exact forall_mem_singleton.mpr hnarrow
    rw [forall_mem_singleton, map_singleton]
    constructor
    · rintro ⟨t, rfl, hfits⟩
      obtain ⟨hsolves, hsame⟩ := (ha.fits_iff σ t).mp hfits
      exact ⟨hnarrow σ hsolves, hsolves, .cons hsame .nil⟩
    · rintro ⟨-, hsolves, hsame⟩
      cases hsame with
      | cons hhead hrest =>
        cases hrest
        exact ⟨_, rfl, (ha.fits_iff σ _).mpr ⟨hsolves, hhead⟩⟩
  refine Decided.reportingAt ((decided_distribute hgraph hsingles).bind
    (fun combinations after hpost => ?_) ?_) site
  · obtain ⟨rfl, combination, rfl, hjoint⟩ := hpost
    obtain ⟨_, _, htypes, -⟩ := hjoint.exists_fits
    obtain ⟨type, htypes, -⟩ := map_eq_singleton_iff.mp htypes
    have hfits : ∀ σ t, fits σ t ↔
        combination.classes.Solves σ ∧ t.same (type.apply σ) = true := by
      intro σ t
      have hone := hjoint.fits_iff σ [t]
      rw [htypes, map_singleton] at hone
      simpa [SameTypes] using hone
    have htype : type.FirstOrder := hjoint.firstOrder type (by rw [htypes]; exact .head _)
    simp only [hfits, and_assoc]
    refine Decided.collect ?_
    rw [htypes]
    refine (decided_bindGenerators hnamed hjoint.firstOrderGraph htype named).bind
      (fun result final hpost => ?_) id
    obtain ⟨rfl, hlast, hsolves⟩ := hpost
    exact decided_of_ok rfl ⟨rfl, _, rfl, rfl, hlast, hsolves⟩
  · rintro ⟨σ, hfits, -⟩
    exact ⟨σ, _, _, rfl, hfits⟩

/-! ### What a comprehension requires -/

def copies (fresher : Fresher) (guessed more : Nat) : List VarId :=
  ((fresher.skip (guessed + 1)).last + 1) ::
    (fresher.upcoming guessed ++ (fresher.skip (guessed + 3)).upcoming more)

def Linked (fresher : Fresher) (guessed : Nat) (σ : VarId → Ty) : Prop :=
  (σ ((fresher.skip guessed).last + 1)).same (σ ((fresher.skip (guessed + 1)).last + 1)) = true ∧
    (σ ((fresher.skip (guessed + 2)).last + 1)).same
      (σ ((fresher.skip (guessed + 1)).last + 1)) = true

/-- The graph is solved, and the body has the type with the name for the value. -/
def FitsCopy (classes : Classes) (state : State) (name : String) (value body : Node)
    (guessed more : Nat) (σ : VarId → Ty) (t : Ty) : Prop :=
  (classes.Solves σ ∧ HasLocal (state.table.meaning σ) name value body
    ((copies state.fresher guessed more).map σ) t) ∧ Linked state.fresher guessed σ

theorem same_list_iff {t u : Ty} : (Ty.list t).same (.list u) = true ↔ t.same u = true := by
  constructor
  · intro hsame
    obtain ⟨_, heq, hall⟩ := Ty.same_parametric_iff.mp hsame
    cases heq
    exact (forall₂_cons.mp hall).1
  · exact fun hsame => Ty.same_parametric_iff.mpr ⟨_, rfl, .cons hsame .nil⟩

theorem fitsCopy_iff (hready : state.Ready names context) (hvalue : Plain names value 0 guessed)
    (list : Site) (σ : VarId → Ty) (t : Ty) :
    FitsCopy classes state name value body guessed more σ t ↔
      (Fits classes state (.list list [value]) (guessed + 1) σ
          (.list (σ ((state.fresher.skip (guessed + 2)).last + 1))) ∧
        (σ ((state.fresher.skip (guessed + 2)).last + 1)).same
          (σ ((state.fresher.skip (guessed + 1)).last + 1)) = true) ∧
      HasType ((state.table.meaning σ).bind [name]
          [σ ((state.fresher.skip (guessed + 1)).last + 1)]) body
        (((state.fresher.skip (guessed + 3)).upcoming more).map σ) t := by
  have hlength : ((state.fresher.upcoming guessed).map σ).length = guessed := by
    rw [length_map, Fresher.length_upcoming]
  have hone : ((state.fresher.skip guessed).upcoming 1).map σ =
    [σ ((state.fresher.skip guessed).last + 1)] := rfl
  rw [FitsCopy, copies, map_cons, map_append, hvalue.hasLocal_iff
    (fun other arity count hother _ _ => Table.length_of_meaning
      (hready.names other arity count hother)) hlength, Fits, upcoming_map_add, hone,
    hasType_listOne_iff, same_list_iff, Linked]
  constructor
  · rintro ⟨⟨hsolves, ⟨u, htype, hbound⟩, hbody⟩, hlist, helement⟩
    refine ⟨⟨⟨hsolves, ⟨u, htype, ?_⟩, ?_⟩, helement⟩, hbody⟩
    · exact Ty.same_trans hbound (Ty.same_symm hlist)
    · exact Ty.same_trans helement (Ty.same_symm hlist)
  · rintro ⟨⟨⟨hsolves, ⟨u, htype, hsame⟩, hlist⟩, helement⟩, hbody⟩
    have hlinked := Ty.same_trans (Ty.same_symm hlist) helement
    exact ⟨⟨hsolves, ⟨u, htype, Ty.same_trans hsame hlinked⟩, hbody⟩, hlinked, helement⟩

/-- There is one answer, a list, and it stands for all solutions with the types of the elements. -/
def Lists (fits : (VarId → Ty) → Ty → Prop) (answers : Answers) : Prop :=
  ∃ a u, answers = ⟨[a]⟩ ∧ a.graph = some a.classes ∧ FirstOrderGraph a.classes ∧
    a.type = .list u ∧ u.FirstOrder ∧
    ∀ σ t, fits σ t ↔ a.classes.Solves σ ∧ t.same (u.apply σ) = true

def insideComprehension (site named list : Site) (name : String) (value body : Node)
    (classes : Classes) : Infer Answers := do
  let iterables ← allOrLast
    (← generatorParts classes [(.identifier ⟨named, name, none⟩, .list list [value])])
  comprehension site [.identifier ⟨named, name, none⟩] iterables
    (fun classes => answersOf (statement classes body)) classes

theorem decided_inside (hgraph : FirstOrderGraph classes)
    (hready : state.Ready (outer.names.without name) context)
    (hopens : outer.Opens state.table [] [])
    (hnew : state.table.resolveAmong state.table.ownScopes name = none)
    (hvalue : Plain (outer.names.without name) value 0 guessed)
    (hbody : Plain (outer.names.bind [name]) body 0 more) (site named list : Site) :
    Decided (∃ σ t, FitsCopy classes state name value body guessed more σ t)
      (fun answers after => after.issues = state.issues ∧
        Lists (FitsCopy classes state name value body guessed more) answers)
      (insideComprehension site named list name value body classes context state) := by
  have hiff : ∀ σ t, FitsCopy classes state name value body guessed more σ t ↔ _ :=
    fitsCopy_iff hready hvalue list
  rw [insideComprehension, ← bind_assoc]
  refine (decided_iterables hgraph hready hopens hnew hvalue named list).bind
    (fun found after hpost => ?_) ?_
  · obtain ⟨a, middle, rfl, hadvances, hnamed, ha⟩ := hpost
    have hskip := (hnamed.ready_bind hready.context).advances_skip 1
    have hmeaning : outer.meaning = state.table.meaning :=
      Table.meaning_congr fun name => (hopens.resolve_of_not_mem not_mem_nil).symm
    have hnamedFresher : after.fresher = state.fresher.skip (guessed + 2) := by
      rw [hnamed.fresher, hadvances.fresher, ← Fresher.skip_add]
    have hlaterFresher : after.fresher.skip 1 = state.fresher.skip (guessed + 3) := by
      rw [hnamedFresher, ← Fresher.skip_add]
    have hboth : ∀ σ t, FitsCopy classes state name value body guessed more σ t ↔
        (Fits classes state (.list list [value]) (guessed + 1) σ
            (.list (σ (after.fresher.last + 1))) ∧
          (σ (after.fresher.last + 1)).same (σ (middle.fresher.last + 1)) = true) ∧
        Fits classes { after with fresher := after.fresher.skip 1 } body more σ t := by
      intro σ t
      have hlater : Fits classes { after with fresher := after.fresher.skip 1 } body more σ t ↔
          classes.Solves σ ∧ HasType ((state.table.meaning σ).bind [name]
              [σ ((state.fresher.skip (guessed + 1)).last + 1)]) body
            (((state.fresher.skip (guessed + 3)).upcoming more).map σ) t := by
        simp only [Fits, hnamed.meaning_eq, hmeaning, hlaterFresher, hadvances.fresher]
      rw [hiff, hlater, hnamedFresher, hadvances.fresher]
      exact and_congr_right fun hlist => (and_iff_right hlist.1.1).symm
    refine (decided_generators hnamed hgraph ha (fun _ _ hfits => hfits.1) site named).bind
      (fun answers later hpost => ?_) ?_
    · obtain ⟨rfl, g, rfl, hggraph, hg, hgsolves⟩ := hpost
      refine (exact_plain hbody hgraph ((hnamed.ready_bind hready.context).advance hskip)).bind
        (fun bodies last hpost => ?_) ?_
      · obtain ⟨hlast, d, rfl, hd⟩ := hpost
        have hmerged : ∀ σ t, FitsCopy classes state name value body guessed more σ t ↔
            (g.classes.Solves σ ∧ d.classes.Solves σ) ∧ t.same (d.type.apply σ) = true := by
          intro σ t
          exact (hboth σ t).trans
            ((and_congr (hgsolves σ).symm (hd.fits_iff σ t)).trans and_assoc.symm)
        refine Decided.reportingAt (decided_merge hggraph hd.graph_eq hg hd.firstOrderGraph
          (fun hsolvable => ?_) fun built hbuilt hsolves => ?_) site
        · obtain ⟨σ, t, hfits⟩ := hsolvable
          exact ⟨σ, ((hmerged σ t).mp hfits).1⟩
        · refine decided_of_ok rfl ⟨?_, _, d.type, rfl, rfl, hbuilt, rfl, hd.firstOrder, ?_⟩
          · exact hlast.issues.trans (hnamed.issues.trans hadvances.issues)
          · intro σ t
            rw [hmerged, ← hsolves]
            rfl
      · rintro ⟨σ, t, hfits⟩
        exact ⟨σ, t, ((hboth σ t).mp hfits).2⟩
    · rintro ⟨σ, t, hfits⟩
      exact ⟨σ, ((hboth σ t).mp hfits).1⟩
  · rintro ⟨σ, t, hfits⟩
    exact ⟨σ, _, ((hiff σ t).mp hfits).1.1⟩

/-! ### Comprehensions succeed -/

section Whole

variable (hcontext : context.Sound) (hsound : state.Sound)
  (hunmarked : state.table.next.exported = false) (hgraph : FirstOrderGraph classes)
  (hnew : ∀ node, (state.table.enterBlock node).resolveAmong
    (state.table.enterBlock node).ownScopes name = none)
  (hvalue : Plain (state.table.names.without name) value 0 guessed)
  (hbody : Plain (state.table.names.bind [name]) body 0 more) (site named list : Site)
include hcontext hsound hunmarked hgraph hnew hvalue hbody

theorem comprehension_of_fits
    (hfits : ∃ σ t, FitsCopy classes state name value body guessed more σ t) :
    ∃ answers after, answersOf (statement classes (.comprehension site
        [(.identifier ⟨named, name, none⟩, .list list [value])] body)) context state =
          (.ok answers, after) ∧ after.issues = state.issues ∧
      Lists (FitsCopy classes state name value body guessed more) answers := by
  let node : Tree.Locus := ⟨.comprehension, state.table.file, site.span⟩
  let entered : State := { state with table := state.table.enterBlock node }
  have hresolve : ∀ name, entered.table.resolve name = state.table.resolve name :=
    hsound.wellFormed.resolve_enter _ _
  have hready : entered.Ready (state.table.names.without name) context := by
    refine ⟨hcontext, hsound.enter _ _, hunmarked, fun other arity count hother => ?_⟩
    rw [Table.names_congr hresolve]
    exact hother.2
  have hsame : FitsCopy classes entered name value body guessed more =
      FitsCopy classes state name value body guessed more := by
    funext σ t
    rw [FitsCopy, Table.meaning_congr hresolve]
    rfl
  have hinside := decided_inside hgraph hready (Table.opens_enter hsound.wellFormed _ _)
    (hnew (some node)) hvalue hbody site named list
  rw [hsame] at hinside
  obtain ⟨answers, middle, hrun, hissues, hlists⟩ := hinside.exists hfits
  have hstatement : answersOf (statement classes (.comprehension site
      [(.identifier ⟨named, name, none⟩, .list list [value])] body)) context state =
        inBlock node (insideComprehension site named list name value body classes) context
          state := by
    have hlocus : locus .comprehension site context state = (.ok node, state) := rfl
    rw [statement, answersOf_asExpression, bind_of_ok hlocus]
    rfl
  have hlist : Plain (state.table.names.without name) (.list list [value]) 0 ([guessed].sum + 1) :=
    .list list rfl (forall_mem_singleton.mpr hvalue)
  have hadmits : Node.Admits True (.comprehension site
      [(.identifier ⟨named, name, none⟩, .list list [value])] body) := by
    refine Tree.Node.admits_of_parts trivial id ?_
    exact forall_mem_cons.mpr ⟨hlist.admits True,
      forall_mem_singleton.mpr (hbody.admits True)⟩
  obtain ⟨last, hwhole, hquiet⟩ := exists_inBlock hcontext hsound hadmits hstatement hrun
  exact ⟨answers, last, hwhole, hquiet.trans hissues, hlists⟩

end Whole

/-! ### A comprehension is a copy of a block -/

def originals (fresher : Fresher) (guessed more : Nat) : VarId → VarId :=
  override (fresher.upcoming (guessed + (3 + more)))
    ((fresher.skip 1).upcoming guessed ++ (List.replicate 3 (fresher.last + 1) ++
      ((fresher.skip 1).skip guessed).upcoming more)) id

theorem map_originals {fresher : Fresher}
    (hroom : fresher.last.toNat + (guessed + (3 + more)) < 2 ^ 64) :
    (fresher.upcoming guessed).map (originals fresher guessed more) =
        (fresher.skip 1).upcoming guessed ∧
      ((fresher.skip guessed).upcoming 3).map (originals fresher guessed more) =
        List.replicate 3 (fresher.last + 1) ∧
      ((fresher.skip (guessed + 3)).upcoming more).map (originals fresher guessed more) =
        ((fresher.skip 1).skip guessed).upcoming more := by
  have hmap : (fresher.upcoming (guessed + (3 + more))).map (originals fresher guessed more) = _ :=
    map_override (Fresher.nodup_upcoming hroom) (by
      simp only [length_append, Fresher.length_upcoming, length_replicate])
  rw [Fresher.upcoming_add, Fresher.upcoming_add, map_append, map_append,
    ← Fresher.skip_add] at hmap
  obtain ⟨hvalue, hrest⟩ := append_inj hmap (by simp)
  exact ⟨hvalue, append_inj hrest (by simp)⟩

theorem copy_of_local (hwf : classes.WellFormed) (hclasses : classes.Concerns state.fresher.issued)
    (htable : state.table.Concerns state.fresher.issued)
    (hroom : state.fresher.last.toNat + (guessed + (3 + more)) < 2 ^ 64) :
    Classes.Copy state.fresher.issued (state.fresher.upcoming (1 + (guessed + more)))
      (copies state.fresher guessed more) (originals state.fresher guessed more)
      (fun σ values t =>
        classes.Solves σ ∧ HasLocal (state.table.meaning σ) name value body values t)
      (Linked state.fresher guessed) := by
  have hless : state.fresher.last.toNat + (1 + (guessed + more)) < 2 ^ 64 := by omega
  have hsecond : (state.fresher.skip (guessed + 1)).last + 1 =
      (state.fresher.skip guessed).last + 1 + 1 := by
    rw [Fresher.skip_add]
    rfl
  have hthird : (state.fresher.skip (guessed + 2)).last + 1 =
      (state.fresher.skip guessed).last + 1 + 1 + 1 := by
    rw [Fresher.skip_add]
    rfl
  obtain ⟨hvalue, hlinks, hbody⟩ := map_originals hroom
  simp only [Fresher.upcoming, map_cons, map_nil, List.replicate, List.cons.injEq,
    and_true] at hlinks
  obtain ⟨hlist, hname, helement⟩ := hlinks
  refine ⟨?_, Fresher.nodup_upcoming hless, ?_, fun v hv => Fresher.not_mem_issued hless hv, ?_, ?_,
    fun σ => ?_⟩
  · rintro σ σ' values t heq ⟨hsolves, hlocal⟩
    exact ⟨hclasses.isLocal hwf σ σ' heq hsolves, htable.meaning_eq heq ▸ hlocal⟩
  · simp [copies, Nat.add_comm]
  · exact fun v hv => override_of_not_mem fun hmem => Fresher.not_mem_issued hroom hmem hv
  · rw [copies, map_cons, map_append, hvalue, hbody, hsecond, hname,
      Fresher.upcoming_add, Fresher.upcoming_add]
    rfl
  · rw [Linked, Function.comp_apply, Function.comp_apply, Function.comp_apply, hsecond, hthird,
      hlist, hname, helement]
    exact ⟨Ty.same_refl _, Ty.same_refl _⟩

/-! ### A pair of functions -/

theorem concerns_start (path : String) (program : Tree.Program) (fresher : Fresher)
    (S : Set VarId) : (State.start path program fresher).table.Concerns S := by
  intro name binding hresolve id hoccurs
  have hnone : (State.start path program fresher).table.resolveAmong
      (State.start path program fresher).table.size name = none := rfl
  rw [Table.resolve, hnone, Option.none_or, Option.or_eq_some_iff] at hresolve
  rcases hresolve with hfound | ⟨-, hbuiltIn⟩
  · have hmem := mem_reverse.mp (mem_of_find?_eq_some hfound)
    obtain ⟨known, hknown, rfl⟩ := mem_map.mp hmem
    exact .inl (Prelude.quantified_bindings fresher known hknown id hoccurs)
  · rw [Table.builtIn?] at hbuiltIn
    split at hbuiltIn
    · cases hbuiltIn
      cases hoccurs
    · cases hbuiltIn

def pairOf (name : String) : Node :=
  .tuple ⟨6, Span.zero⟩ [.identifier ⟨7, Span.zero⟩ name, .identifier ⟨8, Span.zero⟩ name]

theorem plain_identityFunction (names : Names) : Plain names identityFunction 0 1 := by
  have hbody : Plain (names.bind ["x"]) (.identifier ⟨4, Span.zero⟩ "x") 0 0 :=
    .identifier _ ((if_pos (mem_singleton_self _)).mpr ⟨rfl, rfl⟩)
  exact .abstraction _ (forall_mem_singleton.mpr ⟨_, _, rfl⟩) (cons_ne_nil _ _)
    (nodup_singleton _) (Nat.zero_le _) hbody

theorem plain_pairOf (names : Names) (name : String) :
    Plain (names.bind [name]) (pairOf name) 0 0 := by
  have helement : ∀ site, Plain (names.bind [name]) (.identifier site name) 0 0 := fun site =>
    .identifier site ((if_pos (mem_singleton_self _)).mpr ⟨rfl, rfl⟩)
  have hboth : ∀ pair ∈ [Node.identifier ⟨7, Span.zero⟩ name, .identifier ⟨8, Span.zero⟩ name].zip
      [0, 0], Plain (names.bind [name]) pair.1 0 pair.2 := by
    simp [helement]
  exact .tuple _ rfl hboth

theorem hasLocal_pairOf (uses : Uses) (name : String) :
    HasLocal uses name identityFunction (pairOf name) [.curried [.number, .number], .number]
      (.tuple [.curried [.number, .number], .curried [.number, .number]]) := by
  have hbound : HasType (uses.bind ["x"] [.number]) (.identifier ⟨4, Span.zero⟩ "x") [] .number :=
    .identifier ((if_pos (mem_singleton_self _)).mpr ⟨rfl, mem_singleton_self _⟩)
      (Ty.same_refl _)
  have hfunction : HasType uses identityFunction ([.number] ++ []) (.curried [.number, .number]) :=
    .abstraction rfl hbound (Ty.same_refl _)
  have hname : ∀ site, HasType (uses.bind [name] [.curried [.number, .number]])
      (.identifier site name) [] (.curried [.number, .number]) := fun site =>
    .identifier ((if_pos (mem_singleton_self _)).mpr ⟨rfl, mem_singleton_self _⟩)
      (Ty.same_refl _)
  have hpair : HasTypes (uses.bind [name] [.curried [.number, .number]])
      [.identifier ⟨7, Span.zero⟩ name, .identifier ⟨8, Span.zero⟩ name] ([] ++ ([] ++ []))
      [.curried [.number, .number], .curried [.number, .number]] :=
    .cons (hname _) (.cons (hname _) .nil)
  exact .intro hfunction (Ty.same_refl _) (.tuple hpair (Ty.same_refl _))

/-! ### Agreement -/

/-- **A comprehension over one value agrees with a block.** If the block that gives a name a value
and then has a body is inferred without an issue, then so is the comprehension with that body in
which the name goes through the list of the value. Both have one answer, and the one of the
comprehension is the list of that of the block, up to the names of new variables: what is reduced
alike are the types of the answers and all variables that were there before. -/
theorem comprehension_agrees_with_block {result : Statement}
    (hreach : Reachable context state) (hgraph : FirstOrderGraph classes)
    (hclasses : classes.Concerns state.fresher.issued)
    (htable : state.table.Concerns state.fresher.issued)
    (hvalue : Plain (state.table.names.without name) value 0 guessed)
    (hbody : Plain (state.table.names.bind [name]) body 0 more)
    (hroom : state.fresher.last.toNat + guessed + more + 3 < 2 ^ 64)
    (block stmt bound site named list : Site)
    (hblock : statement classes (.block block
      [.assignment stmt (.identifier ⟨bound, name, none⟩) value false, body]) context state =
        (.ok result, after)) (hissues : after.issues = state.issues) :
    ∃ found last, statement classes (.comprehension site
        [(.identifier ⟨named, name, none⟩, .list list [value])] body) context state =
          (.ok found, last) ∧ last.issues = state.issues ∧
      ∃ a b t u ρ V, result.answers = ⟨[a]⟩ ∧ found.answers = ⟨[b]⟩ ∧
        a.reduced = (.ok t : Outcome Mismatch Ty) ∧
        b.reduced = (.ok (.list u) : Outcome Mismatch Ty) ∧
        Set.InjOn ρ V ∧ Ty.Renamed ρ V t u ∧
        ∀ v : Variable, v.id ∈ state.fresher.issued →
          Ty.Renamed ρ V (a.classes.reduction (.var v)) (b.classes.reduction (.var v)) := by
  have hanswers : answersOf (statement classes (.block block
      [.assignment stmt (.identifier ⟨bound, name, none⟩) value false, body])) context state =
        (.ok result.answers, after) := bind_of_ok hblock
  obtain ⟨hnew, hunmarked, a, ha, hexact⟩ := block_of_quiet hvalue hbody hreach.sound_context
    hreach.sound hgraph hanswers hissues
  have henough : state.fresher.last.toNat + (guessed + (3 + more)) < 2 ^ 64 := by omega
  have hcopy : Classes.Copy _ _ _ _ (fun σ values t =>
      classes.Solves σ ∧ HasLocal (state.table.meaning σ) name value body values t) _ :=
    copy_of_local hgraph.sound.wellFormed hclasses htable henough
  have hfits := (hexact.fits_iff _ _).mpr ⟨hexact.firstOrderGraph.solves_solution, Ty.same_refl _⟩
  obtain ⟨answers, last, hrun, hquiet, b, u, rfl, hbgraph, hb, hbtype, hu, hiff⟩ :=
    comprehension_of_fits hreach.sound_context hreach.sound hunmarked hgraph hnew hvalue hbody site
      named list ⟨_, _, hcopy.states_copy hfits⟩
  obtain ⟨found, final, hfound, hpure⟩ := bind_eq_ok hrun
  obtain ⟨heq, rfl⟩ := pure_eq_ok hpure
  obtain ⟨ρ, V, hinj, hrenamed, hold⟩ := hcopy.exists_renaming hexact.fits_iff hiff
    hexact.firstOrderGraph hb hexact.firstOrder hu
  refine ⟨found, _, hfound, hquiet, a, b, _, _, ρ, V, ha, heq.symm, ?_, ?_, hinj, hrenamed, hold⟩
  · rw [Answer.reduced, hexact.graph_eq]
    exact hexact.firstOrderGraph.reduce_eq _
  · rw [Answer.reduced, hbgraph, hbtype]
    exact (hb.reduce_eq _).trans (congrArg Outcome.ok (hb.reduction_parametric _ _))

theorem comprehension_agrees_with_block_of_function :
    ∃ start result after found last a b t u,
      Reachable emptyContext start ∧
      statement Classes.empty (.block ⟨0, Span.zero⟩ [.assignment ⟨1, Span.zero⟩
        (.identifier ⟨⟨5, Span.zero⟩, "f", none⟩) identityFunction false, pairOf "f"])
        emptyContext start = (.ok result, after) ∧ after.issues = start.issues ∧
      statement Classes.empty (.comprehension ⟨9, Span.zero⟩
        [(.identifier ⟨⟨5, Span.zero⟩, "f", none⟩, .list ⟨10, Span.zero⟩ [identityFunction])]
        (pairOf "f")) emptyContext start = (.ok found, last) ∧ last.issues = start.issues ∧
      result.answers = ⟨[a]⟩ ∧ found.answers = ⟨[b]⟩ ∧
      a.reduced = (.ok t : Outcome Mismatch Ty) ∧
      b.reduced = (.ok (.list u) : Outcome Mismatch Ty) ∧
      ∃ ρ V, Set.InjOn ρ V ∧ Ty.Renamed ρ V t u := by
  let start := State.start "main" emptyContext.program {}
  have hreach : Reachable emptyContext start := .start .none "main" {}
  have hvalue := plain_identityFunction (start.table.names.without "f")
  have hbody := plain_pairOf start.table.names "f"
  let σ : VarId → Ty := fun id => if id = 6 then .curried [.number, .number] else .number
  have hfits : FitsLocal Classes.empty start "f" identityFunction (pairOf "f") (1 + (1 + 0)) σ _ :=
    ⟨Classes.solves_empty _, hasLocal_pairOf _ "f"⟩
  obtain ⟨answers, after, hrun, hissues⟩ := block_of_fits hvalue hbody hreach.sound_context
    hreach.sound rfl .empty (fun _ => rfl) ⟨σ, _, hfits⟩ ⟨0, Span.zero⟩ ⟨1, Span.zero⟩
    ⟨5, Span.zero⟩
  obtain ⟨result, middle, hblock, hpure⟩ := bind_eq_ok hrun
  obtain ⟨-, rfl⟩ := pure_eq_ok hpure
  have hclasses : Classes.empty.Concerns start.fresher.issued := nofun
  obtain ⟨found, last, hfound, hquiet, a, b, t, u, ρ, V, ha, hb, ht, hu, hinj, hrenamed, -⟩ :=
    comprehension_agrees_with_block hreach .empty hclasses (concerns_start _ _ _ _) hvalue hbody
      (by decide) _ _ _ ⟨9, Span.zero⟩ ⟨5, Span.zero⟩ ⟨10, Span.zero⟩ hblock hissues
  exact ⟨start, result, _, found, last, a, b, t, u, hreach, hblock, hissues, hfound, hquiet, ha, hb,
    ht, hu, ρ, V, hinj, hrenamed⟩

end Infer

end TypeSearch
