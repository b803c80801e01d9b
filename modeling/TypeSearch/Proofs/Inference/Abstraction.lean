import TypeSearch.Proofs.Inference.Principal

/-!
# Exactness of functions

The parameters of a function get the variables that are taken next, and the names of its body mean
their values. What was entered can be left again, so a function is exact if its body is. With this
all plain expressions are exact.
-/

namespace TypeSearch

open Inference List
open Classes (FirstOrderGraph)
open TypeSearch.Tree (Fragment Node Pattern Site boundNames)

variable {node : Node} {arity count : Nat} {α : Type}

namespace Tree

variable {orderly : Prop} {node : Node} {known : String → Prop}

theorem Node.admits_of_parts (hformed : node.Formed) (hplaced : ¬node.Misplaced)
    (hparts : ∀ part ∈ node.parts, part.Admits orderly) : node.Admits orderly where
  formed := Node.allFormed_iff.mpr ⟨hformed, fun part hpart => (hparts part hpart).formed⟩
  placed horderly := Node.forall_mem_expressions.mpr
    ⟨hplaced, fun part hpart => (hparts part hpart).placed horderly⟩

theorem Fragment.admits (hfragment : Fragment known node) (orderly : Prop) :
    node.Admits orderly := by
  induction hfragment with
  | literal value | identifier site _ =>
    exact Node.admits_of_parts trivial id (forall_mem_nil _)
  | list site _ ih | tuple site _ ih | map site _ ih => exact Node.admits_of_parts trivial id ih
  | conditional site _ _ _ ihcondition ihyes ihno =>
    refine Node.admits_of_parts trivial id ?_
    simp only [Node.parts, Option.toList, forall_mem_cons]
    exact ⟨ihcondition, ihyes, ihno, forall_mem_nil _⟩
  | application site _ _ ihfunction ihargument =>
    refine Node.admits_of_parts trivial id ?_
    simp only [Node.parts, Option.toList, forall_mem_cons]
    exact ⟨ihfunction, ihargument, forall_mem_nil _⟩
  | abstraction site _ _ _ ih =>
    exact Node.admits_of_parts (cons_ne_nil _ _) id (forall_mem_singleton.mpr ih)

end Tree

theorem Plain.admits {names : Names} (hplain : Plain names node arity count) (orderly : Prop) :
    node.Admits orderly := by
  have hfragment : Fragment (fun _ => True) node := hplain.fragment fun _ _ _ _ => trivial
  exact hfragment.admits orderly

namespace Table

theorem next_boundPending (table : Table) : table.boundPending.next = table.next :=
  foldlRecOn (motive := fun next : Table => next.next = table.next) _ _ rfl fun _ hnext _ _ => hnext

theorem next_leave {table left : Table} {kinds : List Scope.Kind}
    (hleave : table.leave kinds = .ok left) : left.next = table.next := by
  obtain ⟨outer, rest, -, rfl⟩ := leave_eq_ok hleave
  rfl

theorem next_mergeBody {table merged : Table} {id : Scope.Id}
    (hmerge : table.mergeBody id = .ok merged) : merged.next = table.next := by
  obtain ⟨body, -, rfl⟩ := mergeBody_eq_ok hmerge
  have hadopted : (table.adopted id body).next = table.next :=
    foldlRecOn (motive := fun next : Table => next.next = table.next) _ _ rfl
      fun _ hnext _ _ => hnext
  exact hadopted

end Table

namespace Infer

variable {names : Names} {context : Context} {state middle after : State} {classes : Classes}
  {outer : Table} {bound : List String} {ids : List VarId} {name : String} {params : List Pattern}
  {body : Node}

/-! ### Parameters -/

theorem templates_run (state : State) (hopens : outer.Opens state.table bound ids)
    (hnew : state.table.resolveAmong state.table.ownScopes name = none)
    (hunmarked : state.table.next.exported = false) (site : Site) (context : Context) :
    ∃ inner template, templates (.identifier ⟨site, name, none⟩) context state =
        (.ok [template], { state with table := inner, fresher := state.fresher.skip 1 }) ∧
      template.var.id = state.fresher.last + 1 ∧
      outer.Opens inner (bound ++ [name]) (ids ++ [state.fresher.last + 1]) ∧
      inner.currentScope.kind = state.table.currentScope.kind ∧ inner.next.exported = false := by
  have htemplates := hopens.wellFormed.templates_of_new hnew hunmarked site state.fresher
  have hblank := hopens.frame (hopens.wellFormed.frame_marked {} state.table.declared)
  have hrun : templates (.identifier ⟨site, name, none⟩) context state =
      (.ok (state.table.templates (.identifier ⟨site, name, none⟩) state.fresher).1,
      { state with
        table := (state.table.templates (.identifier ⟨site, name, none⟩) state.fresher).2.2.1
        fresher := (state.table.templates (.identifier ⟨site, name, none⟩) state.fresher).2.2.2
        issues := state.issues ++
          (state.table.templates (.identifier ⟨site, name, none⟩) state.fresher).2.1 }) := rfl
  rw [htemplates, append_nil] at hrun
  refine ⟨_, _, hrun, rfl, hblank.withTemplate (hopens.not_mem_of_new hnew), ?_, rfl⟩
  rw [Table.withTemplate, hblank.wellFormed.currentScope_modifyCurrent]
  rfl

theorem implicitTemplates_run (hopens : outer.Opens state.table bound ids)
    (hnew : state.table.resolveAmong state.table.ownScopes name = none)
    (hunmarked : state.table.next.exported = false) (site : Site) (context : Context) :
    ∃ inner, implicitTemplates (.identifier ⟨site, name, none⟩) context state =
        (.ok (), { state with table := inner, fresher := state.fresher.skip 1 }) ∧
      outer.Opens inner (bound ++ [name]) (ids ++ [state.fresher.last + 1]) ∧
      inner.currentScope.kind = state.table.currentScope.kind ∧ inner.next.exported = false := by
  let marked := state.table.markNext { implicit := true }
  have hframe : Table.Frame False state.table marked :=
    hopens.wellFormed.frame_marked _ _
  have hmarkedNew : marked.resolveAmong marked.ownScopes name = none :=
    (hframe.resolveAmong_eq hopens.wellFormed _ name).trans hnew
  have hmarked : marked.next.exported = false := by
    change (state.table.next.exported || false) = false
    rw [hunmarked]
    rfl
  obtain ⟨inner, template, hrun, -, hinner⟩ := templates_run { state with table := marked }
    (hopens.frame hframe) hmarkedNew hmarked site context
  have hdiscard : (templates (.identifier ⟨site, name, none⟩) >>= fun _ => pure ()) context
      { state with table := marked } = (.ok (), _) := bind_of_ok hrun
  exact ⟨inner, hdiscard, hinner⟩

theorem resolveAmong_of_not_mem (hopens : outer.Opens state.table bound ids)
    (hkind : state.table.currentScope.kind = .abstraction) (hname : name ∉ bound) :
    state.table.resolveAmong state.table.ownScopes name = none := by
  have hown : state.table.ownScopes = 1 := by
    rw [Table.ownScopes, hkind]
    rfl
  have htemplate : state.table.currentScope.template? name = none := by
    rw [Option.eq_none_iff_forall_ne_some]
    intro template htemplate
    exact hname (of_mem_zip (hopens.mem_of_template? htemplate)).1
  rw [hown, hopens.wellFormed.resolveAmong_one, hopens.lookup?, htemplate]
  rfl

theorem parameters_run (state : State) (hopens : outer.Opens state.table bound ids)
    (hkind : state.table.currentScope.kind = .abstraction)
    (hunmarked : state.table.next.exported = false) (hparams : ∀ p ∈ params, p.IsName)
    (hnodup : (bound ++ boundNames params).Nodup) (context : Context) :
    ∃ inner, params.forM implicitTemplates context state =
        (.ok (), { state with table := inner, fresher := state.fresher.skip params.length }) ∧
      outer.Opens inner (bound ++ boundNames params) (ids ++ state.fresher.upcoming params.length) ∧
      inner.next.exported = false := by
  induction params generalizing state bound ids with
  | nil =>
    refine ⟨state.table, rfl, ?_, hunmarked⟩
    rwa [boundNames, flatMap_nil, length_nil, Fresher.upcoming, append_nil,
      append_nil]
  | cons p params ih =>
    rw [forall_mem_cons] at hparams
    obtain ⟨site, name, rfl⟩ := hparams.1
    have hnames : boundNames (.identifier ⟨site, name, none⟩ :: params) =
        name :: boundNames params := rfl
    have hname : name ∉ bound := by
      rw [hnames, nodup_append] at hnodup
      exact fun hmem => hnodup.2.2 name hmem name (.head _) rfl
    obtain ⟨middle, hfirst, hmiddle, hmiddleKind, hmiddleMarks⟩ := implicitTemplates_run hopens
      (resolveAmong_of_not_mem hopens hkind hname) hunmarked site context
    obtain ⟨inner, hrest, hinner, hmarks⟩ :=
      ih { state with table := middle, fresher := state.fresher.skip 1 } hmiddle
        (hmiddleKind.trans hkind) hmiddleMarks hparams.2
        (by rwa [append_assoc])
    refine ⟨inner, (bind_of_ok hfirst).trans hrest, ?_, hmarks⟩
    rw [append_assoc, append_assoc] at hinner
    exact hinner

theorem pattern_name_run {template : Template}
    (htemplate : state.table.currentScope.template? name = some template) (site : Site)
    (classes : Classes) (context : Context) :
    pattern classes (.identifier ⟨site, name, none⟩) context state =
      (.ok (.mk site.key (.var template.var) [], classes), state) := by
  have htable : table context state = (.ok state.table, state) := rfl
  have hname : nameType name context state = (.ok (.var template.var), state) := by
    rw [nameType, bind_of_ok htable, htemplate]
    rfl
  rw [pattern, binder, bind_of_ok hname]
  rfl

theorem params_run (state : State) {own : List VarId} (hopens : outer.Opens state.table bound ids)
    (hparams : ∀ p ∈ params, p.IsName) (hlength : params.length = own.length)
    (hown : ∀ pair ∈ (boundNames params).zip own, pair ∈ bound.zip ids) (body : Tree.Locus)
    (classes : Classes) (context : Context) :
    ∃ leaves, Infer.params body params classes context state = (.ok (leaves, classes), state) ∧
      Forall₂ (fun leaf id => ∃ hint, leaf.type = .var ⟨id, hint⟩) leaves own := by
  induction params generalizing own with
  | nil =>
    rw [length_eq_zero_iff.mp hlength.symm]
    exact ⟨[], rfl, .nil⟩
  | cons p params ih =>
    cases own with
    | nil => cases hlength
    | cons id own =>
      rw [forall_mem_cons] at hparams
      obtain ⟨site, name, rfl⟩ := hparams.1
      have hnames : boundNames (.identifier ⟨site, name, none⟩ :: params) =
          name :: boundNames params := rfl
      rw [hnames, zip_cons_cons, forall_mem_cons] at hown
      obtain ⟨template, htemplate⟩ := hopens.exists_template (of_mem_zip hown.1).1
      obtain rfl : template.var.id = id :=
        Table.eq_of_mem_zip hopens.nodup (hopens.mem_of_template? htemplate) hown.1
      obtain ⟨leaves, hrest, hleaves⟩ := ih hparams.2 (Nat.succ.inj hlength) hown.2
      have hattempt : attempt (pattern classes (.identifier ⟨site, name, none⟩)) context state =
          (.ok (.ok (.mk site.key (.var template.var) [], classes)), state) := by
        rw [attempt, pattern_name_run htemplate]
      refine ⟨.mk site.key (.var template.var) [] :: leaves, ?_, .cons ⟨_, rfl⟩ hleaves⟩
      rw [Infer.params, bind_of_ok hattempt]
      exact bind_of_ok hrest

/-! ### What was entered can be left -/

theorem inBody_of_ok {body : Tree.Locus} {computation : Infer Answers} {answers : Answers}
    (hsound : state.Sound)
    (hgrows : State.Grows { state with table := state.table.enterBlock body } middle)
    (hrun : computation context { state with table := state.table.enterBlock body } =
      (.ok answers, middle)) :
    ∃ left, inBody body computation context state = (.ok answers, { middle with table := left }) ∧
      left.next = middle.table.next := by
  obtain ⟨left, hleave, -⟩ := exists_leaveBlock hsound.wellFormed hgrows.table
  have hattempt : attempt computation context { state with table := state.table.enterBlock body } =
      (.ok (.ok answers), middle) := by rw [attempt, hrun]
  have hexit : tryTable (·.leaveBlock) context { middle with table := middle.table.boundPending } =
      (.ok (), { middle with table := left }) := tryTable_of_ok hleave
  refine ⟨left.boundPending, ?_, ?_⟩
  · exact (bind_of_ok hattempt).trans (bind_of_ok hexit)
  · rw [Table.next_boundPending, Table.next_leave hleave, Table.next_boundPending]

theorem fulfilled_answers (hnode : node.Admits True) (hcontext : context.Sound)
    (hsound : state.Sound) (classes : Classes) :
    Fulfilled (state.prospect True) state (Typings (state.prospect True) False node)
      (answersOf (statement classes node) context state) :=
  (fulfils_statement (P := False) False.elim node hnode).answersOf context state hcontext hsound
    le_rfl fun _ => trivial

/-- A computation that succeeds can be left, if the whole fulfils something: the ways out halt only
because of scopes. -/
theorem exists_exit {prospect : Prospect} {post : Prop → α → Prop} {start : State}
    {computation : Infer α} {exit : Infer Unit} {value : α}
    (hrun : computation context state = (.ok value, middle))
    (hfulfilled : Fulfilled prospect start post (computation.thenAlways exit context state))
    (horderly : prospect.orderly) (hsure : Sure exit)
    (hhalts : ∀ cause last, exit context middle = (.halted cause, last) →
      cause.OfScopes ∨ cause = .noCurrentScope) :
    ∃ last, exit context middle = (.ok (), last) := by
  rcases hexit : exit context middle with ⟨_ | failure | cause, last⟩
  · exact ⟨last, rfl⟩
  · exact absurd (congrArg Prod.fst hexit) (hsure context middle failure)
  · have hwhole : computation.thenAlways exit context state = (.halted cause, last) := by
      simp only [thenAlways, hrun, hexit]
    rw [hwhole] at hfulfilled
    have htypes : cause.OfTypes := hfulfilled.2 horderly
    rcases hhalts cause last hexit with hscopes | rfl
    · cases cause <;> first | exact htypes.elim | exact hscopes.elim
    · exact htypes.elim

theorem Names.bind_mono {other : Names} (himp : ∀ name arity count, names name arity count →
      other name arity count) (hname : names.bind bound name arity count) :
    other.bind bound name arity count := by
  unfold Names.bind at hname ⊢
  split
  · rename_i hmem
    rwa [if_pos hmem] at hname
  · rename_i hmem
    rw [if_neg hmem] at hname
    exact himp name arity count hname

/-- The state inside of the scope of a function, with its parameters as names; they are names of
its body, which is about to be entered. -/
structure Within (names : Names) (context : Context) (params : List Pattern) (body : Tree.Locus)
    (state named : State) : Prop where
  sound : named.Sound
  fresher : named.fresher = state.fresher.skip params.length
  issues : named.issues = state.issues
  ready : State.Ready (names.bind (boundNames params)) context
    { named with table := named.table.enterBlock body }
  meaning : ∀ σ, (named.table.enterBlock body).meaning σ =
    (state.table.meaning σ).bind (boundNames params) ((state.fresher.upcoming params.length).map σ)

theorem Within.fits_iff {locus : Tree.Locus} {named : State}
    (hwithin : Within names context params locus state named) (site : Site) (count : Nat)
    (σ : VarId → Ty) (t : Ty) :
    Fits classes state (.abstraction site [(params, body)]) (params.length + count) σ t ↔
      ∃ inner,
        Fits classes { named with table := named.table.enterBlock locus } body count σ inner ∧
        t.same (.curried ((state.fresher.upcoming params.length).map σ ++ [inner])) = true := by
  simp only [Fits, upcoming_map_add, hwithin.meaning, hwithin.fresher]
  constructor
  · rintro ⟨hsolves, htype⟩
    generalize hall : (state.fresher.upcoming params.length).map σ ++ _ = all at htype
    cases htype with
    | abstraction hlength hbody htype =>
      obtain ⟨rfl, rfl⟩ := append_inj hall (by
        rw [← hlength, length_map, Fresher.length_upcoming])
      exact ⟨_, ⟨hsolves, hbody⟩, htype⟩
  · rintro ⟨inner, ⟨hsolves, hbody⟩, htype⟩
    refine ⟨hsolves, .abstraction ?_ hbody htype⟩
    rw [length_map, Fresher.length_upcoming]

theorem exists_within (hready : state.Ready names context) (hparams : ∀ p ∈ params, p.IsName)
    (hnodup : (boundNames params).Nodup) (function body : Tree.Locus) (classes : Classes) :
    ∃ named leaves, params.forM implicitTemplates context
        { state with table := state.table.enterAbstraction function } = (.ok (), named) ∧
      Infer.params body params classes context named = (.ok (leaves, classes), named) ∧
      Forall₂ (fun leaf id => ∃ hint, leaf.type = .var ⟨id, hint⟩) leaves
        (state.fresher.upcoming params.length) ∧
      Within names context params body state named := by
  have hwf := hready.sound.wellFormed
  let entered : State := { state with table := state.table.enterAbstraction function }
  have hkind : entered.table.currentScope.kind = .abstraction :=
    congrArg Scope.kind (Table.currentScope_enter state.table .abstraction _)
  obtain ⟨inner, hnamed, hopens, hmarks⟩ := parameters_run entered
    (Table.opens_enter hwf .abstraction (some function)) hkind hready.unmarked hparams hnodup
    context
  rw [nil_append, nil_append] at hopens
  let named : State :=
    { entered with table := inner, fresher := state.fresher.skip params.length }
  have hsound : named.Sound := by
    have hfulfils : Fulfils (entered.prospect False) True (fun _ _ => True)
        (params.forM implicitTemplates) :=
      fulfils_forM fun p _ K => fulfils_implicitTemplates p
    have hentered : entered.Sound := hready.sound.enter .abstraction (some function)
    have hafter := hentered.of_fulfils hready.context hfulfils fun cause hhalted => by
      rw [hnamed] at hhalted
      cases hhalted
    rwa [hnamed] at hafter
  obtain ⟨leaves, hleaves, htypes⟩ := params_run named hopens hparams
    (Fresher.length_upcoming _ _).symm (fun _ => id) body classes context
  have hresolve : ∀ name, (inner.enterBlock body).resolve name = inner.resolve name :=
    hopens.wellFormed.resolve_enter _ _
  refine ⟨named, leaves, hnamed, hleaves, htypes, hsound, rfl, rfl, ?_, fun σ => ?_⟩
  · refine ⟨hready.context, hsound.enter _ _, hmarks, fun name arity count hname => ?_⟩
    change (inner.enterBlock body).names name arity count
    rw [Table.names_congr hresolve]
    exact hopens.names_of_bind (Names.bind_mono hready.names hname)
  · change (inner.enterBlock body).meaning σ = _
    rw [Table.meaning_congr hresolve, hopens.meaning_eq]

theorem leaveFunction_ofScopes {cause : Halt} {last : State}
    (hexit : leaveFunction context state = (.halted cause, last)) :
    cause.OfScopes ∨ cause = .noCurrentScope := by
  rw [leaveFunction_run] at hexit
  split at hexit
  · rename_i hleave
    cases hexit
    exact leave_ofScopes hleave
  · exact .inl (mergeBody_ofScopes (tryTable_of_halted hexit))

theorem tryTable_eq_ok {f : Table → Except Halt Table}
    (hrun : tryTable f context state = (.ok (), after)) :
    ∃ next, f state.table = .ok next ∧ after = { state with table := next } := by
  rw [tryTable_run] at hrun
  split at hrun
  · rename_i next hchange
    cases hrun
    exact ⟨next, hchange, rfl⟩
  · cases hrun

theorem leaveFunction_eq_ok (hexit : leaveFunction context state = (.ok (), after)) :
    ∃ merged, after = { state with table := merged } ∧ merged.next = state.table.next := by
  obtain ⟨_, _, htable, hexit⟩ := bind_eq_ok hexit
  cases htable
  obtain ⟨_, middle, hleave, hmerge⟩ := bind_eq_ok hexit
  obtain ⟨left, hleft, rfl⟩ := tryTable_eq_ok hleave
  obtain ⟨merged, hmerged, rfl⟩ := tryTable_eq_ok hmerge
  exact ⟨merged, rfl, (Table.next_mergeBody hmerged).trans (Table.next_leave hleft)⟩

theorem sure_leaveFunction : Sure leaveFunction := by
  have htable : Sure table := fun _ _ _ hfails => by cases hfails
  exact htable.bind fun _ => sure_tryTable.bind fun _ => sure_tryTable

theorem branch_run (function : Tree.Locus) (site : Site) (params : List Pattern) (body : Tree.Locus)
    (inferBody : Classes → Infer Answers) (classes : Classes) (context : Context) (state : State) :
    branch function site params body inferBody classes context state =
      (withinFunction site params body inferBody classes).thenAlways leaveFunction context
        { state with table := state.table.enterAbstraction function } := by
  rw [branch_eq]
  rfl

section Function

variable {params : List Pattern} {body : Tree.Locus} {leaves : List Typed} {named : State}

theorem withinFunction_eq (site : Site) (inferBody : Classes → Infer Answers)
    (hnamed : params.forM implicitTemplates context state = (.ok (), named))
    (hleaves : Infer.params body params classes context named = (.ok (leaves, classes), named))
    (hne : leaves ≠ []) :
    withinFunction site params body inferBody classes context state = (do
      let answers ← inBody body (inferBody classes)
      reportingAt site (answers.map fun a =>
        pure (answer site (.curried (leaves.map Typed.type ++ [a.type])) (leaves ++ [a.node])
          a.classes))) context named := by
  have hempty : leaves.isEmpty = false := by simpa using hne
  rw [withinFunction, bind_of_ok hnamed, bind_of_ok hleaves]
  dsimp only
  rw [hempty]
  rfl

theorem apply_leaves (hleaves : Forall₂ (fun leaf id => ∃ hint, leaf.type = .var ⟨id, hint⟩)
      leaves ids) (σ : VarId → Ty) : (leaves.map Typed.type).map (Ty.apply σ) = ids.map σ := by
  induction hleaves with
  | nil => rfl
  | cons hhead _ ih =>
    obtain ⟨hint, htype⟩ := hhead
    rw [map_cons, map_cons, map_cons, htype, ih]
    rfl

theorem firstOrder_leaves (hleaves : Forall₂
      (fun leaf id => ∃ hint, leaf.type = .var ⟨id, hint⟩) leaves ids) :
    ∀ t ∈ leaves.map Typed.type, t.FirstOrder := by
  refine forall_mem_map.mpr fun leaf hleaf => ?_
  obtain ⟨id, -, hint, htype⟩ := exists_right_of_forall₂ hleaves hleaf
  rw [htype]
  exact .var _

end Function

theorem exact_abstraction (site : Site) (hparams : ∀ p ∈ params, p.IsName) (hne : params ≠ [])
    (hnodup : (boundNames params).Nodup) (harity : arity ≤ params.length)
    (hbody : Plain (names.bind (boundNames params)) body 0 count)
    (hexact : Exact (names.bind (boundNames params)) body 0 count) :
    Exact names (.abstraction site [(params, body)]) arity (params.length + count) := by
  intro classes context state hgraph hready
  have hplain : Plain names (.abstraction site [(params, body)]) arity (params.length + count) :=
    .abstraction site hparams hne hnodup harity hbody
  have hfragment : Fragment (fun _ => True) (.abstraction site [(params, body)]) :=
    hplain.fragment fun _ _ _ _ => trivial
  have hinner : Fragment (fun _ => True) body := hbody.fragment fun _ _ _ _ => trivial
  have hinfer : bodyAnswers body = fun known => answersOf (statement known body) :=
    funext (bodyAnswers_eq hinner)
  have hfulfilled := fulfilled_answers (hplain.admits True) hready.context hready.sound classes
  have hkeeps := (keeps_fragment hfragment classes).answersOf context state
  rw [answersOf_function, hinfer, branch_run] at hfulfilled hkeeps ⊢
  obtain ⟨named, leaves, hnamed, hleaves, htypes, hwithin⟩ := exists_within hready hparams hnodup
    ⟨.abstraction, state.table.file, site.span⟩ ⟨body.kind, state.table.file, body.site.span⟩
    classes
  have hlength : leaves.length = params.length := by
    rw [htypes.length_eq, Fresher.length_upcoming]
  have hsome : leaves ≠ [] := by
    rw [← length_pos_iff, hlength, length_pos_iff]
    exact hne
  have hfits : ∀ σ t, Fits classes state (.abstraction site [(params, body)])
      (params.length + count) σ t ↔ _ := hwithin.fits_iff site count
  have hinside := withinFunction_eq site (fun known => answersOf (statement known body)) hnamed
    hleaves hsome
  rcases hexact hgraph hwithin.ready with
    ⟨answers, last, hrun, hadvances, a, rfl, ha⟩ | ⟨hnever, hnone⟩
  · have hgrows := fulfilled_answers (hbody.admits True) hready.context hwithin.ready.sound classes
    rw [hrun] at hgrows
    obtain ⟨left, hleft, hmarks⟩ := inBody_of_ok hwithin.sound hgrows.1 hrun
    have hdone := hinside.trans ((bind_of_ok hleft).trans (reportingAt_of_ok (map_of_ok rfl)))
    -- the whole function does not halt because of its scopes, so the way out is open
    obtain ⟨final, hexit⟩ := exists_exit hdone hfulfilled trivial sure_leaveFunction
      fun _ _ => leaveFunction_ofScopes
    have hwhole := thenAlways_of_ok hdone hexit
    obtain ⟨merged, rfl, hmarks'⟩ := leaveFunction_eq_ok hexit
    rw [hwhole] at hfulfilled hkeeps
    refine decided_of_ok hwhole ⟨⟨hkeeps nofun hready.sound.wellFormed, hfulfilled.1.sound, ?_, ?_,
      hadvances.issues.trans hwithin.issues⟩, ?_⟩
    · rw [hmarks', hmarks, hadvances.unmarked]
    · rw [hadvances.fresher, hwithin.fresher, Fresher.skip_add]
    refine single_answer ha.firstOrderGraph ?_ ?_ fun σ t => ?_
    · refine .curried (forall_mem_append.mpr ⟨firstOrder_leaves htypes, ?_⟩)
      exact forall_mem_singleton.mpr ha.firstOrder
    · refine Ty.takes_curried ?_ a.type
      rwa [length_map, hlength]
    · rw [hfits, Ty.apply_curried, map_append, apply_leaves htypes, map_singleton]
      constructor
      · rintro ⟨inner, hfit, htype⟩
        obtain ⟨hsolves, hsame⟩ := (ha.fits_iff σ inner).mp hfit
        refine ⟨hsolves, Ty.same_trans htype (Ty.same_curried_iff.mpr ⟨_, rfl, ?_⟩)⟩
        exact rel_append (SameTypes.refl _) (.cons hsame .nil)
      · rintro ⟨hsolves, htype⟩
        exact ⟨_, (ha.fits_iff σ _).mpr ⟨hsolves, Ty.same_refl _⟩, htype⟩
  · refine .inr ⟨fun answers after hrun => ?_, ?_⟩
    · obtain ⟨middle, hmiddle, -⟩ := thenAlways_eq_ok hrun
      rw [hinside] at hmiddle
      obtain ⟨found, _, hfound, -⟩ := bind_eq_ok hmiddle
      obtain ⟨_, hcomputed⟩ := inBody_eq_ok hfound
      exact hnever _ _ hcomputed
    · rintro ⟨σ, t, htype⟩
      obtain ⟨inner, hinner, -⟩ := (hfits σ t).mp htype
      exact hnone ⟨σ, inner, hinner⟩

theorem exact_plain (hplain : Plain names node arity count) : Exact names node arity count := by
  induction hplain with
  | literal value => exact exact_literal _ value
  | identifier site hname => exact exact_identifier site hname
  | list site hlength helements ih => exact exact_list site hlength helements ih
  | tuple site hlength helements ih => exact exact_tuple site hlength helements ih
  | map site hlength hentries ih => exact exact_map site hlength hentries ih
  | conditional site hcondition hyes hno ihcondition ihyes ihno =>
    refine exact_conditional site ?_ ?_ <;>
      simp only [zip_cons_cons, zip_nil_right, forall_mem_cons]
    · exact ⟨hcondition, hyes, hno, forall_mem_nil _⟩
    · exact ⟨ihcondition, ihyes, ihno, forall_mem_nil _⟩
  | application site hfunction hargument ihfunction ihargument =>
    exact exact_application site hfunction hargument ihfunction ihargument
  | abstraction site hparams hne hnodup harity hbody ih =>
    exact exact_abstraction site hparams hne hnodup harity hbody ih

end Infer

end TypeSearch
