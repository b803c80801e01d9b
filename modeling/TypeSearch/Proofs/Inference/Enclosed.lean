import TypeSearch.Proofs.Inference.Nesting
import TypeSearch.Proofs.Inference.Progress
import TypeSearch.Proofs.Scope.Develops

/-!
# Going on in scopes of their own

A computation that fulfils something still does so in a block, in the body of a function or in the
scope of a function: what was entered can be left. A function needs a body for that, and it has one
also if a parameter fails, since an empty body is opened then.
-/

namespace TypeSearch.Infer

open Inference
open TypeSearch.Tree (Pattern Site)

variable {α β : Type} {prospect : Prospect} {K P : Prop} {post : Prop → α → Prop}
  {computation : Infer α} {context : Context} {state : State} {typed : Nat → Prop}
  {inside next : Table} {f : Table → Except Halt Table} {cause : Halt} {table : Table}

/-! ### Names -/

theorem fulfils_markNext (flags : Flags) :
    Fulfils prospect K (fun _ _ => True) (modifyTable (·.markNext flags)) :=
  fulfils_modifyTable (fun table => table.declares_marked _ _) fun _ hproper =>
    hproper.marked _ hproper.declared

theorem fulfils_bindPending : Fulfils prospect K (fun _ _ => True) bindPending :=
  fulfils_modifyTable Table.declares_boundPending fun _ hproper => hproper.boundPending

theorem fulfils_templates (p : Pattern) : Fulfils prospect K (fun _ _ => True) (templates p) := by
  intro context state _ hsound _ _
  have htemplates := (hsound.proper.marked {} hsound.proper.declared).addTemplates
    state.table.next p.binders state.fresher
  have hdevelops := (state.table.declares_templates p state.fresher).develops hsound.wellFormed
  exact ⟨hsound.grows_change (hdevelops htemplates.1) _ htemplates.2, trivial⟩

theorem fulfils_discardTemplates (p : Pattern) :
    Fulfils prospect K (fun _ _ => True) (discard (templates p)) :=
  (fulfils_templates p).bind fun _ _ _ _ => fulfils_pure fun _ _ => trivial

theorem fulfils_implicitTemplates (p : Pattern) :
    Fulfils prospect K (fun _ _ => True) (implicitTemplates p) :=
  (fulfils_markNext _).bind fun _ _ _ _ => fulfils_discardTemplates p

theorem fulfils_assignmentTemplates (target : Pattern) (exported : Bool) :
    Fulfils prospect K (fun _ _ => True) (assignmentTemplates target exported) := by
  unfold assignmentTemplates
  dsimp only
  split
  · exact (fulfils_markNext _).bind fun _ _ _ _ => fulfils_templates target
  · exact fulfils_templates target

/-! ### Leaving what was entered -/

/-- From well-formed scopes the exit leads to well-formed scopes, and only scopes can halt it. -/
def Exits (exit : Infer Unit) : Prop :=
  ∀ context state, state.table.WellFormed → (exit context state).2.table.WellFormed ∧
    ∀ cause, (exit context state).1 = .halted cause → cause.OfScopes

/-- A computation in a scope of its own, if the exit finds its way out of every state that the
computation may end in. -/
theorem Fulfilled.thenAlways {exit : Infer Unit} (ends : Table → Prop)
    (hrun : Fulfilled prospect { state with table := inside } post
      (computation context { state with table := inside }))
    (hends : (∀ cause, (computation context { state with table := inside }).1 ≠ .halted cause) →
      ends (computation context { state with table := inside }).2.table)
    (hexit : ∀ middle, State.Grows { state with table := inside } middle → ends middle.table →
      ∃ outside, exit context middle = (.ok (), { middle with table := outside }) ∧
        state.table.Develops outside)
    (hexits : Exits exit) :
    Fulfilled prospect state post
      (computation.thenAlways exit context { state with table := inside }) := by
  rcases heq : computation context { state with table := inside } with
    ⟨value | failure | cause, middle⟩ <;> rw [heq] at hrun hends
  · obtain ⟨outside, hleft, hdevelops⟩ := hexit middle hrun.1 (hends nofun)
    rw [thenAlways_of_ok heq hleft]
    exact ⟨hrun.1.withTable hdevelops, hrun.2⟩
  · obtain ⟨outside, hleft, hdevelops⟩ := hexit middle hrun.1 (hends nofun)
    simp only [Infer.thenAlways, heq, hleft]
    exact ⟨hrun.1.withTable hdevelops, hrun.2⟩
  · obtain ⟨final, last, hhalted, hlast, hfinal⟩ := thenAlways_of_halted heq
    obtain ⟨hleft, hscopes⟩ := hexits context middle hrun.1
    rw [hhalted]
    refine ⟨?_, fun horderly => ?_⟩
    · rcases hlast with rfl | rfl
      · exact hrun.1
      · exact hleft
    · rcases hfinal with rfl | ⟨other, hother, rfl⟩
      · exact hrun.2 horderly
      · exact ⟨hrun.2 horderly, hscopes other hother⟩

theorem tryTable_of_halted {last : State}
    (hrun : tryTable f context state = (.halted cause, last)) : f state.table = .error cause := by
  rw [tryTable_run] at hrun
  split at hrun
  · cases hrun
  · rename_i hchange
    cases hrun
    exact hchange

theorem leave_ofScopes {kinds : List Scope.Kind} (hleave : table.leave kinds = .error cause) :
    cause.OfScopes ∨ cause = .noCurrentScope := by
  simp only [Table.leave] at hleave
  split at hleave
  · cases hleave
    exact .inl trivial
  split at hleave
  · cases hleave
    exact .inl trivial
  split at hleave
  · cases hleave
    exact .inr rfl
  · cases hleave

theorem mergeBody_ofScopes {id : Scope.Id}
    (hmerge : table.mergeBody id = .error cause) : cause.OfScopes := by
  simp only [Table.mergeBody] at hmerge
  split at hmerge
  · cases hmerge
  · cases hmerge
    trivial

theorem tryTable_of_ok (hchange : f state.table = .ok next) :
    tryTable f context state = (.ok (), { state with table := next }) := by
  rw [tryTable_run, hchange]

theorem ofScopes_of_leave {kinds : List Scope.Kind} (hwf : table.WellFormed)
    (hleave : table.leave kinds = .error cause) : cause.OfScopes := by
  refine (leave_ofScopes hleave).resolve_right ?_
  rintro rfl
  exact hwf.leave_ne_noCurrentScope kinds hleave

theorem exits_leaveBlock : Exits (do
    bindPending
    tryTable (·.leaveBlock)) := by
  intro context state hwf
  have hbound := (keeps_bindPending context state nofun hwf).wellFormed
  have hrun : (do
      bindPending
      tryTable (·.leaveBlock) : Infer Unit) context state = _ :=
    tryTable_run (·.leaveBlock) context { state with table := state.table.boundPending }
  rw [hrun]
  cases hleave : state.table.boundPending.leaveBlock with
  | ok left => exact ⟨(hbound.leave hleave).1, nofun⟩
  | error cause =>
    refine ⟨hbound, ?_⟩
    rintro _ ⟨⟩
    exact ofScopes_of_leave hbound hleave

def leaveFunction : Infer Unit := do
  let function := (← Infer.table).current
  tryTable (·.leave [.abstraction])
  tryTable (·.mergeBody function)

theorem leaveFunction_run (context : Context) (state : State) :
    leaveFunction context state =
      match state.table.leave [.abstraction] with
      | .error cause => (.halted cause, state)
      | .ok left =>
        tryTable (·.mergeBody state.table.current) context { state with table := left } := by
  change Infer.bind (tryTable (·.leave [.abstraction])) _ context state = _
  rw [Infer.bind, tryTable_run]
  cases state.table.leave [.abstraction] <;> rfl

theorem exits_leaveFunction : Exits leaveFunction := by
  intro context state hwf
  rw [leaveFunction_run]
  cases hleave : state.table.leave [.abstraction] with
  | error cause =>
    refine ⟨hwf, ?_⟩
    rintro _ ⟨⟩
    exact ofScopes_of_leave hwf hleave
  | ok left =>
    obtain ⟨hleft, hlt⟩ := hwf.leave hleave
    dsimp only
    rw [tryTable_run]
    cases hmerge : left.mergeBody state.table.current with
    | ok merged => exact ⟨((hleft.frame_refl True).mergeBody hlt hmerge).wellFormed, nofun⟩
    | error cause =>
      refine ⟨hleft, ?_⟩
      rintro _ ⟨⟩
      exact mergeBody_ofScopes hmerge

theorem blockKind_mem (kind : Scope.Kind) :
    (if kind = .abstraction then Scope.Kind.body else .block) ∈ [Scope.Kind.block, .body] := by
  split
  · exact .tail _ (.head _)
  · exact .head _

theorem exists_leaveBlock (hwf : table.WellFormed) {node : Option Tree.Locus}
    (hinner : (table.enterBlock node).Develops next) :
    ∃ left, next.boundPending.leaveBlock = .ok left ∧ table.Develops left := by
  have hbound := hinner.trans
    (next.declares_boundPending.develops hinner.wellFormed hinner.proper.boundPending)
  obtain ⟨left, hleave, -, hleft⟩ := hwf.exists_leave hbound (blockKind_mem _)
  exact ⟨left, hleave, hleft⟩

theorem Fulfils.inBlock (hfulfils : Fulfils prospect K post computation) (node : Tree.Locus) :
    Fulfils prospect K post (inBlock node computation) := by
  intro context state hcontext hsound hissues hK
  have hrun := hfulfils context { state with table := state.table.enterBlock node } hcontext
    (hsound.enter _ _) hissues hK
  refine hrun.thenAlways (fun _ => True) (fun _ => trivial) (fun middle hgrows _ => ?_)
    exits_leaveBlock
  obtain ⟨left, hleave, hdevelops⟩ := exists_leaveBlock hsound.wellFormed hgrows.table
  exact ⟨left, tryTable_of_ok hleave, hdevelops⟩

theorem Fulfils.inAbstraction (hfulfils : Fulfils prospect K post computation)
    (hbody : Keeps (fun table next => table.Bodiless → next.HasBody) computation)
    (node : Tree.Locus) : Fulfils prospect K post (inAbstraction node computation) := by
  intro context state hcontext hsound hissues hK
  have hrun := hfulfils context { state with table := state.table.enterAbstraction node } hcontext
    (hsound.enter _ _) hissues hK
  refine hrun.thenAlways Table.HasBody (fun hhalts => ?_) (fun middle hgrows hends => ?_)
    exits_leaveFunction
  · exact hbody context _ hhalts ⟨hsound.wellFormed.enter _ _,
      congrArg Scope.children (Table.currentScope_enter _ _ _)⟩
  · obtain ⟨left, merged, hleave, hmerge, hdevelops⟩ :=
      hsound.wellFormed.exists_leaveFunction hgrows.table hends
    refine ⟨merged, (leaveFunction_run context middle).trans ?_, hdevelops⟩
    rw [hleave]
    exact tryTable_of_ok hmerge

theorem Fulfilled.bindInside {later : Prop → β → Prop} {next : α → Infer β}
    (hrun : Fulfilled prospect { state with table := inside } post
      (computation context { state with table := inside })) (hsure : Sure computation)
    (hnext : ∀ value middle, State.Grows { state with table := inside } middle →
      post (prospect.Allows middle) value →
      Fulfilled prospect state later (next value context middle)) :
    Fulfilled prospect state later
      ((computation >>= next) context { state with table := inside }) := by
  rw [bind_apply, Infer.bind]
  have hfails := hsure context { state with table := inside }
  generalize computation context { state with table := inside } = run at hrun hfails ⊢
  obtain ⟨value | failure | cause, middle⟩ := run
  · exact hnext value middle hrun.1 hrun.2
  · exact absurd rfl (hfails failure)
  · exact hrun

/-! ### Functions -/

section Function

variable {covers : Typed → Prop} {body : Tree.Locus} {classes : Classes} {patterns : List Pattern}
  {after : State}

theorem Fulfils.inBody {computation : Infer Answers}
    (hfulfils : Fulfils prospect K (fun K' => Disjunction.Fit P K' covers) computation)
    (body : Tree.Locus) :
    Fulfils prospect K (fun K' => Disjunction.Fit P K' covers) (inBody body computation) := by
  intro context state hcontext hsound hissues hK
  have hrun := hfulfils.attempt context { state with table := state.table.enterBlock body }
    hcontext (hsound.enter _ _) hissues hK
  refine hrun.bindInside sure_attempt fun found middle hgrows hfound => ?_
  obtain ⟨left, hleave, hdevelops⟩ := exists_leaveBlock hsound.wellFormed hgrows.table
  have hleft := hgrows.withTable hdevelops
  have hresume : Fulfils prospect (prospect.Allows middle) (fun K' => Disjunction.Fit P K' covers)
      (do
        bindPending
        match found with
        | .ok answers => return answers
        | .error failure => throw failure) := by
    refine fulfils_bindPending.bind fun K' _ hK' _ => ?_
    cases found with
    | ok answers =>
      exact fulfils_pure fun K'' hK'' => Disjunction.Fit.restrict hfound (hK' ∘ hK'')
    | error failure => exact fulfils_throw ⟨hfound.1, hfound.2 ∘ hK'⟩
  have hexit : tryTable (·.leaveBlock) context { middle with table := middle.table.boundPending } =
      (.ok (), { middle with table := left }) :=
    tryTable_of_ok hleave
  have hlast := hresume context { middle with table := left } hcontext hleft.sound
    (hissues.trans hleft.length_le) id
  exact (congrArg (Fulfilled prospect state _) (bind_of_ok hexit)).mpr (hlast.trans hleft)

theorem fulfils_emptyBody {next : Infer α} (hnext : Fulfils prospect K post next)
    (body : Tree.Locus) :
    Fulfils prospect K post (do
      modifyTable (·.enterBlock body)
      tryTable (·.leaveBlock)
      next) := by
  intro context state hcontext hsound hissues hK
  obtain ⟨left, hleave, -, hdevelops⟩ := hsound.wellFormed.exists_leave
    (hsound.enter _ (some body)).develops_refl (blockKind_mem state.table.currentScope.kind)
  have hleft := hsound.grows_table hdevelops state.fresher
  have hexit : tryTable (·.leaveBlock) context { state with table := state.table.enterBlock body } =
      (.ok (), { state with table := left }) :=
    tryTable_of_ok hleave
  have hlast := hnext context { state with table := left } hcontext hleft.sound hissues hK
  exact (congrArg (Fulfilled prospect state _) (bind_of_ok hexit)).mpr (hlast.trans hleft)

theorem fulfils_of_tries {ok : α → Prop}
    (htries : ∀ table, table.Proper → Tries table ok computation) (hsure : Sure computation) :
    Fulfils prospect K (fun _ => ok) computation := by
  intro context state _ hsound _ _
  obtain ⟨⟨fresher, hstate⟩, hmeets⟩ := htries state.table hsound.proper context state rfl
  have hfails := hsure context state
  generalize computation context state = run at hstate hmeets hfails ⊢
  obtain ⟨value | failure | cause, middle⟩ := run
  · obtain rfl : middle = _ := hstate
    exact ⟨hsound.grows_fresher fresher, hmeets⟩
  · exact absurd rfl (hfails failure)
  · obtain rfl : middle = _ := hstate
    exact ⟨hsound.wellFormed, fun _ => hmeets⟩

theorem fulfils_params (patterns : List Pattern) (hclasses : P → classes.Proper) :
    Fulfils prospect K (fun _ => MatchedAll P prospect.typed patterns)
      (params body patterns classes) := by
  induction patterns generalizing classes K with
  | nil => exact fulfils_pure fun _ _ => matchedAll_nil hclasses
  | cons param rest ih =>
    have hpattern : ∀ table : Table, table.Proper →
        Tries table (Matched P prospect.typed param) (pattern classes param) :=
      fun table htable => tries_pattern (fun _ => htable) hclasses param
    refine (fulfils_of_tries (fun table htable => (hpattern table htable).attempt)
      sure_attempt).bind fun K' found _ hfound => ?_
    cases found with
    | error failure =>
      exact fulfils_bindPending.bind fun _ _ _ _ =>
        fulfils_emptyBody (fulfils_failAt param.site (hfound.2 failure rfl)) body
    | ok found =>
      have hmatched := hfound.1 found rfl
      exact (ih hmatched.classes).bind fun _ rest _ hrest =>
        fulfils_pure fun _ _ => hmatched.cons hrest

/-! A function has a body however its branch ends. -/

instance (holds : Table → Prop) : Composes (fun table next => holds table → holds next) where
  refl _ := id
  trans hleft hright := hright ∘ hleft

instance : Composes Table.Declares where
  refl table := table.declares_marked _ _
  trans := .trans

instance : Composes (fun table next : Table => next = table) where
  refl _ := rfl
  trans hleft hright := hright.trans hleft

theorem keeps_bodiless_implicitTemplates (p : Pattern) :
    Keeps (fun table next => table.Bodiless → next.Bodiless) (implicitTemplates p) := by
  intro context state _ hbodiless
  exact hbodiless.declares
    ((state.table.declares_marked _ _).trans (Table.declares_templates _ p state.fresher))

theorem keeps_bodiless_bindPending :
    Keeps (fun table next => table.Bodiless → next.Bodiless) bindPending :=
  fun _ state _ hbodiless => hbodiless.declares state.table.declares_boundPending

theorem keeps_hasBody_emptyBody {next : Infer α} (hnext : Keeps Table.Declares next) :
    Keeps (fun table next => table.Bodiless → next.HasBody) (do
      bindPending
      modifyTable (·.enterBlock body)
      tryTable (·.leaveBlock)
      next) := by
  refine keeps_bodiless_bindPending.andThen sure_bindPending (fun _ => hnext.emptyBody body) ?_
  rintro table bound last hbound ⟨left, hleave, hsame⟩ hbodiless
  have hentered := ((hbound hbodiless).1.enter
    (if bound.currentScope.kind = .abstraction then .body else .block) (some body)).frame_refl True
  exact ((hbound hbodiless).hasBody_leave hentered hleave).declares hsame

theorem table_of_params {found : List Typed × Classes}
    (hrun : params body patterns classes context state = (.ok found, after)) :
    after.table = state.table := by
  induction patterns generalizing classes state found with
  | nil => exact congrArg State.table (pure_eq_ok hrun).2
  | cons param rest ih =>
    obtain ⟨first, middle, hfirst, hrun⟩ := bind_eq_ok hrun
    have hmiddle : middle.table = state.table :=
      (keeps_pattern (R := fun table next => next = table)).attempt.run hfirst
    cases first with
    | error failure =>
      obtain ⟨_, _, -, hrun⟩ := bind_eq_ok hrun
      obtain ⟨_, _, -, hrun⟩ := bind_eq_ok hrun
      obtain ⟨_, _, -, hrun⟩ := bind_eq_ok hrun
      exact absurd hrun (failAt_ne_ok _ _ _)
    | ok first =>
      obtain ⟨_, last, hrest, hrun⟩ := bind_eq_ok hrun
      obtain ⟨-, rfl⟩ := pure_eq_ok hrun
      exact (ih hrest).trans hmiddle

theorem hasBody_of_params {failure : Failure} (hbodiless : state.table.Bodiless)
    (hrun : params body patterns classes context state = (.failed failure, after)) :
    after.table.HasBody := by
  induction patterns generalizing classes state with
  | nil => cases hrun
  | cons param rest ih =>
    rcases bind_eq_failed hrun with hfirst | ⟨first, middle, hfirst, hrun⟩
    · exact absurd (congrArg Prod.fst hfirst) (sure_attempt context state failure)
    · have hmiddle : middle.table = state.table :=
        (keeps_pattern (R := fun table next => next = table)).attempt.run hfirst
      rw [← hmiddle] at hbodiless
      cases first with
      | error cause =>
        -- the parameter has failed: an empty body was opened and closed
        exact (keeps_hasBody_emptyBody keeps_failAt).run_failed hrun hbodiless
      | ok first =>
        rcases bind_eq_failed hrun with hrest | ⟨_, _, -, hrun⟩
        · exact ih hbodiless hrest
        · cases hrun

theorem keeps_hasBody_inBody {computation : Infer Answers}
    (hkeeps : Keeps (Table.Frames True) computation) :
    Keeps (fun table next => table.Bodiless → next.HasBody) (inBody body computation) := by
  have hpending : Keeps Table.Declares bindPending :=
    keeps_modifyTable Table.declares_boundPending
  refine (hkeeps.enterBody hpending body).mono ?_
  rintro table last ⟨next, left, hframes, hleaves, hsame⟩ hbodiless
  have hinner := hframes (hbodiless.1.enter _ _)
  obtain ⟨named, kinds, hnamed, hleave⟩ := hleaves hinner.wellFormed
  exact (hbodiless.hasBody_leave (hinner.trans hnamed) hleave).declares hsame

theorem keeps_hasBody_params {next : List Typed × Classes → Infer β}
    (hnext : ∀ found, Keeps (fun table next => table.Bodiless → next.HasBody) (next found)) :
    Keeps (fun table next => table.Bodiless → next.HasBody)
      (params body patterns classes >>= next) := by
  intro context state hhalts hbodiless
  rw [bind_apply, Infer.bind] at hhalts ⊢
  rcases hrun : params body patterns classes context state with ⟨found | failure | cause, middle⟩
  · rw [hrun] at hhalts
    exact hnext found context middle hhalts (table_of_params hrun ▸ hbodiless)
  · exact hasBody_of_params hbodiless hrun
  · rw [hrun] at hhalts
    exact absurd rfl (hhalts cause)

end Function

end TypeSearch.Infer
