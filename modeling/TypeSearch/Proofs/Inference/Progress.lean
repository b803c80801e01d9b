import TypeSearch.Proofs.Inference.Pattern

/-!
# How inference goes on

`Fulfils` says what a run of inference comes to, whatever state it starts in. If it succeeds, the
state has only grown, by names and types that are proper and by issues that have a code. If it
fails, the failure has been reported: there is one more issue. If it halts, types are the cause,
provided that the tree is orderly, and the open scopes still lie one inside the other.

What a run finds out about the types of nodes is of use only if nothing goes wrong until the end. A
`Prospect` is what the end will be like, and statements about trees of types are made under the
assumption that the prospect still allows the state that has been reached. The assumption grows
stronger with every step, so what was found out under it stays true.
-/

namespace TypeSearch

open List

namespace Inference

structure Prospect where
  /-- The keys of the nodes that have a type in the end. -/
  typed : Nat → Prop
  issues : Nat
  /-- Neither a pattern nor a type stands where an expression belongs. -/
  orderly : Prop

def Context.Sound (context : Context) : Prop := ∀ file ∈ context.files, file.table.Proper

/-- The open scopes lie one inside the other, down to that of the file, and all types are proper:
no union and no function is made of nothing. -/
structure State.Sound (state : State) : Prop where
  wellFormed : state.table.WellFormed
  proper : state.table.Proper
  types : ∀ (key : Nat) (type : Ty), state.types[key]? = some type → type.Proper

/-- The same scopes are open, issues with a code were added, and nodes got proper types. -/
structure State.Grows (state after : State) : Prop where
  table : state.table.Develops after.table
  issues : ∃ new, after.issues = state.issues ++ new ∧ ∀ issue ∈ new, issue.cause.code ≠ 0
  typed : ∀ key ∈ state.types, key ∈ after.types
  types : ∀ (key : Nat) (type : Ty), after.types[key]? = some type → type.Proper

def Prospect.Allows (prospect : Prospect) (state : State) : Prop :=
  state.issues.length ≤ prospect.issues ∧ ∀ key ∈ state.types, prospect.typed key

variable {state middle after : State} {prospect : Prospect}

theorem State.Grows.sound (hgrows : state.Grows after) : after.Sound :=
  ⟨hgrows.table.frame.wellFormed, hgrows.table.proper, hgrows.types⟩

theorem State.Grows.trans (hleft : state.Grows middle) (hright : middle.Grows after) :
    state.Grows after where
  table := hleft.table.trans hright.table
  issues := by
    obtain ⟨new, hnew, hcodes⟩ := hleft.issues
    obtain ⟨newer, hnewer, hcodes'⟩ := hright.issues
    refine ⟨new ++ newer, ?_, forall_mem_append.mpr ⟨hcodes, hcodes'⟩⟩
    rw [hnewer, hnew, append_assoc]
  typed key hkey := hright.typed key (hleft.typed key hkey)
  types := hright.types

theorem State.Grows.length_le (hgrows : state.Grows after) :
    state.issues.length ≤ after.issues.length := by
  obtain ⟨new, hnew, -⟩ := hgrows.issues
  rw [hnew, length_append]
  exact Nat.le_add_right _ _

theorem State.Grows.withTable {inside outside : Table}
    (hgrows : State.Grows { state with table := inside } after)
    (htable : state.table.Develops outside) : state.Grows { after with table := outside } :=
  ⟨htable, hgrows.issues, hgrows.typed, hgrows.types⟩

section Steps

variable (hsound : state.Sound)
include hsound

theorem State.Sound.develops_refl : state.table.Develops state.table :=
  hsound.wellFormed.develops_refl hsound.proper

theorem State.Sound.grows_change {table : Table} (htable : state.table.Develops table)
    (fresher : Fresher) {new : List Issue} (hcodes : ∀ issue ∈ new, issue.cause.code ≠ 0) :
    state.Grows { state with table, fresher, issues := state.issues ++ new } :=
  ⟨htable, ⟨new, rfl, hcodes⟩, fun _ hkey => hkey, hsound.types⟩

theorem State.Sound.grows_table {table : Table} (htable : state.table.Develops table)
    (fresher : Fresher) : state.Grows { state with table, fresher } :=
  ⟨htable, ⟨[], (append_nil _).symm, by rintro _ ⟨⟩⟩, fun _ hkey => hkey, hsound.types⟩

theorem State.Sound.grows_fresher (fresher : Fresher) : state.Grows { state with fresher } :=
  hsound.grows_table hsound.develops_refl fresher

theorem State.Sound.grows_refl : state.Grows state := hsound.grows_fresher state.fresher

theorem State.Sound.enter (kind : Scope.Kind) (node : Option Tree.Locus) :
    State.Sound { state with table := state.table.enter kind node } :=
  ⟨hsound.wellFormed.enter kind node, hsound.proper.enter kind node, hsound.types⟩

end Steps

theorem Prospect.Allows.before (hallows : prospect.Allows after) (hgrows : state.Grows after) :
    prospect.Allows state :=
  ⟨hgrows.length_le.trans hallows.1, fun key hkey => hallows.2 key (hgrows.typed key hkey)⟩

theorem Prospect.not_allows_report (hissues : prospect.issues ≤ state.issues.length)
    (issue : Issue) : ¬prospect.Allows { state with issues := state.issues ++ [issue] } := by
  rintro ⟨hlength, -⟩
  dsimp only at hlength
  rw [length_append, length_singleton] at hlength
  omega

end Inference

namespace Infer

open Inference
open TypeSearch.Tree (Pattern Site)

variable {α β : Type} {prospect : Prospect} {K : Prop} {post post' : Prop → α → Prop}
  {later : Prop → β → Prop} {computation : Infer α} {next : α → Infer β}
  {context : Context} {state middle : State}

def Fulfilled (prospect : Prospect) (state : State) (post : Prop → α → Prop) :
    Outcome Failure α × State → Prop
  | (.ok value, after) => state.Grows after ∧ post (prospect.Allows after) value
  | (.failed failure, after) => state.Grows after ∧ failure = .reported ∧ ¬prospect.Allows after
  | (.halted cause, after) => after.table.WellFormed ∧ (prospect.orderly → cause.OfTypes)

/-- Every run that starts while `K` is known comes to what `post` says. -/
def Fulfils (prospect : Prospect) (K : Prop) (post : Prop → α → Prop) (computation : Infer α) :
    Prop :=
  ∀ context state, context.Sound → state.Sound → prospect.issues ≤ state.issues.length →
    (prospect.Allows state → K) → Fulfilled prospect state post (computation context state)

theorem Fulfilled.trans {run : Outcome Failure α × State} (hgrows : state.Grows middle)
    (hrun : Fulfilled prospect middle post run) : Fulfilled prospect state post run := by
  obtain ⟨value | failure | cause, after⟩ := run
  · exact ⟨hgrows.trans hrun.1, hrun.2⟩
  · exact ⟨hgrows.trans hrun.1, hrun.2⟩
  · exact hrun

theorem Fulfilled.bind (hfirst : Fulfilled prospect state post (computation context state))
    (hnext : ∀ value middle, state.Grows middle → post (prospect.Allows middle) value →
      Fulfilled prospect middle later (next value context middle)) :
    Fulfilled prospect state later ((computation >>= next) context state) := by
  rw [bind_apply, Infer.bind]
  generalize computation context state = run at hfirst ⊢
  obtain ⟨value | failure | cause, middle⟩ := run
  · exact (hnext value middle hfirst.1 hfirst.2).trans hfirst.1
  · exact hfirst
  · exact hfirst

theorem Fulfils.bind (hfulfils : Fulfils prospect K post computation)
    (hnext : ∀ (K' : Prop) value, (K' → K) → post K' value →
      Fulfils prospect K' later (next value)) :
    Fulfils prospect K later (computation >>= next) := by
  intro context state hcontext hsound hissues hK
  refine (hfulfils context state hcontext hsound hissues hK).bind
    fun value middle hgrows hpost => ?_
  exact hnext _ value (fun hallows => hK (hallows.before hgrows)) hpost context middle hcontext
    hgrows.sound (hissues.trans hgrows.length_le) id

theorem Fulfils.mono (hfulfils : Fulfils prospect K post computation)
    (himp : ∀ (K' : Prop) value, (K' → K) → post K' value → post' K' value) :
    Fulfils prospect K post' computation := by
  intro context state hcontext hsound hissues hK
  have hrun := hfulfils context state hcontext hsound hissues hK
  generalize computation context state = run at hrun ⊢
  obtain ⟨value | failure | cause, after⟩ := run
  · exact ⟨hrun.1, himp _ value (fun hallows => hK (hallows.before hrun.1)) hrun.2⟩
  · exact hrun
  · exact hrun

/-! ### Steps -/

theorem fulfils_pure {value : α} (hvalue : ∀ K', (K' → K) → post K' value) :
    Fulfils prospect K post (pure value) :=
  fun _ _ _ hsound _ hK => ⟨hsound.grows_refl, hvalue _ hK⟩

theorem fulfils_fresh (hint : String) : Fulfils prospect K (fun _ _ => True) (fresh hint) :=
  fun _ _ _ hsound _ _ => ⟨hsound.grows_fresher _, trivial⟩

theorem fulfils_freshAll (hints : List String) :
    Fulfils prospect K (fun _ _ => True) (freshAll hints) :=
  fun _ _ _ hsound _ _ => ⟨hsound.grows_fresher _, trivial⟩

theorem fulfils_instantiate {type : Ty} (htype : type.Proper) (quantified : List VarId) :
    Fulfils prospect K (fun _ => Ty.Proper) (instantiate type quantified) :=
  fun _ state _ hsound _ _ => ⟨hsound.grows_fresher _, htype.instantiate quantified state.fresher⟩

theorem fulfils_locus (kind : Tree.Kind) (site : Site) :
    Fulfils prospect K (fun _ _ => True) (locus kind site) :=
  fun _ _ _ hsound _ _ => ⟨hsound.grows_refl, trivial⟩

theorem fulfils_issueAt (site : Site) (cause : Issue.Cause) :
    Fulfils prospect K (fun _ issue => issue.cause = cause) (issueAt site cause) :=
  fun _ _ _ hsound _ _ => ⟨hsound.grows_refl, rfl⟩

theorem fulfils_table : Fulfils prospect K (fun _ table => table.Proper) Infer.table :=
  fun _ _ _ hsound _ _ => ⟨hsound.grows_refl, hsound.proper⟩

theorem fulfils_modifyTable {f : Table → Table} (hdeclares : ∀ table, Table.Declares table (f table))
    (hf : ∀ table : Table, table.Proper → (f table).Proper) :
    Fulfils prospect K (fun _ _ => True) (modifyTable f) :=
  fun _ state _ hsound _ _ => ⟨hsound.grows_table ((hdeclares state.table).develops
    hsound.wellFormed (hf state.table hsound.proper)) state.fresher, trivial⟩

theorem fulfils_liftM {outcome : Outcome Failure α} {ok : α → Prop}
    (hmeets : outcome.Meets ok fun _ => False) :
    Fulfils prospect K (fun _ => ok) (liftM outcome) := by
  intro context state _ hsound _ _
  change Fulfilled prospect state _ (outcome, state)
  cases outcome with
  | ok value => exact ⟨hsound.grows_refl, hmeets⟩
  | failed failure => exact hmeets.elim
  | halted cause => exact ⟨hsound.wellFormed, fun _ => hmeets⟩

theorem fulfils_report {issue : Issue} (hcode : issue.cause.code ≠ 0) :
    Fulfils prospect K (fun K' _ => ¬K') (report issue) := by
  intro context state _ hsound hissues _
  refine ⟨hsound.grows_change hsound.develops_refl state.fresher ?_,
    Prospect.not_allows_report hissues issue⟩
  exact fun other hother => mem_singleton.mp hother ▸ hcode

theorem fulfils_halt {cause : Halt} (horderly : ¬prospect.orderly) :
    Fulfils prospect K post (halt cause) :=
  fun _ _ _ hsound _ _ => ⟨hsound.wellFormed, fun hprospect => absurd hprospect horderly⟩

theorem fulfils_throw {failure : Failure} (hfailure : failure = .reported ∧ ¬K) :
    Fulfils prospect K post (throw failure) :=
  fun _ _ _ hsound _ hK => ⟨hsound.grows_refl, hfailure.1, fun hallows => hfailure.2 (hK hallows)⟩

theorem fulfils_failAt (site : Site) {failure : Failure} (hfailure : failure.Classified) :
    Fulfils prospect K post (failAt site failure) := by
  have hplace : Fulfils prospect K (fun _ _ => True) (place site) :=
    fun _ _ _ hsound _ _ => ⟨hsound.grows_refl, trivial⟩
  refine hplace.bind fun K' place _ _ => ?_
  obtain ⟨issue, hissue, hcode⟩ := hfailure.toIssue? place.file (some place)
  rw [hissue]
  exact (fulfils_report hcode).bind fun _ _ _ hK => fulfils_throw ⟨rfl, hK⟩

theorem fulfils_reportingAt {ok : α → Prop} (site : Site)
    (htries : ∀ table, table.Proper → Tries table ok computation) :
    Fulfils prospect K (fun _ => ok) (reportingAt site computation) := by
  intro context state hcontext hsound hissues hK
  obtain ⟨⟨fresher, hstate⟩, hmeets⟩ := htries state.table hsound.proper context state rfl
  change Fulfilled prospect state _ (tryCatchThe Failure computation (failAt site) context state)
  rw [tryCatch_apply]
  generalize computation context state = run at hstate hmeets ⊢
  obtain ⟨value | failure | cause, middle⟩ := run
  · obtain rfl : middle = _ := hstate
    exact ⟨hsound.grows_fresher fresher, hmeets⟩
  · obtain rfl : middle = _ := hstate
    have hgrows := hsound.grows_fresher fresher
    exact (fulfils_failAt site hmeets context _ hcontext hgrows.sound hissues hK).trans hgrows
  · obtain rfl : middle = _ := hstate
    exact ⟨hsound.wellFormed, fun _ => hmeets⟩

/-- What was attempted has a value of which `ok` holds, or a failure that was reported. -/
def Attempted (K : Prop) (ok : α → Prop) : Except Failure α → Prop
  | .ok value => ok value
  | .error failure => failure = .reported ∧ ¬K

theorem Attempted.mono {found : Except Failure α} {K' : Prop} {ok ok' : α → Prop}
    (hfound : Attempted K ok found) (hK : K' → K) (himp : ∀ value, ok value → ok' value) :
    Attempted K' ok' found := by
  cases found with
  | ok value => exact himp value hfound
  | error failure => exact ⟨hfound.1, fun hK' => hfound.2 (hK hK')⟩

theorem Fulfils.attempt (hfulfils : Fulfils prospect K post computation) :
    Fulfils prospect K (fun K' => Attempted K' (post K')) (attempt computation) := by
  intro context state hcontext hsound hissues hK
  have hrun := hfulfils context state hcontext hsound hissues hK
  unfold Infer.attempt
  generalize computation context state = run at hrun ⊢
  obtain ⟨value | failure | cause, after⟩ := run
  · exact hrun
  · exact hrun
  · exact hrun

theorem fulfils_liftExcept {found : Except Failure α}
    (hfound : ∀ K', (K' → K) → Attempted K' (post K') found) :
    Fulfils prospect K post (liftExcept found) := by
  cases found with
  | ok value => exact fulfils_pure hfound
  | error failure => exact fulfils_throw (hfound K id)

theorem fulfils_forM {f : α → Infer PUnit} {items : List α} (hf : ∀ item ∈ items, ∀ K,
    Fulfils prospect K (fun _ _ => True) (f item)) :
    Fulfils prospect K (fun _ _ => True) (items.forM f) := by
  induction items generalizing K with
  | nil => exact fulfils_pure fun _ _ => trivial
  | cons item items ih =>
    rw [forall_mem_cons] at hf
    exact (hf.1 K).bind fun _ _ _ _ => ih hf.2

end Infer

end TypeSearch
